import ExactAlgebra.Demo.Evaluation

/-!
The command line: prints the demonstration that is asked for, or both.
-/

open ExactAlgebra

def main (args : List String) : IO UInt32 := do
  let demos := [("inversion", Demo.inversion), ("evaluation", Demo.evaluation)]
  for (name, demo) in demos do
    if args.isEmpty || args.contains name then
      for line in Demo.transcript demo do
        IO.println line
  return 0
