/-!
Exact roots of natural numbers. A root is first approximated fast, and only believed if it can be
checked; otherwise its binary digits are found one by one.
-/

namespace ExactAlgebra.Rational

/-- Adds to `r` the binary digits below `2 ^ bits` that keep its `q`-th power at most `n`. -/
def extendRoot (q n : Nat) : Nat → Nat → Nat
  | 0, r => r
  | bits + 1, r => extendRoot q n bits (if (r + 2 ^ bits) ^ q ≤ n then r + 2 ^ bits else r)

/-- How many binary digits the `q`-th root of `n` has at most. -/
def rootBits (q n : Nat) : Nat := n.log2 / q + 1

/-- Newton's iteration from above, for as long as it falls. -/
def descendToRoot (q n : Nat) : Nat → Nat → Nat
  | 0, x => x
  | steps + 1, x =>
    let y := ((q - 1) * x + n / x ^ (q - 1)) / q
    if y < x then descendToRoot q n steps y else x

/-- The root of the leading half of the digits, refined; short roots are found digit by digit. -/
def approximateRoot (q : Nat) : Nat → Nat → Nat
  | 0, n => extendRoot q n (rootBits q n) 0
  | level + 1, n =>
    let bits := rootBits q n
    if bits ≤ 32 then extendRoot q n bits 0
    else
      let half := bits / 2
      descendToRoot q n 64 ((approximateRoot q level (n >>> (q * half)) + 1) <<< half)

/-- The largest number whose `q`-th power is at most `n`. -/
def floorRoot (q n : Nat) : Nat :=
  let r := approximateRoot q (rootBits q n).log2 n
  if r.pow q ≤ n ∧ n < (r + 1).pow q then r else extendRoot q n (rootBits q n) 0

def exactRoot? (q n : Nat) : Option Nat :=
  let r := floorRoot q n
  if r.pow q = n then some r else none

end ExactAlgebra.Rational
