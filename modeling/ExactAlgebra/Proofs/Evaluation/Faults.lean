import ExactAlgebra.Proofs.Evaluation.Evolution
import ExactAlgebra.Proofs.Transform.Course
import ExactAlgebra.Proofs.Workspace.Evaluate

/-!
What an evaluation records of the calls that it makes. The functions that it has invoked, and the
faults, are those of one list of invocations: each is of a call that is there, its failure is what the
function made of the arguments of that call, and there is a fault for every failure, and for nothing
else.
-/

namespace ExactAlgebra

open ExactAlgebra.Evaluation (values?)
open ExactAlgebra.Graph (Develops Developing)

variable {library : Library} {g g' : Graph} {f : Callee} {x : NodeId} {xs : List NodeId}
variable {qs : List Rat}

/-- The failure of a function of expressions. -/
def Reply.failure? {σ : Type} : EStateM.Result Error σ Reply → Option String
  | .ok (.fault message) _ => some message
  | _ => none

/-- What a function makes of the nodes `xs`: the failure that it replies with, or nothing if it does not
fail. A function of expressions has replied in a graph where it accepts them, which need not be the
one at hand. -/
inductive Library.Makes (library : Library) (g : Graph) (f : Callee) (xs : List NodeId) :
    Option String → Prop
  | real {arity : Nat} {apply : List Rat → Except Error (Option Rat)} {qs : List Rat}
      (hf : library f = .real arity apply) (hqs : values? g xs = some qs) (hlen : qs.length = arity) :
      Makes library g f xs (match apply qs with
        | .ok _ => none
        | .error e => some e.message)
  | direct {accepts : Graph → List Argument → Bool} {run : List Argument → Build Reply} {g₀ : Graph}
      (hf : library f = .direct accepts run) (haccepts : accepts g₀ (xs.map some)) :
      Makes library g f xs (Reply.failure? (run (xs.map some) g₀))

/-- The invocation of a function for a call, and the message with which it failed, if it did. -/
structure Invocation where
  callee : Callee
  call : NodeId
  failure : Option String

namespace Invocation

/-- The fault that is recorded of an invocation. -/
def fault? (i : Invocation) : Option Fault := i.failure.map fun message =>
  ⟨i.callee, i.call, message⟩

/-- The call is in the graph, and the function has made of its arguments what is recorded. -/
structure Genuine (library : Library) (g : Graph) (i : Invocation) : Prop where
  shape_eq : g.shape i.call = .call i.callee
  lt_size : i.call < g.size
  makes : library.Makes g i.callee (g.operands i.call) i.failure

end Invocation

namespace Evaluation

theorem values?_develops (hd : g.Develops g') (hxs : ∀ x ∈ xs, x < g.size)
    (h : values? g xs = some qs) : values? g' xs = some qs := by
  rw [values?, Graph.mapM_eq_some] at h ⊢
  induction h with
  | nil => exact .nil
  | @cons x q xs qs hq _ ih =>
    rw [List.forall_mem_cons] at hxs
    refine .cons ?_ (ih hxs.2)
    have hs := Graph.value?_eq_some.1 hq
    have hnode := hd.node_eq_of_not_isSymbol hxs.1 (by rw [hs]; exact id)
    rwa [Graph.value?, Graph.shape, hnode]

end Evaluation

theorem Library.Makes.develops {failure : Option String} (h : library.Makes g f xs failure)
    (hd : g.Develops g') (hxs : ∀ x ∈ xs, x < g.size) : library.Makes g' f xs failure := by
  cases h with
  | real hf hqs hlen => exact .real hf (Evaluation.values?_develops hd hxs hqs) hlen
  | direct hf haccepts => exact .direct hf haccepts

theorem Invocation.Genuine.develops {i : Invocation} (h : i.Genuine library g) (hg : g.WellFormed)
    (hd : g.Develops g') : i.Genuine library g' := by
  have hnode : g'.node i.call = g.node i.call :=
    hd.node_eq_of_not_isSymbol h.lt_size (by rw [h.shape_eq]; exact id)
  refine ⟨?_, hd.lt_size h.lt_size, ?_⟩
  · rw [Graph.shape, hnode]
    exact h.shape_eq
  · rw [Graph.operands, hnode]
    exact h.makes.develops hd (hg.operands_lt_size i.call)

/-! ### Logs -/

/-- The log has been continued by some invocations. -/
structure Journal.Continues (log log' : Journal) (is : List Invocation) : Prop where
  invocations_eq : log'.invocations.toList = log.invocations.toList ++ is.map (·.callee)
  faults_eq : log'.faults.toList = log.faults.toList ++ is.filterMap (·.fault?)

namespace Journal.Continues

variable {log log' log'' : Journal} {is is' : List Invocation}

theorem refl (log : Journal) : log.Continues log [] := by
  constructor <;> simp

theorem trans (h : log.Continues log' is) (h' : log'.Continues log'' is') :
    log.Continues log'' (is ++ is') where
  invocations_eq := by
    rw [h'.invocations_eq, h.invocations_eq, List.map_append, List.append_assoc]
  faults_eq := by
    rw [h'.faults_eq, h.faults_eq, List.filterMap_append, List.append_assoc]

end Journal.Continues

/-- The graph of a pass has developed, and its log was continued by genuine invocations. -/
structure Pass.Accounts (library : Library) (p p' : Pass Journal) : Prop where
  wellFormed : p'.graph.WellFormed
  develops : p.graph.Develops p'.graph
  invocations : ∃ is, p.log.Continues p'.log is ∧ ∀ i ∈ is, i.Genuine library p'.graph

namespace Pass.Accounts

variable {p p' p'' : Pass Journal}

theorem of_log_eq (hg : p'.graph.WellFormed) (hd : p.graph.Develops p'.graph)
    (hlog : p'.log = p.log) : p.Accounts library p' :=
  ⟨hg, hd, [], hlog ▸ .refl p.log, fun _ hi => absurd hi List.not_mem_nil⟩

theorem trans (h : p.Accounts library p') (h' : p'.Accounts library p'') :
    p.Accounts library p'' := by
  obtain ⟨is, hlog, hgenuine⟩ := h.invocations
  obtain ⟨is', hlog', hgenuine'⟩ := h'.invocations
  refine ⟨h'.wellFormed, h.develops.trans h'.develops, is ++ is', hlog.trans hlog', fun i hi => ?_⟩
  rcases List.mem_append.1 hi with hi | hi
  · exact (hgenuine i hi).develops h.wellFormed h'.develops
  · exact hgenuine' i hi

end Pass.Accounts

/-- Passes of which every invocation is accounted for. -/
def accounting (library : Library) : Passage Journal where
  Leads p p' := p.graph.WellFormed → p.Accounts library p'
  refl p hg := .of_log_eq hg (.refl p.graph) rfl
  trans h h' hg := (h hg).trans (h' (h hg).wellFormed)

theorem build_accounts {α : Type} {m : Build α} (hm : Developing m) (p : Pass Journal) :
    (Dialogue.build m p).Stays (accounting library).Leads p := by
  have hout := @hm p.graph
  simp only [Dialogue.build]
  cases he : m p.graph with
  | ok a g' =>
    rw [he] at hout
    intro hg
    exact .of_log_eq (hout hg).1 (hout hg).2 rfl
  | error e g' =>
    rw [he] at hout
    intro hg
    exact .of_log_eq (hout hg).1 (hout hg).2 rfl

/-- The computations by which every invocation is accounted for. -/
def accounts (library : Library) : Exchanges Journal :=
  (accounting library).exchanges Graph.growing.builders fun hm =>
    build_accounts (Graph.Grows.developing hm)

/-! ### Calls -/

namespace Graph

theorem call_node (hg : g.WellFormed) (h : call f xs g = .ok x g') :
    x < g'.size ∧ g'.node x = { shape := .call f, operands := xs } := by
  have hcall : call f xs g = intern (.call f) xs (final (register f g)) := rfl
  have hregister : (final (register f g)).WellFormed := by
    have hm := register_meets (E := AnyError) hg f
    unfold Meets at hm
    cases he : register f g <;> rw [he] at hm <;> exact hm.1
  rw [hcall, intern_eq] at h
  cases hi : (final (register f g)).index[((.call f : Shape), xs)]? with
  | some y =>
    rw [hi] at h
    cases h
    exact ⟨hregister.index_lt_size _ x hi, hregister.index_node _ x hi id⟩
  | none =>
    simp only [hi] at h
    split_ifs at h
    cases h
    refine ⟨?_, node_extend_self _ _ _⟩
    rw [size_extend]
    exact Nat.lt_succ_self _

end Graph

namespace Evaluation

variable {p : Pass Journal} {r : EStateM.Result Error (Pass Journal) Reply}

/-- The pass in which a function is run: its invocation is recorded before. -/
def invoking (f : Callee) (p : Pass Journal) : Pass Journal :=
  ⟨p.graph, { p.log with invocations := p.log.invocations.push f }⟩

theorem invoke_real {arity : Nat} {apply : List Rat → Except Error (Option Rat)}
    (hqs : values? p.graph xs = some qs) :
    invoke f (.real arity apply) xs p =
      if qs.length = arity then Dialogue.build (Reply.ofReal (apply qs)) (invoking f p)
      else .done (.ok .declined p) := by
  simp only [invoke, bind, Dialogue.graph, Step.bind, hqs]
  by_cases hlen : qs.length = arity
  · rw [if_pos hlen]
    exact congrFun (if_pos hlen) p
  · rw [if_neg hlen]
    exact congrFun (if_neg hlen) p

theorem invoke_direct {accepts : Graph → List Argument → Bool}
    {run : List Argument → Build Reply} :
    invoke f (.direct accepts run) xs p =
      if accepts p.graph (xs.map some) then Dialogue.build (run (xs.map some)) (invoking f p)
      else .done (.ok .declined p) := by
  simp only [invoke, bind, Dialogue.graph, Step.bind]
  by_cases haccepts : accepts p.graph (xs.map some) = true
  · rw [if_pos haccepts]
    exact congrFun (if_pos haccepts) p
  · rw [if_neg haccepts]
    exact congrFun (if_neg haccepts) p

/-- A function was invoked for arguments, which is recorded, and has replied or was aborted. -/
structure Invoked (library : Library) (f : Callee) (xs : List NodeId) (p : Pass Journal)
    (r : EStateM.Result Error (Pass Journal) Reply) : Prop where
  wellFormed : (final r).graph.WellFormed
  develops : p.graph.Develops (final r).graph
  log_eq : (final r).log = (invoking f p).log
  makes : library.Makes p.graph f xs (Reply.failure? r)

theorem failure?_ofReal (q? : Except Error (Option Rat)) (g : Graph) :
    Reply.failure? (Reply.ofReal q? g) =
      match q? with
      | .ok _ => none
      | .error e => some e.message := by
  rcases q? with e | _ | q
  · rfl
  · rfl
  · simp only [Reply.ofReal, bind, EStateM.bind]
    cases Graph.constant q g <;> rfl

/-- A reply that is built after the invocation has been recorded. -/
theorem exists_invoked {m : Build Reply} (hm : Developing m)
    (hmakes : library.Makes p.graph f xs (Reply.failure? (m p.graph))) :
    ∃ r, Dialogue.build m (invoking f p) = .done r ∧
      (p.graph.WellFormed → Invoked library f xs p r) := by
  have hout := @hm p.graph
  simp only [Dialogue.build, invoking]
  cases he : m p.graph with
  | ok reply g' =>
    rw [he] at hout hmakes
    refine ⟨_, rfl, fun hg => ?_⟩
    exact ⟨(hout hg).1, (hout hg).2, rfl, by cases reply <;> exact hmakes⟩
  | error e g' =>
    rw [he] at hout hmakes
    refine ⟨_, rfl, fun hg => ?_⟩
    exact ⟨(hout hg).1, (hout hg).2, rfl, hmakes⟩

/-- A function declines the arguments, or it is invoked. -/
theorem invoke_cases (hlib : library.Changing Develops) (f : Callee) (xs : List NodeId)
    (p : Pass Journal) :
    ∃ r, invoke f (library f) xs p = .done r ∧
      (r = .ok .declined p ∨ (p.graph.WellFormed → Invoked library f xs p r)) := by
  cases hf : library f with
  | real arity apply =>
    cases hqs : values? p.graph xs with
    | none =>
      refine ⟨.ok .declined p, ?_, .inl rfl⟩
      simp only [invoke, bind, Dialogue.graph, Step.bind, hqs]
      rfl
    | some qs =>
      rw [invoke_real hqs]
      split_ifs with hlen
      · have hbuild : Developing (Reply.ofReal (apply qs)) :=
          Graph.Grows.developing (ofReal_holds Graph.growing.builders _)
        have hmakes : library.Makes p.graph f xs
            (Reply.failure? (Reply.ofReal (apply qs) p.graph)) := by
          rw [failure?_ofReal]
          exact .real hf hqs hlen
        obtain ⟨r, hr, hinvoked⟩ := exists_invoked hbuild hmakes
        exact ⟨r, hr, .inr hinvoked⟩
      · exact ⟨_, rfl, .inl rfl⟩
  | direct accepts run =>
    rw [invoke_direct]
    split_ifs with haccepts
    · obtain ⟨r, hr, hinvoked⟩ := exists_invoked (p := p) (hlib f accepts run hf _)
        (.direct hf haccepts)
      exact ⟨r, hr, .inr hinvoked⟩
    · exact ⟨_, rfl, .inl rfl⟩

theorem Invoked.genuine (h : Invoked library f xs p r) (hp : p.graph.WellFormed)
    (hx : x < p.graph.size) (hn : p.graph.node x = { shape := .call f, operands := xs }) :
    Invocation.Genuine library (final r).graph ⟨f, x, Reply.failure? r⟩ := by
  have hbefore : Invocation.Genuine library p.graph ⟨f, x, Reply.failure? r⟩ := by
    refine ⟨?_, hx, ?_⟩
    · rw [Graph.shape, hn]
    · rw [Graph.operands, hn]
      exact h.makes
  exact hbefore.develops hp h.develops

/-- An invocation is accounted for as soon as its failure is recorded. -/
theorem Invoked.accounts (h : Invoked library f xs p r) (hp : p.graph.WellFormed)
    (hx : x < p.graph.size) (hn : p.graph.node x = { shape := .call f, operands := xs })
    {p' : Pass Journal} (hgraph : p'.graph = (final r).graph)
    (hinvocations : p'.log.invocations = (final r).log.invocations)
    (hfaults : p'.log.faults.toList = (final r).log.faults.toList ++
      (Invocation.fault? ⟨f, x, Reply.failure? r⟩).toList) :
    p.Accounts library p' := by
  refine ⟨hgraph ▸ h.wellFormed, hgraph ▸ h.develops, [⟨f, x, Reply.failure? r⟩], ⟨?_, ?_⟩, ?_⟩
  · rw [hinvocations, h.log_eq]
    exact Array.toList_push
  · rw [hfaults, h.log_eq, List.filterMap_cons]
    cases Invocation.fault? ⟨f, x, Reply.failure? r⟩ <;> rfl
  · rw [List.forall_mem_singleton, hgraph]
    exact h.genuine hp hx hn

/-- What a call makes of the reply of its function. -/
def conclude (f : Callee) (unevaluated : NodeId) : Reply → Evaluating NodeId
  | .value x => return x
  | .elsewhere _ _ => Dialogue.fail (.calledOutsideGraph f.name)
  | .declined => return unevaluated
  | .fault message => do
    Dialogue.updateLog fun log =>
      { log with faults := log.faults.push ⟨f, unevaluated, message⟩ }
    return unevaluated

theorem call_eq (library : Library) (f : Callee) (xs : List NodeId) :
    call library f xs = (do
      let ys ← Dialogue.askAll xs
      let u ← Graph.call f ys
      conclude f u (← invoke f (library f) ys)) :=
  rfl

/-- The failure that a function replies with is recorded, and nothing else. -/
theorem exists_conclude (f : Callee) (u : NodeId) (reply : Reply) (p : Pass Journal) :
    ∃ r, conclude f u reply p = .done r ∧ (final r).graph = p.graph ∧
      (final r).log.invocations = p.log.invocations ∧
      (final r).log.faults.toList = p.log.faults.toList ++
        (Invocation.fault? ⟨f, u, Reply.failure? (.ok reply p)⟩).toList := by
  cases reply with
  | fault message => exact ⟨_, rfl, rfl, rfl, Array.toList_push⟩
  | _ => exact ⟨_, rfl, rfl, rfl, (List.append_nil _).symm⟩

theorem reply_accounts (hlib : library.Changing Develops) (f : Callee) (u : NodeId)
    (ys : List NodeId) (p : Pass Journal) :
    ∃ r, (do conclude f u (← invoke f (library f) ys) : Evaluating NodeId) p = .done r ∧
      (p.graph.WellFormed → u < p.graph.size →
        p.graph.node u = { shape := .call f, operands := ys } → p.Accounts library (final r)) := by
  obtain ⟨r, hr, hinvoke⟩ := invoke_cases hlib f ys p
  simp only [bind, hr]
  rcases hinvoke with rfl | hinvoked
  · exact ⟨_, rfl, fun hg _ _ => .of_log_eq hg (.refl p.graph) rfl⟩
  cases r with
  | ok reply p₁ =>
    obtain ⟨r, hr, hgraph, hinvocations, hfaults⟩ := exists_conclude f u reply p₁
    refine ⟨r, hr, fun hg hu hn => (hinvoked hg).accounts hg hu hn hgraph hinvocations ?_⟩
    exact hfaults
  | error e p₁ =>
    refine ⟨_, rfl, fun hg hu hn => (hinvoked hg).accounts hg hu hn rfl rfl ?_⟩
    exact (List.append_nil _).symm

theorem call_accounts (hlib : library.Changing Develops) (f : Callee) (xs : List NodeId) :
    (accounts library).Holds (call library f xs) := by
  rw [call_eq]
  apply (accounts library).bind ((accounts library).askAll xs)
  intro ys p
  have hcall : Developing (Graph.call f ys) :=
    Graph.Grows.developing (Graph.growing.builders.call f ys)
  have hbuild : (Dialogue.build (Graph.call f ys) p).Stays (accounting library).Leads p :=
    build_accounts hcall p
  change Step.Stays _ (Step.bind (Dialogue.build (Graph.call f ys) p) _) p
  simp only [Dialogue.build] at hbuild ⊢
  cases he : Graph.call f ys p.graph with
  | error e g' =>
    rw [he] at hbuild
    exact hbuild
  | ok u g' =>
    rw [he] at hbuild
    obtain ⟨r, hr, haccounts⟩ := reply_accounts hlib f u ys ⟨g', p.log⟩
    change Step.Stays _
      ((do conclude f u (← invoke f (library f) ys) : Evaluating NodeId) ⟨g', p.log⟩) p
    rw [hr]
    intro hg
    obtain ⟨hu, hn⟩ := Graph.call_node hg he
    exact (hbuild hg).trans (haccounts (hbuild hg).wellFormed hu hn)

/-- Evaluations of which every invocation is accounted for. -/
def accountings (hlib : library.Changing Develops) : Evaluations library where
  toExchanges := accounts library
  substitute := Graph.substitute_grows
  call := call_accounts hlib

/-- Whatever an evaluation answers, and if it fails: what it has recorded is what it has invoked, and
a fault for each invocation that failed. -/
theorem evaluateIn_accounts (hlib : library.Changing Develops) (depth : Nat) (x : NodeId)
    {run : Run Journal} (hg : run.pass.graph.WellFormed) :
    run.pass.Accounts library (final (evaluateIn library depth x run)).pass := by
  refine Rules.apply_leads (K := accounting library) ?_ ?_ depth x run hg
  · refine transform_holds (accountings hlib) (fun x body => ?_) fun x form => ?_
    · exact build_accounts (canonicalLoop_developing x body)
    · refine build_accounts ((Graph.recordForm_changing x form).mono fun _ _ _ => ?_)
      exact Graph.Extends.develops
  · exact fun x p => (accounting library).refl p

end Evaluation

namespace Workspace

variable {ws : Workspace} {k depth : Nat}

/-- The invocations that an evaluation has made. If it answers, the faults that it gives back are the
failures among them, in order. -/
theorem evaluateFaults_accounts (hlib : library.Changing Develops) (hk : k < ws.graphs.size)
    (hg : (ws.graph k).WellFormed) :
    ∃ is : List Invocation,
      (∀ i ∈ is, i.Genuine library
        ((final (evaluateFaults library depth (.node k x) ws)).graph k)) ∧
      (final (evaluateFaults library depth (.node k x) ws)).invocations.toList =
        ws.invocations.toList ++ is.map (·.callee) ∧
      ∀ {y faults ws'}, evaluateFaults library depth (.node k x) ws = .ok (y, faults) ws' →
        faults.toList = is.filterMap (·.fault?) := by
  have haccounts : (ws.startRun k).pass.Accounts library
      (final (evaluateIn library depth x (ws.startRun k))).pass :=
    Evaluation.evaluateIn_accounts hlib depth x hg
  obtain ⟨is, hlog, hgenuine⟩ := haccounts.invocations
  refine ⟨is, ?_⟩
  rw [evaluateFaults_eq]
  cases he : evaluateIn library depth x (ws.startRun k) with
  | ok y run =>
    rw [he] at hlog hgenuine
    refine ⟨?_, hlog.invocations_eq, ?_⟩
    · simp only [final, graph_afterRun hk]
      exact hgenuine
    · rintro _ _ _ ⟨⟩
      exact hlog.faults_eq
  | error e run =>
    rw [he] at hlog hgenuine
    refine ⟨?_, hlog.invocations_eq, nofun⟩
    simp only [final, graph_afterRun hk]
    exact hgenuine

end Workspace

end ExactAlgebra
