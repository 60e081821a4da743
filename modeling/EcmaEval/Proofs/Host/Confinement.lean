import EcmaEval.Proofs.Host.Binding

/-!
# References never escape

A host that hands in no references, except as what is to be read, written or initialized, never gets
one back and leaves none in the machine. Inside a run, a reference lives from the expression that names
something to the first use of its value.
-/
namespace EcmaEval

/-- Nothing that is stored is a reference. -/
structure Machine.IsProper (m : Machine) : Prop where
  objects : ∀ o obj, m.object? o = some obj → Proper obj
  environments : ∀ env e, m.env? env = some e → Proper e

/-- An answer with a property, or a proper failure. -/
def Query.Answers (Q : α → Prop) : Except Abrupt α → Prop
  | .ok a => Q a
  | .error e => Proper e

/-- A proper machine, and a result with a property or a proper failure. -/
def Eval.Leaves (Q : α → Prop) : EStateM.Result Abrupt Machine α → Prop
  | .ok a m => m.IsProper ∧ Q a
  | .error e m => m.IsProper ∧ Proper e

theorem Remit.proper_holds_iff [Tracked α] [Carrier α] (a : α) : Remit.proper.Holds a ↔ Proper a :=
  ⟨fun h => h.2.resolve_left id, fun h => ⟨fun _ _ => trivial, .inr h⟩⟩

theorem Machine.closedIn_proper_iff (m : Machine) : m.ClosedIn .proper ↔ m.IsProper where
  mp h := {
    objects o obj ho := (Remit.proper_holds_iff obj).mp (h.objects o obj (.inl trivial) ho)
    environments env e he :=
      (Remit.proper_holds_iff e).mp (h.environments env e ((Remit.proper_holds_iff env).mpr trivial) he) }
  mpr h := {
    objects o obj _ ho := (Remit.proper_holds_iff obj).mpr (h.objects o obj ho)
    environments env e _ he := (Remit.proper_holds_iff e).mpr (h.environments env e he)
    realms _ r _ := (Remit.proper_holds_iff r).mpr trivial
    contexts c _ := (Remit.proper_holds_iff c).mpr trivial
    fresh _ _ := trivial }

theorem Eval.StaysIn.leaves {x : Eval α} {P Q : α → Prop} (hx : x.StaysIn .proper P) {m : Machine} (hm : m.IsProper)
    (h : ∀ a, P a → Q a) : Eval.Leaves Q (x m) := by
  have hclosed := m.closedIn_proper_iff.mpr hm
  have hrun := hx m hclosed
  cases hr : x m with
  | ok a m' =>
    rw [hr] at hrun
    exact ⟨m'.closedIn_proper_iff.mp (hclosed.touches hrun.1), h a hrun.2⟩
  | error e m' =>
    rw [hr] at hrun
    exact ⟨m'.closedIn_proper_iff.mp (hclosed.touches hrun.1), (Remit.proper_holds_iff e).mp hrun.2.1⟩

theorem Query.StaysIn.answers {q : Query α} {P Q : α → Prop} (hq : q.StaysIn .proper P) {m : Machine}
    (hm : m.IsProper) (h : ∀ a, P a → Q a) : Query.Answers Q (q m) := by
  have hanswer := hq m (m.closedIn_proper_iff.mpr hm)
  cases hr : q m with
  | ok a =>
    rw [hr] at hanswer
    exact h a hanswer
  | error e =>
    rw [hr] at hanswer
    exact (Remit.proper_holds_iff e).mp hanswer.1

namespace Operation

variable {m : Machine}

theorem run_proper {op : Operation} (hop : op.IsProper) (hm : m.IsProper) : (op.run.after m).IsProper := by
  have hclosed := m.closedIn_proper_iff.mpr hm
  refine (Machine.closedIn_proper_iff _).mp (hclosed.touches ?_)
  exact run_touches Remit.proper_isOpen (fun _ => trivial) trivial (.inl trivial) (.inr hop) hclosed

theorem runAll_proper {ops : List Operation} (hops : ∀ op ∈ ops, op.IsProper) (hm : m.IsProper) :
    (runAll ops m).IsProper := by
  induction ops generalizing m with
  | nil => exact hm
  | cons op ops ih =>
    have hfirst := run_proper (hops op List.mem_cons_self) hm
    exact ih (fun op' hop' => hops op' (List.mem_cons_of_mem op hop')) hfirst

end Operation

/-- What running on a machine gives to a host or to code is no reference, it leaves none behind, and it
does not fail over one. Only an expression that names something gives a reference. -/
structure Machine.Confines (m : Machine) : Prop where
  expression : ∀ level e, Eval.Leaves e.Gives ((Evaluator.level level).expression e m)
  evaluate : ∀ level node, Eval.Leaves Proper (evaluate level node m)
  get : ∀ (o : ObjectId) key, Query.Answers Proper (o.get key m)
  getValue : ∀ target : Value, target.Shallow → Eval.Leaves Proper (target.getValue m)
  readBinding : ∀ (env : EnvId) name strict, Eval.Leaves Proper (env.read name strict m)
  call : ∀ level f thisValue arguments,
    Proper f → Proper thisValue → Proper arguments →
      Eval.Leaves Proper ((Evaluator.level level).call f thisValue arguments m)
  construct : ∀ level f arguments newTarget,
    Proper f → Proper arguments → Proper newTarget →
      Eval.Leaves Proper ((Evaluator.level level).construct f arguments newTarget m)

theorem Machine.IsProper.confines {m : Machine} (hm : m.IsProper) : m.Confines := by
  have hev := Evaluator.level_stays Remit.proper_isOpen
  have hproper {α : Type} [Tracked α] [Carrier α] (a : α) := (Remit.proper_holds_iff a).mp
  have hholds {α : Type} [Tracked α] [Carrier α] {a : α} (ha : Proper a) := (Remit.proper_holds_iff a).mpr ha
  exact {
    expression := fun level e => ((hev level).expression e).leaves hm fun _ hv => hv.2.resolve_left id
    evaluate := fun level node => (evaluate_stays Remit.proper_isOpen level node).leaves hm hproper
    get := fun o key => (ObjectId.get_stays (.inl trivial) key).answers hm hproper
    getValue := fun target ht => (Value.getValue_stays ⟨fun _ _ => trivial, .inr ht⟩).leaves hm hproper
    readBinding := fun env name strict => (EnvId.read_stays (hholds trivial) name strict).leaves hm hproper
    call := fun level f _ _ hf hthis h =>
      (Evaluator.call_stays (hev level) (hholds hf) (hholds hthis) (hholds h)).leaves hm hproper
    construct := fun level f _ _ hf h ht =>
      (Evaluator.construct_stays (hev level) (hholds hf) (hholds h) (hholds ht)).leaves hm hproper }

theorem Machine.proper_new (limit : Nat) : ({ stackLimit := limit } : Machine).IsProper where
  objects o obj ho := by simp [object?] at ho
  environments env e he := by simp [env?] at he

/-- **References never escape.** Let a host perform any operations on a new machine, with any handles,
and let it hand in no references but what is to be read, written or initialized, with proper parts. Then
no property value, getter, setter, binding, `this` or new target in the machine is a reference, and none
is given away: not by a completion of `evaluate`, not as the value of a property, a binding or a
reference, and not by a call or a construction. The same holds within a run, of every machine that
stores no reference. No evaluation fails because it met a reference in the place of a value. -/
theorem runAll_confines_references (limit : Nat) (ops : List Operation)
    (hops : ∀ op ∈ ops, op.IsProper) :
    let m := Operation.runAll ops { stackLimit := limit }
    (m.IsProper ∧ m.Confines) ∧ (∀ m' : Machine, m'.IsProper → m'.Confines) ∧
      ∀ level node m', evaluate level node m ≠ .error (.fault (.assertion .referenceToPrimitive)) m' ∧
        evaluate level node m ≠ .error (.fault (.assertion .typeOfReference)) m' := by
  intro m
  have hm : m.IsProper := Operation.runAll_proper hops (Machine.proper_new limit)
  refine ⟨⟨hm, hm.confines⟩, fun _ => Machine.IsProper.confines, fun level node m' => ?_⟩
  have hrun := hm.confines.evaluate level node
  constructor
  all_goals
    intro hfails
    rw [hfails] at hrun
    exact Bool.noConfusion hrun.2

/-- A run that can be seen to give a reference does. -/
theorem Eval.exists_reference {x : Eval Value}
    (h : (match x m with | .ok (.reference _) _ => true | _ => false) = true) :
    ∃ r m', x m = .ok (.reference r) m' := by
  split at h
  · exact ⟨_, _, ‹_›⟩
  · cases h

/-- A run that can be seen to complete with a value does. -/
theorem Eval.exists_value {x : Eval Completion}
    (h : (match x m with | .ok (.normal (some _)) _ => true | _ => false) = true) :
    ∃ v m', x m = .ok (.normal (some v)) m' := by
  split at h
  · exact ⟨_, _, ‹_›⟩
  · cases h

/-- In a new realm a name is a reference as an expression, and a value to the host. -/
theorem runAll_confines_references_name :
    let ops : List Operation := [.newRealm, .pushScriptContext ⟨0⟩ false]
    let m := Operation.runAll ops { stackLimit := 8 }
    (∃ r m', (Evaluator.level 1).expression (.identifier "NaN") m = .ok (.reference r) m') ∧
      m.IsProper ∧ ∃ v m', evaluate 1 (.expression (.identifier "NaN")) m = .ok (.normal (some v)) m' ∧
        v.isReference = false := by
  intro ops m
  have hops : ∀ op ∈ ops, op.IsProper := by simp [ops, Operation.IsProper]
  have hname := Eval.exists_reference (x := (Evaluator.level 1).expression (.identifier "NaN")) (m := m)
    (by decide +kernel)
  obtain ⟨v, m', hvalue⟩ := Eval.exists_value (x := evaluate 1 (.expression (.identifier "NaN"))) (m := m)
    (by decide +kernel)
  obtain ⟨hm, hconfines⟩ : m.IsProper ∧ m.Confines := (runAll_confines_references 8 ops hops).1
  clear_value m
  have hrun := hconfines.evaluate 1 (.expression (.identifier "NaN"))
  rw [hvalue] at hrun
  exact ⟨hname, hm, v, m', hvalue, hrun.2 v rfl⟩

end EcmaEval
