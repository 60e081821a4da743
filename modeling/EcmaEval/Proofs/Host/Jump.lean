import EcmaEval.Proofs.Host.Binding

/-!
# Jumps stay where they are bound

A statement completes with a jump only if it contains the jump and lets it out. So a function in whose
body every `break` and `continue` is bound never completes with one, and the failure of a call because
a jump escaped a function always comes of a function in which a jump is not bound. Such a function may
be one that the body calls.
-/
namespace EcmaEval

namespace Evaluator

variable {ev : Evaluator} (hev : ev.JumpsSoundly) {f : ObjectId} {slots : FunctionSlots}
  {thisValue newTarget : Value} {arguments : List Value} {m m' : Machine} {e : Abrupt}

include hev

/-- Of a body with bound jumps only a `return` gets out. -/
theorem runFunction_returns (hbinds : slots.code.BindsJumps) :
    (ev.runFunction f slots thisValue arguments newTarget).JumpsBy (· = .returned) :=
  (runFunction_jumpsBy hev f slots thisValue arguments newTarget).mono fun j hj =>
    hj.elim id fun ⟨s, hs, hexits⟩ => hbinds s hs j hexits

omit hev in
/-- A jump out of the body is the only failure that a completed call adds. -/
theorem escapes_of_completed {body : Eval Completion} {rest : Completion → Eval Value}
    (hjumps : body.JumpsBy (· = .returned)) (hrest : ∀ c m₁, (∀ j, c.jump? = some j → j = .returned) →
      rest c m₁ = .error e m' → e.isEscape = false)
    (hfails : (body >>= rest) m = .error e m') (he : e.isEscape = true) : body m = .error e m' := by
  cases hrun : body m with
  | error e₁ m₁ =>
    rw [bind_error hrun] at hfails
    cases hfails
    rfl
  | ok c m₁ =>
    rw [bind_ok hrun] at hfails
    rw [hrest c m₁ (hjumps m c m₁ hrun) hfails] at he
    cases he

/-- A call of a function with bound jumps hands on a failure of its body at most. -/
theorem callFunction_escapes (hbinds : slots.code.BindsJumps)
    (hfails : ev.callFunction f slots thisValue arguments m = .error e m') (he : e.isEscape = true) :
    ev.runFunction f slots thisValue arguments .undefined m = .error e m' := by
  unfold callFunction at hfails
  split at hfails
  · cases hfails
    cases he
  refine escapes_of_completed (runFunction_returns hev hbinds) (fun c m₁ hc h => ?_) hfails he
  cases c with
  | returned value => cases h
  | normal value => cases h
  | thrown value => cases h; rfl
  | broke target value => cases hc _ rfl
  | continued target value => cases hc _ rfl

/-- So does a construction. -/
theorem constructFunction_escapes (hbinds : slots.code.BindsJumps)
    (hfails : ev.constructFunction f slots arguments newTarget m = .error e m')
    (he : e.isEscape = true) :
    ∃ self m₁, ev.runFunction f slots (.object self) arguments newTarget m₁ = .error e m' := by
  unfold constructFunction at hfails
  cases hprototype : prototypeFor newTarget m with
  | error e₁ =>
    rw [bind_error (lift_error hprototype)] at hfails
    cases hfails
    have hplain := prototypeFor_stays (R := .whole) (holds_of_isFree newTarget) m m.closedIn_of_isFree
    rw [hprototype] at hplain
    rw [hplain.2] at he
    cases he
  | ok prototype =>
    rw [bind_ok (lift_ok hprototype), bind_ok (by rfl)] at hfails
    refine ⟨_, _, escapes_of_completed (runFunction_returns hev hbinds) (fun c m₁ hc h => ?_) hfails he⟩
    cases c with
    | returned value => cases value <;> cases h
    | normal value => cases h
    | thrown value => cases h; rfl
    | broke target value => cases hc _ rfl
    | continued target value => cases hc _ rfl

end Evaluator

/-- **Jump soundness.** On any machine, a statement completes with a jump only if it contains that jump
outside nested functions and nothing in the statement consumes it. A function in whose body every
`break` and `continue` is bound fails for an escaped jump only if running its body does. And whatever
is called or constructed, such a failure leaves a machine with a function in which a jump is not
bound. -/
theorem jumps_are_sound (level : Nat) (m m' : Machine) :
    (∀ s c, (Evaluator.level level).statement s m = .ok c m' →
      (∀ target value, c = .broke target value → s.Exits [] (.broke target)) ∧
      (∀ target value, c = .continued target value → s.Exits [] (.continued target)) ∧
      (∀ value, c = .returned value → s.Exits [] .returned)) ∧
    (∀ f slots thisValue arguments newTarget e, slots.code.BindsJumps → e.isEscape = true →
      ((Evaluator.level level).callFunction f slots thisValue arguments m = .error e m' →
        (Evaluator.level level).runFunction f slots thisValue arguments .undefined m = .error e m') ∧
      ((Evaluator.level level).constructFunction f slots arguments newTarget m = .error e m' →
        ∃ self m₁, (Evaluator.level level).runFunction f slots (.object self) arguments newTarget m₁ =
          .error e m')) ∧
    (∀ f thisValue arguments newTarget e, e.isEscape = true →
      (Evaluator.level level).call f thisValue arguments m = .error e m' ∨
        (Evaluator.level level).construct f arguments newTarget m = .error e m' →
      ∃ o obj code, m'.object? o = some obj ∧ obj.code? = some code ∧ ¬ code.BindsJumps) := by
  have hjumps := Evaluator.level_jumpsSoundly level
  have hev := Evaluator.level_stays Remit.whole_isOpen level
  have hclosed := m.closedIn_of_isFree (R := .whole)
  refine ⟨fun s c hrun => ?_, fun f slots thisValue arguments newTarget e hbinds he => ⟨?_, ?_⟩,
    fun f thisValue arguments newTarget e he hfails => ?_⟩
  · have hexits := Evaluator.statement_jumpsBy hjumps s m c m' hrun
    exact ⟨fun target value hc => hexits _ (by rw [hc]; rfl),
      fun target value hc => hexits _ (by rw [hc]; rfl), fun value hc => hexits _ (by rw [hc]; rfl)⟩
  · exact fun hfails => Evaluator.callFunction_escapes hjumps hbinds hfails he
  · exact fun hfails => Evaluator.constructFunction_escapes hjumps hbinds hfails he
  · obtain hfails | hfails := hfails
    · have hcall : ((Evaluator.level level).call f thisValue arguments).StaysIn .whole Remit.whole.Holds := by
        grind
      exact hcall.escapes hclosed hfails he
    · have hconstruct : ((Evaluator.level level).construct f arguments newTarget).StaysIn .whole
        Remit.whole.Holds := by grind
      exact hconstruct.escapes hclosed hfails he

/-- A run that can be seen to fail for a jump that escaped a function does. -/
theorem Eval.exists_escapedFunction {x : Eval α}
    (h : (match x m with | .error (.fault (.assertion .escapedFunction)) _ => true | _ => false) = true) :
    ∃ m', x m = .error (.fault (.assertion .escapedFunction)) m' := by
  split at h
  · exact ⟨_, ‹_›⟩
  · cases h

/-- A loop that a `continue` to an outer label leaves, and a call that a `break` escapes. -/
theorem jumps_are_sound_both_ways :
    let s : Statement := .whileLoop (.literal (.boolean true)) (.continues (some "outer"))
    let g : FunctionCode := ⟨some "g", .normal, [], .block [.breaks none], false, false⟩
    let m := Operation.runAll [.newRealm, .pushScriptContext ⟨0⟩ false,
      .evaluate 4 (.script [.function g])] {}
    s.Exits [] (.continued (some "outer")) ∧
      ∃ e m', (Evaluator.level 4).call (.object ⟨14⟩) .undefined [] m = .error e m' ∧
        ∃ o obj code, m'.object? o = some obj ∧ obj.code? = some code ∧ ¬ code.BindsJumps := by
  intro s g m
  constructor
  · let c : Context :=
      { realm := ⟨0⟩, function := none, lexicalEnv := ⟨0⟩, variableEnv := ⟨0⟩, privateEnv := none,
        labels := [], strict := false }
    have hrun : (Evaluator.level 3).statement s { contexts := [c] } =
        .ok (.continued (some "outer") (some .undefined)) { contexts := [c] } := by rfl
    obtain ⟨-, hcontinued, -⟩ := (jumps_are_sound 3 _ _).1 s _ hrun
    exact hcontinued _ _ rfl
  · obtain ⟨m', hfails⟩ := Eval.exists_escapedFunction
      (x := (Evaluator.level 4).call (.object ⟨14⟩) .undefined []) (m := m) (by decide +kernel)
    exact ⟨_, m', hfails, (jumps_are_sound 4 m m').2.2 _ _ _ none _ rfl (.inl hfails)⟩

/-- The function is no more than one expression. -/
def FunctionCode.isOneExpression : FunctionCode → Bool
  | ⟨_, _, _, .block [.expression _], _, _⟩ => true
  | _ => false

theorem FunctionCode.bindsJumps_of_isOneExpression {code : FunctionCode} (h : code.isOneExpression = true) :
    code.BindsJumps := by
  unfold isOneExpression at h
  split at h
  · intro s hs j hexits
    cases List.mem_singleton.mp hs
    cases hexits
  · cases h

/-- A function that binds its jumps and calls one that does not. -/
theorem call_escapes_through_callee :
    let g : FunctionCode := ⟨some "g", .normal, [], .block [.breaks none], false, false⟩
    let f : FunctionCode :=
      ⟨some "f", .normal, [], .block [.expression (.call (.identifier "g") [])], false, false⟩
    let m := Operation.runAll [.newRealm, .pushScriptContext ⟨0⟩ false,
      .evaluate 4 (.script [.function g, .function f])] {}
    ∃ o obj code m', m.object? o = some obj ∧ obj.code? = some code ∧ code.BindsJumps ∧
      (Evaluator.level 8).call (.object o) .undefined [] m =
        .error (.fault (.assertion .escapedFunction)) m' := by
  intro g f m
  have hcode : ((m.object? ⟨16⟩).bind Object.code?).any FunctionCode.isOneExpression = true := by
    decide +kernel
  obtain ⟨code, hcode, hshape⟩ := (Option.any_eq_true _ _).mp hcode
  obtain ⟨obj, ho, hcode⟩ := Option.bind_eq_some_iff.mp hcode
  obtain ⟨m', hfails⟩ := Eval.exists_escapedFunction
    (x := (Evaluator.level 8).call (.object ⟨16⟩) .undefined []) (m := m) (by decide +kernel)
  exact ⟨⟨16⟩, obj, code, m', ho, hcode, FunctionCode.bindsJumps_of_isOneExpression hshape, hfails⟩

end EcmaEval
