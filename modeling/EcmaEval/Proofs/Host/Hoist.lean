import EcmaEval.Proofs.Hoist.Entry
import EcmaEval.Proofs.Hoist.Statement
import EcmaEval.Proofs.Host.Entry

/-!
# Variables stay in their function

When the names of a call are bound, its variable environment, which is new, retains every name that its body
declares with `var` or as a function, and the scope of the body is inside it. This stays so at every moment of
the body, however deep in blocks, handlers, loops, `with` and `switch` statements. So a variable that a
declarator or the head of a loop gives a value resolves to the variable environment or to one inside it.
-/
namespace EcmaEval

variable {m m₁ n : Machine} {f : ObjectId} {slots : FunctionSlots} {arguments : List Value}
  {thisValue newTarget : Value} {look : Look} {F : Frame}

/-- Runs the code of the call whose names are bound, and leaves its context. -/
def Evaluator.finishCall (ev : Evaluator) (code : FunctionCode) : Eval Completion :=
  tryFinally (completing (ev.runCode code)) (Functor.discard popContext)

theorem Evaluator.finishCall_eq (ev : Evaluator) (code : FunctionCode) (m : Machine) :
    ev.finishCall code m =
      match completing (ev.runCode code) m with
      | .ok a m' => .ok a m'.popped
      | .error e m' => .error e m'.popped := by
  have hpop (m' : Machine) : (Functor.discard popContext : Eval Unit) m' = .ok () m'.popped := rfl
  unfold finishCall
  rw [tryFinally_eq]
  simp only [hpop]
  cases completing (ev.runCode code) m <;> rfl

/-- Once the names of a call are bound, only its code remains to be run. -/
theorem Evaluator.runFunction_eq_finishCall {ev : Evaluator}
    (hready : prepareCall f slots thisValue newTarget m = .ok () n)
    (hentered : ev.instantiateFunction f slots arguments n = .ok () m₁) :
    ev.runFunction f slots thisValue arguments newTarget m = ev.finishCall slots.code m₁ := by
  have hbody : ev.functionBody f slots arguments n = completing (ev.runCode slots.code) m₁ := by
    change completing (ev.instantiateFunction f slots arguments >>= fun _ => ev.runCode slots.code) n = _
    unfold completing
    rw [bind_ok hentered]
  have hrun := ev.runFunction_eq arguments hready
  rw [hbody] at hrun
  refine hrun.trans (Eq.trans ?_ (ev.finishCall_eq slots.code m₁).symm)
  cases completing (ev.runCode slots.code) m₁ <;> rfl

/-- A call whose machine is sound afterwards is observed without effect. -/
theorem Frame.Spares.finishCall_eq {code : FunctionCode} (hlook : F.Spares look) (k : Nat)
    (hcode : F.Covers m₁ (Body.DeclaresVar code.statements)) (hholds : F.Holds False m₁)
    (hsound : (((Evaluator.level k).finishCall code).after m₁).IsIntact) :
    (Evaluator.observed look k).finishCall code m₁ = (Evaluator.level k).finishCall code m₁ := by
  have hsame : F.Same False m₁ (completing ((Evaluator.level k).runCode code))
      (completing ((Evaluator.observed look k).runCode code)) :=
    .completing (Evaluator.runCode_same (hlook.relates k) code hcode)
  obtain ⟨hruns | ⟨e, m', hfails, -, hintact⟩, -⟩ := hsame m₁ (.refl m₁) hholds
  · rw [Evaluator.finishCall_eq, Evaluator.finishCall_eq, hruns]
  · have hends : (Evaluator.level k).finishCall code m₁ = .error e m'.popped := by
      rw [Evaluator.finishCall_eq, hfails]
    rw [Eval.after_error hends] at hsound
    exact absurd hsound hintact

/-- **A variable never leaks out of its function.** On a well-formed machine, let a function with any
parameters be called or constructed, with any arguments, and let its names be bound. Then its variable
environment, which is new, retains every name that its body declares, and the scope of the body is inside it.
At every moment of the rest of the call this is still so, and a variable about to be given a value resolves to
that environment or to one inside it: looks at these moments that do nothing where it is so change nothing. -/
theorem runFunction_retains_variables {obj : Object} (k : Nat) (hm : Contract.handles.Sound m)
    (hobj : m.object? f = some obj) (hkind : obj.kind = .function slots)
    (hthis : Contract.handles.Stored m.bounds thisValue)
    (harguments : ∀ v ∈ arguments, Contract.handles.Stored m.bounds v)
    (htarget : Contract.handles.Stored m.bounds newTarget)
    (hready : prepareCall f slots thisValue newTarget m = .ok () n)
    (hentered : (Evaluator.level k).instantiateFunction f slots arguments n = .ok () m₁) :
    ∃ varEnv c, m.env? varEnv = none ∧
      let F : Frame := ⟨m.contexts, varEnv, Body.varNames slots.code.statements⟩
      F.Runs m₁ c ∧ (∀ name ∈ F.names, m₁.Retains varEnv name) ∧
        ∀ look, F.Spares look → (Evaluator.level k).runFunction f slots thisValue arguments newTarget m =
          (Evaluator.observed look k).finishCall slots.code m₁ := by
  have hfinish := Evaluator.runFunction_eq_finishCall hready hentered
  obtain ⟨env, r, hfunction⟩ := prepareCall_ready hobj hkind hready
  obtain ⟨varEnv, c, hruns, hholds, hnew⟩ := Evaluator.instantiateFunction_holds (Evaluator.level_restores k)
    (Evaluator.level_stays Remit.whole_isOpen k) (c := slots.callContext f env) hfunction.contexts rfl hfunction.record
    hfunction.empty hentered
  have hprepared : m.Changes n := by
    have hproceeds : (prepareCall f slots thisValue newTarget).Proceeds := by
      unfold prepareCall
      grind
    exact hproceeds.changes_ok hready
  have hsound : (((Evaluator.level k).finishCall slots.code).after m₁).IsIntact := by
    rw [← Eval.after_congr hfinish]
    have hcall := Evaluator.runFunction_runs (A := m.grant) (Evaluator.level_keeps trivial k)
      (Machine.isFunction_of_kind hobj hkind) hthis harguments htarget
    exact ((hcall.after (.refl _) hm).sound hm).isIntact
  refine ⟨varEnv, c, ?_, hruns, hholds.retains, fun look hlook => ?_⟩
  · obtain rfl | hnone := hnew
    · exact hfunction.fresh
    · exact hprepared.env?_eq_none hnone
  · rw [hfinish, hlook.finishCall_eq k (fun _ name hname => ?_) hholds hsound]
    exact Body.mem_varNames_of_variableNames (Body.mem_variableNames.mpr hname)

/-- Says whether a call returns `true`. -/
def Completion.returnsTrue : Completion → Bool
  | .returned (.boolean b) => b
  | _ => false

theorem Completion.eq_of_returnsTrue {c : Completion} (h : c.returnsTrue = true) :
    c = .returned (.boolean true) := by
  unfold returnsTrue at h
  split at h
  · rw [h]
  · cases h

/-- A sloppy function whose parameter has a default, with a variable that a loop inside a block gives a value.
The call returns that value. -/
theorem runFunction_retains_variables_nested :
    let body : List Statement := [.block [.doWhileLoop
      (.block [.declare .var [⟨.identifier "v", some (.literal (.boolean true))⟩]]) (.identifier "x")],
      .returns (some (.identifier "v"))]
    let code : FunctionCode := ⟨some "f", .normal, [.withDefault (.identifier "x") (.literal .null)], .block body,
      false, false⟩
    let n := (pushScriptContext ⟨0⟩ false).after (newRealm.after {})
    let m := (instantiateDeclaration code ⟨0⟩ none).after n
    let f : ObjectId := ⟨n.objects.size⟩
    ∃ slots n' m₁ m' varEnv c, slots.code = code ∧ prepareCall f slots .undefined .undefined m = .ok () n' ∧
      (Evaluator.level 5).instantiateFunction f slots [] n' = .ok () m₁ ∧ m.env? varEnv = none ∧
      (Evaluator.level 5).runFunction f slots .undefined [] .undefined m = .ok (.returned (.boolean true)) m' ∧
      let F : Frame := ⟨m.contexts, varEnv, ["v"]⟩
      F.Runs m₁ c ∧ m₁.Retains varEnv "v" ∧
        ∀ look, F.Spares look → (Evaluator.level 5).runFunction f slots .undefined [] .undefined m =
          (Evaluator.observed look 5).finishCall code m₁ := by
  intro body code n m f
  have hready : m.allowsCall f (fun slots => do
      (Evaluator.level 5).instantiateFunction f slots []
      if (← (Evaluator.level 5).runCode code).returnsTrue then pure () else throw .exhausted) = true := by
    decide +kernel
  have hn : n = (pushScriptContext ⟨0⟩ false).after (newRealm.after {}) := rfl
  have hm : m = (instantiateDeclaration code ⟨0⟩ none).after n := rfl
  clear_value m n
  obtain ⟨hmade, obj, slots, hobj, hkind, hcode⟩ := instantiateDeclaration_starts code hn hm
  obtain ⟨n', m₂, hprepare, hrest⟩ := Machine.exists_of_allowsCall hready hobj hkind
  obtain ⟨_, m₁, hentered, hrest⟩ := bind_eq_ok hrest
  obtain ⟨completion, m₃, hcode₁, hexpect⟩ := bind_eq_ok hrest
  have hreturned : completion = .returned (.boolean true) := by
    by_cases hc : completion.returnsTrue
    · exact Completion.eq_of_returnsTrue hc
    · rw [if_neg hc] at hexpect
      cases hexpect
  have hundefined : Contract.handles.Stored m.bounds .undefined := ⟨trivial, fun _ => rfl⟩
  obtain ⟨varEnv, c, hnew, hruns, hretains, hobserved⟩ := runFunction_retains_variables 5 hmade hobj hkind
    hundefined (fun _ hv => absurd hv List.not_mem_nil) hundefined hprepare hentered
  have hends : (Evaluator.level 5).runFunction f slots .undefined [] .undefined m =
      .ok (.returned (.boolean true)) m₃.popped := by
    rw [Evaluator.runFunction_eq_finishCall hprepare hentered, Evaluator.finishCall_eq, hcode]
    unfold completing
    rw [hcode₁, hreturned]
  rw [hcode] at hruns hretains hobserved
  exact ⟨slots, n', m₁, m₃.popped, varEnv, c, hcode, hprepare, hentered, hnew, hends, hruns,
    hretains "v" (List.mem_singleton.mpr rfl), hobserved⟩

end EcmaEval
