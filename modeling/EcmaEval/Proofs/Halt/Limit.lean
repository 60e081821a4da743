import EcmaEval.Proofs.Halt.Converge
import EcmaEval.Proofs.Host.WellFormed

/-!
# The limit of the evaluators

The limit of the evaluators of all levels gives, on a sound machine, what the evaluation comes to from
some level on. It is an evaluator like any other, and one that keeps machines sound. So what runs by way
of it never runs out of levels, as long as it is no loop.
-/
namespace EcmaEval

open Filter

variable {A : Grant} {m m' : Machine}

namespace Contract

variable {g h : Contract} (hw : h.Weaker g)

include hw

theorem Move.weaken (hraw : ¬ g.guarded) (hmove : g.Move m m') : h.Move m m' := by
  have hraw' (hg : h.guarded) : False := hraw (hw.guarded hg)
  cases hmove with
  | error hok hmap horderly => exact .error (hok.weaken hw) hmap horderly
  | insert ho hd hfree hmay hlength =>
    exact .insert ho (hd.imp fun _ => .weaken hw) (fun hg => (hraw' hg).elim) (fun hg => (hraw' hg).elim)
      fun hg => (hraw' hg).elim
  | erase ho hconfigurable => exact .erase ho fun hg => (hraw' hg).elim
  | redefine hg => exact absurd hg hraw
  | unmap _ ho => exact .unmap hraw' ho
  | assign _ he hr hv => exact .assign hraw' he hr (hv.weaken hw)

theorem RecordStep.weaken {b : Bounds} {declare : String → Prop} {r r' : DeclarativeRecord}
    (hstep : g.RecordStep b declare r r') : h.RecordStep b declare r r' := by
  cases hstep with
  | create hr hfixed hdeclare =>
    exact .create hr (fun hc => hfixed (hw.checked hc)) fun hc => hdeclare (hw.checked hc)
  | init hr hv hdeclare => exact .init hr (hv.weaken hw) fun hc => hdeclare (hw.checked hc)
  | assign hr hv hbound => exact .assign hr (hv.weaken hw) fun hc => hbound (hw.checked hc)
  | delete hr => exact .delete hr
  | bindThis hslots hv => exact .bindThis hslots (hv.weaken hw)

theorem EnvStep.weaken {b : Bounds} {declare : String → Prop} {e e' : Environment}
    (hstep : g.EnvStep b declare e e') : h.EnvStep b declare e e' := by
  cases hstep with
  | record hr hstep => exact .record hr (hstep.weaken hw)
  | varNames names he => exact .varNames names he

theorem Step.weaken (hraw : ¬ g.guarded) (hstep : g.Step A m m') : h.Step A m m' := by
  have hraw' (hg : h.guarded) : False := hraw (hw.guarded hg)
  cases hstep with
  | contexts hcs => exact .contexts hcs
  | symbol => exact .symbol
  | object hok hmap horderly => exact .object (hok.weaken hw) hmap horderly
  | environment hok => exact .environment (hok.weaken hw)
  | realm hr hglobal => exact .realm hr hglobal
  | define hmoves => exact .define (Relation.ReflTransGen.mono (fun _ _ => Move.weaken hw hraw) _ _ hmoves)
  | insert ho hd _ => exact .insert ho (hd.imp fun _ => .weaken hw) fun hg => (hraw' hg).elim
  | erase ho _ => exact .erase ho fun hg => (hraw' hg).elim
  | reparent ho hp hSp hSo hS _ => exact .reparent ho hp hSp hSo hS fun hg => (hraw' hg).elim
  | freeze ho => exact .freeze ho
  | markConstructor ho => exact .markConstructor ho
  | attach ho hkind henv hdistinct hmap _ _ =>
    exact .attach ho hkind henv hdistinct hmap (fun hg => (hraw' hg).elim) fun hg => (hraw' hg).elim
  | record he hstep => exact .record he (hstep.weaken hw)

theorem Steps.weaken (hraw : ¬ g.guarded) (hsteps : g.Steps A m m') : h.Steps A m m' :=
  Relation.ReflTransGen.mono (fun _ _ => Step.weaken hw hraw) _ _ hsteps

theorem Operand.weaken {v : Value} (hv : g.Operand m v) : h.Operand m v where
  within := hv.within
  shallow hp := hv.shallow (hw.plain hp)
  resolves hc := hv.resolves (hw.checked hc)

theorem StoredOption.weaken {b : Bounds} {v : Option Value} (hv : g.StoredOption b v) :
    h.StoredOption b v := fun w hw' => (hv w hw').weaken hw

theorem Ends.weaken {j : Jumps} {c : Completion} (hc : g.Ends m j c) : h.Ends m j c := by
  cases c with
  | normal v => exact StoredOption.weaken hw hc
  | returned v => exact Stored.weaken hw hc
  | thrown v => exact Stored.weaken hw hc
  | broke target v => exact ⟨hc.1.weaken hw, fun h => hc.2 (hw.checked h)⟩
  | continued target v => exact ⟨hc.1.weaken hw, fun h => hc.2 (hw.checked h)⟩

omit hw in
/-- Code that nobody has checked relies on no names. -/
theorem walks_hoists (A : Grant) (m : Machine) (env : EnvId) (names : List String) :
    walks.Hoists A m env names := ⟨False.elim, False.elim⟩

omit hw in
/-- A run that does not run out of levels needs no leave to. -/
theorem Runs.unbounded {x : Eval α} {P Q : Machine → α → Prop} (hx : handles.Runs A m x P)
    (hends : walks.Sound m → x.Ends m) (hPQ : ∀ m' a, P m' a → Q m' a) : walks.Runs A m x Q := by
  intro hA hm
  have hhandles : handles.Weaker walks := ⟨False.elim, False.elim, False.elim⟩
  have hwalks := walks_weaker handles
  have hcovers : handles.Covers A m.grant := ⟨False.elim, hA.2⟩
  have hrun := hx hcovers (hm.weaken hhandles)
  cases hr : x m with
  | ok a m' =>
    rw [hr] at hrun
    exact ⟨hrun.1.weaken hwalks id, hPQ m' a hrun.2⟩
  | error e m' =>
    rw [hr] at hrun
    refine ⟨hrun.1.weaken hwalks id, ?_⟩
    cases e with
    | thrown v => exact Stored.weaken hwalks hrun.2
    | fault f => exact False.elim
    | exhausted => exact absurd hr (hends hm m')

end Contract

open Classical in
/-- What the evaluations come to on a sound machine, or else the fallback. -/
noncomputable def Eval.limit (x : Nat → Eval α) (fallback : Eval α) : Eval α := fun m =>
  if Contract.walks.Sound m then
    if h : ∃ y : Eval α, y.Ends m ∧ ∀ᶠ n in atTop, x n m = y m then h.choose m else fallback m
  else .error .exhausted m

namespace Eval

variable {x : Nat → Eval α} {fallback : Eval α}

theorem limit_of_unsound (hm : ¬ Contract.walks.Sound m) :
    limit x fallback m = .error .exhausted m := if_neg hm

theorem limit_eq (hm : Contract.walks.Sound m) {y : Eval α} (hends : y.Ends m)
    (hy : ∀ᶠ n in atTop, x n m = y m) : limit x fallback m = y m := by
  have hexists : ∃ y : Eval α, y.Ends m ∧ ∀ᶠ n in atTop, x n m = y m := ⟨y, hends, hy⟩
  unfold limit
  rw [if_pos hm, dif_pos hexists]
  obtain ⟨n, hchosen, hn⟩ := (hexists.choose_spec.2.and hy).exists
  exact hchosen.symm.trans hn

variable (x fallback) in
/-- On a sound machine the limit is one of the evaluations or the fallback. -/
theorem limit_cases (hm : Contract.walks.Sound m) :
    (∃ n, (x n).Ends m ∧ limit x fallback m = x n m) ∨ limit x fallback m = fallback m := by
  by_cases h : ∃ y : Eval α, y.Ends m ∧ ∀ᶠ n in atTop, x n m = y m
  · obtain ⟨y, hends, hy⟩ := h
    obtain ⟨n, hn⟩ := hy.exists
    refine .inl ⟨n, fun m' hrun => hends m' (hn.symm.trans hrun), ?_⟩
    exact (limit_eq hm hends hy).trans hn.symm
  · refine .inr ?_
    unfold limit
    rw [if_pos hm, dif_neg h]

theorem limit_fixes {view : Machine → β} (hx : ∀ n, (x n).Fixes view) (hfallback : fallback.Fixes view) :
    (limit x fallback).Fixes view := by
  intro m
  by_cases hm : Contract.walks.Sound m
  · obtain ⟨n, -, heq⟩ | heq := limit_cases x fallback hm
    · rw [after_congr heq, hx n m]
    · rw [after_congr heq, hfallback m]
  · rw [after_error (limit_of_unsound hm)]

theorem limit_runs {P Q : Machine → α → Prop} (hx : ∀ n, Contract.handles.Runs A m (x n) P)
    (hPQ : ∀ m' a, P m' a → Q m' a) (hfallback : Contract.walks.Runs A m fallback Q) :
    Contract.walks.Runs A m (limit x fallback) Q := by
  intro hA hm
  obtain ⟨n, hends, heq⟩ | heq := limit_cases x fallback hm
  · have hrun : Contract.walks.Runs A m (x n) Q := (hx n).unbounded (fun _ => hends) hPQ
    rw [heq]
    exact hrun hA hm
  · rw [heq]
    exact hfallback hA hm

end Eval

namespace Evaluator

/-- Drops the labels before a statement and fails. -/
def failStatement : Eval Completion := do
  discard (takeLabels .empty)
  fault .noRunningContext

/-- The limit of the evaluators of all levels. -/
noncomputable def unbounded : Evaluator where
  expression e := .limit (fun n => (level n).expression e) (fault .noRunningContext)
  statement s := .limit (fun n => (level n).statement s) failStatement

theorem failStatement_labels (m : Machine) : (failStatement.after m).labels = [] := by
  have hlabels := takeLabels_labels (s := .empty) nofun m
  unfold failStatement
  rw [discard_eq]
  cases h : takeLabels .empty m with
  | ok labels m' =>
    rw [Eval.after_ok h] at hlabels
    rw [bind_assoc, Eval.after_bind_ok h]
    exact hlabels
  | error e m' =>
    rw [Eval.after_error h] at hlabels
    rw [bind_assoc, Eval.after_error (bind_error h)]
    exact hlabels

theorem unbounded_restores : unbounded.Restores where
  expression e := Eval.limit_fixes (fun n => (level_restores n).expression e) (.fault _)
  statement s := by
    refine Eval.limit_fixes (fun n => (level_restores n).statement s) ?_
    exact .bind (.discard (takeLabels_fixes_frame _)) fun _ => .fault _
  labels s m hends := by
    by_cases hm : Contract.walks.Sound m
    · obtain ⟨n, hends', heq⟩ | heq := Eval.limit_cases (fun n => (level n).statement s) failStatement hm
      · exact (congrArg Machine.labels (Eval.after_congr heq)).trans ((level_restores n).labels s m hends')
      · exact (congrArg Machine.labels (Eval.after_congr heq)).trans (failStatement_labels m)
    · exact absurd (Eval.limit_of_unsound hm) (hends m)

theorem unbounded_keeps : unbounded.Keeps Contract.walks where
  restores := unbounded_restores
  expression A m e he := by
    have hlevels (n : Nat) := (level_keeps (g := Contract.handles) trivial n).expression A m e False.elim
    refine Eval.limit_runs hlevels (fun _ _ => .weaken (Contract.walks_weaker _)) (.throw ?_)
    exact False.elim
  statement A m env j attached s _ _ _ := by
    have hlevels (n : Nat) := (level_keeps (g := Contract.handles) trivial n).statement A m env j attached
      s False.elim False.elim ⟨False.elim, False.elim⟩
    refine Eval.limit_runs hlevels (fun _ _ => .weaken (Contract.walks_weaker _)) ?_
    have htake := takeLabels_runs (s := .empty) nofun (Contract.walks_hoists A m env [])
    have hdrop : Contract.walks.Runs A m (discard (takeLabels .empty)) fun _ _ => True :=
      .discard (htake.imp fun _ _ _ _ _ => trivial)
    exact .seq hdrop fun _ _ _ _ _ _ => .throw False.elim

end Evaluator

end EcmaEval
