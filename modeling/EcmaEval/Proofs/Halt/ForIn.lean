import EcmaEval.Proofs.Halt.Limit
import EcmaEval.Proofs.Halt.Statement

/-!
# For-in loops end

The body of a for-in loop may add keys to the objects that are still to be visited, so the keys of a
machine do not bound the loop. But prototypes stay, and the keys of an object are listed once, when its
visit begins. So with each iteration less of the enumeration is left: fewer objects, or fewer keys of the
same object. Once there are enough iterations, further ones make no difference.
-/
namespace EcmaEval

variable {m : Machine}

namespace Eval

/-- Runs that differ in what follows a run they share. -/
theorem exists_ends_bind {x : Eval α} {f : Nat → α → Eval β} (hx : x.Ends m)
    (hf : ∀ a m', x m = .ok a m' → ∃ n, (f n a).Ends m') : ∃ n, (x >>= f n).Ends m := by
  cases h : x m with
  | error e m' =>
    refine ⟨0, fun m'' hrun => hx m'' ?_⟩
    cases (bind_error h).symm.trans hrun
    exact h
  | ok a m' =>
    obtain ⟨n, hn⟩ := hf a m' h
    exact ⟨n, fun m'' hrun => hn m'' ((bind_ok h).symm.trans hrun)⟩

theorem Ends.pure (a : α) (m : Machine) : Ends (pure a : Eval α) m := fun _ h => by cases h

theorem Ends.map {x : Eval α} (hx : x.Ends m) (g : α → β) :
    Ends (x >>= fun a => Pure.pure (g a)) m := by
  intro m' hrun
  cases h : x m with
  | error e m₁ =>
    cases (bind_error h).symm.trans hrun
    exact hx m' h
  | ok a m₁ => cases (bind_ok h).symm.trans hrun

theorem Ends.completing {x : Eval Completion} (hx : x.Ends m) : (completing x).Ends m := by
  intro m' hrun
  unfold EcmaEval.completing at hrun
  split at hrun
  · cases hrun
  · exact hx m' hrun

/-- The second run does as the first, where that one does not run out of levels. -/
def Prolongs (y x : Eval α) : Prop := ∀ m, x.Ends m → y m = x m

namespace Prolongs

variable {x y : Eval α} {f g : α → Eval β}

@[refl] theorem refl (x : Eval α) : x.Prolongs x := fun _ _ => rfl

theorem bind (hx : y.Prolongs x) (hf : ∀ a, (g a).Prolongs (f a)) : Prolongs (y >>= g) (x >>= f) := by
  intro m hends
  have hsame := hx m fun m' hm' => hends m' (bind_error hm')
  cases h : x m with
  | error e m' => rw [bind_error h, bind_error (hsame.trans h)]
  | ok a m' =>
    rw [bind_ok h, bind_ok (hsame.trans h)]
    exact hf a m' fun m'' hm'' => hends m'' ((bind_ok h).trans hm'')

theorem completing {x y : Eval Completion} (hx : y.Prolongs x) :
    Prolongs (completing y) (completing x) := by
  intro m hends
  have hsame := hx m fun m' hm' => hends m' (by simp [EcmaEval.completing, hm'])
  simp only [EcmaEval.completing, hsame]

end Prolongs

end Eval

theorem Contract.Runs.ends {x : Eval α} {Q : Machine → α → Prop} (hx : walks.Runs m.grant m x Q)
    (hm : walks.Sound m) : x.Ends m := fun m' => hx.ne_exhausted hm id m'

namespace Evaluator

section

variable (ev : Evaluator) {steps steps' : Nat} (hsteps : steps ≤ steps')

include hsteps

theorem forInIterations_prolongs (target : ForTarget) (body : Statement) (labels : List String)
    (outer : EnvId) (it : KeyIterator) (last : Value) :
    (ev.forInIterations target body labels outer steps' it last).Prolongs
      (ev.forInIterations target body labels outer steps it last) := by
  induction steps generalizing steps' it last with
  | zero => exact fun m hends => absurd rfl (hends m)
  | succ steps ih =>
    obtain ⟨steps', rfl⟩ := Nat.exists_eq_add_of_le' hsteps
    refine .bind (.refl _) fun next => ?_
    cases next with
    | none => exact .refl _
    | some next =>
      refine .bind (.refl _) fun c => ?_
      split
      · exact .refl _
      · exact ih (Nat.le_add_left ..) next.2 _

/-- More iterations make no difference to a statement without loops, once it ends. -/
theorem execute_prolongs {s : Statement} (hs : s.LoopFree) :
    (ev.execute steps' s).Prolongs (ev.execute steps s) := by
  refine .completing (.bind (.refl _) fun labels => ?_)
  cases hs with
  | forIn ht hs hb =>
    refine .bind (.bind (.refl _) fun outer => .bind (.refl _) fun v => ?_) fun _ => .refl _
    split
    · exact .refl _
    · exact .bind (.refl _) fun o => ev.forInIterations_prolongs hsteps _ _ labels outer _ _
  | @returns value h => cases value <;> exact .refl _
  | _ => exact .refl _

end

variable {lim : Evaluator} (hlim : lim.Keeps Contract.walks) {limit depth : Nat} {target : ForTarget}
  {source : Expression} {body : Statement} {labels : List String}

include hlim

theorem forInIterations_ends (ht : lim.BindsTarget limit depth target)
    (hb : lim.Converges limit depth (·.statement body)) {outer : EnvId} {it : KeyIterator} {last : Value}
    {l : List ObjectId} (hm : Contract.walks.Sound m) (htame : m.Tame limit depth)
    (houter : outer.Within m.bounds) (hl : m.Chain it.object l) :
    ∃ n, (lim.forInIterations target body labels outer n it last).Ends m := by
  induction hrank : it.rank l using WellFoundedLT.induction generalizing m it l last with
  | ind rank ih =>
    suffices h : ∃ n, (lim.forInIterations target body labels outer (n + 1) it last).Ends m from
      have ⟨n, hn⟩ := h
      ⟨n + 1, hn⟩
    have hnext : Contract.walks.Runs m.grant m (liftM it.next) fun _ next =>
        ∀ key it', next = some (key, it') → it.Advances m l it' :=
      .ask (KeyIterator.next_asks hl) fun _ _ h => h
    refine Eval.exists_ends_bind (hnext.ends hm) fun next m₁ hrun => ?_
    have hadvances := (hnext.ok (.refl _) hm hrun).2
    obtain ⟨rfl, -⟩ := lift_eq_ok hrun
    cases next with
    | none => exact ⟨0, .pure _ _⟩
    | some next =>
      obtain ⟨l', hl', hless⟩ := hadvances next.1 next.2 rfl
      have hiteration : Contract.walks.Runs m₁.grant m₁ (withLexicalEnv outer do
          lim.bindForTarget outer target (.string next.1)
          lim.statement body) fun m' c => Contract.walks.Ends m' (Jumps.top.loop []) c :=
        forInIteration_runs hlim False.elim False.elim houter False.elim next.1
      refine Eval.exists_ends_bind (hiteration.ends hm) fun c m₂ hbody => ?_
      split
      · exact ⟨0, .pure _ _⟩
      have hsteps := (hiteration.ok (.refl _) hm hbody).1
      have hcalm : m₁.Calm m₂ := Eval.after_ok hbody ▸ (forInIteration_converges ht hb outer next.1 m₁ htame).2
      exact ih _ (hrank ▸ hless) (hsteps.sound hm) (htame.calm hcalm)
        (Nat.lt_of_lt_of_le houter (hsteps.bounds hm).2.1) (hcalm.chain hl') rfl

theorem forIn_ends (ht : lim.BindsTarget limit depth target)
    (hs : lim.Converges limit depth (·.expression source))
    (hb : lim.Converges limit depth (·.statement body)) (hm : Contract.walks.Sound m)
    (htame : m.Tame limit depth) : ∃ n, (lim.forIn n target source body labels).Ends m := by
  have hscope : Contract.walks.Runs m.grant m (liftM lexicalEnv) fun _ env => env.Within m.bounds :=
    .ask lexicalEnv_asks fun _ _ h => h
  refine Eval.exists_ends_bind (hscope.ends hm) fun outer m₁ hrun => ?_
  have houter := (hscope.ok (.refl _) hm hrun).2
  obtain ⟨rfl, -⟩ := lift_eq_ok hrun
  have hsource : Contract.walks.Runs m₁.grant m₁ (lim.forInSource target source) _ :=
    forInSource_runs hlim False.elim False.elim
  refine Eval.exists_ends_bind (hsource.ends hm) fun v m₂ hrun₂ => ?_
  obtain ⟨hsteps₂, hv⟩ := hsource.ok (.refl _) hm hrun₂
  have hcalm₂ : m₁.Calm m₂ := Eval.after_ok hrun₂ ▸ (forInSource_converges hs target m₁ htame).2
  have hm₂ := hsteps₂.sound hm
  split
  · exact ⟨0, .pure _ _⟩
  have hobject : Contract.walks.Runs m₂.grant m₂ v.toObject _ := Value.toObject_runs hv.1
  refine Eval.exists_ends_bind (hobject.ends hm₂) fun o m₃ hrun₃ => ?_
  obtain ⟨rfl, ho⟩ := (hobject.ok (.refl _) hm₂ hrun₃).2
  obtain ⟨l, hl⟩ := hm₂.chain (some o) fun p hp => by cases hp; exact ho
  exact forInIterations_ends hlim ht hb hm₂ (htame.calm hcalm₂)
    (Nat.lt_of_lt_of_le houter (hsteps₂.bounds hm).2.1) hl

theorem execute_forIn_ends (ht : lim.BindsTarget limit depth target)
    (hs : lim.Converges limit depth (·.expression source))
    (hb : lim.Converges limit depth (·.statement body)) (hm : Contract.walks.Sound m)
    (htame : m.Tame limit depth) : ∃ n, (lim.execute n (.forIn target source body)).Ends m := by
  suffices h : ∃ n, (takeLabels (.forIn target source body) >>= fun labels =>
      lim.executeWith n labels (.forIn target source body)).Ends m from
    have ⟨n, hn⟩ := h
    ⟨n, hn.completing⟩
  have htake := takeLabels_runs (s := .forIn target source body) (by simp)
    (Contract.walks_hoists m.grant m ⟨0⟩ [])
  refine Eval.exists_ends_bind (htake.ends hm) fun labels m₁ hrun => ?_
  have hm₁ := (htake.ok (.refl _) hm hrun).1.sound hm
  have hlabels : (takeLabels (.forIn target source body)).Calm := by grind
  have hcalm : m.Calm m₁ := Eval.after_ok hrun ▸ hlabels m
  obtain ⟨n, hn⟩ := forIn_ends hlim ht hs hb hm₁ (htame.calm hcalm)
  exact ⟨n, hn.map _⟩

end Evaluator

end EcmaEval
