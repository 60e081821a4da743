import EcmaEval.Proofs.Sound.Evaluator

/-!
# Binding patterns keeps a machine sound

A pattern binds its names from left to right, and evaluates defaults and computed keys in between.
What is still to be bound keeps waiting meanwhile.
-/
namespace EcmaEval

variable {g : Contract} {A : Grant} {m : Machine} {value : Value} {env : Option EnvId}

theorem bindName_runs {name : String} (hname : g.Binds A m env [name])
    (hv : g.Stored m.bounds value) : g.Runs A m (bindName env name value) fun _ _ => True := by
  cases env with
  | none =>
    refine .query (resolveBinding_asks (by simp)) fun target _ htarget => ?_
    exact Value.putValue_runs htarget hv
  | some env =>
    exact EnvId.initBinding_runs (hname.within env rfl) hv
      (fun hc => hname.declare hc env rfl name (by simp))
      fun hc => hname.waiting hc env rfl name (by simp)

theorem copyKeys_runs {target source : ObjectId} {keys : List Key} (ht : target.Within m.bounds)
    (hs : source.Within m.bounds) : g.Runs A m (copyKeys target source keys) fun _ _ => True := by
  induction keys generalizing m with
  | nil => exact .pure trivial
  | cons key rest ih =>
    unfold copyKeys
    refine .of_sound fun hm => .query (ObjectId.getOwnProperty_asks hs) fun d _ _ => ?_
    cases d with
    | none => exact ih ht hs
    | some d =>
      dsimp only
      split
      · refine .query (ObjectId.get_asks hs) fun v _ hv => ?_
        refine .bind (ObjectId.createPropertyOrThrow_runs ht hv) fun _ m' _ hsteps _ _ => ?_
        have hb := hsteps.bounds hm
        exact ih (Nat.lt_of_lt_of_le ht hb.1) (Nat.lt_of_lt_of_le hs hb.1)
      · exact ih ht hs

theorem copyProperties_runs {target source : ObjectId} {excluded : List Key}
    (ht : target.Within m.bounds) (hs : source.Within m.bounds) :
    g.Runs A m (copyProperties target source excluded) fun _ _ => True :=
  .query (ObjectId.ownKeys_asks hs) fun _ _ _ => copyKeys_runs ht hs

namespace Evaluator

variable {ev : Evaluator} (hev : ev.Keeps g)

include hev

mutual

/-- The names of a pattern are bound, those of each part after those of the parts before it. -/
theorem bindPattern_runs (A : Grant) (m : Machine) (env : Option EnvId) (p : Pattern) (value : Value)
    (hp : g.checked → p.Valid) (hnames : g.Binds A m env p.boundNames)
    (hv : g.Stored m.bounds value) : g.Runs A m (ev.bindPattern env p value) fun _ _ => True := by
  cases p with
  | identifier name =>
    unfold Pattern.boundNames at hnames
    exact bindName_runs hnames hv
  | array elements => exact .unsupported _
  | object members =>
    unfold Pattern.boundNames at hnames
    have hmembers (hc : g.checked) : ∀ p ∈ members, p.Valid := by
      cases hp hc
      assumption
    unfold bindPattern
    split
    · exact .complain _
    · refine .bind (Value.toObject_runs hv.1) fun source _ _ _ _ hobject => ?_
      obtain ⟨hm', hsource⟩ := hobject
      subst hm'
      exact bindMembers_runs A _ env source members [] hmembers hnames hsource
  | withDefault target default =>
    unfold Pattern.boundNames at hnames
    have htarget (hc : g.checked) : target.Valid := by
      cases hp hc
      assumption
    have hdefault (hc : g.checked) : default.Valid := by
      cases hp hc
      assumption
    have hbind (x : Eval Value) (hx : g.Runs m.grant m x fun m' v => g.Stored m'.bounds v) :
        g.Runs A m (x >>= fun v => ev.bindPattern env target v) fun _ _ => True := by
      refine .of_sound fun hm => .bind hx fun v m' _ hsteps _ hv' => ?_
      exact bindPattern_runs A m' env target v htarget (hnames.steps hm hsteps) hv'
    unfold bindPattern
    split
    · split
      · exact hbind _ (valueNamed_runs hev hdefault)
      · exact hbind _ (value_runs hev hdefault)
    · exact hbind _ (.pure hv)
  | rest target => exact .breach _ fun hc => by cases hp hc

theorem bindMembers_runs (A : Grant) (m : Machine) (env : Option EnvId) (source : ObjectId)
    (members : List PatternMember) (taken : List Key) (hmembers : g.checked → ∀ p ∈ members, p.Valid)
    (hnames : g.Binds A m env (Pattern.memberNames members)) (hsource : source.Within m.bounds) :
    g.Runs A m (ev.bindMembers env source members taken) fun _ _ => True := by
  cases members with
  | nil => exact .pure trivial
  | cons member rest =>
    have hrest (hc : g.checked) (p : PatternMember) (hp : p ∈ rest) : p.Valid :=
      hmembers hc p (by simp [hp])
    have hmember (hc : g.checked) : member.Valid := hmembers hc member (by simp)
    refine .of_sound fun hm => ?_
    cases member with
    | shorthand name default =>
      have hdefault (hc : g.checked) : ∀ e, default = some e → e.Valid := by
        cases hmember hc
        assumption
      -- whichever value the default leaves, the name is bound and the other members follow
      have hbind (x : Eval Value) (hx : g.Runs m.grant m x fun m' v => g.Stored m'.bounds v) :
          g.Runs A m (do
            let v ← x
            bindName env name v
            ev.bindMembers env source rest (taken ++ [.name name])) fun _ _ => True := by
        refine .bind hx fun v m₁ _ hsteps hm₁ hv => ?_
        have hsource₁ := Nat.lt_of_lt_of_le hsource (hsteps.bounds hm).1
        have hnames₁ : g.Binds A m₁ env ([name] ++ Pattern.memberNames rest) := hnames.steps hm hsteps
        refine .bindNames hnames₁ (fun B hB => bindName_runs hB hv) fun _ m₂ _ _ hb _ hnames₂ => ?_
        exact bindMembers_runs A m₂ env source rest _ hrest hnames₂ (Nat.lt_of_lt_of_le hsource₁ hb.1)
      unfold bindMembers
      refine .query (ObjectId.get_asks hsource) fun v _ hv => ?_
      cases default with
      | none => exact hbind _ (.pure hv)
      | some default =>
        dsimp only
        split
        · exact hbind _ (valueNamed_runs hev fun hc => hdefault hc default rfl)
        · exact hbind _ (.pure hv)
    | keyed name target =>
      have hname (hc : g.checked) : name.Valid := by
        cases hmember hc
        assumption
      have htarget (hc : g.checked) : target.Valid := by
        cases hmember hc
        assumption
      unfold bindMembers
      refine .bind (memberKey_runs hev hname) fun key m₁ _ hsteps hm₁ _ => ?_
      have hsource₁ := Nat.lt_of_lt_of_le hsource (hsteps.bounds hm).1
      have hnames₁ : g.Binds A m₁ env (target.boundNames ++ Pattern.memberNames rest) :=
        hnames.steps hm hsteps
      refine .query (ObjectId.get_asks hsource₁) fun v _ hv => ?_
      refine .bindNames hnames₁ (fun B hB => bindPattern_runs B m₁ env target v htarget hB hv) ?_
      intro _ m₂ _ _ hb _ hnames₂
      exact bindMembers_runs A m₂ env source rest _ hrest hnames₂ (Nat.lt_of_lt_of_le hsource₁ hb.1)
    | rest name =>
      unfold bindMembers
      -- what is left of the source is copied, and the name of the rest is bound after that
      refine .query intrinsics_asks fun i _ hi => ?_
      refine .bind (newObject_runs fun p hp => by cases hp; exact hi.objectPrototype)
        fun others m₁ _ hsteps₁ hm₁ hnew => ?_
      obtain ⟨heq, hothers⟩ := hnew
      have hothers₁ : others.Within m₁.bounds := by
        rw [heq, hothers]
        exact Machine.size_within _
      have hsource₁ := Nat.lt_of_lt_of_le hsource (hsteps₁.bounds hm).1
      refine .bind (copyProperties_runs hothers₁ hsource₁) fun _ m₂ _ hsteps₂ hm₂ _ => ?_
      have hb₂ := hsteps₂.bounds hm₁
      have hnames₂ : g.Binds A m₂ env ([name] ++ Pattern.memberNames rest) :=
        (hnames.steps hm hsteps₁).steps hm₁ hsteps₂
      refine .bindNames hnames₂ (fun B hB => bindName_runs hB
        (.object (Nat.lt_of_lt_of_le hothers₁ hb₂.1))) fun _ m₃ _ _ hb _ hnames₃ => ?_
      exact bindMembers_runs A m₃ env source rest _ hrest hnames₃
        (Nat.lt_of_lt_of_le (Nat.lt_of_lt_of_le hsource₁ hb₂.1) hb.1)

end

end Evaluator

end EcmaEval
