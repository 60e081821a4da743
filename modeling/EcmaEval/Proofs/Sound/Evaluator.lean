import EcmaEval.Proofs.Sound.Function

/-!
# Evaluators that keep a machine sound

What the evaluation of a part has to guarantee so that the evaluation of the whole does. An expression
gives an operand. A statement finds the names it declares with `let` or `const` waiting in the running
scope, and ends in a way that the code around it expects.
-/
namespace EcmaEval

variable {g : Contract} {A : Grant} {m m' : Machine}

namespace Contract

/-- The names of a pattern: with an environment they are initialized there, in checked code each of
them once. -/
structure Binds (g : Contract) (A : Grant) (m : Machine) (env : Option EnvId) (names : List String) :
    Prop where
  within : ∀ e, env = some e → e.Within m.bounds
  nodup : g.checked → env ≠ none → names.Nodup
  waiting : g.checked → ∀ e, env = some e → ∀ n ∈ names, m.Waiting e n
  declare : g.checked → ∀ e, env = some e → ∀ n ∈ names, A.declare e n

theorem Binds.none (g : Contract) (A : Grant) (m : Machine) (names : List String) :
    g.Binds A m none names := ⟨by simp, by simp, by simp, by simp⟩

theorem Binds.nil {env : EnvId} (henv : env.Within m.bounds) : g.Binds A m (some env) [] :=
  ⟨fun e he => by cases he; exact henv, by simp, by simp, by simp⟩

theorem Binds.steps {env : Option EnvId} {names : List String} (h : g.Binds A m env names)
    (hm : g.Sound m) (hsteps : g.Steps m.grant m m') : g.Binds A m' env names where
  within e he := Nat.lt_of_lt_of_le (h.within e he) (hsteps.bounds hm).2.1
  nodup := h.nodup
  waiting hc e he n hn := hsteps.waiting hm hc (Machine.not_grant_declare (h.within e he) n)
    (h.waiting hc e he n hn)
  declare := h.declare

/-- Binding some of the names leaves the others waiting. -/
theorem Binds.rest {e : EnvId} {ns ms : List String} (h : g.Binds A m (some e) (ns ++ ms))
    (hm : g.Sound m) (hsteps : g.Steps (m.grant.declaring e ns) m m') : g.Binds A m' (some e) ms where
  within e' he' := by
    cases he'
    exact Nat.lt_of_lt_of_le (h.within e rfl) (hsteps.bounds hm).2.1
  nodup hc _ := (List.nodup_append.mp (h.nodup hc (by simp))).2.1
  waiting hc e' he' n hn := by
    cases he'
    have hdisjoint := (List.nodup_append.mp (h.nodup hc (by simp))).2.2
    refine hsteps.waiting hm hc ?_ (h.waiting hc e rfl n (List.mem_append_right _ hn))
    rintro (hgrant | ⟨-, hmem⟩)
    · exact Machine.not_grant_declare (h.within e rfl) n hgrant
    · exact hdisjoint n hmem n hn rfl
  declare hc e' he' n hn := h.declare hc e' he' n (List.mem_append_right _ hn)

/-- A run that binds the first of some names, followed by one that may bind the others. -/
theorem Runs.bindNames {x : Eval α} {f : α → Eval β} {P : Machine → α → Prop}
    {Q : Machine → β → Prop} {env : Option EnvId} {ns ms : List String}
    (h : g.Binds A m env (ns ++ ms)) (hx : ∀ B, g.Binds B m env ns → g.Runs B m x P)
    (hf : ∀ a m', x m = .ok a m' → g.Sound m' → m.bounds ≤ m'.bounds → P m' a →
      g.Binds A m' env ms → g.Runs A m' (f a) Q) : g.Runs A m (x >>= f) Q := by
  refine .of_sound fun hm => ?_
  cases env with
  | none =>
    refine .bind (hx _ (.none g _ m ns)) fun a m' hrun hsteps hm' hP => ?_
    exact hf a m' hrun hm' (hsteps.bounds hm) hP (.none g A m' ms)
  | some e =>
    have hnames : g.Binds (m.grant.declaring e ns) m (some e) ns :=
      ⟨h.within, fun hc he => (List.nodup_append.mp (h.nodup hc he)).1,
        fun hc e' he' n hn => h.waiting hc e' he' n (List.mem_append_left _ hn),
        fun _ e' he' n hn => by cases he'; exact .inr ⟨rfl, hn⟩⟩
    refine .bindDeclaring ns (fun hc n hn => h.declare hc e rfl n (List.mem_append_left _ hn))
      (hx _ hnames) fun a m' hrun hsteps hm' hP => ?_
    exact hf a m' hrun hm' (hsteps.bounds hm) hP (h.rest hm hsteps)

/-- The block-scoped names of checked code are waiting in the running scope. -/
structure Hoists (g : Contract) (A : Grant) (m : Machine) (env : EnvId) (names : List String) :
    Prop where
  scope : g.checked → lexicalEnv m = .ok env
  binds : g.checked → g.Binds A m (some env) names

theorem Hoists.steps {env : EnvId} {names : List String} (h : g.Hoists A m env names)
    (hm : g.Sound m) (hsteps : g.Steps m.grant m m') (hscope : lexicalEnv m' = lexicalEnv m) :
    g.Hoists A m' env names :=
  ⟨fun hc => hscope.trans (h.scope hc), fun hc => (h.binds hc).steps hm hsteps⟩

/-- Without names to declare only the scope matters. -/
theorem Hoists.nil {env : EnvId} (h : g.checked → lexicalEnv m = .ok env) (hm : g.Sound m) :
    g.Hoists A m env [] := by
  refine ⟨h, fun hc => .nil ?_⟩
  have hscope : g.Asks m EcmaEval.lexicalEnv _ := lexicalEnv_asks
  have hwithin := hscope hm
  rw [h hc] at hwithin
  exact hwithin

/-- A run that declares the first of some names, followed by one that may declare the others. -/
theorem Runs.bindHoisted {x : Eval α} {f : α → Eval β} {P : Machine → α → Prop}
    {Q : Machine → β → Prop} {env : EnvId} {ns ms : List String}
    (h : g.Hoists A m env (ns ++ ms)) (hx : ∀ B, g.Hoists B m env ns → g.Runs B m x P)
    (hframe : x.Fixes Machine.frame)
    (hf : ∀ a m', x m = .ok a m' → g.Sound m' → m.bounds ≤ m'.bounds → P m' a →
      g.Hoists A m' env ms → g.Runs A m' (f a) Q) : g.Runs A m (x >>= f) Q := by
  by_cases hc : g.checked
  · refine .bindNames (P := P) (h.binds hc) (fun B hB => hx B ⟨h.scope, fun _ => hB⟩) ?_
    intro a m' hrun hm' hb hP hrest
    refine hf a m' hrun hm' hb hP ⟨fun _ => ?_, fun _ => hrest⟩
    exact (lexicalEnv_of_frame (hframe.of_ok hrun)).trans (h.scope hc)
  · refine .of_sound fun hm => .bind (hx _ ⟨(absurd · hc), (absurd · hc)⟩) ?_
    intro a m' hrun hsteps hm' hP
    exact hf a m' hrun hm' (hsteps.bounds hm) hP ⟨(absurd · hc), (absurd · hc)⟩

/-- A value that may be missing. -/
def StoredOption (g : Contract) (b : Bounds) (v : Option Value) : Prop := ∀ w, v = some w → g.Stored b w

/-- A completion with values in range. Checked code jumps only where the code around it takes it. -/
def Ends (g : Contract) (m : Machine) (j : Jumps) : Completion → Prop
  | .normal v => g.StoredOption m.bounds v
  | .returned v => g.Stored m.bounds v
  | .thrown v => g.Stored m.bounds v
  | .broke target v => g.StoredOption m.bounds v ∧ (g.checked → j.Breaks target)
  | .continued target v => g.StoredOption m.bounds v ∧ (g.checked → j.Continues target)

variable {j : Jumps} {c : Completion}

theorem Ends.value (h : g.Ends m j c) : g.StoredOption m.bounds c.value? := by
  cases c with
  | normal v => exact h
  | returned v => exact fun w hw => by cases hw; exact h
  | thrown v => exact fun w hw => by cases hw; exact h
  | broke target v => exact h.1
  | continued target v => exact h.1

theorem Ends.updateEmpty (h : g.Ends m j c) {fill : Option Value}
    (hfill : g.StoredOption m.bounds fill) : g.Ends m j (c.updateEmpty fill) := by
  cases c with
  | normal v => cases v <;> assumption
  | returned v => exact h
  | thrown v => exact h
  | broke target v =>
    cases v with
    | none => exact ⟨hfill, h.2⟩
    | some v => exact h
  | continued target v =>
    cases v with
    | none => exact ⟨hfill, h.2⟩
    | some v => exact h

theorem StoredOption.mono {b b' : Bounds} (hb : b ≤ b') {v : Option Value} (h : g.StoredOption b v) :
    g.StoredOption b' v := fun w hw => (h w hw).mono hb

theorem Ends.mono {m' : Machine} (hb : m.bounds ≤ m'.bounds) (h : g.Ends m j c) : g.Ends m' j c := by
  cases c with
  | normal v => exact StoredOption.mono hb h
  | returned v => exact h.mono hb
  | thrown v => exact h.mono hb
  | broke target v => exact ⟨h.1.mono hb, h.2⟩
  | continued target v => exact ⟨h.1.mono hb, h.2⟩

theorem StoredOption.undefined (g : Contract) (b : Bounds) : g.StoredOption b (some .undefined) := by
  intro w hw
  cases hw
  exact ⟨trivial, fun _ => rfl⟩

theorem StoredOption.getD {b : Bounds} {v : Option Value} (h : g.StoredOption b v) {w : Value}
    (hw : g.Stored b w) : g.Stored b (v.getD w) := by
  cases v with
  | none => exact hw
  | some v => exact h v rfl

end Contract

/-- Every expression and every statement runs, and gives what the code around it expects. -/
structure Evaluator.Keeps (ev : Evaluator) (g : Contract) : Prop where
  restores : ev.Restores
  expression : ∀ (A : Grant) (m : Machine) (e : Expression), (g.checked → e.Valid) →
    g.Runs A m (ev.expression e) fun m' v => g.Operand m' v
  statement : ∀ (A : Grant) (m : Machine) (env : EnvId) (j : Jumps) (attached : List String)
    (s : Statement), (g.checked → s.Valid j attached) → (g.checked → ∀ l ∈ attached, l ∈ m.labels) →
    g.Hoists A m env s.letNames → g.Runs A m (ev.statement s) fun m' c => g.Ends m' j c

namespace Evaluator

variable {ev : Evaluator} (hev : ev.Keeps g)

include hev

theorem value_runs {e : Expression} (he : g.checked → e.Valid) :
    g.Runs A m (ev.value e) fun m' v => g.Stored m'.bounds v :=
  .bind (hev.expression _ m e he) fun _ _ _ _ _ hv => Value.getValue_runs hv

theorem valueNamed_runs {e : Expression} {name : Key} (he : g.checked → e.Valid) :
    g.Runs A m (ev.valueNamed e name) fun m' v => g.Stored m'.bounds v := by
  cases e with
  | function code =>
    have hcode (hc : g.checked) : code.Valid := by
      cases he hc
      assumption
    unfold valueNamed
    dsimp only
    split
    · exact .bind (instantiateExpression_runs hcode) fun _ _ _ _ _ hf => .pure (.object hf)
    · exact value_runs hev he
  | arrow code =>
    have hcode (hc : g.checked) : code.Valid := by
      cases he hc
      assumption
    exact .bind (instantiateArrow_runs hcode) fun _ _ _ _ _ hf => .pure (.object hf)
  | _ => exact value_runs hev he

theorem values_runs {es : List Expression} (hes : g.checked → ∀ e ∈ es, e.Valid) :
    g.Runs A m (ev.values es) fun m' vs => ∀ v ∈ vs, g.Stored m'.bounds v := by
  induction es generalizing A m with
  | nil => exact .pure (by simp)
  | cons e rest ih =>
    refine .bind (value_runs hev fun hc => hes hc e (by simp)) fun v m₁ _ _ hm₁ hv => ?_
    refine .bind (ih fun hc e he => hes hc e (by simp [he])) fun vs m₂ _ hsteps _ hvs => ?_
    refine .pure fun w hw => ?_
    rcases List.mem_cons.mp hw with rfl | hw
    · exact hv.mono (hsteps.bounds hm₁)
    · exact hvs w hw

theorem memberKey_runs {name : MemberName} (hname : g.checked → name.Valid) :
    g.Runs A m (ev.memberKey name) fun _ _ => True := by
  cases name with
  | computed key =>
    have hkey (hc : g.checked) : key.Valid := by
      cases hname hc
      assumption
    refine .bind (value_runs hev hkey) fun v _ _ _ _ hv => ?_
    exact (Value.toKey_runs hv).imp fun _ _ _ _ _ => trivial
  | _ => exact .pure trivial

/-- A statement list declares the names of its statements, each when it comes to it. -/
theorem statements_runs {body : List Statement} {last : Option Value} {env : EnvId} {j : Jumps}
    (hbody : g.checked → ∀ s ∈ body, s.Valid j [])
    (hnames : g.Hoists A m env (body.flatMap Statement.letNames))
    (hlast : g.StoredOption m.bounds last) :
    g.Runs A m (ev.statements body last) fun m' c => g.Ends m' j c := by
  induction body generalizing m last with
  | nil => exact .pure hlast
  | cons s rest ih =>
    rw [List.flatMap_cons] at hnames
    refine .bindHoisted hnames (fun B hB => hev.statement B m env j [] s
      (fun hc => hbody hc s (by simp)) (by simp) hB) (hev.restores.statement s) ?_
    intro c m' _ _ hb hends hrest
    have hlast' := hlast.mono hb
    cases c with
    | normal value =>
      refine ih (fun hc s hs => hbody hc s (by simp [hs])) hrest ?_
      cases value with
      | none => exact hlast'
      | some v => exact hends
    | _ => exact .pure (hends.updateEmpty hlast')

end Evaluator

end EcmaEval
