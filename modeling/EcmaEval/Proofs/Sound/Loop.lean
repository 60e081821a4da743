import EcmaEval.Proofs.Sound.Branch

/-!
# Loops keep a machine sound

A loop takes the jumps that are meant for it and passes on the others. The names of a `let` loop move
to a new environment with every iteration, so what a loop carries from one iteration to the next is
that the running scope, whichever it is, holds them.
-/
namespace EcmaEval

variable {g : Contract} {A : Grant} {m m' : Machine} {env : EnvId} {j : Jumps}
  {labels attached names : List String}

/-- A jump that ends a loop is meant for the code around it, unless it is a `break` without a label. -/
theorem Contract.Ends.leave {c : Completion} (h : g.Ends m (j.loop attached) c)
    (hleave : c.loopContinues labels = false) (hlabels : g.checked → ∀ l ∈ attached, l ∈ labels) :
    g.Ends m j.switch c := by
  cases c with
  | normal v => cases hleave
  | continued target v =>
    cases target with
    | none => cases hleave
    | some l =>
      refine ⟨h.1, fun hc => (List.mem_append.mp (h.2 hc)).resolve_left fun hl => ?_⟩
      have hnot : l ∉ labels := by simpa [Completion.loopContinues] using hleave
      exact hnot (hlabels hc l hl)
  | broke target v => cases target <;> exact h
  | _ => exact h

/-- The running scope holds the names of a loop. -/
structure Contract.Carries (g : Contract) (m : Machine) (env : EnvId) (names : List String) :
    Prop where
  scope : g.checked → lexicalEnv m = .ok env
  declarative : g.checked → names ≠ [] → m.IsDeclarative env
  bound : g.checked → ∀ n ∈ names, m.Bound env n

theorem Contract.Carries.steps (h : g.Carries m env names) (hm : g.Sound m) (hsteps : g.Steps A m m')
    (hscope : lexicalEnv m' = lexicalEnv m) : g.Carries m' env names where
  scope hc := hscope.trans (h.scope hc)
  declarative hc hne := hsteps.isDeclarative hm (h.declarative hc hne)
  bound hc n hn := hsteps.bound hm hc (h.bound hc n hn)

/-- A loop without names of its own runs in any scope. -/
theorem Contract.Carries.nil (hscope : g.checked → lexicalEnv m = .ok env) : g.Carries m env [] :=
  ⟨hscope, by simp, by simp⟩

/-- A declarative environment of checked code has one around it. -/
theorem Contract.Sound.outer_isSome (hm : g.Sound m) (hc : g.checked) (hkind : m.IsDeclarative env)
    {e : Environment} (he : m.env? env = some e) : e.outer?.isSome = true := by
  obtain ⟨r, hr⟩ := hkind
  rw [he] at hr
  cases hr
  cases hm.environments env _ he with
  | declarative houter hroot hrecord => exact hroot hc

/-- The names of a loop are copied to a new scope. -/
theorem copyIterationEnv_runs (hloop : g.Carries m env names) (hnodup : g.checked → names.Nodup) :
    g.Runs A m (copyIterationEnv names) fun m' _ => ∃ env', g.Carries m' env' names := by
  refine .of_sound fun hm => ?_
  unfold copyIterationEnv
  split
  · exact .pure ⟨env, hloop⟩
  rename_i hempty
  have hne : names ≠ [] := by simpa using hempty
  refine .query lexicalEnv_asks fun last hrun hlast => ?_
  have hsame (hc : g.checked) : last = env := by
    rw [hloop.scope hc] at hrun
    cases hrun
    rfl
  refine .query (EnvId.load_asks hlast) fun e _ he => ?_
  split
  · rename_i hnone
    refine .breach _ fun hc => ?_
    have houter := hm.outer_isSome hc (hsame hc ▸ hloop.declarative hc hne) he
    simp [hnone] at houter
  · rename_i outer houter
    have hwithin : outer.Within m.bounds :=
      Nat.lt_trans ((hm.environments last e he).outer houter) hlast
    refine .seq (newDeclarativeEnvironment_opens hwithin) fun env' m₁ _ hsteps₁ hm₁ ⟨hopen, _⟩ => ?_
    have hoffers : g.Offers m last names := ⟨hlast, fun hc n hn => hsame hc ▸ hloop.bound hc n hn⟩
    refine .seq (declareInitialized_runs (I := fun m => g.Offers m last names)
      (fun h hm => h.offers hm) (fun m name h hname => EnvId.read_runs h.1 fun hc =>
        (h.2 hc name hname).resolves) (hsteps₁.offers hm hoffers) hopen.within hnodup
      (fun hc n _ => hopen.declare hc n) fun _ n _ => hopen.vacant n) ?_
    intro _ m₂ _ hsteps₂ hm₂ hbound
    have hkind : m₁.IsDeclarative env' :=
      have ⟨r, hr, _⟩ := hopen.empty
      ⟨r, hr⟩
    refine (setLexicalEnv_runs (Nat.lt_of_lt_of_le hopen.within (hsteps₂.bounds hm₁).2.1)).imp ?_
    rintro m₃ - - - ⟨c, cs, -, rfl⟩
    exact ⟨env', fun _ => lexicalEnv_cons (c := { c with lexicalEnv := env' })
      (show _ = _ :: cs from rfl), fun _ _ => hsteps₂.isDeclarative hm₁ hkind, hbound⟩

namespace Evaluator

/-- What a loop does with the completion of its body. -/
theorem afterBody_runs {c : Completion} {last : Value} {next : Eval Completion}
    (hends : g.Ends m (j.loop attached) c) (hlabels : g.checked → ∀ l ∈ attached, l ∈ labels)
    (hlast : g.Stored m.bounds last)
    (hnext : g.Stored m.bounds (c.value?.getD last) → g.Runs A m next fun m' c => g.Ends m' j.switch c) :
    g.Runs A m (if !c.loopContinues labels then pure (c.updateEmpty (some last)) else next)
      fun m' c => g.Ends m' j.switch c := by
  split
  · rename_i hleave
    have hleave : c.loopContinues labels = false := by simpa using hleave
    exact .pure ((hends.leave hleave hlabels).updateEmpty fun _ h => by cases h; exact hlast)
  · exact hnext (hends.value.getD hlast)

variable {ev : Evaluator} (hev : ev.Keeps g) (hbounded : g.bounded) {test update : Option Expression}
  {body : Statement} {steps : Nat} {last : Value}

include hev

theorem statement_scope {s : Statement} {c : Completion} (hrun : ev.statement s m = .ok c m') :
    lexicalEnv m' = lexicalEnv m := lexicalEnv_of_frame ((hev.restores.statement s).of_ok hrun)

theorem holds_runs (htest : g.checked → ∀ e, test = some e → e.Valid) :
    g.Runs A m (ev.holds test) fun m' _ => lexicalEnv m' = lexicalEnv m := by
  cases test with
  | none => exact .pure rfl
  | some e =>
    refine .bind (value_runs hev fun hc => htest hc e rfl) fun v m₁ hrun _ _ _ => ?_
    exact .pure ((value_keepsStack hev.restores e).lexicalEnv hrun)

variable (hlabels : g.checked → ∀ l ∈ attached, l ∈ labels)
  (hbody : g.checked → body.Valid (j.loop attached) []) (hnames : g.checked → body.letNames = [])

include hbounded hlabels hbody hnames

theorem whileLoop_runs {test : Expression} (htest : g.checked → test.Valid)
    (hscope : g.checked → lexicalEnv m = .ok env) (hlast : g.Stored m.bounds last) :
    g.Runs A m (ev.whileLoop test body labels steps last) fun m' c => g.Ends m' j.switch c := by
  induction steps generalizing m last with
  | zero => exact .throw hbounded
  | succ steps ih =>
    refine .of_sound fun hm => .bind (value_runs hev htest) fun v m₁ hrun₁ hsteps₁ hm₁ _ => ?_
    have hscope₁ := value_scope hev hrun₁ hscope
    have hlast₁ := hlast.mono (hsteps₁.bounds hm)
    split
    · exact .pure fun _ h => by cases h; exact hlast₁
    refine .seq (inner_runs hev hbody hnames hscope₁) fun c m₂ hrun₂ hsteps₂ _ hends => ?_
    refine afterBody_runs hends hlabels (hlast₁.mono (hsteps₂.bounds hm₁)) fun hlast₂ => ?_
    exact ih (fun hc => (statement_scope hev hrun₂).trans (hscope₁ hc)) hlast₂

theorem doWhileLoop_runs {test : Expression} (htest : g.checked → test.Valid)
    (hscope : g.checked → lexicalEnv m = .ok env) (hlast : g.Stored m.bounds last) :
    g.Runs A m (ev.doWhileLoop body test labels steps last) fun m' c => g.Ends m' j.switch c := by
  induction steps generalizing m last with
  | zero => exact .throw hbounded
  | succ steps ih =>
    refine .of_sound fun hm => .seq (inner_runs hev hbody hnames hscope) fun c m₁ hrun₁ hsteps₁ hm₁ hends => ?_
    have hscope₁ (hc : g.checked) := (statement_scope hev hrun₁).trans (hscope hc)
    refine afterBody_runs hends hlabels (hlast.mono (hsteps₁.bounds hm)) fun hlast₁ => ?_
    refine .bind (value_runs hev htest) fun v m₂ hrun₂ hsteps₂ _ _ => ?_
    have hlast₂ := hlast₁.mono (hsteps₂.bounds hm₁)
    split
    · exact .pure fun _ h => by cases h; exact hlast₂
    · exact ih (value_scope hev hrun₂ hscope₁) hlast₂

theorem forIterations_runs (htest : g.checked → ∀ e, test = some e → e.Valid)
    (hupdate : g.checked → ∀ e, update = some e → e.Valid) (hnodup : g.checked → names.Nodup)
    (hloop : g.Carries m env names) (hlast : g.Stored m.bounds last) :
    g.Runs A m (ev.forIterations test update body names labels steps last)
      fun m' c => g.Ends m' j.switch c := by
  induction steps generalizing m env last with
  | zero => exact .throw hbounded
  | succ steps ih =>
    refine .of_sound fun hm => .bind (holds_runs hev htest) fun v m₁ _ hsteps₁ hm₁ hscope₁ => ?_
    have hloop₁ := hloop.steps hm hsteps₁ hscope₁
    have hlast₁ := hlast.mono (hsteps₁.bounds hm)
    split
    · exact .pure fun _ h => by cases h; exact hlast₁
    refine .seq (inner_runs hev hbody hnames hloop₁.scope) fun c m₂ hrun₂ hsteps₂ hm₂ hends => ?_
    have hloop₂ := hloop₁.steps hm₁ hsteps₂ (statement_scope hev hrun₂)
    refine afterBody_runs hends hlabels (hlast₁.mono (hsteps₂.bounds hm₁)) fun hlast₂ => ?_
    refine .seq (copyIterationEnv_runs hloop₂ hnodup) fun _ m₃ _ hsteps₃ hm₃ ⟨env₃, hloop₃⟩ => ?_
    have hlast₃ := hlast₂.mono (hsteps₃.bounds hm₂)
    cases update with
    | none => exact ih hloop₃ hlast₃
    | some e =>
      have hdiscard : g.Runs m₃.grant m₃ (discard (ev.value e)) fun m' _ =>
          lexicalEnv m' = lexicalEnv m₃ :=
        .discard ((value_runs hev fun hc => hupdate hc e rfl).imp fun _ _ hrun _ _ =>
          (value_keepsStack hev.restores e).lexicalEnv hrun)
      refine .bind hdiscard fun _ m₄ _ hsteps₄ _ hscope₄ => ?_
      exact ih (hloop₃.steps hm₃ hsteps₄ hscope₄) (hlast₃.mono (hsteps₄.bounds hm₃))

theorem forBody_runs (htest : g.checked → ∀ e, test = some e → e.Valid)
    (hupdate : g.checked → ∀ e, update = some e → e.Valid) (hnodup : g.checked → names.Nodup)
    (hloop : g.Carries m env names) :
    g.Runs A m (ev.forBody steps test update body names labels) fun m' c => g.Ends m' j.switch c := by
  refine .seq (copyIterationEnv_runs hloop hnodup) fun _ m₁ _ _ _ ⟨env₁, hloop₁⟩ => ?_
  exact forIterations_runs hev hbounded hlabels hbody hnames htest hupdate hnodup hloop₁ (.undefined _)

/-- The names of a loop head are waiting in a scope of their own when the head is evaluated. -/
theorem forLexical_runs {constant : Bool} {declarators : List Declarator}
    (hdeclarators : g.checked → ∀ d ∈ declarators, d.Valid)
    (hnodup : g.checked → (declarators.flatMap (·.pattern.boundNames)).Nodup)
    (htest : g.checked → ∀ e, test = some e → e.Valid)
    (hupdate : g.checked → ∀ e, update = some e → e.Valid) :
    g.Runs A m (ev.forLexical steps constant declarators test update body labels)
      fun m' c => g.Ends m' j.switch c := by
  refine .query lexicalEnv_asks fun outer _ houter => ?_
  refine .seq (newDeclarativeEnvironment_opens houter) fun env m₁ _ _ hm₁ ⟨hopen, _⟩ => ?_
  refine .seq (Contract.Creates.forM g.lasts_free (env.createLexical_creates constant) hnodup A m₁
    hopen.within (fun hc n _ => hopen.declare hc n) fun _ n _ => hopen.free n)
    fun _ m₂ _ hsteps₂ hm₂ hwaiting => ?_
  have hkind : m₂.IsDeclarative env :=
    have ⟨r, hr, _⟩ := hopen.empty
    hsteps₂.isDeclarative hm₁ ⟨r, hr⟩
  have hbinds := hopen.binds hm₁ hsteps₂ hnodup hwaiting
  refine withLexicalEnv_runs (hbinds.within env rfl) (fun c cs _ => ?_)
    fun m' c cs h => h.withContexts cs
  have hscope : lexicalEnv (m₂.withContexts ({ c with lexicalEnv := env } :: cs)) = .ok env :=
    lexicalEnv_cons (c := { c with lexicalEnv := env }) (show _ = _ :: cs from rfl)
  have hloop : g.Carries (m₂.withContexts ({ c with lexicalEnv := env } :: cs)) env
      (if constant then [] else declarators.flatMap (·.pattern.boundNames)) := by
    refine ⟨fun _ => hscope, fun _ _ => hkind, fun hc n hn => ?_⟩
    split at hn
    · cases hn
    · exact (hwaiting hc n hn).bound
  refine .of_sound fun hm₃ => .seq (declare_runs hev hdeclarators fun _ _ =>
    ⟨fun _ => hscope, fun _ => hbinds.withContexts _⟩) fun _ m₄ hrun₄ hsteps₄ _ _ => ?_
  refine forBody_runs hev hbounded hlabels hbody hnames htest hupdate (fun hc => ?_)
    (hloop.steps hm₃ hsteps₄ ((declare_keepsStack hev.restores _ _).lexicalEnv hrun₄))
  split
  · exact List.nodup_nil
  · exact hnodup hc

theorem forLoop_runs {init : Option ForInit} (hinit : g.checked → ∀ i, init = some i → i.Valid)
    (htest : g.checked → ∀ e, test = some e → e.Valid)
    (hupdate : g.checked → ∀ e, update = some e → e.Valid)
    (hscope : g.checked → lexicalEnv m = .ok env) :
    g.Runs A m (ev.forLoop steps init test update body labels) fun m' c => g.Ends m' j.switch c := by
  have hrest {m : Machine} (hscope : g.checked → lexicalEnv m = .ok env) :
      g.Runs A m (ev.forBody steps test update body [] labels) fun m' c => g.Ends m' j.switch c :=
    forBody_runs hev hbounded hlabels hbody hnames htest hupdate (by simp) (.nil hscope)
  cases init with
  | none => exact hrest hscope
  | some init =>
    cases init with
    | expression e =>
      have he (hc : g.checked) : e.Valid := by
        cases hinit hc _ rfl
        assumption
      exact .bind (value_runs hev he) fun _ m₁ hrun _ _ _ => hrest (value_scope hev hrun hscope)
    | declare kind declarators =>
      have hdeclarators (hc : g.checked) : ∀ d ∈ declarators, d.Valid := by
        cases hinit hc _ rfl
        assumption
      have hdistinct (hc : g.checked) :
          kind ≠ .var → (declarators.flatMap (·.pattern.boundNames)).Nodup := by
        cases hinit hc _ rfl
        assumption
      cases kind with
      | lexical constant =>
        exact forLexical_runs hev hbounded hlabels hbody hnames hdeclarators
          (fun hc => hdistinct hc (by simp)) htest hupdate
      | var =>
        have hvar (constant : Bool) (h : DeclarationKind.var = .lexical constant) :
            g.Hoists m.grant m env (declarators.flatMap (·.pattern.boundNames)) := by cases h
        refine .bind (declare_runs hev hdeclarators hvar) fun _ m₁ hrun _ _ _ => hrest fun hc => ?_
        exact ((declare_keepsStack hev.restores _ _).lexicalEnv hrun).trans (hscope hc)

end Evaluator

end EcmaEval
