import EcmaEval.Proofs.Sound.ForIn

/-!
# Statements and scripts keep a machine sound

One step of statement evaluation keeps what the statements of a list rely on, and so do all levels of
evaluators. A script declares its names in the global environment of its realm, where its block-scoped
ones wait for the statements that give them values.
-/
namespace EcmaEval

variable {g : Contract} {A : Grant} {m m' : Machine} {env : EnvId} {j : Jumps}
  {labels attached names : List String}

/-- The labels before a statement are taken, which leaves the scope as it is. -/
theorem takeLabels_runs {s : Statement} (hs : ∀ label body, s ≠ .labelled label body)
    (hnames : g.Hoists A m env names) :
    g.Runs A m (takeLabels s) fun m' labels => labels = m.labels ∧ g.Hoists A m' env names := by
  have htake : g.Runs A m (do
      let labels := (← runningContext).labels
      modifyContext ({ · with labels := [] })
      return labels) fun m' labels => labels = m.labels ∧ g.Hoists A m' env names := by
    refine .query runningContext_asks fun c _ ⟨cs, hcontexts⟩ => ?_
    refine .seq (modifyContext_runs fun c hc =>
      ⟨hc.realm, hc.function, hc.lexicalEnv, hc.variableEnv, hc.privateEnv⟩) ?_
    rintro _ m₁ - - - ⟨c', cs', hcontexts', rfl⟩
    rw [hcontexts] at hcontexts'
    cases hcontexts'
    refine .pure ⟨(Machine.labels_cons hcontexts).symm, fun hc => ?_, fun hc =>
      (hnames.binds hc).withContexts _⟩
    rw [← hnames.scope hc, lexicalEnv_cons hcontexts]
    exact lexicalEnv_cons (c := { c with labels := [] }) (show _ = _ :: cs from rfl)
  unfold takeLabels
  split
  · exact absurd rfl (hs _ _)
  · exact htake

/-- Whether the statement is a loop, which may run out of iterations. -/
def Statement.Repeats : Statement → Prop
  | .whileLoop _ _ | .doWhileLoop _ _ | .forLoop _ _ _ _ | .forIn _ _ _ => True
  | _ => False

namespace Evaluator

variable {ev : Evaluator} (hev : ev.Keeps g) {steps : Nat} {s : Statement}
  (hbounded : s.Repeats → g.bounded)

include hev hbounded

/-- A statement without labels of its own, with those before it taken. -/
theorem executeWith_runs (hs : g.checked → s.Valid j attached)
    (hlabelled : ∀ label body, s ≠ .labelled label body)
    (hlabels : g.checked → ∀ l ∈ attached, l ∈ labels) (hnames : g.Hoists A m env s.letNames) :
    g.Runs A m (ev.executeWith steps labels s) fun m' c => g.Ends m' j c := by
  have hempty {m : Machine} : g.StoredOption m.bounds none := fun _ h => by cases h
  have hvalue {e : Expression} (he : g.checked → e.Valid) {f : Value → Completion}
      (hf : ∀ m v, g.Stored m.bounds v → g.Ends m j (f v)) :
      g.Runs A m (do return f (← ev.value e)) fun m' c => g.Ends m' j c :=
    .bind (value_runs hev he) fun v m₁ _ _ _ hv => .pure (hf m₁ v hv)
  -- a loop and a switch are left by a `break` without a label, which ends there
  have habsorb {x : Eval Completion} (hx : g.Runs A m x fun m' c => g.Ends m' j.switch c) :
      g.Runs A m (do return (← x).absorbBreak) fun m' c => g.Ends m' j c :=
    .seq hx fun c m₁ _ _ _ hends => .pure hends.absorbBreak
  have hscope := hnames.scope
  cases s with
  | empty => exact .pure hempty
  | debugger => exact .pure hempty
  | function code => exact .pure hempty
  | expression e =>
    exact hvalue (fun hc => by cases hs hc; assumption) fun m v hv w hw => by cases hw; exact hv
  | block body =>
    exact block_runs hev (fun hc => by cases hs hc; assumption) fun hc => by cases hs hc; assumption
  | declare kind declarators =>
    have hhoists (constant : Bool) (hkind : kind = .lexical constant) :
        g.Hoists A m env (declarators.flatMap (·.pattern.boundNames)) := by
      subst hkind
      rw [Statement.letNames, Statement.lexicallyScoped, List.flatMap_map] at hnames
      exact hnames
    exact .seq (declare_runs hev (fun hc => by cases hs hc; assumption) hhoists)
      fun _ m₁ _ _ _ _ => .pure hempty
  | conditional test consequent alternate =>
    exact ifStatement_runs hev (fun hc => by cases hs hc; assumption)
      (fun hc => by cases hs hc; assumption) (fun hc => by cases hs hc; assumption)
      (fun hc => by cases hs hc; assumption) (fun hc => by cases hs hc; assumption) hscope
  | whileLoop test body =>
    exact habsorb (whileLoop_runs hev (hbounded trivial) hlabels (fun hc => by cases hs hc; assumption)
      (fun hc => by cases hs hc; assumption) (fun hc => by cases hs hc; assumption) hscope
      (.undefined _))
  | doWhileLoop body test =>
    exact habsorb (doWhileLoop_runs hev (hbounded trivial) hlabels (fun hc => by cases hs hc; assumption)
      (fun hc => by cases hs hc; assumption) (fun hc => by cases hs hc; assumption) hscope
      (.undefined _))
  | forLoop init test update body =>
    exact habsorb (forLoop_runs hev (hbounded trivial) hlabels (fun hc => by cases hs hc; assumption)
      (fun hc => by cases hs hc; assumption) (fun hc => by cases hs hc; assumption)
      (fun hc => by cases hs hc; assumption) (fun hc => by cases hs hc; assumption) hscope)
  | forIn target source body =>
    exact habsorb (forIn_runs hev (fun hc => by cases hs hc; assumption)
      (fun hc => by cases hs hc; assumption) (hbounded trivial) hlabels
      (fun hc => by cases hs hc; assumption) fun hc => by cases hs hc; assumption)
  | forOf target source body => exact .unsupported _
  | returns value =>
    cases value with
    | none => exact .pure (.undefined _)
    | some e =>
      refine hvalue (fun hc => ?_) fun m v hv => hv
      cases hs hc with
      | returns h => exact h e rfl
  | breaks label => exact .pure ⟨hempty, fun hc => by cases hs hc; assumption⟩
  | continues label => exact .pure ⟨hempty, fun hc => by cases hs hc; assumption⟩
  | throws e => exact hvalue (fun hc => by cases hs hc; assumption) fun m v hv => hv
  | tryCatch body handler finalizer =>
    exact tryStatement_runs hev (fun hc => by cases hs hc; assumption)
      (fun hc => by cases hs hc; assumption) (fun hc => by cases hs hc; assumption)
      (fun hc => by cases hs hc; assumption) fun hc => by cases hs hc; assumption
  | switch discriminant clauses =>
    exact habsorb (switchStatement_runs hev (fun hc => by cases hs hc; assumption)
      (fun hc => by cases hs hc; assumption) fun hc => by cases hs hc; assumption)
  | labelled label body => exact absurd rfl (hlabelled label body)
  | withObject object body =>
    exact withStatement_runs hev (fun hc => by cases hs hc; assumption)
      (fun hc => by cases hs hc; assumption) fun hc => by cases hs hc; assumption

theorem execute_runs (hs : g.checked → s.Valid j attached)
    (hlabels : g.checked → ∀ l ∈ attached, l ∈ m.labels) (hnames : g.Hoists A m env s.letNames) :
    g.Runs A m (ev.execute steps s) fun m' c => g.Ends m' j c := by
  refine .completing ?_ fun m' v hv => hv
  by_cases hlabelled : ∃ label body, s = .labelled label body
  · obtain ⟨label, body, rfl⟩ := hlabelled
    exact labelledStatement_runs hev (fun hc => by cases hs hc; assumption) hlabels hnames
  · have hlabelled (label : String) (body : Statement) (h : s = .labelled label body) : False :=
      hlabelled ⟨label, body, h⟩
    refine .seq (takeLabels_runs hlabelled hnames) fun labels m₁ _ _ _ ⟨htaken, hnames₁⟩ => ?_
    exact executeWith_runs hev hbounded hs hlabelled (fun hc l hl => htaken ▸ hlabels hc l hl) hnames₁

end Evaluator

/-- Evaluators of every level keep a machine sound, up to running out of levels. -/
theorem Evaluator.level_keeps (hbounded : g.bounded) (n : Nat) : (Evaluator.level n).Keeps g := by
  induction n with
  | zero =>
    exact ⟨level_restores 0, fun _ _ _ _ => .throw hbounded, fun _ _ _ _ _ _ _ _ _ => .throw hbounded⟩
  | succ n ih =>
    exact ⟨level_restores (n + 1), fun _ _ e he => evaluate_runs ih e he,
      fun _ _ _ _ _ _ hs hlabels hnames => execute_runs ih (fun _ => hbounded) hs hlabels hnames⟩

/-- Checks that leave the machine alone. -/
theorem Contract.Runs.forM_same {f : String → Eval PUnit}
    (hf : ∀ name, g.Runs A m (f name) fun m' _ => m' = m) :
    g.Runs A m (names.forM f) fun m' _ => m' = m :=
  .forM (fun _ m' => m' = m) (fun name _ m' _ h => by subst h; exact hf name) rfl

theorem EnvId.isTaken_asks {name : String} (henv : env.Within m.bounds)
    (hglobal : g.checked → m.IsGlobal env) : g.Asks m (env.isTaken name) fun _ => True := by
  refine .bind (hasVarDeclaration_asks henv hglobal) fun var _ _ => ?_
  split
  · exact .pure trivial
  refine .bind (hasLexicalDeclaration_asks henv hglobal) fun lexical _ _ => ?_
  split
  · exact .pure trivial
  · exact hasRestrictedProperty_asks henv hglobal

/-- The block-scoped names of a script wait in the global environment. -/
structure Contract.Awaits (g : Contract) (m : Machine) (env : EnvId) (names : List String) :
    Prop where
  isGlobal : m.IsGlobal env
  waiting : g.checked → ∀ n ∈ names, m.Waiting env n

theorem Contract.Awaits.steps (h : g.Awaits m env names) (hm : g.Sound m)
    (hsteps : g.Steps m.grant m m') : g.Awaits m' env names where
  isGlobal := hsteps.isGlobal hm h.isGlobal
  waiting hc n hn := hsteps.waiting hm hc (Machine.not_grant_declare h.isGlobal.within n)
    (h.waiting hc n hn)

theorem declareGlobalFunctions_runs {functions : List FunctionCode} (hawaits : g.Awaits m env names)
    (hfunctions : g.checked → ∀ code ∈ functions, code.Valid) :
    g.Runs A m (functions.forM fun code => do
      let f ← instantiateDeclaration code env none
      env.createGlobalFunction code.bindingName (.object f) false)
      fun m' _ => g.Awaits m' env names := by
  refine (Contract.Runs.forM (fun rest m => g.Awaits m env names ∧
    (g.checked → ∀ code ∈ rest, code.Valid)) ?_ ⟨hawaits, hfunctions⟩).imp fun _ _ _ _ h => h.1
  intro code rest m₁ _ ⟨hawaits₁, hvalid⟩
  refine .of_sound fun hm₁ => .own (P := fun _ _ => True) ?_ fun m₂ _ _ hsteps₂ _ =>
    ⟨hawaits₁.steps hm₁ hsteps₂, fun hc code hcode => hvalid hc code (by simp [hcode])⟩
  refine .bind (instantiateDeclaration_runs hawaits₁.isGlobal.within (by simp)
    fun hc => hvalid hc code (by simp)) fun f m₂ _ hsteps₂ _ hf => ?_
  have hglobal := (hawaits₁.steps hm₁ hsteps₂).isGlobal
  exact EnvId.createGlobalFunction_runs hglobal.within (.object hf) fun _ => hglobal

theorem declareGlobalVars_runs {vars : List String} (hawaits : g.Awaits m env names) :
    g.Runs A m (vars.forM (env.createGlobalVar · false)) fun m' _ => g.Awaits m' env names := by
  refine .forM (fun _ m => g.Awaits m env names) (fun name rest m₁ _ hawaits₁ => ?_) hawaits
  refine .of_sound fun hm₁ => .own (P := fun _ _ => True) ?_ fun m₂ _ _ hsteps₂ _ =>
    hawaits₁.steps hm₁ hsteps₂
  exact EnvId.createGlobalVar_runs hawaits₁.isGlobal.within fun _ => hawaits₁.isGlobal

/-- Every check comes first. What is declared after the block-scoped names leaves them waiting. -/
theorem instantiateGlobal_runs {body : List Statement} (hglobal : m.IsGlobal env)
    (hbody : g.checked → ∀ s ∈ body, s.Valid .top [])
    (hdistinct : g.checked → LexicalDeclaration.Distinct (Body.lexicallyScoped body true))
    (hdeclare : g.checked → ∀ n ∈ Body.lexicalNames body true, A.declare env n) :
    g.Runs A m (instantiateGlobal body env) fun m' _ =>
      g.Awaits m' env (Body.lexicalNames body true) := by
  have henv := hglobal.within
  refine .of_sound fun hm => ?_
  have hcheck {q : String → Query Bool} {complaint : String → Complaint} {names : List String}
      (hq : ∀ name, g.Asks m (q name) fun _ => True) : g.Runs A m
      (names.forM fun name => do if ← q name then complain (complaint name)) fun m' _ => m' = m := by
    refine .forM_same fun name => .query (hq name) fun taken _ _ => ?_
    split
    · exact .complain _
    · exact .pure rfl
  have hcheckNot {q : String → Query Bool} {complaint : String → Complaint} {names : List String}
      (hq : ∀ name, g.Asks m (q name) fun _ => True) : g.Runs A m
      (names.forM fun name => do if !(← q name) then complain (complaint name)) fun m' _ => m' = m := by
    refine .forM_same fun name => .query (hq name) fun may _ _ => ?_
    split
    · exact .complain _
    · exact .pure rfl
  have hglobal' (_ : g.checked) : m.IsGlobal env := hglobal
  refine .seq (hcheck fun _ => EnvId.isTaken_asks henv hglobal') ?_
  rintro _ _ - - - rfl
  refine .seq (hcheck fun _ => EnvId.hasLexicalDeclaration_asks henv hglobal') ?_
  rintro _ _ - - - rfl
  refine .seq (hcheckNot fun _ => EnvId.canDeclareFunction_asks henv hglobal') ?_
  rintro _ _ - - - rfl
  refine .seq (hcheckNot fun _ => EnvId.canDeclareVar_asks henv hglobal') ?_
  rintro _ m - - - rfl
  have hnodup (hc : g.checked) : (Body.lexicalNames body true).Nodup :=
    (hdistinct hc).nodup fun d hd => Body.isFunction_lexicallyScoped hd
  refine .seq (declareLexical_creates hnodup A m henv hdeclare fun _ _ _ => .inr hglobal) ?_
  intro _ m₁ _ hsteps₁ _ hwaiting
  have hawaits₁ : g.Awaits m₁ env (Body.lexicalNames body true) :=
    ⟨hsteps₁.isGlobal hm hglobal, hwaiting⟩
  refine .seq (declareGlobalFunctions_runs hawaits₁ fun hc code hcode =>
    (Body.function_valid (hbody hc) hcode).1) fun _ m₂ _ _ _ hawaits₂ => ?_
  exact declareGlobalVars_runs hawaits₂

/-- A script runs under a grant for its block-scoped names. -/
theorem Evaluator.script_runs {ev : Evaluator} (hev : ev.Keeps g) {body : List Statement}
    (hbody : g.checked → ∀ s ∈ body, s.Valid .top [])
    (hdistinct : g.checked → LexicalDeclaration.Distinct (Body.lexicallyScoped body true))
    (hdeclare : g.checked → ∀ env n, A.declare env n) :
    g.Runs A m (ev.script body) fun m' c => g.Ends m' .top c := by
  refine .of_sound fun hm => .query currentRealm_asks fun realm _ hrealm => ?_
  refine .query (RealmId.load_asks hrealm) fun r _ hr => ?_
  have hglobal : m.IsGlobal r.globalEnv := hm.globals realm r hr
  refine .seq (P := fun m' c => g.Ends m' .top c) (.completing ?_ fun m' v hv => hv)
    fun c m₁ _ _ _ hends => ?_
  · refine .query (scriptContext_asks hrealm) fun context _ ⟨hcontext, r', hr', hscope⟩ => ?_
    rw [hr] at hr'
    cases hr'
    refine withContext_runs hcontext ?_ fun m' c cs h => h.withContexts cs
    refine .seq (instantiateGlobal_runs hglobal hbody hdistinct fun hc n _ => hdeclare hc _ n)
      fun _ m₂ hrun₂ _ _ hawaits => ?_
    have hscope₂ : lexicalEnv m₂ = .ok r.globalEnv := by
      rw [(Evaluator.instantiateGlobal_keepsStack body _).lexicalEnv hrun₂, ← hscope]
      exact lexicalEnv_cons (show _ = context :: m.contexts from rfl)
    refine statements_runs hev hbody ⟨fun _ => hscope₂, fun hc => ?_⟩ fun _ h => by cases h
    rw [← Body.lexicalNames_true]
    exact ⟨fun e he => by cases he; exact hawaits.isGlobal.within,
      fun hc _ => (hdistinct hc).nodup fun d hd => Body.isFunction_lexicallyScoped hd,
      fun hc e he n hn => by cases he; exact hawaits.waiting hc n hn, fun hc e _ n _ => hdeclare hc e n⟩
  · split
    · exact .pure (.undefined g _)
    · exact .pure hends

end EcmaEval
