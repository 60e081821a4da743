import EcmaEval.Proofs.Sound.Parameters
import EcmaEval.Proofs.Sound.Scope

/-!
# Entering a function keeps a machine sound

After the parameters come the variables of the body, in the record of the parameters or in one of
their own, then its block-scoped names and its functions. Validity keeps these names apart, so that
each is created once.
-/
namespace EcmaEval

variable {g : Contract} {A : Grant} {m m' : Machine} {env varEnv lexEnv : EnvId}

/-- Variables are created and initialized. Their initial values may depend on bindings that are
there. -/
theorem declareInitialized_runs {names : List String} {initial : String → Eval Value}
    {I : Machine → Prop} (hlasts : ∀ {A m m'}, g.Steps A m m' → g.Sound m → I m → I m')
    (hinitial : ∀ m name, I m → name ∈ names →
      g.Runs m.grant m (initial name) fun m' v => g.Stored m'.bounds v)
    (hI : I m) (henv : env.Within m.bounds) (hnodup : g.checked → names.Nodup)
    (hdeclare : g.checked → ∀ n ∈ names, A.declare env n)
    (hfree : g.checked → ∀ n ∈ names, m.Vacant env n) :
    g.Runs A m (declareInitialized env initial names) fun m' _ =>
      g.checked → ∀ n ∈ names, m'.Bound env n := by
  induction names generalizing m with
  | nil => exact .pure (by simp)
  | cons name rest ih =>
    have hname (hc : g.checked) := List.nodup_cons.mp (hnodup hc)
    refine .of_sound fun hm => ?_
    have hown : (m.grant.declaring env [name]).declare env name := .inr ⟨rfl, by simp⟩
    have hfirst : g.Runs (m.grant.declaring env [name]) m (do
        env.createMutable name false
        env.initBinding name (← initial name)) fun m' _ => g.checked → m'.Bound env name := by
      refine .seq (EnvId.createMutable_runs henv (fun _ => rfl) (fun _ => hown)
        fun hc => (hfree hc name (by simp)).free) fun _ m₁ _ hsteps₁ hm₁ hwaiting => ?_
      have henv₁ := Nat.lt_of_lt_of_le henv (hsteps₁.bounds hm).2.1
      refine .bind (hinitial m₁ name (hlasts hsteps₁ hm hI) (by simp)) fun v m₂ _ hsteps₂ hm₂ hv => ?_
      have hwaiting₂ (hc : g.checked) : m₂.Waiting env name :=
        hsteps₂.waiting hm₁ hc (Machine.not_grant_declare henv₁ name) (hwaiting hc)
      refine (EnvId.initBinding_runs (Nat.lt_of_lt_of_le henv₁ (hsteps₂.bounds hm₁).2.1) hv
        (fun _ => hown) hwaiting₂).imp fun m₃ _ _ hsteps₃ _ hc => ?_
      exact hsteps₃.bound hm₂ hc (hwaiting₂ hc).bound
    refine .bindDeclaring [name] (fun hc n hn => ?_) hfirst fun _ m₁ _ hsteps₁ hm₁ hbound₁ => ?_
    · obtain rfl := List.mem_singleton.mp hn
      exact hdeclare hc n (by simp)
    refine (ih (fun m name hI hn => hinitial m name hI (by simp [hn])) (hlasts hsteps₁ hm hI)
      (Nat.lt_of_lt_of_le henv (hsteps₁.bounds hm).2.1) (fun hc => (hname hc).2)
      (fun hc n hn => hdeclare hc n (by simp [hn])) fun hc n hn => ?_).imp
      fun m₂ _ _ hsteps₂ hrest hc n hn => ?_
    · refine g.lasts_vacant hsteps₁ hm hc (Machine.not_declaring henv ?_) (hfree hc n (by simp [hn]))
      exact fun h => (hname hc).1 (List.mem_singleton.mp h ▸ hn)
    · rcases List.mem_cons.mp hn with rfl | hn
      · exact hsteps₂.bound hm₁ hc (hbound₁ hc)
      · exact hrest hc n hn

/-- An environment holds bindings of some names. -/
def Contract.Offers (g : Contract) (m : Machine) (env : EnvId) (names : List String) : Prop :=
  env.Within m.bounds ∧ (g.checked → ∀ n ∈ names, m.Bound env n)

theorem Contract.Steps.offers {names : List String} (h : g.Steps A m m') (hm : g.Sound m)
    (hoffers : g.Offers m env names) : g.Offers m' env names :=
  ⟨Nat.lt_of_lt_of_le hoffers.1 (h.bounds hm).2.1, fun hc n hn => h.bound hm hc (hoffers.2 hc n hn)⟩

theorem shadowedValue_runs {parameters functions : List String} {name : String}
    (hoffers : g.Offers m env parameters) :
    g.Runs A m (shadowedValue env parameters functions name) fun m' v => g.Stored m'.bounds v := by
  unfold shadowedValue
  split
  · exact .pure ⟨trivial, fun _ => rfl⟩
  · rename_i hparameter
    refine EnvId.read_runs hoffers.1 fun hc => (hoffers.2 hc name ?_).resolves
    by_contra hnot
    simp [hnot] at hparameter

namespace Evaluator

variable {slots : FunctionSlots}

/-- Block-scoped names of a body are not those of the record that its variables share with the
parameters. -/
theorem not_mem_callNames (hcode : slots.code.Declares)
    (hexpression : Parameters.containsExpression slots.code.parameters = false) {n : String}
    (hn : n ∈ Body.lexicalNames slots.code.statements true) : n ∉ callNames slots := by
  intro hmem
  have hparameter := hcode.names n hn
  unfold callNames at hmem
  split at hmem
  · rename_i hneeds
    rcases List.mem_append.mp hmem with hmem | hmem
    · exact hparameter hmem
    · obtain rfl := List.mem_singleton.mp hmem
      simp [needsArguments, hexpression, hn] at hneeds
  · exact hparameter hmem

/-- The variables of a body are bound, and its block-scoped names are still free. -/
structure Varied (g : Contract) (A : Grant) (m : Machine) (slots : FunctionSlots) (varEnv : EnvId) :
    Prop where
  within : varEnv.Within m.bounds
  declare : g.checked → ∀ n, A.declare varEnv n
  bound : g.checked → ∀ n ∈ Body.varNames slots.code.statements, m.Bound varEnv n
  vacant : g.checked → ∀ n ∈ Body.lexicalNames slots.code.statements true, m.Vacant varEnv n

theorem bindVariables_runs (henv : env.Within m.bounds) (hcode : g.checked → slots.code.Declares)
    (hdeclare : g.checked → ∀ n, A.declare env n)
    (hbound : g.checked → ∀ n ∈ callNames slots, m.Bound env n)
    (hfree : g.checked → ∀ n, n ∉ callNames slots → m.Vacant env n) :
    g.Runs A m (bindVariables slots env (callNames slots)) fun m' varEnv =>
      Varied g A m' slots varEnv := by
  refine .of_sound fun hm => ?_
  let names := Body.varNames slots.code.statements
  unfold bindVariables
  dsimp only
  split
  · rename_i hexpression
    rw [Bool.not_eq_true'] at hexpression
    have hmem {n : String} : n ∈ (names.filter (!(callNames slots).contains ·)).eraseDups ↔
        n ∈ names ∧ n ∉ callNames slots := by
      simp [List.mem_eraseDups]
    refine .bindDeclaring (names.filter (!(callNames slots).contains ·)).eraseDups
      (fun hc n _ => hdeclare hc n) (declareInitialized_runs (I := fun _ => True) (fun _ _ _ => trivial)
        (fun _ _ _ _ => .pure ⟨trivial, fun _ => rfl⟩) trivial henv (fun _ => nodup_eraseDups _)
        (fun _ n hn => .inr ⟨rfl, hn⟩) fun hc n hn => hfree hc n (hmem.mp hn).2) ?_
    intro _ m₁ _ hsteps hm₁ hbound₁
    refine .pure ⟨Nat.lt_of_lt_of_le henv (hsteps.bounds hm).2.1, hdeclare, fun hc n hn => ?_,
      fun hc n hn => ?_⟩
    · by_cases hcall : n ∈ callNames slots
      · exact hsteps.bound hm hc (hbound hc n hcall)
      · exact hbound₁ hc n (hmem.mpr ⟨hn, hcall⟩)
    · refine g.lasts_vacant hsteps hm hc (Machine.not_declaring henv fun h => ?_)
        (hfree hc n (not_mem_callNames (hcode hc) hexpression hn))
      exact (hcode hc).varNames n hn (hmem.mp h).1
  · refine .seq (newDeclarativeEnvironment_opens henv) fun varEnv m₁ _ hsteps₁ hm₁ ⟨hopen, _⟩ => ?_
    have hb₁ := hsteps₁.bounds hm
    refine .bind (modifyContext_runs fun c hc =>
      ⟨hc.realm, hc.function, hc.lexicalEnv, hopen.within, hc.privateEnv⟩) ?_
    rintro _ m₂ - hsteps₂ hm₂ ⟨c, cs, -, rfl⟩
    refine .bindDeclaring names.eraseDups (fun hc n _ => hopen.declare hc n)
      (declareInitialized_runs (fun hsteps hm => hsteps.offers hm)
        (fun _ _ hoffers _ => shadowedValue_runs hoffers) (hsteps₁.offers hm ⟨henv, hbound⟩) hopen.within
        (fun _ => nodup_eraseDups _) (fun _ n hn => .inr ⟨rfl, hn⟩) fun _ n _ => hopen.vacant n) ?_
    intro _ m₃ _ hsteps₃ hm₃ hbound₃
    refine .pure ⟨Nat.lt_of_lt_of_le hopen.within (hsteps₃.bounds hm₂).2.1, hopen.declare,
      fun hc n hn => hbound₃ hc n (List.mem_eraseDups.mpr hn), fun hc n hn => ?_⟩
    have hnot : n ∉ names.eraseDups := fun h => (hcode hc).varNames n hn (List.mem_eraseDups.mp h)
    exact g.lasts_vacant hsteps₃ hm₂ hc (Machine.not_declaring hopen.within hnot) (hopen.vacant n)

theorem bindFunctions_runs (hlex : lexEnv.Within m.bounds) (hvar : varEnv.Within m.bounds)
    (hcode : g.checked → slots.code.Declares)
    (hbound : g.checked → ∀ n ∈ Body.varNames slots.code.statements, m.Bound varEnv n) :
    g.Runs A m (bindFunctions slots lexEnv varEnv) fun _ _ => True := by
  refine .query privateEnv_asks fun c hrun hprivate => ?_
  clear hrun
  have hfunctions (hc : g.checked) (code : FunctionCode)
      (hmem : code ∈ Body.functions slots.code.statements) :=
    Body.function_valid (hcode hc).statements hmem
  generalize Body.functions slots.code.statements = functions at hfunctions
  induction functions generalizing m with
  | nil => exact .pure trivial
  | cons code rest ih =>
    have hfirst (hc : g.checked) := hfunctions hc code (by simp)
    refine .of_sound fun hm => ?_
    have hbind : g.Runs m.grant m (do
        let f ← instantiateDeclaration code lexEnv c.privateEnv
        varEnv.assign code.bindingName (.object f) false) fun _ _ => True := by
      refine .bind (instantiateDeclaration_runs hlex hprivate fun hc => (hfirst hc).1)
        fun f m₁ _ hsteps₁ hm₁ hf => ?_
      exact EnvId.assign_runs (Nat.lt_of_lt_of_le hvar (hsteps₁.bounds hm).2.1) (.object hf)
        fun hc => (hsteps₁.bound hm hc (hbound hc _ (hfirst hc).2)).resolves
    refine .bind hbind fun _ m₁ _ hsteps₁ hm₁ _ => ?_
    have hb₁ := hsteps₁.bounds hm
    exact ih (Nat.lt_of_lt_of_le hlex hb₁.2.1) (Nat.lt_of_lt_of_le hvar hb₁.2.1)
      (fun hc n hn => hsteps₁.bound hm hc (hbound hc n hn))
      (fun e he => Nat.lt_of_lt_of_le (hprivate e he) hb₁.2.1)
      fun hc code hmem => hfunctions hc code (by simp [hmem])

/-- The block-scoped names of a body wait in its scope. -/
theorem enterBody_runs (hvaried : Varied g A m slots varEnv) (hcode : g.checked → slots.code.Declares) :
    g.Runs A m (enterBody slots varEnv) fun m' _ =>
      ∃ env, g.Hoists A m' env (Body.lexicalNames slots.code.statements true) := by
  let names := Body.lexicalNames slots.code.statements true
  refine .of_sound fun hm => ?_
  have henter (x : Eval EnvId) (hx : g.Runs A m x fun m' lexEnv => lexEnv.Within m'.bounds ∧
      (g.checked → ∀ n, A.declare lexEnv n) ∧ (g.checked → ∀ n ∈ names, m'.Vacant lexEnv n)) :
      g.Runs A m (do
        let lexEnv ← x
        setLexicalEnv lexEnv
        declareLexical lexEnv (Body.lexicallyScoped slots.code.statements true)
        bindFunctions slots lexEnv varEnv) fun m' _ => ∃ env, g.Hoists A m' env names := by
    refine .seq hx fun lexEnv m₁ _ hsteps₁ hm₁ ⟨hlex, hdeclare, hvacant⟩ => ?_
    have hvar₁ := Nat.lt_of_lt_of_le hvaried.within (hsteps₁.bounds hm).2.1
    refine .seq (setLexicalEnv_runs hlex) ?_
    rintro _ m₂ - - hm₂ ⟨c, cs, hcs, rfl⟩
    refine .seq (declareLexical_creates (fun hc => (hcode hc).nodup) A _ hlex
      (fun hc n _ => hdeclare hc n) fun hc n hn => (hvacant hc n hn).free) ?_
    intro _ m₃ hrun₃ hsteps₃ hm₃ hwaiting₃
    have hlex₃ := Nat.lt_of_lt_of_le hlex (hsteps₃.bounds hm₂).2.1
    have hkeeps (declarations : List LexicalDeclaration) : (declareLexical lexEnv declarations).KeepsStack := by
      grind
    have hscope₃ : lexicalEnv m₃ = .ok lexEnv :=
      ((hkeeps _).lexicalEnv hrun₃).trans
        (lexicalEnv_cons (c := { c with lexicalEnv := lexEnv }) (show _ = _ :: cs from rfl))
    have hbound₃ (hc : g.checked) (n : String) (hn : n ∈ Body.varNames slots.code.statements) :
        m₃.Bound varEnv n :=
      hsteps₃.bound hm₂ hc (hsteps₁.bound hm hc (hvaried.bound hc n hn))
    -- Binding the functions declares nothing, so the block-scoped names go on waiting.
    refine .own (bindFunctions_runs hlex₃
      (Nat.lt_of_lt_of_le hvar₁ (hsteps₃.bounds hm₂).2.1) hcode hbound₃)
      fun m₄ _ hrun₄ hsteps₄ _ => ⟨lexEnv, fun _ => ?_, fun _ => ⟨?_, ?_, ?_, ?_⟩⟩
    · exact ((bindFunctions_keepsStack slots lexEnv varEnv).lexicalEnv hrun₄).trans hscope₃
    · rintro _ ⟨rfl⟩
      exact Nat.lt_of_lt_of_le hlex₃ (hsteps₄.bounds hm₃).2.1
    · exact fun hc _ => (hcode hc).nodup
    · rintro hc _ ⟨rfl⟩ n hn
      exact hsteps₄.waiting hm₃ hc (Machine.not_grant_declare hlex₃ n) (hwaiting₃ hc n hn)
    · rintro hc _ ⟨rfl⟩ n _
      exact hdeclare hc n
  unfold enterBody
  dsimp only
  split
  · exact henter _ (.pure ⟨hvaried.within, hvaried.declare, hvaried.vacant⟩)
  · refine henter _ ((newDeclarativeEnvironment_opens hvaried.within).imp
      fun m' env _ _ ⟨hopen, _⟩ => ⟨hopen.within, hopen.declare, fun _ n _ => hopen.vacant n⟩)

/-- The record that binds the parameters is empty, and it is the running scope. -/
theorem parameterEnv_runs (hopen : g.Opened A m env) (hscope : lexicalEnv m = .ok env) :
    g.Runs A m (parameterEnv slots) fun m' env' => g.Opened A m' env' := by
  refine .query (P := fun e => e = env) (fun _ => by rw [hscope]) ?_
  rintro _ - rfl
  split
  · exact .pure hopen
  · refine .seq (newDeclarativeEnvironment_opens hopen.within) fun env' m₁ _ _ hm₁ ⟨hopen₁, _⟩ => ?_
    refine .seq (setLexicalEnv_runs hopen₁.within) ?_
    rintro _ m₂ - - - ⟨c, cs, -, rfl⟩
    exact .pure ⟨hopen₁.empty, hopen₁.declare⟩

variable {ev : Evaluator}

/-- Entering a function leaves the block-scoped names of its body waiting in the running scope. -/
theorem instantiateFunction_runs (hev : ev.Keeps g) {f : ObjectId} {arguments : List Value}
    (hf : f.Within m.bounds) (harguments : ∀ v ∈ arguments, g.Stored m.bounds v)
    (hcode : g.checked → slots.code.Valid) (hopen : g.Opened A m env)
    (hscope : lexicalEnv m = .ok env) :
    g.Runs A m (ev.instantiateFunction f slots arguments) fun m' _ =>
      ∃ env, g.Hoists A m' env (Body.lexicalNames slots.code.statements true) := by
  have hdeclares (hc : g.checked) := (hcode hc).declares
  refine .of_sound fun hm => .seq (parameterEnv_runs hopen hscope) fun env m₁ _ hsteps₁ hm₁ hopen₁ => ?_
  have hb₁ := hsteps₁.bounds hm
  obtain ⟨r, hr, hempty⟩ := hopen₁.empty
  refine .bindDeclaring (callNames slots) (fun hc n _ => hopen₁.declare hc n)
    (bindCall_runs hev (Nat.lt_of_lt_of_le hf hb₁.1) (fun hc => (hdeclares hc).parameters)
      (fun v hv => (harguments v hv).mono hb₁) hr hempty fun _ n hn => .inr ⟨rfl, hn⟩) ?_
  intro _ m₂ _ hsteps₂ hm₂ hbound₂
  refine .seq (bindVariables_runs (Nat.lt_of_lt_of_le hopen₁.within (hsteps₂.bounds hm₁).2.1) hdeclares
    hopen₁.declare hbound₂ fun hc n hn => ?_) fun varEnv m₃ _ _ _ hvaried => enterBody_runs hvaried hdeclares
  exact g.lasts_vacant hsteps₂ hm₁ hc (Machine.not_declaring hopen₁.within hn) (hopen₁.vacant n)

end Evaluator

end EcmaEval
