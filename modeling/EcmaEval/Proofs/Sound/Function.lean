import EcmaEval.Proofs.Heap.Context

/-!
# Making functions keeps a machine sound

A function object closes over an environment in range and holds valid code in checked runs. A function
expression with a name of its own binds it in a new environment, once.
-/
namespace EcmaEval

variable {g : Contract} {A : Grant} {m m' : Machine} {env : EnvId} {code : FunctionCode}

theorem lexicalEnv_ok (h : lexicalEnv m = .ok env) :
    ∃ c cs, m.contexts = c :: cs ∧ c.lexicalEnv = env := by
  cases hc : m.contexts with
  | nil =>
    rw [lexicalEnv_nil hc] at h
    cases h
  | cons c cs =>
    rw [lexicalEnv_cons hc] at h
    cases h
    exact ⟨c, cs, rfl, rfl⟩

theorem lexicalEnv_of_frame (h : m'.frame = m.frame) : lexicalEnv m' = lexicalEnv m := by
  unfold Machine.frame at h
  cases hc : m.contexts with
  | nil =>
    cases hc' : m'.contexts with
    | nil => rw [lexicalEnv_nil hc, lexicalEnv_nil hc']
    | cons d ds => simp [hc, hc'] at h
  | cons c cs =>
    cases hc' : m'.contexts with
    | nil => simp [hc, hc'] at h
    | cons d ds =>
      rw [lexicalEnv_cons hc, lexicalEnv_cons hc']
      simp only [hc, hc', List.modifyHead_cons, List.cons.injEq] at h
      have henv : d.unlabelled.lexicalEnv = c.unlabelled.lexicalEnv := by rw [h.1]
      exact congrArg Except.ok henv

theorem lexicalEnv_congr (h : m'.contexts = m.contexts) : lexicalEnv m' = lexicalEnv m :=
  lexicalEnv_of_frame (by simp [Machine.frame, h])

theorem Eval.KeepsStack.lexicalEnv {x : Eval α} (hx : x.KeepsStack) {a : α} (hrun : x m = .ok a m') :
    lexicalEnv m' = lexicalEnv m := lexicalEnv_congr (hx.of_ok hrun)

/-- A declarative environment without bindings that the run itself has made. -/
structure Contract.Opened (g : Contract) (A : Grant) (m : Machine) (env : EnvId) : Prop where
  empty : ∃ r, m.env? env = some (.declarative r) ∧ r.bindings = []
  declare : g.checked → ∀ n, A.declare env n

namespace Contract.Opened

variable (h : g.Opened A m env)

include h

theorem within : env.Within m.bounds :=
  have ⟨_, henv, _⟩ := h.empty
  Machine.within_of_env? henv

theorem unbound (n : String) : m.Unbound env n := by
  obtain ⟨r, henv, hr⟩ := h.empty
  exact ⟨r, Machine.record?_eq henv, by simp [DeclarativeRecord.get?, hr]⟩

theorem free (n : String) : m.Free env n := .inl (h.unbound n)

end Contract.Opened

/-- A new scope is empty, and its names may be declared. -/
theorem newDeclarativeEnvironment_opens {outer : EnvId} (houter : outer.Within m.bounds) :
    g.Runs A m (newDeclarativeEnvironment (some outer)) fun m' env =>
      g.Opened A m' env ∧ m'.contexts = m.contexts ∧ ¬ env.Within m.bounds := by
  refine .of_covers fun hA => (newDeclarativeEnvironment_runs
    (fun e he => by cases he; exact houter) fun _ => rfl).imp fun m' env _ _ ⟨hm', henv⟩ => ?_
  subst hm' henv
  refine ⟨⟨⟨_, by rw [Machine.env?_pushEnv, if_pos rfl], rfl⟩, fun hc n => ?_⟩, rfl,
    Nat.lt_irrefl _⟩
  exact hA.1 hc _ _ (Machine.grant_declare rfl n)

theorem newFunction_runs {privateEnv : Option EnvId} (henv : env.Within m.bounds)
    (hprivate : ∀ e, privateEnv = some e → e.Within m.bounds) (hcode : g.checked → code.Valid) :
    g.Runs A m (newFunction code env privateEnv) fun m' f => f.Within m'.bounds := by
  refine .of_sound fun hm => .query currentRealm_asks fun realm _ hrealm => ?_
  refine .query (RealmId.load_asks hrealm) fun r _ hr => ?_
  refine .query isStrict_asks fun strict _ _ => ?_
  have hprototype := (hm.realms _ _ hr).intrinsics.functionPrototype
  refine .bind (fun _ => allocate_yields (g.steps_motion _) (.empty ?_ ?_ (by simp)) rfl
    (.of_isArray rfl)) ?_
  · rintro _ ⟨rfl⟩
    exact hprototype
  · exact ⟨henv, hprivate, hrealm, hcode⟩
  intro f m₁ _ _ hm₁ ⟨heq, hf⟩
  have hf₁ : f.Within m₁.bounds := by
    rw [heq, hf]
    exact Machine.size_within _
  refine .bind (ObjectId.defineOrThrow_runs hf₁ ⟨trivial, fun _ => rfl⟩) fun _ m₂ _ hsteps _ _ => ?_
  exact .pure (Nat.lt_of_lt_of_le hf₁ (hsteps.bounds hm₁).1)

theorem makeConstructor_runs {f : ObjectId} (hf : f.Within m.bounds) :
    g.Runs A m (makeConstructor f) fun _ _ => True := by
  refine .of_sound fun hm => ?_
  obtain ⟨obj, hobj⟩ := Machine.exists_object hf
  refine .bind (fun _ => ObjectId.modify_yields hf (.single (.markConstructor hobj)))
    fun _ m₁ _ hsteps₁ hm₁ _ => ?_
  have hf₁ := Nat.lt_of_lt_of_le hf (hsteps₁.bounds hm).1
  refine .query intrinsics_asks fun i _ hi => ?_
  refine .bind (newObject_runs fun p hp => by cases hp; exact hi.objectPrototype)
    fun prototype m₂ _ hsteps₂ hm₂ ⟨heq, hp⟩ => ?_
  have hf₂ := Nat.lt_of_lt_of_le hf₁ (hsteps₂.bounds hm₁).1
  have hprototype : prototype.Within m₂.bounds := by
    rw [heq, hp]
    exact Machine.size_within _
  refine .bind (ObjectId.defineOrThrow_runs hprototype (.object hf₂)) fun _ m₃ _ hsteps₃ _ _ => ?_
  have hb₃ := hsteps₃.bounds hm₂
  exact ObjectId.defineOrThrow_runs (Nat.lt_of_lt_of_le hf₂ hb₃.1)
    (Contract.Stored.object (Nat.lt_of_lt_of_le hprototype hb₃.1))

theorem setFunctionName_runs {f : ObjectId} {name : String} (hf : f.Within m.bounds) :
    g.Runs A m (setFunctionName f name) fun _ _ => True :=
  ObjectId.defineOrThrow_runs hf ⟨trivial, fun _ => rfl⟩

theorem finishFunction_runs {f : ObjectId} {name : String} (hf : f.Within m.bounds) :
    g.Runs A m (finishFunction f code name) fun _ _ => True := by
  refine .of_sound fun hm => .bind (setFunctionName_runs hf) fun _ m₁ _ hsteps _ _ => ?_
  split
  · exact makeConstructor_runs (Nat.lt_of_lt_of_le hf (hsteps.bounds hm).1)
  · exact .pure trivial

theorem instantiateDeclaration_runs {privateEnv : Option EnvId} (henv : env.Within m.bounds)
    (hprivate : ∀ e, privateEnv = some e → e.Within m.bounds) (hcode : g.checked → code.Valid) :
    g.Runs A m (instantiateDeclaration code env privateEnv) fun m' f => f.Within m'.bounds := by
  refine .bind (newFunction_runs henv hprivate hcode) fun f m₁ _ _ hm₁ hf => ?_
  refine .bind (finishFunction_runs hf) fun _ m₂ _ hsteps _ _ => ?_
  exact .pure (Nat.lt_of_lt_of_le hf (hsteps.bounds hm₁).1)

/-- The private environment of the running context is in range. -/
theorem privateEnv_asks :
    g.Asks m runningContext fun c => ∀ e, c.privateEnv = some e → e.Within m.bounds :=
  .of_sound fun hm => runningContext_asks.imp fun _ ⟨_, hc⟩ => (hm.head hc).privateEnv

theorem instantiateMethod_runs {name : String} (hcode : g.checked → code.Valid) :
    g.Runs A m (instantiateMethod code name) fun m' f => f.Within m'.bounds := by
  refine .query lexicalEnv_asks fun scope _ hscope => ?_
  refine .query privateEnv_asks fun c _ hprivate => ?_
  refine .bind (newFunction_runs hscope hprivate hcode) fun f m₁ _ _ hm₁ hf => ?_
  refine .bind (setFunctionName_runs hf) fun _ m₂ _ hsteps _ _ => ?_
  exact .pure (Nat.lt_of_lt_of_le hf (hsteps.bounds hm₁).1)

theorem instantiateArrow_runs {name : Option Key} (hcode : g.checked → code.Valid) :
    g.Runs A m (instantiateArrow code name) fun m' f => f.Within m'.bounds :=
  instantiateMethod_runs hcode

/-- A name of its own is created before the function and gets its value after it. -/
theorem instantiateExpression_runs {name : Option Key} (hcode : g.checked → code.Valid) :
    g.Runs A m (instantiateExpression code name) fun m' f => f.Within m'.bounds := by
  refine .of_sound fun hm => .query lexicalEnv_asks fun scope _ hscope => ?_
  refine .query privateEnv_asks fun c _ hprivate => ?_
  cases code.ownName? with
  | none =>
    refine .bind (newFunction_runs hscope hprivate hcode) fun f m₁ _ _ hm₁ hf => ?_
    refine .bind (finishFunction_runs hf) fun _ m₂ _ hsteps _ _ => ?_
    exact .pure (Nat.lt_of_lt_of_le hf (hsteps.bounds hm₁).1)
  | some ownName =>
    refine .seq (newDeclarativeEnvironment_opens hscope) fun env m₁ _ hsteps₁ hm₁ ⟨hopen, _⟩ => ?_
    have hprivate₁ (e : EnvId) (he : c.privateEnv = some e) : e.Within m₁.bounds :=
      Nat.lt_of_lt_of_le (hprivate e he) (hsteps₁.bounds hm).2.1
    refine .seq (EnvId.createImmutable_runs hopen.within (fun hc => hopen.declare hc _)
      fun _ => hopen.free _) fun _ m₂ _ hsteps₂ hm₂ hwaiting => ?_
    have hb₂ := hsteps₂.bounds hm₁
    have henv₂ := Nat.lt_of_lt_of_le hopen.within hb₂.2.1
    refine .bind (newFunction_runs henv₂ (fun e he => Nat.lt_of_lt_of_le (hprivate₁ e he) hb₂.2.1) hcode)
      fun f m₃ _ hsteps₃ hm₃ hf => ?_
    refine .bind (finishFunction_runs hf) fun _ m₄ _ hsteps₄ hm₄ _ => ?_
    -- Making the function declares nothing in the environment it closes over.
    have hsteps : g.Steps m₂.grant m₂ m₄ :=
      hsteps₃.trans (Contract.Steps.mono (.grant (hsteps₃.bounds hm₂)) hsteps₄)
    have hf₄ := Nat.lt_of_lt_of_le hf (hsteps₄.bounds hm₃).1
    have henv₄ := Nat.lt_of_lt_of_le henv₂ (Contract.Steps.bounds hsteps hm₂).2.1
    have hwaiting₄ (hc : g.checked) : m₄.Waiting env ownName :=
      Contract.Steps.waiting hsteps hm₂ hc (Machine.not_grant_declare henv₂ _) (hwaiting hc)
    refine .seq (EnvId.initBinding_runs henv₄ (.object hf₄) (fun hc => hopen.declare hc _) hwaiting₄)
      fun _ m₅ _ hsteps₅ _ _ => ?_
    exact .pure (Nat.lt_of_lt_of_le hf₄ (hsteps₅.bounds hm₄).1)

end EcmaEval
