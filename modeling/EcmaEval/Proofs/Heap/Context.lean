import EcmaEval.Proofs.Heap.Reference
import EcmaEval.Proofs.Remit.Scope

/-!
# Contexts and realms

Runs in another scope or in a context of their own are runs, and so is the making of a realm, whose
objects are put together without checks while nothing else knows them.
-/
namespace EcmaEval

variable {g : Contract} {A : Grant} {m : Machine} {env : EnvId}

theorem modifyContext_runs {f : Context → Context}
    (hf : ∀ c, c.Within m.bounds → (f c).Within m.bounds) :
    g.Runs A m (modifyContext f) fun m' _ =>
      ∃ c cs, m.contexts = c :: cs ∧ m' = m.withContexts (f c :: cs) := by
  intro _ hm
  cases hc : m.contexts with
  | nil =>
    rw [modifyContext_nil hc]
    exact ⟨.refl, fun _ => .inr ⟨rfl, hc⟩⟩
  | cons c cs =>
    have hcs (d : Context) (hd : d ∈ f c :: cs) : d.Within m.bounds := by
      rcases List.mem_cons.mp hd with rfl | hd
      · exact hf c (hm.head hc)
      · exact hm.contexts d (by simp [hc, hd])
    rw [modifyContext_cons hc]
    exact ⟨.single (.contexts hcs), c, cs, rfl, rfl⟩

theorem setLexicalEnv_runs (henv : env.Within m.bounds) :
    g.Runs A m (setLexicalEnv env) fun m' _ =>
      ∃ c cs, m.contexts = c :: cs ∧ m' = m.withContexts ({ c with lexicalEnv := env } :: cs) :=
  modifyContext_runs fun _ hc => ⟨hc.realm, hc.function, henv, hc.variableEnv, hc.privateEnv⟩

/-- A run in another scope is a run that starts with it and ends with the old one. -/
theorem withLexicalEnv_runs {x : Eval α} {Q : Machine → α → Prop} (henv : env.Within m.bounds)
    (hx : ∀ c cs, m.contexts = c :: cs →
      g.Runs A (m.withContexts ({ c with lexicalEnv := env } :: cs)) x Q)
    (hQ : ∀ m' a cs, Q m' a → Q (m'.withContexts cs) a) : g.Runs A m (withLexicalEnv env x) Q := by
  refine .query lexicalEnv_asks fun old _ hold => ?_
  refine .seq (setLexicalEnv_runs henv) fun _ m₁ _ hsteps hm₁ ⟨c, cs, hc, hm'⟩ => ?_
  subst hm'
  refine .tryFinally (hx c cs hc) fun m₂ hsteps₂ => ?_
  have hold₂ := Nat.lt_of_lt_of_le hold (hsteps₂.bounds hm₁).2.1
  refine (setLexicalEnv_runs hold₂).imp fun m₃ _ _ _ ⟨d, ds, hd, hm₃⟩ => ?_
  subst hm₃
  refine ⟨fun a ha => hQ m₂ a _ ha, fun e he => ?_⟩
  cases e with
  | fault f => exact fun hchecked => (he hchecked).imp_right fun ⟨_, hnil⟩ => by simp [hd] at hnil
  | _ => exact he

theorem pushContext_runs {context : Context} (hcontext : context.Within m.bounds) :
    g.Runs A m (pushContext context) fun m' _ => m' = m.withContexts (context :: m.contexts) := by
  refine .of_sound fun hm => ?_
  by_cases h : m.stackLimit ≤ m.contexts.length
  · intro hA hm
    rw [pushContext_of_full context h]
    exact Contract.Runs.complain _ hA hm
  · refine .of_ok (pushContext_of_room context h) (.single (.contexts fun c hc => ?_)) rfl
    rcases List.mem_cons.mp hc with rfl | hc
    · exact hcontext
    · exact hm.contexts c hc

theorem popContext_runs : g.Runs A m popContext fun m' _ => m' = m.withContexts m.contexts.tail :=
  .of_sound fun hm => .of_ok rfl
    (.single (.contexts fun c hc => hm.contexts c (List.mem_of_mem_tail hc))) rfl

/-- A run in a context of its own. -/
theorem withContext_runs {x : Eval α} {Q : Machine → α → Prop} {context : Context}
    (hcontext : context.Within m.bounds)
    (hx : g.Runs A (m.withContexts (context :: m.contexts)) x Q)
    (hQ : ∀ m' a cs, Q m' a → Q (m'.withContexts cs) a) : g.Runs A m (withContext context x) Q := by
  refine .seq (pushContext_runs hcontext) fun _ m₁ _ _ _ hm₁ => ?_
  subst hm₁
  refine .tryFinally hx fun m₂ _ => ?_
  refine (Contract.Runs.discard popContext_runs).imp fun m₃ _ _ _ hm₃ => ?_
  subst hm₃
  refine ⟨fun a ha => hQ m₂ a _ ha, fun e he => ?_⟩
  cases e with
  | fault f =>
    intro hchecked
    exact (he hchecked).imp_right fun ⟨hf, hnil⟩ => ⟨hf, by simp [Machine.withContexts, hnil]⟩
  | _ => exact he

/-- The context of global code runs in the global environment of its realm. -/
theorem scriptContext_asks {realm : RealmId} {strict : Bool} (hrealm : realm.Within m.bounds) :
    g.Asks m (scriptContext realm strict) fun c => c.Within m.bounds ∧
      ∃ r, m.realm? realm = some r ∧ c.lexicalEnv = r.globalEnv := by
  refine .of_sound fun hm => .bind (RealmId.load_asks hrealm) fun r _ hr => .pure ⟨?_, r, hr, rfl⟩
  have hglobal := (hm.realms _ _ hr).globalEnv
  exact ⟨hrealm, by simp, hglobal, hglobal, by simp⟩

theorem pushScriptContext_runs {realm : RealmId} {strict : Bool} (hrealm : realm.Within m.bounds) :
    g.Runs A m (pushScriptContext realm strict) fun m' _ => m'.contexts ≠ [] := by
  refine .query (scriptContext_asks hrealm) fun c _ ⟨hc, _⟩ => ?_
  exact (pushContext_runs hc).imp fun m' _ _ _ hm' => by simp [hm', Machine.withContexts]

theorem newSymbol_runs (description : Option String) :
    g.Runs A m (newSymbol description) fun _ _ => True := .of_ok rfl (.single .symbol) trivial

/-- An object that is still being put together: neither an array nor mapped. -/
def Grant.Blank (A : Grant) (m : Machine) (o : ObjectId) : Prop :=
  A.rebuild o ∧ ∃ obj, m.object? o = some obj ∧ obj.isArray = false ∧ obj.parameterMap? = none

namespace Grant.Blank

variable {o p : ObjectId}

theorem within (h : A.Blank m o) : o.Within m.bounds :=
  have ⟨_, _, ho, _⟩ := h
  Machine.within_of_object? ho

theorem pushObject (h : A.Blank m o) (obj : Object) : A.Blank (m.pushObject obj) o := by
  obtain ⟨hA, obj', ho, hobj'⟩ := h
  exact ⟨hA, obj', by rw [Machine.object?_pushObject_of_within _ (Machine.within_of_object? ho), ho], hobj'⟩

theorem insert (h : A.Blank m o) (p : ObjectId) (key : Key) (d : Descriptor) :
    A.Blank (m.updateObject p (·.insert key d)) o := by
  obtain ⟨hA, obj, ho, hobj⟩ := h
  refine ⟨hA, ?_⟩
  rw [Machine.object?_updateObject]
  split
  · exact ⟨obj.insert key d, by rw [ho]; rfl, hobj⟩
  · exact ⟨obj, ho, hobj⟩

end Grant.Blank

/-- A new object is blank, and so are those that were. -/
theorem allocate_blank {obj : Object} (hok : g.ObjectOk m.bounds obj) (harray : obj.isArray = false)
    (hmap : obj.parameterMap? = none) :
    g.Runs A m (allocate obj) fun m' o => A.Blank m' o ∧ ∀ p, A.Blank m p → A.Blank m' p := by
  refine .of_covers fun hA hA' => ?_
  refine (allocate_yields (g.steps_motion A) hok hmap (.of_isArray harray)).imp
    fun m' o _ _ ⟨hm', ho⟩ => ?_
  subst hm' ho
  refine ⟨⟨hA.2 _ fun hin => Nat.lt_irrefl _ hin, obj, ?_, harray, hmap⟩, fun p hp => hp.pushObject obj⟩
  rw [Machine.object?_pushObject, if_pos rfl]

theorem ObjectId.insert_blank {o : ObjectId} {key : Key} {d : Descriptor} (ho : A.Blank m o)
    (hd : d.All (g.Stored m.bounds)) :
    g.Runs A m (o.insert key d) fun m' _ => ∀ p, A.Blank m p → A.Blank m' p := by
  obtain ⟨hrebuild, obj, hobj, hraw⟩ := ho
  refine .of_ok (ObjectId.modify_eq (Machine.within_of_object? hobj) _)
    (.single (.insert hobj hd fun _ => ⟨hrebuild, hraw⟩)) fun p hp => hp.insert o key d

theorem Realm.newErrorPrototype_runs {parent : ObjectId} {kind : ErrorKind}
    (hparent : parent.Within m.bounds) :
    g.Runs A m (Realm.newErrorPrototype parent kind) fun m' o =>
      A.Blank m' o ∧ ∀ p, A.Blank m p → A.Blank m' p := by
  have hempty : g.ObjectOk m.bounds { prototype := some parent, kind := .ordinary } :=
    .empty (fun p hp => by cases hp; exact hparent) trivial (by simp)
  have hname (text : String) : (Descriptor.hidden (.ofString text)).All (g.Stored m.bounds) :=
    ⟨trivial, fun _ => rfl⟩
  exact allocate_blank ((hempty.insert_plain rfl _ (hname _)).insert_plain rfl _ (hname _)) rfl rfl

/-- An error constructor is tied to objects that are still blank. -/
theorem Realm.newErrorConstructor_runs {intrinsics : Intrinsics} {global : ObjectId} {kind : ErrorKind}
    (hfunction : intrinsics.functionPrototype.Within m.bounds)
    (hprototype : A.Blank m (intrinsics.errorPrototype kind)) (hglobal : A.Blank m global) :
    g.Runs A m (Realm.newErrorConstructor intrinsics global kind) fun m' _ =>
      ∀ p, A.Blank m p → A.Blank m' p := by
  have hempty : g.ObjectOk m.bounds
      { prototype := some intrinsics.functionPrototype, kind := .errorConstructor kind } :=
    .empty (fun p hp => by cases hp; exact hfunction) trivial (by simp)
  have hlength : (Descriptor.readOnly (.number .one)).All (g.Stored m.bounds) := ⟨trivial, fun _ => rfl⟩
  have hname : (Descriptor.readOnly (.ofString kind.name)).All (g.Stored m.bounds) :=
    ⟨trivial, fun _ => rfl⟩
  refine .of_sound fun hm => .seq
    (allocate_blank ((hempty.insert_plain rfl _ hlength).insert_plain rfl _ hname) rfl rfl) ?_
  intro constructor m₁ _ _ hm₁ ⟨hconstructor, hkeep₁⟩
  refine .seq (ObjectId.insert_blank hconstructor (.object (hkeep₁ _ hprototype).within)) ?_
  intro _ m₂ _ hsteps₂ hm₂ hkeep₂
  refine .seq (ObjectId.insert_blank (hkeep₂ _ (hkeep₁ _ hprototype))
    (.object (hkeep₂ _ hconstructor).within)) ?_
  intro _ m₃ _ hsteps₃ hm₃ hkeep₃
  have hvalue : g.Stored m₃.bounds (.object constructor) :=
    .object (hkeep₃ _ (hkeep₂ _ hconstructor)).within
  refine (ObjectId.insert_blank (d := .hidden (.object constructor))
    (hkeep₃ _ (hkeep₂ _ (hkeep₁ _ hglobal))) hvalue).imp ?_
  intro m₄ _ _ _ hkeep₄ p hp
  exact hkeep₄ p (hkeep₃ p (hkeep₂ p (hkeep₁ p hp)))

/-- The constants of the global object are entered while it is blank, and blank objects stay so. -/
theorem Realm.insertConstants_runs {α : Type} {next : Eval α} {P : Machine → α → Prop} {global : ObjectId}
    (hglobal : A.Blank m global)
    (hnext : ∀ m', g.Steps A m m' → (∀ p, A.Blank m p → A.Blank m' p) → g.Runs A m' next P) :
    g.Runs A m (do
      global.insert (.name "globalThis") (.hidden (.object global))
      global.insert (.name "undefined") (.frozen .undefined)
      global.insert (.name "NaN") (.frozen (.number .nan))
      global.insert (.name "Infinity") (.frozen (.number (.infinite false)))
      next) P := by
  have hundefined {b : Bounds} : (Descriptor.frozen .undefined).All (g.Stored b) :=
    ⟨trivial, fun _ => rfl⟩
  have hnumber {b : Bounds} (n : Number) : (Descriptor.frozen (.number n)).All (g.Stored b) :=
    ⟨trivial, fun _ => rfl⟩
  refine .seq (ObjectId.insert_blank hglobal (.object hglobal.within)) fun _ m₁ _ hsteps₁ _ h₁ => ?_
  have hglobal₁ := h₁ _ hglobal
  refine .seq (ObjectId.insert_blank hglobal₁ hundefined) fun _ m₂ _ hsteps₂ _ h₂ => ?_
  have hglobal₂ := h₂ _ hglobal₁
  refine .seq (ObjectId.insert_blank hglobal₂ (hnumber .nan)) fun _ m₃ _ hsteps₃ _ h₃ => ?_
  have hglobal₃ := h₃ _ hglobal₂
  refine .seq (ObjectId.insert_blank hglobal₃ (hnumber _)) fun _ m₄ _ hsteps₄ _ h₄ => ?_
  exact hnext m₄ (((hsteps₁.trans hsteps₂).trans hsteps₃).trans hsteps₄)
    fun p hp => h₄ p (h₃ p (h₂ p (h₁ p hp)))

/-- The realm's objects are put together while they are blank. -/
theorem newRealm_runs : g.Runs A m newRealm fun m' realm => realm.Within m'.bounds := by
  have hordinary {m : Machine} {prototype : Option ObjectId}
      (hp : ∀ p, prototype = some p → p.Within m.bounds) :
      g.ObjectOk m.bounds { prototype, kind := .ordinary } := .empty hp trivial (by simp)
  have hchild {m : Machine} {p : ObjectId} (hp : A.Blank m p) :
      g.ObjectOk m.bounds { prototype := some p, kind := .ordinary } :=
    hordinary fun q hq => by cases hq; exact hp.within
  -- `hᵢ` carries what is blank after step `i - 1` over step `i`
  refine .seq (allocate_blank (hordinary (by simp)) rfl rfl) fun objectPrototype m₁ _ _ _ h => ?_
  have ho₁ := h.1
  refine .seq (allocate_blank (hchild ho₁) rfl rfl) fun functionPrototype m₂ _ _ _ h => ?_
  obtain ⟨hf₂, h₂⟩ := h
  have ho₂ := h₂ _ ho₁
  refine .seq (allocate_blank (hchild ho₂) rfl rfl) fun arrayPrototype m₃ _ _ _ h => ?_
  obtain ⟨ha₃, h₃⟩ := h
  have ho₃ := h₃ _ ho₂
  refine .seq (Realm.newErrorPrototype_runs ho₃.within) fun error m₄ _ _ _ h => ?_
  obtain ⟨he₄, h₄⟩ := h
  refine .seq (Realm.newErrorPrototype_runs he₄.within) fun typeError m₅ _ _ _ h => ?_
  obtain ⟨ht₅, h₅⟩ := h
  have he₅ := h₅ _ he₄
  refine .seq (Realm.newErrorPrototype_runs he₅.within) fun referenceError m₆ _ _ _ h => ?_
  obtain ⟨hr₆, h₆⟩ := h
  have he₆ := h₆ _ he₅
  refine .seq (Realm.newErrorPrototype_runs he₆.within) fun syntaxError m₇ _ _ _ h => ?_
  obtain ⟨hs₇, h₇⟩ := h
  have he₇ := h₇ _ he₆
  refine .seq (Realm.newErrorPrototype_runs he₇.within) fun rangeError m₈ _ _ _ h => ?_
  obtain ⟨hn₈, h₈⟩ := h
  have hkeep₈ (p : ObjectId) (hp : A.Blank m₃ p) : A.Blank m₈ p :=
    h₈ p (h₇ p (h₆ p (h₅ p (h₄ p hp))))
  refine .seq (allocate_blank (hchild (hkeep₈ _ ho₃)) rfl rfl) fun global m₉ _ _ hm₉ h => ?_
  obtain ⟨hg₉, h₉⟩ := h
  -- the prototypes made first stay blank until the last of them is made
  let errorPrototype := ErrorKind.pick error typeError referenceError syntaxError rangeError
  have herror (kind : ErrorKind) : A.Blank m₉ (errorPrototype kind) := by
    cases kind with
    | error => exact h₉ _ (h₈ _ he₇)
    | typeError => exact h₉ _ (h₈ _ (h₇ _ (h₆ _ ht₅)))
    | referenceError => exact h₉ _ (h₈ _ (h₇ _ hr₆))
    | syntaxError => exact h₉ _ (h₈ _ hs₇)
    | rangeError => exact h₉ _ hn₈
  have hf₉ := h₉ _ (hkeep₈ _ (h₃ _ hf₂))
  let intrinsics : Intrinsics := { objectPrototype, functionPrototype, arrayPrototype, errorPrototype }
  have hintrinsics : intrinsics.Within m₉.bounds :=
    ⟨(h₉ _ (hkeep₈ _ ho₃)).within, hf₉.within, (h₉ _ (hkeep₈ _ ha₃)).within,
      fun kind => (herror kind).within⟩
  refine .seq (allocateEnvironment_runs (.global hg₉.within rfl hg₉.within
    ⟨by simp, by simp, by simp⟩ rfl)) fun globalEnv m₁₀ _ hsteps₁₀ hm₁₀ hnew => ?_
  obtain ⟨heq₁₀, henv⟩ := hnew
  have hb₁₀ := hsteps₁₀.bounds hm₉
  have hkeep₁₀ (p : ObjectId) (hp : A.Blank m₉ p) : A.Blank m₁₀ p := by
    rw [heq₁₀]
    exact hp
  have hglobalEnv : ∃ record, m₁₀.env? globalEnv = some (.global record) := by
    rw [heq₁₀, henv]
    exact ⟨_, by rw [Machine.env?_pushEnv, if_pos rfl]⟩
  have hrealm : Realm.Within m₁₀.bounds { intrinsics, globalObject := global, globalEnv } :=
    ⟨hintrinsics.mono hb₁₀, (hkeep₁₀ _ hg₉).within, Machine.IsGlobal.within hglobalEnv⟩
  refine .seq (P := fun m' a => m₁₀ = m' ∧ m₁₀ = a) (.of_ok rfl .refl ⟨rfl, rfl⟩) ?_
  rintro _ _ - - - ⟨rfl, rfl⟩
  refine .seq (P := fun m' _ => m' = m₁₀.pushRealm { intrinsics, globalObject := global, globalEnv })
    (.of_ok rfl (.single (.realm hrealm hglobalEnv)) rfl) fun _ m₁₁ _ _ hm₁₁ heq₁₁ => ?_
  have hkeep₁₁ (p : ObjectId) (hp : A.Blank m₉ p) : A.Blank m₁₁ p := by
    rw [heq₁₁]
    exact hkeep₁₀ p hp
  refine Realm.insertConstants_runs (hkeep₁₁ _ hg₉) fun m₁₅ hsteps₁₅ h₁₅ => ?_
  have hkeep₁₅ (p : ObjectId) (hp : A.Blank m₉ p) : A.Blank m₁₅ p := h₁₅ p (hkeep₁₁ p hp)
  have hrealm₁₅ : RealmId.Within m₁₅.bounds ⟨m₁₀.realms.size⟩ := by
    have hsize : RealmId.Within m₁₁.bounds ⟨m₁₀.realms.size⟩ := by
      rw [heq₁₁, Machine.bounds_pushRealm]
      exact Nat.lt_succ_self _
    exact Nat.lt_of_lt_of_le hsize (hsteps₁₅.bounds hm₁₁).2.2
  -- the constructors come in a loop, and each leaves blank what the next one fills
  refine .of_sound fun hm₁₅ => .seq (P := fun _ _ => True) ?_ fun _ m₁₆ _ hsteps _ _ => ?_
  · refine (Contract.Runs.forM (fun _ m' => ∀ p, A.Blank m₉ p → A.Blank m' p) ?_ hkeep₁₅).imp
      fun _ _ _ _ _ => trivial
    intro kind _ m' _ hkeep
    refine (Realm.newErrorConstructor_runs (hkeep _ hf₉).within (hkeep _ (herror kind))
      (hkeep _ hg₉)).imp fun m'' _ _ _ h p hp => h p (hkeep p hp)
  · exact .pure (Nat.lt_of_lt_of_le hrealm₁₅ (hsteps.bounds hm₁₅).2.2)

end EcmaEval
