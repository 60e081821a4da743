import EcmaEval.Proofs.Sound.Instantiate

/-!
# Calling functions keeps a machine sound

A call runs in an environment and a context of its own, in which no name is bound yet. A new error may
inherit from any object there was before it, since none of them leads back to it.
-/
namespace EcmaEval

variable {g : Contract} {A : Grant} {m m' : Machine} {env : EnvId} {f : ObjectId} {slots : FunctionSlots}

/-- An object is a function with the given slots, whether or not `new` may be applied to it. -/
def Machine.IsFunction (m : Machine) (f : ObjectId) (slots : FunctionSlots) : Prop :=
  ∃ obj isConstructor, m.object? f = some obj ∧ obj.kind = .function { slots with isConstructor }

theorem Machine.isFunction_of_kind {obj : Object} (hobj : m.object? f = some obj)
    (hkind : obj.kind = .function slots) : m.IsFunction f slots :=
  ⟨obj, slots.isConstructor, hobj, hkind⟩

theorem Machine.IsFunction.updateObject (h : m.IsFunction f slots) {o : ObjectId}
    {change : Object → Object}
    (hchange : ∀ obj isConstructor, m.object? o = some obj →
      obj.kind = .function { slots with isConstructor } →
      ∃ isConstructor, (change obj).kind = .function { slots with isConstructor }) :
    (m.updateObject o change).IsFunction f slots := by
  obtain ⟨obj, isConstructor, hobj, hkind⟩ := h
  unfold IsFunction
  rw [Machine.object?_updateObject]
  split
  · rename_i hf
    subst hf
    obtain ⟨isConstructor', hkind'⟩ := hchange obj isConstructor hobj hkind
    exact ⟨change obj, isConstructor', by rw [hobj]; rfl, hkind'⟩
  · exact ⟨obj, isConstructor, hobj, hkind⟩

theorem Contract.Step.isFunction (h : g.Step A m m') (hf : m.IsFunction f slots) :
    m'.IsFunction f slots := by
  cases h with
  | object hok hmap horderly =>
    obtain ⟨obj, isConstructor, hobj, hkind⟩ := hf
    refine ⟨obj, isConstructor, ?_, hkind⟩
    rw [Machine.object?_pushObject_of_within _ (Machine.within_of_object? hobj), hobj]
  | define hmoves =>
    obtain ⟨obj, isConstructor, hobj, hkind⟩ := hf
    obtain ⟨obj', hobj', hkind'⟩ := moves_kind hmoves hobj (by simp [Object.parameterMap?, hkind])
    exact ⟨obj', isConstructor, hobj', hkind'.trans hkind⟩
  | insert ho hd hraw => exact hf.updateObject fun obj isConstructor _ hkind => ⟨isConstructor, hkind⟩
  | erase ho hconfigurable =>
    refine hf.updateObject fun obj isConstructor _ hkind => ⟨isConstructor, ?_⟩
    simp [Object.erase, Object.unmap, hkind]
  | reparent ho hp hSp hSo hS hfree =>
    exact hf.updateObject fun obj isConstructor _ hkind => ⟨isConstructor, hkind⟩
  | freeze ho => exact hf.updateObject fun obj isConstructor _ hkind => ⟨isConstructor, hkind⟩
  | markConstructor ho =>
    refine hf.updateObject fun obj isConstructor _ hkind => ⟨true, ?_⟩
    simp [Object.markConstructor, hkind]
  | attach ho hkind henv hdistinct hmap hraw halias =>
    refine hf.updateObject fun obj isConstructor hobj hfunction => ?_
    rw [ho] at hobj
    cases hobj
    simp [hkind] at hfunction
  | _ => exact hf

theorem Contract.Steps.isFunction (h : g.Steps A m m') (hf : m.IsFunction f slots) :
    m'.IsFunction f slots := by
  induction h with
  | refl => exact hf
  | tail _ hstep ih => exact hstep.isFunction ih

theorem Machine.IsFunction.kindOk (h : m.IsFunction f slots) (hm : g.Sound m) :
    g.KindOk m.bounds (.function slots) := by
  obtain ⟨obj, isConstructor, hobj, hkind⟩ := h
  have hok := (hm.objects f obj hobj).kind
  rw [hkind] at hok
  exact hok

theorem Machine.IsFunction.within (h : m.IsFunction f slots) : f.Within m.bounds :=
  have ⟨_, _, hobj, _⟩ := h
  Machine.within_of_object? hobj

/-- The environment of a call has a `this` unless the function takes that of the code around it. -/
def Machine.TakesThis (m : Machine) (env : EnvId) (slots : FunctionSlots) : Prop :=
  slots.thisMode ≠ .lexical → ∃ r, m.env? env = some (.declarative r) ∧ r.hasThis = true

theorem newFunctionEnvironment_runs {newTarget : Value} (hf : m.IsFunction f slots)
    (htarget : g.Stored m.bounds newTarget) :
    g.Runs A m (newFunctionEnvironment f newTarget) fun m' env =>
      g.Opened A m' env ∧ m'.TakesThis env slots := by
  refine .of_sound fun hm => .of_covers fun hA => .query (ObjectId.load_asks hf.within) fun obj _ hobj => ?_
  have hok := hf.kindOk hm
  obtain ⟨obj', isConstructor, hobj', hkind⟩ := hf
  rw [hobj] at hobj'
  cases hobj'
  rw [hkind]
  refine (allocateEnvironment_runs (.declarative ?_ (fun _ => rfl) ?_)).imp fun m' env _ _ h => ?_
  · rintro _ ⟨rfl⟩
    exact hok.1
  · refine ⟨by simp, by simp, ?_⟩
    rintro _ ⟨rfl⟩
    exact ⟨⟨trivial, fun _ => rfl⟩, Machine.within_of_object? hobj, htarget⟩
  · obtain ⟨rfl, rfl⟩ := h
    have henv (e : Environment) : (m.pushEnv e).env? ⟨m.environments.size⟩ = some e := by
      rw [Machine.env?_pushEnv, if_pos rfl]
    refine ⟨⟨⟨_, henv _, rfl⟩, fun hc n => hA.1 hc _ _ (Machine.grant_declare rfl n)⟩,
      fun hmode => ⟨_, henv _, ?_⟩⟩
    simp [DeclarativeRecord.hasThis, hmode]

/-- Setting the `this` of a call binds no name. -/
theorem bindCallThis_runs {thisValue : Value} (hopen : g.Opened A m env)
    (hscope : lexicalEnv m = .ok env) (hthis : m.TakesThis env slots)
    (hrealm : slots.realm.Within m.bounds) (hv : g.Stored m.bounds thisValue) :
    g.Runs A m (bindCallThis slots thisValue) fun m' _ => g.Opened A m' env := by
  refine .of_sound fun hm => ?_
  have hask : g.Asks m lexicalEnv fun e => e = env := fun _ => by rw [hscope]
  have hbind (hmode : slots.thisMode ≠ .lexical) {v : Value} (hv : g.Stored m.bounds v) :
      g.Runs A m (do (← lexicalEnv).bindThis v) fun m' _ => g.Opened A m' env := by
    refine .query hask ?_
    rintro _ - rfl
    refine (EnvId.bindThis_runs hopen.within hv fun _ => hthis hmode).imp ?_
    rintro m' - - - ⟨r, r', hr, hr', hbindings⟩
    refine ⟨⟨r', hr', ?_⟩, hopen.declare⟩
    obtain ⟨r₀, hr₀, hempty⟩ := hopen.empty
    rw [hr] at hr₀
    cases hr₀
    rw [hbindings, hempty]
  unfold bindCallThis
  cases hmode : slots.thisMode with
  | lexical => exact .pure hopen
  | strict => exact hbind (by simp [hmode]) hv
  | global =>
    have hmode' : slots.thisMode ≠ .lexical := by simp [hmode]
    dsimp only
    split
    · refine .query (RealmId.load_asks hrealm) fun r _ hr => ?_
      have hglobal : m.IsGlobal r.globalEnv := hm.globals _ r hr
      refine .bind (EnvId.getThis_runs hglobal.within fun _ => .inl hglobal) fun v _ _ _ _ hthis => ?_
      obtain ⟨hm', hv⟩ := hthis
      subst hm'
      exact hbind hmode' hv
    · refine .bind (Value.toObject_runs hv.1) fun o _ _ _ _ hobject => ?_
      obtain ⟨hm', ho⟩ := hobject
      subst hm'
      exact hbind hmode' (.object ho)

theorem prototypeProperty_asks {target : Value} {P : Value → Prop} (hP : m.Holds P)
    (hundefined : P .undefined) (ht : target.Within m.bounds) :
    g.Asks m (prototypeProperty target) P := by
  cases target with
  | object c => exact ObjectId.get_asks_of_holds hP hundefined ht
  | _ => exact .pure hundefined

theorem prototypeFor_asks {constructor : Value} (hc : constructor.Within m.bounds) :
    g.Asks m (prototypeFor constructor) fun p => p.Within m.bounds := by
  refine .of_sound fun hm => ?_
  refine .bind (prototypeProperty_asks hm.holds ⟨trivial, fun _ => rfl⟩ hc) fun v _ hv => ?_
  cases v with
  | object p => exact .pure hv.1
  | _ => exact .bind intrinsics_asks fun i _ hi => .pure hi.objectPrototype

theorem setMessage_runs {error : ObjectId} {message : Value} (he : error.Within m.bounds)
    (hv : g.Stored m.bounds message) : g.Runs A m (error.setMessage message) fun _ _ => True := by
  have hmessage : g.Runs A m (do
      let text ← message.toText
      error.defineOrThrow (.name "message") (.hidden (.string text))) fun _ _ => True := by
    refine .bind (Value.toText_runs hv) fun text _ _ _ _ hm' => ?_
    subst hm'
    exact ObjectId.defineOrThrow_runs he ⟨trivial, fun _ => rfl⟩
  cases message with
  | undefined => exact .pure trivial
  | _ => exact hmessage

/-- A new error is on no prototype chain but its own, so it may inherit from any object held
somewhere. -/
theorem inheritFrom_runs {obj : Object} {newTarget : Option Value} (hm : g.Sound m)
    (hok : g.ObjectOk m.bounds obj) (hextensible : obj.extensible = true)
    (htarget : ∀ v, newTarget = some v → g.Stored m.bounds v) :
    g.Runs A (m.pushObject obj) (ObjectId.inheritFrom ⟨m.objects.size⟩ newTarget) fun _ _ => True := by
  have hb : m.bounds ≤ (m.pushObject obj).bounds := by
    rw [Machine.bounds_pushObject]
    exact ⟨Nat.le_succ _, Nat.le_refl _, Nat.le_refl _⟩
  cases newTarget with
  | none => exact .pure trivial
  | some target =>
    have hholds : (m.pushObject obj).Holds (g.Stored m.bounds) := by
      refine ⟨fun o obj' ho => ?_, hm.holds.bindings⟩
      rw [Machine.object?_pushObject] at ho
      split at ho
      · cases ho
        exact hok.properties
      · exact (hm.objects o obj' ho).properties
    refine .query (prototypeProperty_asks hholds ⟨trivial, fun _ => rfl⟩
      ((htarget target rfl).1.mono hb)) fun v _ hv => ?_
    cases v with
    | object p =>
      have herror : (m.pushObject obj).object? ⟨m.objects.size⟩ = some obj := by
        rw [Machine.object?_pushObject, if_pos rfl]
      refine .imp (fun _ => ObjectId.modify_yields (Machine.size_within obj) (.single (.reparent
        (S := fun o => o.Within m.bounds) herror (fun _ h => ?_) (fun _ h => ?_) (Nat.lt_irrefl _) ?_
        fun _ => .inr hextensible))) fun _ _ _ _ _ => trivial
      · cases h
        exact Nat.lt_of_lt_of_le hv.1 hb.1
      · cases h
        exact hv.1
      · intro x y hx ⟨obj', hobj', hy⟩
        rw [Machine.object?_pushObject_of_within _ hx] at hobj'
        exact (hm.objects x obj' hobj').prototype y hy
    | _ => exact .pure trivial

theorem constructError_runs {kind : ErrorKind} {arguments : List Value} {newTarget : Option Value}
    (harguments : ∀ v ∈ arguments, g.Stored m.bounds v)
    (htarget : ∀ v, newTarget = some v → g.Stored m.bounds v) :
    g.Runs A m (constructError kind arguments newTarget) fun m' v => g.Stored m'.bounds v := by
  refine .of_sound fun hm => .bind (fun _ => newError_yields (g.steps_motion _) kind none) ?_
  rintro error m₁ - hsteps₁ hm₁ ⟨rfl, obj, rfl, hextensible, hok⟩
  have hb₁ := hsteps₁.bounds hm
  refine .bind (inheritFrom_runs hm hok hextensible htarget) fun _ m₂ _ hsteps₂ hm₂ _ => ?_
  have hb₂ := hsteps₂.bounds hm₁
  have herror := Nat.lt_of_lt_of_le (Machine.size_within (m := m) obj) hb₂.1
  have hmessage : g.Stored m₂.bounds (arguments.headD .undefined) := by
    cases arguments with
    | nil => exact ⟨trivial, fun _ => rfl⟩
    | cons v rest => exact ((harguments v (by simp)).mono hb₁).mono hb₂
  refine .bind (setMessage_runs herror hmessage) fun _ m₃ _ hsteps₃ _ _ => ?_
  exact .pure (.object (Nat.lt_of_lt_of_le herror (hsteps₃.bounds hm₂).1))

theorem hasInstance_runs {constructor value : Value} (hc : constructor.Within m.bounds)
    (hv : value.Within m.bounds) : g.Runs A m (hasInstance constructor value) fun _ _ => True := by
  refine .query (Value.isCallable_asks hc) fun callable _ _ => ?_
  split
  · exact .pure trivial
  · split
    · refine .query (ObjectId.get_asks hc) fun p _ _ => ?_
      cases p with
      | object prototype =>
        refine .query (ObjectId.getPrototype_asks hv) fun start _ hstart => ?_
        refine .query (searchChain_asks (P := fun _ => True) hstart fun _ _ => .pure fun _ _ => trivial)
          fun _ _ _ => .pure trivial
      | _ => exact .complain _
    · exact .pure trivial

theorem instanceOf_runs {value target : Value} (hv : value.Within m.bounds)
    (ht : target.Within m.bounds) : g.Runs A m (instanceOf value target) fun _ _ => True := by
  unfold instanceOf
  split
  · exact .complain _
  · refine .query (Value.isCallable_asks ht) fun callable _ _ => ?_
    split
    · exact .complain _
    · exact hasInstance_runs ht hv

theorem Contract.Ends.not_broke {target : Option String} {v : Option Value}
    (h : g.Ends m .top (.broke target v)) : ¬ g.checked := by
  intro hc
  have hjump := h.2 hc
  cases target <;> simp [Jumps.Breaks, Jumps.top] at hjump

theorem Contract.Ends.not_continued {target : Option String} {v : Option Value}
    (h : g.Ends m .top (.continued target v)) : ¬ g.checked := by
  intro hc
  have hjump := h.2 hc
  cases target <;> simp [Jumps.Continues, Jumps.top] at hjump

namespace Evaluator

variable {ev : Evaluator} (hev : ev.Keeps g) {arguments : List Value} {thisValue newTarget : Value}

include hev

theorem functionBody_runs (hf : f.Within m.bounds) (harguments : ∀ v ∈ arguments, g.Stored m.bounds v)
    (hcode : g.checked → slots.code.Valid) (hopen : g.Opened A m env)
    (hscope : lexicalEnv m = .ok env) :
    g.Runs A m (ev.functionBody f slots arguments) fun m' c => g.Ends m' .top c := by
  refine .completing ?_ fun m' v hv => hv
  refine .seq (instantiateFunction_runs hev hf harguments hcode hopen hscope) ?_
  intro _ m₁ _ _ _ ⟨env₁, hhoists⟩
  rw [Body.lexicalNames_true] at hhoists
  cases hbody : slots.code.body with
  | block body =>
    have hstatements : slots.code.statements = body := by simp [FunctionCode.statements, hbody]
    rw [hstatements] at hhoists
    refine statements_runs hev (fun hc => ?_) hhoists fun _ h => by cases h
    rw [← hstatements]
    exact (hcode hc).declares.statements
  | concise e =>
    have he (hc : g.checked) : e.Valid := by
      have hvalid := hcode hc
      cases hcode' : slots.code with
      | mk name kind parameters body isAsync isGenerator =>
        rw [hcode'] at hvalid hbody
        cases hbody
        cases hvalid
        assumption
    exact .bind (value_runs hev he) fun v _ _ _ _ hv => .pure hv

theorem runFunction_runs (hf : m.IsFunction f slots) (hthis : g.Stored m.bounds thisValue)
    (harguments : ∀ v ∈ arguments, g.Stored m.bounds v) (htarget : g.Stored m.bounds newTarget) :
    g.Runs A m (ev.runFunction f slots thisValue arguments newTarget) fun m' c => g.Ends m' .top c := by
  refine .of_sound fun hm => ?_
  obtain ⟨-, hprivate, hrealm, hcode⟩ := hf.kindOk hm
  refine .seq (newFunctionEnvironment_runs hf htarget) fun env m₁ _ hsteps₁ hm₁ ⟨hopen, htakes⟩ => ?_
  have hb₁ := hsteps₁.bounds hm
  have hf₁ := Nat.lt_of_lt_of_le hf.within hb₁.1
  have hrealm₁ := Nat.lt_of_lt_of_le hrealm hb₁.2.2
  have hbody (context : Context) (hcontext : context.lexicalEnv = env) :
      g.Runs A (m₁.withContexts (context :: m₁.contexts)) (do
        bindCallThis slots thisValue
        ev.functionBody f slots arguments) fun m' c => g.Ends m' .top c := by
    let m₂ := m₁.withContexts (context :: m₁.contexts)
    have hopen₂ : g.Opened A m₂ env := ⟨hopen.empty, hopen.declare⟩
    have hscope₂ : lexicalEnv m₂ = .ok env := hcontext ▸ lexicalEnv_cons rfl
    refine .of_sound fun hm₂ => .seq (bindCallThis_runs hopen₂ hscope₂ htakes hrealm₁ (hthis.mono hb₁)) ?_
    intro _ m₃ hrun₃ hsteps₃ _ hopen₃
    have hb₃ := hsteps₃.bounds hm₂
    refine functionBody_runs hev (Nat.lt_of_lt_of_le hf₁ hb₃.1)
      (fun v hv => ((harguments v hv).mono hb₁).mono hb₃) hcode hopen₃ ?_
    have hkeeps : (bindCallThis slots thisValue).KeepsStack := by grind
    exact (hkeeps.lexicalEnv hrun₃).trans hscope₂
  refine withContext_runs ⟨hrealm₁, ?_, hopen.within, hopen.within,
    fun e he => Nat.lt_of_lt_of_le (hprivate e he) hb₁.2.1⟩ (hbody _ rfl) fun m' c cs h => h.withContexts cs
  rintro _ ⟨rfl⟩
  exact hf₁

theorem callFunction_runs (hf : m.IsFunction f slots) (hthis : g.Stored m.bounds thisValue)
    (harguments : ∀ v ∈ arguments, g.Stored m.bounds v) :
    g.Runs A m (ev.callFunction f slots thisValue arguments) fun m' v => g.Stored m'.bounds v := by
  unfold callFunction
  split
  · exact .unsupported _
  · refine .bind (runFunction_runs hev hf hthis harguments ⟨trivial, fun _ => rfl⟩)
      fun c m₁ _ _ _ hends => ?_
    cases c with
    | normal v => exact .pure ⟨trivial, fun _ => rfl⟩
    | returned v => exact .pure hends
    | thrown v => exact .throw hends
    | broke target v => exact .breach _ hends.not_broke
    | continued target v => exact .breach _ hends.not_continued

theorem constructFunction_runs (hf : m.IsFunction f slots)
    (harguments : ∀ v ∈ arguments, g.Stored m.bounds v) (htarget : g.Stored m.bounds newTarget) :
    g.Runs A m (ev.constructFunction f slots arguments newTarget) fun m' v => g.Stored m'.bounds v := by
  refine .of_sound fun hm => .query (prototypeFor_asks htarget.1) fun prototype _ hp => ?_
  refine .bind (newObject_runs fun p h => by cases h; exact hp) fun self m₁ _ hsteps₁ hm₁ ⟨heq, hself⟩ => ?_
  have hb₁ := hsteps₁.bounds hm
  have hself₁ : self.Within m₁.bounds := by
    rw [heq, hself]
    exact Machine.size_within _
  refine .bind (runFunction_runs hev (hsteps₁.isFunction hf) (.object hself₁)
    (fun v hv => (harguments v hv).mono hb₁) (htarget.mono hb₁)) fun c m₂ _ hsteps₂ _ hends => ?_
  have hself₂ := Nat.lt_of_lt_of_le hself₁ (hsteps₂.bounds hm₁).1
  cases c with
  | normal v => exact .pure (.object hself₂)
  | returned v =>
    cases v with
    | object o => exact .pure hends
    | _ => exact .pure (.object hself₂)
  | thrown v => exact .throw hends
  | broke target v => exact .breach _ hends.not_broke
  | continued target v => exact .breach _ hends.not_continued

theorem call_runs {callee : Value} (hcallee : callee.Within m.bounds)
    (hthis : g.Stored m.bounds thisValue) (harguments : ∀ v ∈ arguments, g.Stored m.bounds v) :
    g.Runs A m (ev.call callee thisValue arguments) fun m' v => g.Stored m'.bounds v := by
  cases callee with
  | object o =>
    refine .query (ObjectId.load_asks hcallee) fun obj _ hobj => ?_
    cases hkind : obj.kind with
    | errorConstructor kind => exact constructError_runs harguments (by simp)
    | function slots =>
      exact callFunction_runs hev (Machine.isFunction_of_kind hobj hkind) hthis harguments
    | _ => exact .complain _
  | _ => exact .complain _

theorem construct_runs {callee : Value} {newTarget : Option Value} (hcallee : g.Stored m.bounds callee)
    (harguments : ∀ v ∈ arguments, g.Stored m.bounds v)
    (htarget : ∀ v, newTarget = some v → g.Stored m.bounds v) :
    g.Runs A m (ev.construct callee arguments newTarget) fun m' v => g.Stored m'.bounds v := by
  have htarget' : g.Stored m.bounds (newTarget.getD callee) := by
    cases newTarget with
    | none => exact hcallee
    | some v => exact htarget v rfl
  cases callee with
  | object o =>
    refine .query (ObjectId.load_asks hcallee.1) fun obj _ hobj => ?_
    cases hkind : obj.kind with
    | errorConstructor kind =>
      refine constructError_runs harguments fun v hv => ?_
      cases hv
      exact htarget'
    | function slots =>
      dsimp only
      split
      · exact constructFunction_runs hev (Machine.isFunction_of_kind hobj hkind) harguments htarget'
      · exact .complain _
    | _ => exact .complain _
  | _ => exact .complain _

end Evaluator

end EcmaEval
