import EcmaEval.Proofs.Host.Realm

/-!
# The realm of new objects

Which realm a new error or a new instance belongs to. An error constructor that is called makes an error
of the *running* realm, though `new` makes one of the realm that the constructor belongs to. In the same
way, a function whose property `prototype` is no object makes instances of the running realm. So both
answer for the realm they were made in exactly when that realm is running.
-/
namespace EcmaEval

/-- A data property of an object's own is what reading the object gives. -/
theorem ObjectId.get_own {m : Machine} {o : ObjectId} {obj : Object} {key : Key} {v : Value}
    {writable enumerable configurable : Bool} (ho : m.object? o = some obj)
    (hkey : obj.parameter? key = none)
    (hd : obj.properties.get? key = some (.data v writable enumerable configurable)) :
    o.get key m = .ok v := by
  have hread : readOwn key o m = .ok (some v) := by
    unfold readOwn
    rw [Query.bind_ok (mappedValue_eq_none ho hkey)]
    dsimp only
    rw [Query.bind_ok (load_eq ho), hd]
    rfl
  have hsearch : searchChain (some o) (readOwn key) m = .ok (some v) := by
    change findOnChain (readOwn key) (m.objects.size + 1) (some o) m = _
    unfold findOnChain
    rw [Query.bind_ok hread]
    rfl
  unfold get
  rw [Query.bind_ok hsearch]
  rfl

/-- The value has a text without asking an object for it. -/
def Value.hasText : Value → Bool
  | .symbol _ | .object _ | .reference _ => false
  | .undefined | .null | .boolean _ | .number _ | .string _ | .bigint _ => true

/-- However the run ends, the first object it makes has this prototype. -/
def Eval.Instantiates (x : Eval α) (m : Machine) (p : ObjectId) : Prop :=
  ∃ obj, (x.after m).object? ⟨m.objects.size⟩ = some obj ∧ obj.prototype = some p

section Errors

variable {m : Machine} {c : Context} {cs : List Context} {s : Realm} {kind : ErrorKind} {p : ObjectId}

/-- A new error with a prototype. -/
def Object.newErrorOf (p : ObjectId) : Object := { prototype := some p, kind := .error }

/-- Every object keeps its prototype. -/
def Remit.inherited : Remit := { Remit.whole with prototypes := False }

instance : Remit.inherited.IsFree := ⟨fun _ => trivial, trivial⟩

theorem Remit.inherited_isOpen : inherited.IsOpen := ⟨trivial, fun _ => trivial, trivial, trivial⟩

/-- The message that an error gets leaves its prototype alone. -/
theorem setMessage_instantiates (v : Value) (p : ObjectId) (m : Machine) :
    ∃ obj, ((ObjectId.setMessage ⟨m.objects.size⟩ v).after (m.pushObject (.newErrorOf p))).object?
      ⟨m.objects.size⟩ = some obj ∧ obj.prototype = some p := by
  let error : ObjectId := ⟨m.objects.size⟩
  have htouches := (setMessage_stays (R := .inherited) (owns_of_isFree error) (holds_of_isFree v)).touches_after
    (m.pushObject (.newErrorOf p)).closedIn_of_isFree
  exact htouches.prototype id (m.object?_pushObject_self _)

theorem setMessage_eq_ok {v : Value} (hv : v.hasText = true) (p : ObjectId) (m : Machine) :
    ∃ m', ObjectId.setMessage ⟨m.objects.size⟩ v (m.pushObject (.newErrorOf p)) = .ok () m' := by
  have hdefine (text : Text) : ∃ m', ObjectId.defineOrThrow ⟨m.objects.size⟩ (.name "message")
      (.hidden (.string text)) (m.pushObject (.newErrorOf p)) = .ok () m' :=
    ⟨_, ObjectId.defineOrThrow_new rfl rfl rfl rfl⟩
  cases v with
  | undefined => exact ⟨_, rfl⟩
  | symbol _ => cases hv
  | object _ => cases hv
  | reference _ => cases hv
  | _ => exact hdefine _

/-- The run of an error constructor: whether or not there is a text for the message, an error with the
prototype is made; with a text it is returned. -/
structure Eval.MakesError (x : Eval Value) (m : Machine) (p : ObjectId) (message : Value) : Prop where
  made : x.Instantiates m p
  returned : ∀ v m', x m = .ok v m' → v = .object ⟨m.objects.size⟩
  returns : message.hasText = true → ∃ v m', x m = .ok v m'

/-- An error whose prototype is settled gets its message and is returned. -/
theorem Eval.MakesError.of_run {x : Eval Value} {message : Value}
    (hx : x m = (do
      ObjectId.setMessage ⟨m.objects.size⟩ message
      return .object ⟨m.objects.size⟩ : Eval Value) (m.pushObject (.newErrorOf p))) :
    x.MakesError m p message where
  made := by
    obtain ⟨obj, hobj, hprototype⟩ := setMessage_instantiates message p m
    refine ⟨obj, ?_, hprototype⟩
    rw [← hobj, Eval.after_congr hx]
    cases hmessage : ObjectId.setMessage ⟨m.objects.size⟩ message (m.pushObject (.newErrorOf p)) with
    | ok _ m' =>
      rw [Eval.after_ok hmessage, Eval.after_bind_ok hmessage]
      rfl
    | error e m' => rw [Eval.after_error hmessage, Eval.after_error (bind_error hmessage)]
  returned v m' hok := by
    rw [hx] at hok
    obtain ⟨_, m₁, -, hreturn⟩ := bind_eq_ok hok
    cases hreturn
    rfl
  returns htext := by
    obtain ⟨m', hm'⟩ := setMessage_eq_ok htext p m
    exact ⟨_, m', hx.trans (bind_ok hm')⟩

/-- An error constructor whose property `prototype` is settled. -/
def Machine.IsErrorConstructor (m : Machine) (f : ObjectId) (kind : ErrorKind) (p : ObjectId) : Prop :=
  ∃ obj, m.object? f = some obj ∧ obj.kind = .errorConstructor kind ∧
    obj.properties.get? .prototype = some (.frozen (.object p))

variable {f : ObjectId} (ev : Evaluator) (hf : m.IsErrorConstructor f kind p) (hm : m.contexts = c :: cs)
  (hs : m.realm? c.realm = some s) (arguments : List Value)

include hf hm hs

/-- Called as a function, an error constructor makes an error of the running realm. -/
theorem call_errorConstructor (thisValue : Value) :
    (ev.call (.object f) thisValue arguments).MakesError m (s.intrinsics.errorPrototype kind)
      (arguments.headD .undefined) := by
  obtain ⟨obj, hobj, hkind, -⟩ := hf
  have hnew : newError kind none m =
      .ok ⟨m.objects.size⟩ (m.pushObject (.newErrorOf (s.intrinsics.errorPrototype kind))) :=
    bind_ok (lift_ok (intrinsics_eq hm hs))
  refine .of_run ?_
  calc ev.call (.object f) thisValue arguments m
    _ = constructError kind arguments none m := by
      refine (bind_ok (lift_ok (ObjectId.load_eq hobj))).trans ?_
      rw [hkind]
    _ = _ := bind_ok hnew

/-- With itself as the new target, an error constructor makes an error of the realm it belongs to. -/
theorem construct_errorConstructor {newTarget : Option Value}
    (ht : newTarget.getD (.object f) = .object f) :
    (ev.construct (.object f) arguments newTarget).MakesError m p (arguments.headD .undefined) := by
  obtain ⟨obj, hobj, hkind, hprototype⟩ := hf
  let m₁ := m.pushObject (.newErrorOf (s.intrinsics.errorPrototype kind))
  have hnew : newError kind none m = .ok ⟨m.objects.size⟩ m₁ := bind_ok (lift_ok (intrinsics_eq hm hs))
  have hobj₁ : m₁.object? f = some obj := by
    rw [Machine.object?_pushObject_of_within _ (Machine.within_of_object? hobj), hobj]
  have hproperty : prototypeProperty (.object f) m₁ = .ok (.object p) :=
    ObjectId.get_own hobj₁ (by simp [Object.parameter?, Object.parameterMap?, hkind]) hprototype
  have hmodify : ObjectId.modify ⟨m.objects.size⟩ ({ · with prototype := some p }) m₁ =
      .ok () (m.pushObject (.newErrorOf p)) := by
    rw [ObjectId.modify_eq (m.within_pushObject_self _), Machine.updateObject_pushObject]
    rfl
  have hinherit : ObjectId.inheritFrom ⟨m.objects.size⟩ (some (.object f)) m₁ =
      .ok () (m.pushObject (.newErrorOf p)) := (bind_ok (lift_ok hproperty)).trans hmodify
  refine .of_run ?_
  calc ev.construct (.object f) arguments newTarget m
    _ = constructError kind arguments (some (.object f)) m := by
      refine (bind_ok (lift_ok (ObjectId.load_eq hobj))).trans ?_
      rw [hkind, ht]
    _ = _ := (bind_ok hnew).trans (bind_ok hinherit)

end Errors

section Instances

variable {m : Machine} {c : Context} {cs : List Context} {s : Realm} {f : ObjectId} {obj : Object}
  {slots : FunctionSlots}

/-- The run of a function as a constructor: an instance with the prototype is made, and it is what the
run returns unless the body returns another object. -/
structure Eval.MakesInstance (x : Eval Value) (m : Machine) (p : ObjectId)
    (body : Value → Eval Completion) : Prop where
  made : x.Instantiates m p
  returned : ∀ v m', x m = .ok v m' →
    v = .object ⟨m.objects.size⟩ ∨ ∃ o, v = .object o ∧
      body (.object ⟨m.objects.size⟩) (m.pushObject { prototype := some p, kind := .ordinary }) =
        .ok (.returned (.object o)) m'

/-- What a constructor returns whose body ended so: the object that the body returns, or the instance. -/
def Completion.instanceOr (o : ObjectId) : Completion → Eval Value
  | .returned (.object o') => return .object o'
  | .returned _ | .normal _ => return .object o
  | .thrown value => throw (.thrown value)
  | .broke _ _ | .continued _ _ => breach .escapedConstructor

theorem Eval.after_bind_instanceOr (x : Eval Completion) (o : ObjectId) (m : Machine) :
    (x >>= Completion.instanceOr o).after m = x.after m := by
  cases hx : x m with
  | ok completion m' =>
    rw [after_ok hx, after_bind_ok hx]
    cases completion with
    | returned v => cases v <;> rfl
    | _ => rfl
  | error e m' => rw [after_error hx, after_error (bind_error hx)]

/-- A function without a prototype object, with itself as the new target, makes instances of the
running realm. -/
theorem construct_function (level : Nat) (hf : m.object? f = some obj) (hkind : obj.kind = .function slots)
    (hconstructor : slots.isConstructor = true) {v : Value} (hproperty : f.get .prototype m = .ok v)
    (hv : v.isObject = false) (hm : m.contexts = c :: cs) (hs : m.realm? c.realm = some s)
    (arguments : List Value) {newTarget : Option Value} (ht : newTarget.getD (.object f) = .object f) :
    ((Evaluator.level level).construct (.object f) arguments newTarget).MakesInstance m
      s.intrinsics.objectPrototype
      fun self => (Evaluator.level level).runFunction f slots self arguments (.object f) := by
  let ev := Evaluator.level level
  let self : Object := { prototype := some s.intrinsics.objectPrototype, kind := .ordinary }
  let run := ev.runFunction f slots (.object ⟨m.objects.size⟩) arguments (.object f)
  have hprototype : prototypeFor (.object f) m = .ok s.intrinsics.objectPrototype := by
    refine (Query.bind_ok hproperty).trans ?_
    cases v with
    | object o => cases hv
    | _ => exact Query.bind_ok (intrinsics_eq hm hs)
  have hconstruct : ev.construct (.object f) arguments newTarget m =
      (run >>= Completion.instanceOr ⟨m.objects.size⟩) (m.pushObject self) := by
    refine (bind_ok (lift_ok (ObjectId.load_eq hf))).trans ?_
    rw [hkind, ht]
    dsimp only
    rw [if_pos hconstructor]
    exact bind_ok (lift_ok hprototype)
  have hev := Evaluator.level_stays Remit.inherited_isOpen level
  have hstays : run.StaysIn .inherited Remit.inherited.Holds := Evaluator.runFunction_stays hev
    (holds_of_isFree _) (holds_of_isFree _) (holds_of_isFree _) (holds_of_isFree _) (holds_of_isFree _)
  -- code changes no prototype of an object that exists, so the instance keeps its own
  have htouches := hstays.touches_after (m.pushObject self).closedIn_of_isFree
  refine ⟨?_, fun v m' hok => ?_⟩
  · unfold Eval.Instantiates
    rw [Eval.after_congr hconstruct, Eval.after_bind_instanceOr]
    exact htouches.prototype id (m.object?_pushObject_self self)
  · rw [hconstruct] at hok
    obtain ⟨completion, m₁, hrun, hfinish⟩ := bind_eq_ok hok
    cases completion with
    | returned v =>
      cases v with
      | object o =>
        cases hfinish
        exact .inr ⟨o, rfl, hrun⟩
      | _ =>
        cases hfinish
        exact .inl rfl
    | normal v =>
      cases hfinish
      exact .inl rfl
    | thrown v => cases hfinish
    | broke target v => cases hfinish
    | continued target v => cases hfinish

end Instances

/-- Whatever a host does without stepping over the checks of objects, an error constructor stays tied to
its prototype. -/
theorem Machine.IsErrorConstructor.leads {m m' : Machine} {f p : ObjectId} {kind : ErrorKind}
    (h : m.IsErrorConstructor f kind p) (hm : Contract.values.Sound m) (hleads : Contract.values.Leads m m') :
    m'.IsErrorConstructor f kind p := by
  obtain ⟨obj, hobj, hkind, hprototype⟩ := h
  obtain ⟨obj', hobj', hkeeps⟩ := Contract.Leads.keeps Contract.values_open trivial hm hleads hobj
  obtain ⟨obj'', hobj'', hkind'⟩ := (Contract.Leads.steps Contract.values_open hm hleads).fixedKind hobj
    (by rw [hkind]; rfl)
  cases hobj'.symm.trans hobj''
  refine ⟨obj', hobj', hkind'.trans hkind, ?_⟩
  obtain ⟨d, hd, hstays⟩ := hkeeps.fixed trivial .prototype _ hprototype rfl
  rw [hd]
  cases d with
  | accessor => exact hstays.elim
  | data v writable enumerable configurable =>
    obtain ⟨rfl, rfl, hvalue⟩ := hstays
    obtain ⟨rfl, hsame⟩ := hvalue rfl
    cases v with
    | object q =>
      have hq : p = q := by simpa [Value.same, Value.sameNonNumber] using hsame
      rw [hq]
      rfl
    | _ => simp [Value.same, Value.sameNonNumber] at hsame

/-- What an error constructor of the realm `r` makes while the realm `s` is running. -/
structure Machine.MakesErrors (m : Machine) (level : Nat) (f : ObjectId) (kind : ErrorKind)
    (r s : Realm) : Prop where
  call : ∀ thisValue arguments, ((Evaluator.level level).call (.object f) thisValue arguments).MakesError m
    (s.intrinsics.errorPrototype kind) (arguments.headD .undefined)
  construct : ∀ arguments newTarget, newTarget.getD (.object f) = .object f →
    ((Evaluator.level level).construct (.object f) arguments newTarget).MakesError m
      (r.intrinsics.errorPrototype kind) (arguments.headD .undefined)

/-- After a realm was made: its error constructors are tied to its prototypes, and a running realm other
than it has other prototypes. -/
theorem newRealm_belongs {m₀ m₁ m : Machine} {home : RealmId} {c : Context} {cs : List Context}
    (h₀ : Contract.values.Reachable m₀) (hrealm : newRealm m₀ = .ok home m₁)
    (hnext : Contract.values.Leads m₁ m) (hm : m.contexts = c :: cs) :
    ∃ r s, m.realm? home = some r ∧ m.realm? c.realm = some s ∧ (c.realm ≠ home → s.Apart r) ∧
      ∀ f obj kind, m₀.object? f = none → m₁.object? f = some obj → obj.kind = .errorConstructor kind →
        m.IsErrorConstructor f kind (r.intrinsics.errorPrototype kind) := by
  obtain ⟨r, m', hrun, hfounded⟩ := newRealm_founded m₀
  cases hrun.symm.trans hrealm
  have hafter : Operation.newRealm.run.after m₀ = m₁ :=
    (Eval.after_discard newRealm m₀).trans (Eval.after_ok hrun)
  have h₁ : Contract.values.Reachable m₁ := hafter ▸ h₀.perform .newRealm trivial
  have hsound₁ := h₁.sound Contract.values_open
  have hsteps := Contract.Leads.steps Contract.values_open hsound₁ hnext
  have hrealms := (h₁.realmsOk Contract.values_open).leads Contract.values_open hsound₁ hnext
  have hr : m.realm? ⟨m₀.realms.size⟩ = some r :=
    hsteps.realms ((hfounded.realm? _).trans (if_pos rfl))
  obtain ⟨s, hs⟩ := Machine.exists_realm ((hsteps.sound hsound₁).head hm).realm
  refine ⟨r, s, hr, hs, fun hother => hrealms.apart _ _ s r hother hs hr, fun f obj kind hnew hobj hkind => ?_⟩
  have hfresh : m₀.objects.size ≤ f.index := Array.getElem?_eq_none_iff.mp hnew
  exact Machine.IsErrorConstructor.leads
    ⟨obj, hobj, hkind, hfounded.constructors f obj kind hfresh hobj hkind⟩ hsound₁ hnext

/-- A second realm comes to a machine that runs a script of the first. -/
theorem newRealm_second : ∃ m₀ m : Machine,
    Operation.runAll [.newRealm, .pushScriptContext ⟨0⟩ false] {} = m₀ ∧
      Contract.values.Reachable m₀ ∧ newRealm m₀ = .ok ⟨1⟩ m ∧
      (∃ c, m.contexts = [c] ∧ c.realm = ⟨0⟩) ∧
      ∀ kind, ∃ f obj, m₀.object? f = none ∧ m.object? f = some obj ∧
        obj.kind = .errorConstructor kind := by
  obtain ⟨r, m₁, hrun, hfounded⟩ := newRealm_founded {}
  have hm₁ : Operation.newRealm.run.after {} = m₁ :=
    (Eval.after_discard newRealm {}).trans (Eval.after_ok hrun)
  have hr : m₁.realm? ⟨0⟩ = some r := (hfounded.realm? ⟨0⟩).trans (if_pos rfl)
  let c : Context := ⟨⟨0⟩, none, r.globalEnv, r.globalEnv, none, [], false⟩
  have hpush : pushScriptContext ⟨0⟩ false m₁ = .ok () { m₁ with contexts := [c] } := by
    have hcontext : scriptContext ⟨0⟩ false m₁ = .ok c := Query.bind_ok (RealmId.load_eq hr)
    have hroom : ¬ m₁.stackLimit ≤ m₁.contexts.length := by
      rw [hfounded.stackLimit, hfounded.contexts]
      decide
    rw [pushScriptContext, bind_ok (lift_ok hcontext), pushContext_of_room c hroom, hfounded.contexts]
  have hafter : (Operation.pushScriptContext ⟨0⟩ false).run.after m₁ = { m₁ with contexts := [c] } :=
    Eval.after_ok hpush
  have hreach₁ : Contract.values.Reachable m₁ := hm₁ ▸ (Contract.Reachable.new _).perform .newRealm trivial
  have hreach : Contract.values.Reachable { m₁ with contexts := [c] } :=
    hafter ▸ hreach₁.perform (.pushScriptContext ⟨0⟩ false) (Machine.within_of_realm? hr)
  obtain ⟨s, m, hrun', hfounded'⟩ := newRealm_founded { m₁ with contexts := [c] }
  have hsize : m₁.realms.size = 1 := by rw [hfounded.realms]; rfl
  refine ⟨{ m₁ with contexts := [c] }, m, ?_, hreach, hsize ▸ hrun', ⟨c, hfounded'.contexts, rfl⟩,
    fun kind => ?_⟩
  · simp only [Operation.runAll, List.foldl_cons, List.foldl_nil, hm₁, hafter]
  · obtain ⟨f, obj, hnew, hobj, hkind⟩ := hfounded'.made kind (by cases kind <;> decide)
    exact ⟨f, obj, Array.getElem?_eq_none hnew, hobj, hkind⟩

/-- **The realm of new objects.** Let a host make a realm and then do anything, with valid handles, with
values that are no references and without passing over the checks of an object. An error constructor of
that realm, called as a function, makes an error of the running realm, and with itself as the new target
an error of its own realm. A function that was made in that realm and whose property `prototype` is no
object makes instances of the running realm. So the prototype is that of the realm of the constructor
exactly when that realm is running. -/
theorem constructors_take_running_realm {m₀ m₁ m : Machine} {home : RealmId} {c : Context}
    {cs : List Context} (h₀ : Contract.values.Reachable m₀) (hrealm : newRealm m₀ = .ok home m₁)
    (hnext : Contract.values.Leads m₁ m) (hm : m.contexts = c :: cs) (level : Nat) :
    ∃ r s, m.realm? home = some r ∧ m.realm? c.realm = some s ∧
      (∀ f obj kind, m₀.object? f = none → m₁.object? f = some obj →
        obj.kind = .errorConstructor kind →
        m.MakesErrors level f kind r s ∧
          (s.intrinsics.errorPrototype kind = r.intrinsics.errorPrototype kind ↔ c.realm = home)) ∧
      ∀ f obj slots v, m.object? f = some obj → obj.kind = .function slots → slots.realm = home →
        slots.isConstructor = true → f.get .prototype m = .ok v → v.isObject = false →
        (∀ arguments newTarget, newTarget.getD (.object f) = .object f →
          ((Evaluator.level level).construct (.object f) arguments newTarget).MakesInstance m
            s.intrinsics.objectPrototype
            fun self => (Evaluator.level level).runFunction f slots self arguments (.object f)) ∧
          (s.intrinsics.objectPrototype = r.intrinsics.objectPrototype ↔ c.realm = slots.realm) := by
  obtain ⟨r, s, hr, hs, hapart, hconstructors⟩ := newRealm_belongs h₀ hrealm hnext hm
  have hsame (heq : c.realm = home) : s = r := Option.some.inj (hs.symm.trans (heq ▸ hr))
  refine ⟨r, s, hr, hs, fun f obj kind hnew hobj hkind => ⟨?_, ?_⟩,
    fun f obj slots v hobj hkind hhome hconstructor hv hobject => ⟨?_, ?_⟩⟩
  · have hf := hconstructors f obj kind hnew hobj hkind
    exact ⟨fun thisValue arguments => call_errorConstructor _ hf hm hs arguments thisValue,
      fun arguments newTarget => construct_errorConstructor _ hf hm hs arguments⟩
  · exact ⟨fun heq => by_contra fun hother => (hapart hother).errorPrototype kind heq,
      fun heq => by rw [hsame heq]⟩
  · exact fun arguments newTarget => construct_function level hobj hkind hconstructor hv hobject hm hs arguments
  · rw [hhome]
    exact ⟨fun heq => by_contra fun hother => (hapart hother).objectPrototype heq,
      fun heq => by rw [hsame heq]⟩

/-- The constructors of a second realm, while the first is running. -/
theorem constructors_take_running_realm_second : ∃ (m₀ m : Machine) (r s : Realm),
    Operation.runAll [.newRealm, .pushScriptContext ⟨0⟩ false] {} = m₀ ∧ newRealm m₀ = .ok ⟨1⟩ m ∧
      m.realm? ⟨1⟩ = some r ∧ m.realm? ⟨0⟩ = some s ∧
      ∀ kind, ∃ f, m₀.object? f = none ∧ m.MakesErrors 1 f kind r s ∧
        s.intrinsics.errorPrototype kind ≠ r.intrinsics.errorPrototype kind := by
  obtain ⟨m₀, m, hstart, hreach, hrealm, ⟨c, hcontexts, hc⟩, hmade⟩ := newRealm_second
  obtain ⟨r, s, hr, hs, herrors, -⟩ := constructors_take_running_realm hreach hrealm .refl hcontexts 1
  refine ⟨m₀, m, r, s, hstart, hrealm, hr, hc ▸ hs, fun kind => ?_⟩
  obtain ⟨f, obj, hnew, hobj, hkind⟩ := hmade kind
  obtain ⟨hmakes, hiff⟩ := herrors f obj kind hnew hobj hkind
  refine ⟨f, hnew, hmakes, fun heq => ?_⟩
  have hhome : (⟨0⟩ : RealmId) = ⟨1⟩ := hc ▸ hiff.mp heq
  cases hhome

/-- Called from the first realm, no error constructor of the second makes an error of its own realm. -/
theorem call_foreign_errorConstructor : ∃ (m₀ m : Machine) (r : Realm),
    Operation.runAll [.newRealm, .pushScriptContext ⟨0⟩ false] {} = m₀ ∧ newRealm m₀ = .ok ⟨1⟩ m ∧
      m.realm? ⟨1⟩ = some r ∧
      ∀ kind, ∃ f obj, m₀.object? f = none ∧ m.object? f = some obj ∧ obj.kind = .errorConstructor kind ∧
        ∃ error m' obj', (Evaluator.level 1).call (.object f) .undefined [] m = .ok (.object error) m' ∧
          m'.object? error = some obj' ∧ obj'.prototype ≠ some (r.intrinsics.errorPrototype kind) := by
  obtain ⟨m₀, m, hstart, hreach, hrealm, ⟨c, hcontexts, hc⟩, hmade⟩ := newRealm_second
  obtain ⟨r, s, hr, hs, hapart, hconstructors⟩ := newRealm_belongs hreach hrealm .refl hcontexts
  have hother : c.realm ≠ ⟨1⟩ := by simp [hc]
  refine ⟨m₀, m, r, hstart, hrealm, hr, fun kind => ?_⟩
  obtain ⟨f, obj, hnew, hobj, hkind⟩ := hmade kind
  have hmakes := call_errorConstructor (Evaluator.level 1) (hconstructors f obj kind hnew hobj hkind)
    hcontexts hs [] .undefined
  obtain ⟨v, m', hcall⟩ := hmakes.returns rfl
  cases hmakes.returned v m' hcall
  obtain ⟨obj', hobj', hprototype⟩ := hmakes.made
  refine ⟨f, obj, hnew, hobj, hkind, _, m', obj', hcall, Eval.after_ok hcall ▸ hobj', fun heq => ?_⟩
  exact (hapart hother).errorPrototype kind (Option.some.inj (hprototype.symm.trans heq))

end EcmaEval
