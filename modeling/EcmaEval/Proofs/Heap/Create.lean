import EcmaEval.Proofs.Host.Binding
import EcmaEval.Proofs.Scope.Quiet

/-!
# New objects and functions

What the making of an object or a function leaves behind: the function of a declaration is always made and
known exactly, and nothing that was there changes.
-/
namespace EcmaEval

variable {m m' m'' : Machine} {o : ObjectId} {obj : Object} {key : Key} {d : Descriptor}

/-- New objects have come to the machine, and nothing else has changed. -/
structure Machine.Allocates (m m' : Machine) : Prop where
  rest : m' = { m with objects := m'.objects }
  size : m.objects.size ≤ m'.objects.size
  objects : ∀ o, o.Within m.bounds → m'.object? o = m.object? o

namespace Machine

namespace Allocates

@[refl] theorem refl (m : Machine) : m.Allocates m := ⟨rfl, Nat.le_refl _, fun _ _ => rfl⟩

theorem trans (h : m.Allocates m') (h' : m'.Allocates m'') : m.Allocates m'' where
  rest := by rw [h'.rest, h.rest]
  size := Nat.le_trans h.size h'.size
  objects o ho := (h'.objects o (Nat.lt_of_lt_of_le ho h.size)).trans (h.objects o ho)

theorem pushObject (m : Machine) (obj : Object) : m.Allocates (m.pushObject obj) where
  rest := rfl
  size := by simp [Machine.pushObject]
  objects _ ho := object?_pushObject_of_within obj ho

/-- A new object may still change. -/
theorem updateObject (h : m.Allocates m') (ho : m.objects.size ≤ o.index) (f : Object → Object) :
    m.Allocates (m'.updateObject o f) where
  rest := by
    rw [h.rest]
    rfl
  size := by simpa [Machine.updateObject] using h.size
  objects p hp := by
    have hother : p ≠ o := by
      rintro rfl
      exact absurd hp (Nat.not_lt.mpr ho)
    rw [object?_updateObject, if_neg hother, h.objects p hp]

theorem contexts (h : m.Allocates m') : m'.contexts = m.contexts := by rw [h.rest]

theorem env? (h : m.Allocates m') (env : EnvId) : m'.env? env = m.env? env := by rw [h.rest]; rfl

theorem realm? (h : m.Allocates m') (id : RealmId) : m'.realm? id = m.realm? id := by rw [h.rest]; rfl

theorem object?_eq_none (h : m.Allocates m') {o : ObjectId} (ho : m'.object? o = none) :
    m.object? o = none :=
  Array.getElem?_eq_none (Nat.le_trans h.size (Array.getElem?_eq_none_iff.mp ho))

end Allocates

theorem Complains.allocates (h : m.Complains m') : m.Allocates m' := by
  obtain rfl | ⟨obj, -, rfl⟩ := h
  · exact .refl m'
  · exact .pushObject m obj

/-- An arguments object has come to the machine. -/
def GetsArguments (m m' : Machine) (a : ObjectId) : Prop :=
  m.object? a = none ∧ ∃ obj map, m'.object? a = some obj ∧ obj.kind = .arguments map

/-- No arguments object has come to the machine. -/
def GetsNoArguments (m m' : Machine) : Prop := ∀ a, ¬ m.GetsArguments m' a

namespace GetsNoArguments

theorem of_objects (h : m'.objects = m.objects) : m.GetsNoArguments m' := by
  rintro a ⟨hnew, obj, map, ha, -⟩
  unfold object? at hnew ha
  rw [h, hnew] at ha
  cases ha

theorem trans (h : m.GetsNoArguments m') (h' : m'.GetsNoArguments m'')
    (hm' : ∀ o, o.Within m'.bounds → m''.object? o = m'.object? o) : m.GetsNoArguments m'' := by
  rintro a ⟨hnew, obj, map, ha, hkind⟩
  cases hold : m'.object? a with
  | none => exact h' a ⟨hold, obj, map, ha, hkind⟩
  | some old =>
    rw [hm' a (within_of_object? hold)] at ha
    exact h a ⟨hnew, obj, map, ha, hkind⟩

theorem pushObject (h : m.GetsNoArguments m') {obj : Object} (hobj : ∀ map, obj.kind ≠ .arguments map) :
    m.GetsNoArguments (m'.pushObject obj) := by
  rintro a ⟨hnew, obj', map, ha, hkind⟩
  rw [object?_pushObject] at ha
  split at ha
  · cases ha
    exact hobj map hkind
  · exact h a ⟨hnew, obj', map, ha, hkind⟩

theorem updateObject (h : m.GetsNoArguments m') (o : ObjectId) {f : Object → Object}
    (hf : ∀ obj, (f obj).kind = obj.kind) : m.GetsNoArguments (m'.updateObject o f) := by
  rintro a ⟨hnew, obj, map, ha, hkind⟩
  rw [object?_updateObject] at ha
  split at ha
  · obtain ⟨old, hold, rfl⟩ := Option.map_eq_some_iff.mp ha
    exact h a ⟨hnew, old, map, hold, (hf old).symm.trans hkind⟩
  · exact h a ⟨hnew, obj, map, ha, hkind⟩

end GetsNoArguments

end Machine

theorem intrinsics_eq {c : Context} {cs : List Context} {r : Realm} (hm : m.contexts = c :: cs)
    (hr : m.realm? c.realm = some r) : intrinsics m = .ok r.intrinsics :=
  (Query.bind_ok (currentRealm_cons hm)).trans (Query.bind_ok (RealmId.load_eq hr))

/-- The object is a function made of the code, closed over the environment, in the realm. -/
def Machine.IsClosure (m : Machine) (f : ObjectId) (code : FunctionCode) (env : EnvId)
    (realm : RealmId) : Prop :=
  ∃ obj slots, m.object? f = some obj ∧ obj.kind = .function slots ∧ slots.code = code ∧
    slots.environment = env ∧ slots.realm = realm

/-- The object is called by a text, in a property that only a redefinition changes. -/
def Object.IsNamed (obj : Object) (t : Text) : Prop :=
  obj.parameterMap? = none ∧ obj.properties.get? (.name "name") = some (.readOnly (.string t))

theorem Object.IsNamed.insert {t : Text} (h : obj.IsNamed t) (hkey : ¬(key == .name "name") = true)
    (d : Descriptor) : (obj.insert key d).IsNamed t :=
  ⟨h.1, by rw [insert_get?, if_neg hkey, h.2]⟩

theorem Object.IsNamed.markConstructor {t : Text} (h : obj.IsNamed t) : obj.markConstructor.IsNamed t := by
  obtain ⟨hmap, hname⟩ := h
  cases hkind : obj.kind <;> simp_all [Object.markConstructor, IsNamed, parameterMap?]

section Functions

variable {c : Context} {cs : List Context} {r : Realm} (hm : m.contexts = c :: cs)
  (hr : m.realm? c.realm = some r) (code : FunctionCode) (env : EnvId) (privateEnv : Option EnvId)

/-- The slots of a new function. -/
def FunctionCode.slotsIn (code : FunctionCode) (c : Context) (env : EnvId) (privateEnv : Option EnvId) :
    FunctionSlots :=
  let strict := code.isStrict c.strict
  { code, environment := env, privateEnv, realm := c.realm,
    thisMode := if code.kind == .arrow then .lexical else if strict then .strict else .global,
    strict, isConstructor := false }

/-- A new function object with its length. -/
def FunctionCode.objectIn (code : FunctionCode) (c : Context) (r : Realm) (env : EnvId)
    (privateEnv : Option EnvId) : Object :=
  let object : Object :=
    { prototype := some r.intrinsics.functionPrototype
      kind := .function (code.slotsIn c env privateEnv) }
  object.insert .length (.readOnly (.number (.ofNat (Parameters.expectedCount code.parameters))))

include hm hr

theorem newFunction_eq : newFunction code env privateEnv m =
    .ok ⟨m.objects.size⟩ (m.pushObject (code.objectIn c r env privateEnv)) := by
  have hstrict : isStrict m = .ok c.strict := Query.bind_ok (by simp [runningContext, hm])
  unfold newFunction
  rw [bind_ok (lift_ok (currentRealm_cons hm)), bind_ok (lift_ok (RealmId.load_eq hr)),
    bind_ok (lift_ok hstrict)]
  exact bind_ok (m := m.pushObject _) (ObjectId.defineOrThrow_new rfl rfl rfl rfl)

/-- A function that `new` may be applied to gets a new prototype object. -/
theorem makeConstructor_eq {f : ObjectId} {obj : Object} {slots : FunctionSlots}
    (hf : m.object? f = some obj) (hkind : obj.kind = .function slots) (hextensible : obj.extensible = true)
    (hnone : obj.properties.get? .prototype = none) :
    ∃ p, p.kind = .ordinary ∧ makeConstructor f m = .ok ()
      (((m.updateObject f Object.markConstructor).pushObject p).updateObject f
        (·.insert .prototype (.data (.object ⟨m.objects.size⟩) true false false))) := by
  let m₁ := m.updateObject f Object.markConstructor
  let prototype : Object := { prototype := some r.intrinsics.objectPrototype, kind := .ordinary }
  let p := prototype.insert (.name "constructor") (.hidden (.object f))
  have hsize : m₁.objects.size = m.objects.size := by simp [m₁, Machine.updateObject]
  have hmark : f.modify Object.markConstructor m = .ok () m₁ :=
    ObjectId.modify_eq (Machine.within_of_object? hf) _
  have hmarked : m₁.object? f = some obj.markConstructor := Machine.object?_updateObject_self hf _
  have hdefine : ObjectId.defineOrThrow ⟨m₁.objects.size⟩ (.name "constructor") (.hidden (.object f))
      (m₁.pushObject prototype) = .ok () (m₁.pushObject p) := ObjectId.defineOrThrow_new rfl rfl rfl rfl
  have hobj : obj.markConstructor = { obj with kind := .function { slots with isConstructor := true } } := by
    simp [Object.markConstructor, hkind]
  have hlast : f.defineOrThrow .prototype (.data (.object ⟨m₁.objects.size⟩) true false false)
      (m₁.pushObject p) = .ok () ((m₁.pushObject p).updateObject f
        (·.insert .prototype (.data (.object ⟨m₁.objects.size⟩) true false false))) := by
    have hlater : (m₁.pushObject p).object? f = some obj.markConstructor := by
      rw [Machine.object?_pushObject_of_within p (Machine.within_of_object? hmarked), hmarked]
    refine ObjectId.defineOrThrow_eq hlater ?_ ?_ ?_
    · simp [hobj, Object.parameter?, Object.parameterMap?]
    · simp [hobj, Object.isArray]
    · simp [hobj, hnone, hextensible, Descriptor.mayBecome]
  refine ⟨p, rfl, ?_⟩
  unfold makeConstructor
  rw [bind_ok hmark, bind_ok (lift_ok (intrinsics_eq (m := m₁) hm hr))]
  exact (bind_ok (m := m₁.pushObject prototype) hdefine).trans (hsize ▸ hlast)

/-- A function is always finished under the name that is given, and nothing that was there changes. -/
theorem finishFunction_eq (name : String) : ∃ m' obj, finishFunction ⟨m.objects.size⟩ code name
      (m.pushObject (code.objectIn c r env privateEnv)) = .ok () m' ∧
    m.Allocates m' ∧ m'.IsClosure ⟨m.objects.size⟩ code env c.realm ∧ m.GetsNoArguments m' ∧
    m'.object? ⟨m.objects.size⟩ = some obj ∧ obj.IsNamed (.ofString name) := by
  let f : ObjectId := ⟨m.objects.size⟩
  let first := code.objectIn c r env privateEnv
  let named := first.insert (.name "name") (.readOnly (.ofString name))
  have hname : setFunctionName f name (m.pushObject first) = .ok () (m.pushObject named) :=
    ObjectId.defineOrThrow_new rfl rfl rfl rfl
  have hnamed : named.IsNamed (.ofString name) := ⟨rfl, rfl⟩
  have hsame : m.GetsNoArguments m := .of_objects rfl
  unfold finishFunction
  rw [bind_ok hname]
  split
  · obtain ⟨p, hp, hmake⟩ := makeConstructor_eq (m := m.pushObject named) hm hr
      (m.object?_pushObject_self named) rfl rfl rfl
    have hmarked : (m.pushObject named).updateObject f Object.markConstructor =
      m.pushObject named.markConstructor := m.updateObject_pushObject named _
    rw [hmarked] at hmake
    have hmade : ((m.pushObject named.markConstructor).pushObject p).object? f =
        some named.markConstructor := by
      rw [Machine.object?_pushObject_of_within p (m.within_pushObject_self _), m.object?_pushObject_self]
    have hlast := Machine.object?_updateObject_self hmade
      (·.insert .prototype (.data (.object ⟨(m.pushObject named).objects.size⟩) true false false))
    refine ⟨_, _, hmake, ?_, ?_, ?_, hlast, hnamed.markConstructor.insert (by decide) _⟩
    · exact ((Machine.Allocates.pushObject m _).trans (.pushObject _ p)).updateObject (Nat.le_refl _) _
    · exact ⟨_, { code.slotsIn c env privateEnv with isConstructor := true }, hlast, rfl, rfl, rfl, rfl⟩
    · have hmark : named.markConstructor.kind =
          .function { code.slotsIn c env privateEnv with isConstructor := true } := rfl
      exact ((hsame.pushObject (by simp [hmark])).pushObject (by simp [hp])).updateObject f fun _ => rfl
  · exact ⟨_, named, rfl, .pushObject m named,
      ⟨named, code.slotsIn c env privateEnv, m.object?_pushObject_self named, rfl, rfl, rfl, rfl⟩,
      hsame.pushObject nofun, m.object?_pushObject_self named, hnamed⟩

/-- The function of a declaration is always made, and nothing that was there changes. -/
theorem instantiateDeclaration_eq : ∃ m', instantiateDeclaration code env privateEnv m =
    .ok ⟨m.objects.size⟩ m' ∧ m.Allocates m' ∧ m'.IsClosure ⟨m.objects.size⟩ code env c.realm ∧
      m.GetsNoArguments m' := by
  obtain ⟨m', -, hfinish, hallocates, hclosure, hnone, -⟩ :=
    finishFunction_eq hm hr code env privateEnv (code.name.getD "default")
  refine ⟨m', ?_, hallocates, hclosure, hnone⟩
  unfold instantiateDeclaration
  rw [bind_ok (newFunction_eq hm hr code env privateEnv)]
  exact bind_ok hfinish

end Functions

end EcmaEval
