import EcmaEval.Proofs.Heap.Update
import EcmaEval.Proofs.Run

/-!
# Definitions on known objects

What reading and defining a property of one object does, exactly, if the object is known: one that is no
array takes a descriptor that passes the check, and a mapped key is redefined together with its parameter.
-/
namespace EcmaEval

namespace Object

/-- The parameter a key stands for. -/
def parameter? (obj : Object) (key : Key) : Option (EnvId × String) :=
  obj.parameterMap?.bind fun map => (map.get? key).map fun name => (map.env, name)

theorem parameter?_some {obj : Object} {key : Key} {env : EnvId} {name : String}
    (h : obj.parameter? key = some (env, name)) :
    ∃ map, obj.parameterMap? = some map ∧ map.env = env ∧ map.get? key = some name := by
  unfold parameter? at h
  cases hm : obj.parameterMap? with
  | none => simp [hm] at h
  | some map =>
    cases hk : map.get? key with
    | none => simp [hm, hk] at h
    | some n =>
      simp only [hm, Option.bind_some, hk, Option.map_some, Option.some.injEq, Prod.mk.injEq] at h
      exact ⟨map, rfl, h.1, hk.trans (congrArg some h.2)⟩

theorem parameter?_eq {obj : Object} {map : ParameterMap} (hm : obj.parameterMap? = some map)
    {key : Key} {name : String} (hk : map.get? key = some name) :
    obj.parameter? key = some (map.env, name) := by
  simp [parameter?, hm, hk]

theorem isArray_of_parameterMap? {obj : Object} {map : ParameterMap}
    (h : obj.parameterMap? = some map) : obj.isArray = false := by
  unfold parameterMap? at h
  unfold isArray
  cases hk : obj.kind <;> simp_all

variable (obj : Object) (key : Key) (d : Descriptor)

@[simp] theorem insert_parameterMap? : (obj.insert key d).parameterMap? = obj.parameterMap? := rfl

@[simp] theorem insert_isArray : (obj.insert key d).isArray = obj.isArray := rfl

@[simp] theorem insert_extensible : (obj.insert key d).extensible = obj.extensible := rfl

@[simp] theorem insert_prototype : (obj.insert key d).prototype = obj.prototype := rfl

theorem insert_get? (k : Key) :
    (obj.insert key d).properties.get? k = if key == k then some d else obj.properties.get? k :=
  PropertyTable.get?_insert _ _ _ _

theorem insert_insert (d' : Descriptor) : (obj.insert key d).insert key d' = obj.insert key d' := by
  simp [insert, PropertyTable.insert_insert]

@[simp] theorem unmap_properties : (obj.unmap key).properties = obj.properties := by
  unfold unmap
  split <;> rfl

@[simp] theorem unmap_extensible : (obj.unmap key).extensible = obj.extensible := by
  unfold unmap
  split <;> rfl

@[simp] theorem unmap_isArray : (obj.unmap key).isArray = obj.isArray := by
  unfold unmap
  split
  · rename_i map hk
    simp [isArray, hk]
  · rfl

theorem unmap_parameterMap? : (obj.unmap key).parameterMap? = obj.parameterMap?.map (·.erase key) := by
  unfold unmap parameterMap?
  cases hk : obj.kind with
  | arguments map => cases map <;> simp_all
  | _ => simp_all

@[simp] theorem erase_isArray : (obj.erase key).isArray = obj.isArray := by
  unfold erase
  rw [unmap_isArray]
  rfl

@[simp] theorem erase_extensible : (obj.erase key).extensible = obj.extensible := by
  unfold erase
  simp

theorem erase_parameterMap? : (obj.erase key).parameterMap? = obj.parameterMap?.map (·.erase key) := by
  unfold erase
  rw [unmap_parameterMap?]
  rfl

theorem erase_get? (k : Key) :
    (obj.erase key).properties.get? k = if key == k then none else obj.properties.get? k := by
  unfold erase
  rw [unmap_properties]
  exact PropertyTable.get?_erase _ _ _

end Object

/-- The machine after a mapped key is redefined. Its parameter takes the value of a data descriptor;
an accessor or a read-only property cuts the tie. -/
def Machine.redefine (m : Machine) (o : ObjectId) (key : Key) (d : Descriptor) (env : EnvId)
    (r : DeclarativeRecord) (name : String) : Machine :=
  match d with
  | .accessor _ _ _ _ => m.updateObject o fun obj => (obj.insert key d).unmap key
  | .data v writable _ _ =>
    (m.storeEnv env (.declarative (r.put name v))).updateObject o fun obj =>
      if writable then obj.insert key d else (obj.insert key d).unmap key

variable {m : Machine} {o : ObjectId} {obj : Object} {key : Key} {d : Descriptor}

theorem Machine.updateObject_updateObject (m : Machine) (o : ObjectId) (f f' : Object → Object) :
    (m.updateObject o f).updateObject o f' = m.updateObject o fun obj => f' (f obj) := by
  have hobjects : (m.objects.modify o.index f).modify o.index f' =
      m.objects.modify o.index fun obj => f' (f obj) := by
    apply Array.ext_getElem?
    intro i
    simp only [Array.getElem?_modify]
    split
    · rw [Option.map_map]
      rfl
    · rfl
  simp [updateObject, hobjects]

theorem Machine.updateObject_congr (ho : m.object? o = some obj) {f f' : Object → Object}
    (h : f obj = f' obj) : m.updateObject o f = m.updateObject o f' := by
  have hobjects : m.objects.modify o.index f = m.objects.modify o.index f' := by
    apply Array.ext_getElem?
    intro i
    simp only [Array.getElem?_modify]
    split
    · subst i
      rw [show m.objects[o.index]? = some obj from ho]
      exact congrArg some h
    · rfl
  simp [updateObject, hobjects]

theorem Machine.updateObject_of_eq (ho : m.object? o = some obj) {f : Object → Object}
    (h : f obj = obj) : m.updateObject o f = m := by
  have hobjects : m.objects.modify o.index id = m.objects := by
    apply Array.ext_getElem?
    intro i
    simp [Array.getElem?_modify]
  rw [updateObject_congr ho (show f obj = id obj from h), updateObject, hobjects]

namespace ObjectId

theorem mappedParameter_eq (ho : m.object? o = some obj) :
    o.mappedParameter key m = .ok (obj.parameter? key) := by
  unfold mappedParameter Object.parameter?
  rw [Query.bind_ok (load_eq ho)]
  cases obj.parameterMap? <;> rfl

theorem mappedValue_eq_none (ho : m.object? o = some obj) (hkey : obj.parameter? key = none) :
    o.mappedValue key m = .ok none := by
  unfold mappedValue
  rw [Query.bind_ok (mappedParameter_eq ho), hkey]
  rfl

theorem mappedValue_eq {env : EnvId} {name : String} {r : DeclarativeRecord}
    (ho : m.object? o = some obj) (hkey : obj.parameter? key = some (env, name))
    (he : m.env? env = some (.declarative r)) :
    o.mappedValue key m = .ok ((r.get? name).bind (·.value)) := by
  unfold mappedValue
  rw [Query.bind_ok (mappedParameter_eq ho), hkey]
  dsimp only
  rw [Query.bind_ok (EnvId.load_eq he)]
  rfl

/-- A key that stands for nothing has the property that is stored. -/
theorem getOwnProperty_eq_stored (ho : m.object? o = some obj) (hkey : obj.parameter? key = none) :
    o.getOwnProperty key m = .ok (obj.properties.get? key) := by
  unfold getOwnProperty
  rw [Query.bind_ok (load_eq ho), Query.bind_ok (mappedValue_eq_none ho hkey)]
  cases obj.properties.get? key with
  | none => rfl
  | some d => cases d <;> rfl

/-- A mapped key has the value of its parameter. -/
theorem getOwnProperty_eq_mapped {env : EnvId} {name : String} {r : DeclarativeRecord} {x : Binding}
    {current v : Value} {writable enumerable configurable : Bool} (ho : m.object? o = some obj)
    (hkey : obj.parameter? key = some (env, name)) (he : m.env? env = some (.declarative r))
    (hx : r.get? name = some x) (hcurrent : x.value = some current)
    (hstored : obj.properties.get? key = some (.data v writable enumerable configurable)) :
    o.getOwnProperty key m = .ok (some (.data current writable enumerable configurable)) := by
  unfold getOwnProperty
  rw [Query.bind_ok (load_eq ho), Query.bind_ok (mappedValue_eq ho hkey he), hstored]
  simp only [hx, Option.bind_some, hcurrent]
  rfl

theorem isExtensible_eq (ho : m.object? o = some obj) : o.isExtensible m = .ok obj.extensible := by
  unfold isExtensible
  rw [Query.bind_ok (load_eq ho)]
  rfl

/-- The definition of a key whose current property is known. -/
theorem defineOrdinary_eq_of_current {current : Option Descriptor} (ho : m.object? o = some obj)
    (hcurrent : o.getOwnProperty key m = .ok current) (d : Descriptor) :
    o.defineOrdinary key d m =
      if Descriptor.mayBecome current obj.extensible d then
        .ok true (m.updateObject o (·.insert key d))
      else .ok false m := by
  unfold defineOrdinary
  rw [bind_ok (lift_ok hcurrent), bind_ok (lift_ok (isExtensible_eq ho))]
  unfold validateAndApply
  split
  · have hinsert : o.insert key d m = _ := modify_eq (Machine.within_of_object? ho) _
    exact bind_ok hinsert
  · rfl

theorem defineOrdinary_eq (ho : m.object? o = some obj) (hkey : obj.parameter? key = none)
    (d : Descriptor) :
    o.defineOrdinary key d m =
      if Descriptor.mayBecome (obj.properties.get? key) obj.extensible d then
        .ok true (m.updateObject o (·.insert key d))
      else .ok false m :=
  defineOrdinary_eq_of_current ho (getOwnProperty_eq_stored ho hkey) d

/-- The definition of a property of an object that is no array, under a key that stands for
nothing. -/
theorem define_eq (ho : m.object? o = some obj) (hkey : obj.parameter? key = none)
    (harray : obj.isArray = false) (d : Descriptor) :
    o.define key d m =
      if Descriptor.mayBecome (obj.properties.get? key) obj.extensible d then
        .ok true (m.updateObject o (·.insert key d))
      else .ok false m := by
  unfold define
  rw [bind_ok (lift_ok (mappedParameter_eq ho)), hkey]
  dsimp only
  rw [bind_ok (lift_ok (load_eq ho)), harray]
  exact defineOrdinary_eq ho hkey d

/-- A definition that its object allows is made. -/
theorem defineOrThrow_eq (ho : m.object? o = some obj) (hkey : obj.parameter? key = none)
    (harray : obj.isArray = false)
    (hmay : Descriptor.mayBecome (obj.properties.get? key) obj.extensible d = true) :
    o.defineOrThrow key d m = .ok () (m.updateObject o (·.insert key d)) := by
  have hdefine : o.define key d m = .ok true (m.updateObject o (·.insert key d)) := by
    rw [define_eq ho hkey harray, if_pos hmay]
  unfold defineOrThrow
  rw [bind_ok hdefine]
  rfl

/-- A new object takes a property that it does not have. -/
theorem defineOrThrow_new (hmap : obj.parameterMap? = none) (harray : obj.isArray = false)
    (hextensible : obj.extensible = true) (hnone : obj.properties.get? key = none) :
    ObjectId.defineOrThrow ⟨m.objects.size⟩ key d (m.pushObject obj) =
      .ok () (m.pushObject (obj.insert key d)) := by
  rw [defineOrThrow_eq (m.object?_pushObject_self obj) (by simp [Object.parameter?, hmap]) harray
    (by simp [hnone, Descriptor.mayBecome, hextensible]), Machine.updateObject_pushObject]

theorem writeParameter_eq {env : EnvId} {name : String} {r r' : DeclarativeRecord} {v : Value}
    (he : m.env? env = some (.declarative r)) (hassign : r.assign name v false = .ok r') :
    writeParameter env name v m = .ok () (m.storeEnv env (.declarative r')) := by
  unfold writeParameter
  rw [bind_ok (lift_ok (EnvId.load_eq he))]
  dsimp only
  rw [hassign]
  exact EnvId.store_eq (Machine.within_of_env? he) _

/-- The redefinition of a mapped key, as one move. -/
theorem defineMapped_eq {env : EnvId} {name : String} {r : DeclarativeRecord} {x : Binding}
    {current v : Value} {enumerable configurable : Bool} (ho : m.object? o = some obj)
    (hkey : obj.parameter? key = some (env, name)) (he : m.env? env = some (.declarative r))
    (hx : r.get? name = some x) (hmut : x.isMutable = true) (hcurrent : x.value = some current)
    (hstored : obj.properties.get? key = some (.data v true enumerable configurable))
    (d : Descriptor) :
    o.defineMapped key d env name m =
      if Descriptor.mayBecome (some (.data current true enumerable configurable)) obj.extensible d then
        .ok true (m.redefine o key d env r name)
      else .ok false m := by
  have hown := getOwnProperty_eq_mapped ho hkey he hx hcurrent hstored
  have hdefine := defineOrdinary_eq_of_current ho hown d
  unfold defineMapped
  by_cases hmay : Descriptor.mayBecome (some (.data current true enumerable configurable))
      obj.extensible d = true
  · rw [if_pos hmay] at hdefine
    rw [if_pos hmay, bind_ok hdefine]
    -- the property is stored first; then the parameter is written, the tie is cut, or both
    let m₁ := m.updateObject o (·.insert key d)
    have ho₁ : o.Within m₁.bounds := by
      simpa [m₁] using Machine.within_of_object? ho
    cases d with
    | accessor get set enumerable configurable =>
      have hfuse := Machine.updateObject_updateObject m o
        (·.insert key (.accessor get set enumerable configurable)) (·.unmap key)
      exact (bind_ok (modify_eq ho₁ _)).trans (congrArg (EStateM.Result.ok true) hfuse)
    | data w writable enumerable configurable =>
      have hassign : r.assign name w false = .ok (r.put name w) := by
        simp [DeclarativeRecord.assign, hx, hcurrent, hmut]
      have hwrite := writeParameter_eq (m := m₁) he hassign
      refine (bind_ok hwrite).trans ?_
      cases writable with
      | true => rfl
      | false =>
        have ho₂ : o.Within (m₁.storeEnv env (.declarative (r.put name w))).bounds := by
          simpa using ho₁
        have hfuse := Machine.updateObject_updateObject
          (m.storeEnv env (.declarative (r.put name w))) o
          (·.insert key (.data w false enumerable configurable)) (·.unmap key)
        exact (bind_ok (modify_eq ho₂ _)).trans (congrArg (EStateM.Result.ok true) hfuse)
  · rw [if_neg hmay] at hdefine
    rw [if_neg hmay, bind_ok hdefine]
    rfl

/-- The definition of a mapped key. -/
theorem define_eq_mapped {env : EnvId} {name : String} {r : DeclarativeRecord} {x : Binding}
    {current v : Value} {enumerable configurable : Bool} (ho : m.object? o = some obj)
    (hkey : obj.parameter? key = some (env, name)) (he : m.env? env = some (.declarative r))
    (hx : r.get? name = some x) (hmut : x.isMutable = true) (hcurrent : x.value = some current)
    (hstored : obj.properties.get? key = some (.data v true enumerable configurable))
    (d : Descriptor) :
    o.define key d m =
      if Descriptor.mayBecome (some (.data current true enumerable configurable)) obj.extensible d then
        .ok true (m.redefine o key d env r name)
      else .ok false m := by
  unfold define
  rw [bind_ok (lift_ok (mappedParameter_eq ho)), hkey]
  exact defineMapped_eq ho hkey he hx hmut hcurrent hstored d

end ObjectId

end EcmaEval
