import EcmaEval.Proofs.Heap.Array

/-!
# Mapped arguments

A mapped key of an arguments object and the parameter it stands for are two names of one value: what
is written to either is read from both, whatever is stored in the object itself. A key that stands for
nothing and a binding of a declarative environment have nothing to do with each other.
-/
namespace EcmaEval

/-- A binding of a declarative environment has a value. -/
def Machine.HasValue (m : Machine) (env : EnvId) (name : String) (v : Value) : Prop :=
  ∃ r b, m.env? env = some (.declarative r) ∧ r.get? name = some b ∧ b.value = some v

theorem DeclarativeRecord.get?_put_self {r : DeclarativeRecord} {name : String} {b : Binding}
    (hb : r.get? name = some b) (v : Value) :
    (r.put name v).get? name = some { b with value := some v } := by
  rw [get?_put, hb, Option.map_some, if_pos rfl]

theorem DeclarativeRecord.put_put (r : DeclarativeRecord) (name : String) (v : Value) :
    (r.put name v).put name v = r.put name v := by
  unfold put
  dsimp only
  rw [List.map_map]
  congr 1
  refine List.map_congr_left fun e _ => ?_
  by_cases h : e.1 = name <;> simp [h]

/-- A search that ends where it starts. -/
theorem searchChain_here {m : Machine} {probe : ObjectId → Query (Option β)} {o : ObjectId} {a : β}
    (h : probe o m = .ok (some a)) : searchChain (some o) probe m = .ok (some a) := by
  change findOnChain probe (m.objects.size + 1) (some o) m = _
  unfold findOnChain
  rw [Query.bind_ok h]
  rfl

/-- An object has the properties of its own. -/
theorem ObjectId.hasProperty_own {m : Machine} {o : ObjectId} {obj : Object} {key : Key}
    (ho : m.object? o = some obj) (hown : (obj.properties.get? key).isSome = true) :
    o.hasProperty key m = .ok true := by
  have hcontains : obj.properties.contains key = true := by
    simpa [PropertyTable.contains, PropertyTable.get?] using hown
  have hfound : searchChain (some o)
      (fun p => return if (← p.load).properties.contains key then some () else none) m = .ok (some ()) := by
    refine searchChain_here ?_
    rw [Query.bind_ok (load_eq ho), hcontains]
    rfl
  exact Query.bind_ok hfound

section Mapped

variable {m : Machine} {o : ObjectId} {obj : Object} {key : Key} {env : EnvId} {name : String}
  {r : DeclarativeRecord} {b : Binding} {current stored : Value} {enumerable configurable : Bool}
  (ho : m.object? o = some obj) (hkey : obj.parameter? key = some (env, name))
  (he : m.env? env = some (.declarative r)) (hb : r.get? name = some b)
  (hcurrent : b.value = some current)

include ho hkey he hb hcurrent

theorem ObjectId.get_eq_mapped : o.get key m = .ok current := by
  have hread : readOwn key o m = .ok (some current) := by
    unfold readOwn
    rw [Query.bind_ok (mappedValue_eq ho hkey he), hb, Option.bind_some, hcurrent]
    rfl
  unfold ObjectId.get
  rw [Query.bind_ok (searchChain_here hread)]
  rfl

variable (hmutable : b.isMutable = true)

include hmutable

omit ho hkey he in
theorem DeclarativeRecord.assign_eq_put (v : Value) (strict : Bool) :
    r.assign name v strict = .ok (r.put name v) := by
  simp [DeclarativeRecord.assign, hb, hcurrent, hmutable]

/-- An assignment to the parameter is read through the key. -/
theorem EnvId.assign_mapped (v : Value) (strict : Bool) :
    ∃ m', env.assign name v strict m = .ok () m' ∧ o.get key m' = .ok v := by
  let m' := m.storeEnv env (.declarative (r.put name v))
  have hassign : env.assign name v strict m = .ok () m' := by
    unfold EnvId.assign
    rw [bind_ok (lift_ok (EnvId.load_eq he))]
    dsimp only
    rw [DeclarativeRecord.assign_eq_put hb hcurrent hmutable]
    exact EnvId.store_eq (Machine.within_of_env? he) _
  exact ⟨m', hassign, ObjectId.get_eq_mapped (m := m') ho hkey (Machine.env?_storeEnv_self he _)
    (DeclarativeRecord.get?_put_self hb v) rfl⟩

variable (hstored : obj.properties.get? key = some (.data stored true enumerable configurable))

include hstored

/-- A data definition of the key writes the parameter. -/
theorem ObjectId.define_mapped {v : Value} {writable enumerable' configurable' : Bool} {m' : Machine}
    (h : o.define key (.data v writable enumerable' configurable') m = .ok true m') :
    m'.HasValue env name v := by
  rw [define_eq_mapped ho hkey he hb hmutable hcurrent hstored] at h
  split at h
  · cases h
    exact ⟨_, _, Machine.env?_storeEnv_self he _, DeclarativeRecord.get?_put_self hb v, rfl⟩
  · cases h

/-- A write to the key is possible, and it is the definition of the value. -/
theorem ObjectId.set_eq_mapped (v : Value) :
    o.set key v (.object o) m =
        .ok true (m.redefine o key (.data v true enumerable configurable) env r name) ∧
      o.define key (.data v true enumerable configurable) m =
        .ok true (m.redefine o key (.data v true enumerable configurable) env r name) := by
  -- the parameter is written first, so the key has the new value before it is defined
  let m₁ := m.storeEnv env (.declarative (r.put name v))
  have he₁ : m₁.env? env = some (.declarative (r.put name v)) := Machine.env?_storeEnv_self he _
  have hb₁ := DeclarativeRecord.get?_put_self hb v
  have hwrite : o.writeMapped key v m = .ok () m₁ := by
    unfold writeMapped
    rw [bind_ok (lift_ok (mappedParameter_eq ho)), hkey]
    exact writeParameter_eq he (DeclarativeRecord.assign_eq_put hb hcurrent hmutable v false)
  have hsearch : searchChain (some o) (fun p => return (← p.load).properties.get? key) m₁ =
      .ok (some (.data stored true enumerable configurable)) := by
    refine searchChain_here ?_
    rw [Query.bind_ok (load_eq (m := m₁) ho), hstored]
    rfl
  have hown : o.getOwnProperty key m₁ = .ok (some (.data v true enumerable configurable)) :=
    getOwnProperty_eq_mapped (m := m₁) ho hkey he₁ hb₁ rfl hstored
  have hmay (w : Value) : Descriptor.mayBecome (some (.data w true enumerable configurable))
      obj.extensible (.data v true enumerable configurable) = true := by
    cases configurable <;> simp [Descriptor.mayBecome, Descriptor.configurable, Descriptor.enumerable]
  have hsame : m₁.redefine o key (.data v true enumerable configurable) env (r.put name v) name =
      m.redefine o key (.data v true enumerable configurable) env r name := by
    simp only [Machine.redefine, m₁, DeclarativeRecord.put_put, Machine.storeEnv_storeEnv]
  have hassign : o.assignOwn key v m₁ =
      .ok true (m.redefine o key (.data v true enumerable configurable) env r name) := by
    unfold assignOwn
    rw [bind_ok (lift_ok hown), ← hsame]
    exact (define_eq_mapped (m := m₁) ho hkey he₁ hb₁ hmutable rfl hstored _).trans (if_pos (hmay v))
  have hchain : o.setOnChain key v (.object o) m₁ =
      .ok true (m.redefine o key (.data v true enumerable configurable) env r name) := by
    unfold setOnChain
    rw [bind_ok (lift_ok hsearch)]
    exact hassign
  refine ⟨?_, (define_eq_mapped ho hkey he hb hmutable hcurrent hstored _).trans (if_pos (hmay current))⟩
  unfold set
  rw [if_pos (show (Value.object o).same (.object o) = true from Value.same_refl rfl)]
  exact (bind_ok hwrite).trans hchain

/-- A write to the key is possible and writes the parameter. -/
theorem ObjectId.set_mapped (v : Value) :
    ∃ m', o.set key v (.object o) m = .ok true m' ∧ m'.HasValue env name v := by
  obtain ⟨hset, hdefine⟩ := set_eq_mapped ho hkey he hb hcurrent hmutable hstored v
  exact ⟨_, hset, define_mapped ho hkey he hb hcurrent hmutable hstored hdefine⟩

end Mapped

namespace ObjectId

variable {m : Machine} {o : ObjectId} {obj : Object} {key : Key} (ho : m.object? o = some obj)
  (hkey : obj.parameter? key = none) (harray : obj.isArray = false)

include ho hkey harray

/-- A definition on an object that is no array writes no environment. -/
theorem define_unmapped (d : Descriptor) : ((o.define key d).after m).environments = m.environments := by
  have hrun := define_eq ho hkey harray d
  split at hrun
  · rw [Eval.after_ok hrun]
    rfl
  · rw [Eval.after_ok hrun]

theorem assignOwn_unmapped (v : Value) :
    ((o.assignOwn key v).after m).environments = m.environments := by
  unfold assignOwn
  rw [Eval.after_bind_ok (lift_ok (getOwnProperty_eq_stored ho hkey))]
  split
  · rfl
  · split
    · exact define_unmapped ho hkey harray _
    · rfl
  · exact define_unmapped ho hkey harray _

theorem set_unmapped (v : Value) :
    ((o.set key v (.object o)).after m).environments = m.environments := by
  have hwrite : o.writeMapped key v m = .ok () m := by
    unfold writeMapped
    rw [bind_ok (lift_ok (mappedParameter_eq ho)), hkey]
    rfl
  have hsame : (Value.object o).same (.object o) = true := Value.same_refl rfl
  unfold set
  rw [if_pos hsame]
  refine (congrArg Machine.environments (Eval.after_bind_ok hwrite)).trans ?_
  unfold setOnChain
  cases hsearch : searchChain (some o) (fun p => return (← p.load).properties.get? key) m with
  | error e => rw [Eval.after_error (bind_error (lift_error hsearch))]
  | ok own =>
    rw [Eval.after_bind_ok (lift_ok hsearch)]
    split
    · dsimp only
      split
      · exact assignOwn_unmapped ho hkey harray v
      · rfl
    · split <;> rfl

end ObjectId

/-- A complaint adds an object and changes nothing. -/
theorem complain_object? {m : Machine} (c : Complaint) {o : ObjectId} {obj : Object}
    (ho : m.object? o = some obj) : ((complain c : Eval α).after m).object? o = some obj := by
  obtain hafter | ⟨new, -, hafter⟩ := complain_complains (α := α) c m
  · rw [hafter, ho]
  · rw [hafter, Machine.object?_pushObject_of_within _ (Machine.within_of_object? ho), ho]

/-- An assignment to a binding of a declarative environment changes no object. -/
theorem EnvId.assign_object? {m : Machine} {env : EnvId} {r : DeclarativeRecord}
    (he : m.env? env = some (.declarative r)) (name : String) (v : Value) (strict : Bool)
    {o : ObjectId} {obj : Object} (ho : m.object? o = some obj) :
    ((env.assign name v strict).after m).object? o = some obj := by
  have hload : env.assign name v strict m =
      (settle (r.assign name v strict) >>= fun r' => env.store (.declarative r')) m :=
    bind_ok (lift_ok (EnvId.load_eq he))
  cases hassign : r.assign name v strict with
  | ok r' =>
    rw [hassign] at hload
    have hstore : env.assign name v strict m = .ok () (m.storeEnv env (.declarative r')) :=
      hload.trans (EnvId.store_eq (Machine.within_of_env? he) _)
    rw [Eval.after_ok hstore, Machine.object?_storeEnv, ho]
  | error failure =>
    rw [hassign] at hload
    cases failure with
    | complaint c =>
      obtain ⟨e, m', hfails⟩ := complain_fails (α := DeclarativeRecord) c m
      have hrun : env.assign name v strict m = .error e m' := hload.trans (bind_error hfails)
      have hobject := complain_object? (α := DeclarativeRecord) c ho
      rw [Eval.after_error hfails] at hobject
      rw [Eval.after_error hrun, hobject]
    | fault f =>
      have hrun : env.assign name v strict m = .error (.fault f) m := hload.trans (bind_error rfl)
      rw [Eval.after_error hrun, ho]

/-- An assignment to a binding leaves a key that stands for nothing as it is. -/
theorem ObjectId.getOwnProperty_assign {m : Machine} {env : EnvId} {r : DeclarativeRecord}
    (he : m.env? env = some (.declarative r)) (name : String) (v : Value) (strict : Bool)
    {o : ObjectId} {obj : Object} (ho : m.object? o = some obj) {key : Key}
    (hkey : obj.parameter? key = none) :
    o.getOwnProperty key ((env.assign name v strict).after m) = o.getOwnProperty key m := by
  rw [getOwnProperty_eq_stored (EnvId.assign_object? he name v strict ho) hkey,
    getOwnProperty_eq_stored ho hkey]

/-- Every parameter map of an object has a property. -/
def Machine.Maps (m : Machine) (P : ParameterMap → Prop) : Prop :=
  ∀ o obj map, m.object? o = some obj → obj.parameterMap? = some map → P map

/-- No two keys of an object stand for one parameter. -/
def Machine.Distinct (m : Machine) : Prop :=
  ∀ o obj map, m.object? o = some obj → obj.parameterMap? = some map → map.Distinct

/-- Every parameter that a key stands for is a binding of a declarative environment. -/
def Machine.MapsDeclarative (m : Machine) : Prop := m.Maps (·.Declarative m)

section Maps

variable {m m' : Machine} {o : ObjectId} {P : ParameterMap → Prop}

namespace Machine.Maps

theorem pushObject (hm : m.Maps P) {obj : Object} (hmap : obj.parameterMap? = none) :
    (m.pushObject obj).Maps P := by
  intro p obj' map hp hmap'
  rw [object?_pushObject] at hp
  split at hp
  · cases hp
    rw [hmap] at hmap'
    cases hmap'
  · exact hm p obj' map hp hmap'

variable (herase : ∀ map key, P map → P (map.erase key))

include herase

/-- An update may cut ties but makes none. -/
theorem updateObject (hm : m.Maps P) {f : Object → Object}
    (hf : ∀ obj, m.object? o = some obj → (f obj).parameterMap? = obj.parameterMap? ∨
      ∃ key, (f obj).parameterMap? = obj.parameterMap?.map (·.erase key)) :
    (m.updateObject o f).Maps P := by
  intro p obj' map hp hmap
  rw [object?_updateObject] at hp
  split at hp
  · subst p
    obtain ⟨obj, ho, rfl⟩ := Option.map_eq_some_iff.mp hp
    rcases hf obj ho with hsame | ⟨key, herased⟩
    · exact hm o obj map ho (hsame ▸ hmap)
    · rw [herased] at hmap
      obtain ⟨old, hold, rfl⟩ := Option.map_eq_some_iff.mp hmap
      exact herase old key (hm o obj old ho hold)
  · exact hm p obj' map hp hmap

theorem redefine (hm : m.Maps P) (key : Key) (d : Descriptor) (env : EnvId) (r : DeclarativeRecord)
    (name : String) : (m.redefine o key d env r name).Maps P := by
  cases d with
  | accessor get set enumerable configurable =>
    exact hm.updateObject herase fun obj _ => .inr ⟨key, Object.unmap_parameterMap? _ _⟩
  | data v writable enumerable configurable =>
    refine Maps.updateObject (m := m.storeEnv _ _) herase hm fun obj _ => ?_
    cases writable with
    | true => exact .inl rfl
    | false => exact .inr ⟨key, Object.unmap_parameterMap? _ _⟩

end Machine.Maps

namespace Contract

variable {g : Contract} {A : Grant} (herase : ∀ map key, P map → P (map.erase key))

include herase

theorem Move.maps (h : g.Move m m') (hm : m.Maps P) : m'.Maps P := by
  cases h with
  | error hok hmap horderly => exact hm.pushObject hmap
  | insert ho hd hfree hmay hlength => exact hm.updateObject herase fun _ _ => .inl rfl
  | @erase o obj key ho hconfigurable =>
    exact hm.updateObject herase fun obj _ => .inr ⟨key, Object.erase_parameterMap? _ _⟩
  | redefine hg ho hkey he hx hcurrent hstored hmay hd => exact hm.redefine herase _ _ _ _ _
  | @unmap o obj key hraw ho =>
    exact hm.updateObject herase fun obj _ => .inr ⟨key, Object.unmap_parameterMap? _ _⟩
  | assign hraw he hr hv => exact hm

/-- Objects are only mapped to parameters of declarative environments, and to different ones. -/
theorem Step.maps (hattach : ∀ map : ParameterMap, map.Distinct → map.Declarative m → P map)
    (h : g.Step A m m') (hm : m.Maps P) : m'.Maps P := by
  cases h with
  | object hok hmap horderly => exact hm.pushObject hmap
  | define hmoves =>
    clear hattach
    generalize (ObjectId.define _ _ _).after m = m' at hmoves
    induction hmoves with
    | refl => exact hm
    | tail _ hmove ih => exact hmove.maps herase ih
  | insert ho hd hraw => exact hm.updateObject herase fun _ _ => .inl rfl
  | @erase o obj key ho hconfigurable =>
    exact hm.updateObject herase fun obj _ => .inr ⟨key, Object.erase_parameterMap? _ _⟩
  | reparent ho hp hSp hSo hS hfree => exact hm.updateObject herase fun _ _ => .inl rfl
  | freeze ho => exact hm.updateObject herase fun _ _ => .inl rfl
  | markConstructor ho =>
    refine hm.updateObject herase fun obj _ => .inl ?_
    unfold Object.markConstructor
    split
    · rename_i slots hkind
      simp [Object.parameterMap?, hkind]
    · rfl
  | @attach o obj map ho hkind henv hdistinct hmap hraw halias =>
    intro p obj' map' hp hmap'
    rw [Machine.object?_updateObject] at hp
    split at hp
    · obtain ⟨old, -, rfl⟩ := Option.map_eq_some_iff.mp hp
      cases hmap'
      exact hattach map hdistinct hmap
    · exact hm p obj' map' hp hmap'
  | _ => exact hm

end Contract

namespace Contract.Steps

variable {g : Contract} {A : Grant}

theorem distinct (h : g.Steps A m m') (hm : m.Distinct) : m'.Distinct := by
  induction h with
  | refl => exact hm
  | tail _ hstep ih =>
    exact hstep.maps (fun _ key hmap => hmap.erase key) (fun _ hmap _ => hmap) ih

theorem mapsDeclarative (h : g.Steps A m m') (hsound : g.Sound m) (hm : m.MapsDeclarative) :
    m'.MapsDeclarative := by
  induction h with
  | refl => exact hm
  | @tail m₁ m₂ hsteps hstep ih =>
    -- a declarative environment stays one
    have hlater (map : ParameterMap) (hmap : map.Declarative m₁) : map.Declarative m₂ := by
      intro key name hname
      obtain ⟨r, he⟩ := hmap key name hname
      obtain ⟨e', he', hevolves⟩ := hstep.environments (Steps.sound hsteps hsound) he
      obtain ⟨r', rfl⟩ := hevolves.declarative r rfl
      exact ⟨r', he'⟩
    refine hstep.maps (fun map key hmap k name hname => ?_) (fun map _ hmap => hlater map hmap)
      fun o obj map ho hmap => hlater map (ih o obj map ho hmap)
    rw [ParameterMap.get?_erase] at hname
    split at hname
    · cases hname
    · exact hmap k name hname

end Contract.Steps

end Maps

end EcmaEval
