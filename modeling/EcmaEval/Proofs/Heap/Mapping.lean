import EcmaEval.Proofs.Heap.Open

/-!
# The making of an arguments object

Which parameters the indices of an arguments object stand for: of those with one name the last alone, and
only if it has an argument. What is made of an argument list is then known exactly: the object is new and
nothing else changes. What a run may change and what keeps a machine sound is read off from this.
-/
namespace EcmaEval

variable {m : Machine} {env : EnvId} {key : Key} {count index i : Nat} {name : String} {names : List String}

/-- The name stands at a position and at none after it. -/
def StandsLast (names : List String) (i : Nat) (name : String) : Prop :=
  names[i]? = some name ∧ ∀ j, i < j → names[j]? ≠ some name

theorem standsLast_zero {first : String} {rest : List String} :
    StandsLast (first :: rest) 0 name ↔ first = name ∧ name ∉ rest := by
  refine and_congr (by simp) ⟨fun h hmem => ?_, fun h j hj => ?_⟩
  · obtain ⟨j, hj⟩ := List.mem_iff_getElem?.mp hmem
    exact h (j + 1) (Nat.succ_pos j) hj
  · obtain ⟨j, rfl⟩ := Nat.exists_eq_succ_of_ne_zero (Nat.ne_of_gt hj)
    exact fun hname => h (List.mem_of_getElem? hname)

theorem standsLast_succ {first : String} {rest : List String} :
    StandsLast (first :: rest) (i + 1) name ↔ StandsLast rest i name := by
  refine and_congr Iff.rfl ⟨fun h j hj => h (j + 1) (Nat.succ_lt_succ hj), fun h j hj => ?_⟩
  obtain ⟨j, rfl⟩ := Nat.exists_eq_succ_of_ne_zero (Nat.ne_of_gt (Nat.lt_of_le_of_lt (Nat.zero_le _) hj))
  exact h j (Nat.lt_of_succ_lt_succ hj)

theorem StandsLast.unique {j : Nat} (h : StandsLast names i name) (h' : StandsLast names j name) : i = j := by
  rcases Nat.lt_trichotomy i j with hlt | heq | hlt
  · exact absurd h'.1 (h.2 j hlt)
  · exact heq
  · exact absurd h.1 (h'.2 i hlt)

/-- Of the positions of a name the last is kept, if there is an argument for it. -/
theorem mappedNames_mem_iff : (key, name) ∈ mappedNames count index names ↔
    ∃ i, key = .ofIndex (index + i) ∧ index + i < count ∧ StandsLast names i name := by
  induction names generalizing index with
  | nil => simp [mappedNames, StandsLast]
  | cons first rest ih =>
    have hlater : (key, name) ∈ mappedNames count (index + 1) rest ↔ ∃ i, key = .ofIndex (index + (i + 1)) ∧
        index + (i + 1) < count ∧ StandsLast (first :: rest) (i + 1) name := by
      rw [ih]
      simp only [standsLast_succ, Nat.add_assoc, Nat.add_comm 1]
    rw [← Nat.or_exists_add_one, ← hlater, standsLast_zero, Nat.add_zero, mappedNames]
    split
    · rename_i hdropped
      refine ⟨.inr, fun h => h.resolve_left ?_⟩
      rintro ⟨-, hindex, rfl, hlast⟩
      simp only [Bool.or_eq_true, List.contains_iff_mem, decide_eq_true_eq] at hdropped
      exact hdropped.elim hlast (Nat.not_le.mpr hindex)
    · rename_i hkept
      simp only [Bool.or_eq_true, List.contains_iff_mem, decide_eq_true_eq, not_or, Nat.not_le] at hkept
      rw [List.mem_cons, Prod.mk.injEq]
      refine or_congr_left ⟨?_, fun h => ⟨h.1, h.2.2.1.symm⟩⟩
      rintro ⟨rfl, rfl⟩
      exact ⟨rfl, hkept.2, rfl, hkept.1⟩

/-- An index stands for the parameter at its position, if the name of that one does not come again. -/
theorem mappedNames_get?_iff :
    ParameterMap.get? { env, names := mappedNames count 0 names } key = some name ↔
      ∃ i, (Key.ofIndex i == key) = true ∧ i < count ∧ StandsLast names i name := by
  unfold ParameterMap.get?
  rw [Option.map_eq_some_iff]
  constructor
  · rintro ⟨⟨k, _⟩, hfind, rfl⟩
    obtain ⟨i, rfl, hi, hlast⟩ := mappedNames_mem_iff.mp (List.mem_of_find?_eq_some hfind)
    rw [Nat.zero_add] at hi hfind
    have hbeq := List.find?_some hfind
    exact ⟨i, hbeq, hi, hlast⟩
  · rintro ⟨i, hkey, hi, hlast⟩
    have hmem : (Key.ofIndex i, name) ∈ mappedNames count 0 names :=
      mappedNames_mem_iff.mpr ⟨i, by rw [Nat.zero_add], by rwa [Nat.zero_add], hlast⟩
    have hfound : ((mappedNames count 0 names).find? (·.1 == key)).isSome = true :=
      List.find?_isSome.mpr ⟨_, hmem, hkey⟩
    obtain ⟨⟨k, name'⟩, hfind⟩ := Option.isSome_iff_exists.mp hfound
    refine ⟨_, hfind, ?_⟩
    -- another entry of an equal key is that of the same position
    obtain ⟨j, rfl, -, hlast'⟩ := mappedNames_mem_iff.mp (List.mem_of_find?_eq_some hfind)
    rw [Nat.zero_add] at hfind
    have hbeq := List.find?_some hfind
    obtain rfl : i = j := Key.ofIndex_inj (BEq.trans hkey (BEq.symm hbeq))
    exact Option.some.inj (hlast'.1.symm.trans hlast.1)

/-- Only indices stand for parameters. -/
theorem mappedNames_get?_eq_none (h : ∀ i, ¬(Key.ofIndex i == key) = true) :
    ParameterMap.get? { env, names := mappedNames count 0 names } key = none := by
  rw [Option.eq_none_iff_forall_ne_some]
  intro name hname
  obtain ⟨i, hkey, -⟩ := mappedNames_get?_iff.mp hname
  exact h i hkey

theorem mappedNames_distinct (env : EnvId) (count : Nat) (names : List String) :
    ParameterMap.Distinct { env, names := mappedNames count 0 names } := by
  intro key k name hkey hk
  obtain ⟨i, hi, -, hlast⟩ := mappedNames_get?_iff.mp hkey
  obtain ⟨j, hj, -, hlast'⟩ := mappedNames_get?_iff.mp hk
  obtain rfl := hlast.unique hlast'
  exact BEq.trans (BEq.symm hi) hj

/-- The properties of an arguments object in the order in which they are made. -/
def argumentEntries (f : ObjectId) (arguments : List Value) (isMapped : Bool) : List (Key × Descriptor) :=
  elementEntries 0 arguments ++ (.length, .hidden (.number (.ofNat arguments.length))) ::
    if isMapped then [(.name "callee", .hidden (.object f))] else []

/-- The parameters that the indices of so many arguments stand for. -/
def argumentMap (count : Nat) (mapping : Option (List String × EnvId)) : Option ParameterMap :=
  mapping.map fun (names, env) => { env, names := mappedNames count 0 names }

/-- The arguments object of a call. -/
def argumentsObject (prototype f : ObjectId) (arguments : List Value)
    (mapping : Option (List String × EnvId)) : Object :=
  { prototype := some prototype
    kind := .arguments (argumentMap arguments.length mapping)
    properties := ⟨argumentEntries f arguments mapping.isSome⟩ }

section

variable {intr : Intrinsics} (hm : intrinsics m = .ok intr) (f : ObjectId) (arguments : List Value)

include hm

theorem newUnmappedArguments_eq : newUnmappedArguments arguments m =
    .ok ⟨m.objects.size⟩ (m.pushObject (argumentsObject intr.objectPrototype f arguments none)) := by
  let first : Object := { prototype := some intr.objectPrototype, kind := .arguments none }
  let filled := first.append (elementEntries 0 arguments)
  have hopen : first.Open := ⟨rfl, rfl, fun _ => rfl, nofun⟩
  have helements : defineElements ⟨m.objects.size⟩ 0 arguments (m.pushObject first) =
      .ok () (m.pushObject filled) := by
    rw [defineElements_eq 0 arguments (m.object?_pushObject_self first) hopen fun _ _ => rfl,
      Machine.updateObject_pushObject]
  have hnew : filled.properties.contains .length = false :=
    elementEntries_any Key.ofIndex_ne_length 0 arguments
  have hlength : ObjectId.defineOrThrow ⟨m.objects.size⟩ .length (.hidden (.number (.ofNat arguments.length)))
      (m.pushObject filled) =
        .ok () (m.pushObject (argumentsObject intr.objectPrototype f arguments none)) := by
    rw [ObjectId.defineOrThrow_new rfl rfl rfl (PropertyTable.get?_eq_none hnew), Object.insert_new hnew]
    rfl
  unfold newUnmappedArguments
  have hallocate : allocate first m = .ok ⟨m.objects.size⟩ (m.pushObject first) := rfl
  rw [bind_ok (lift_ok hm)]
  refine (bind_ok hallocate).trans ((bind_ok helements).trans ?_)
  exact bind_ok hlength

/-- An arguments object is always made, and nothing that was there changes. -/
theorem newArguments_eq (mapping : Option (List String × EnvId)) : newArguments f arguments mapping m =
    .ok ⟨m.objects.size⟩ (m.pushObject (argumentsObject intr.objectPrototype f arguments mapping)) := by
  unfold newArguments
  rw [bind_ok (newUnmappedArguments_eq hm f arguments)]
  obtain _ | ⟨names, env⟩ := mapping
  · rfl
  let unmapped := argumentsObject intr.objectPrototype f arguments none
  let map : ParameterMap := { env, names := mappedNames arguments.length 0 names }
  let mapped : Object := { unmapped with kind := .arguments (some map) }
  have hmodify : ObjectId.modify ⟨m.objects.size⟩ ({ · with kind := .arguments (some map) })
      (m.pushObject unmapped) = .ok () (m.pushObject mapped) := by
    rw [ObjectId.modify_eq (m.within_pushObject_self unmapped), Machine.updateObject_pushObject]
  have hfree : mapped.parameter? (.name "callee") = none := by
    have hnone : map.get? (.name "callee") = none := mappedNames_get?_eq_none Key.ofIndex_ne_callee
    simp [Object.parameter?, Object.parameterMap?, mapped, hnone]
  have hnew : mapped.properties.contains (.name "callee") = false := by
    have helements := elementEntries_any Key.ofIndex_ne_callee 0 arguments
    have hlength : (Key.length == .name "callee") = false := by decide
    change (argumentEntries f arguments false).any (·.1 == .name "callee") = false
    simp [argumentEntries, List.any_append, helements, hlength]
  have hcallee : ObjectId.defineOrThrow ⟨m.objects.size⟩ (.name "callee") (.hidden (.object f))
      (m.pushObject mapped) =
        .ok () (m.pushObject (argumentsObject intr.objectPrototype f arguments (some (names, env)))) := by
    have hmay : Descriptor.mayBecome (mapped.properties.get? (.name "callee")) mapped.extensible
        (.hidden (.object f)) = true := by
      rw [PropertyTable.get?_eq_none hnew]
      rfl
    have hlast : mapped.insert (.name "callee") (.hidden (.object f)) =
        argumentsObject intr.objectPrototype f arguments (some (names, env)) := by
      rw [Object.insert_new hnew]
      simp [mapped, unmapped, map, argumentsObject, argumentMap, argumentEntries, Object.append]
    rw [ObjectId.defineOrThrow_eq (m.object?_pushObject_self mapped) hfree rfl hmay,
      Machine.updateObject_pushObject, hlast]
  exact (bind_ok hmodify).trans (bind_ok hcallee)

end

/-- The keys of an arguments object in the order in which they are made. -/
def argumentKeys (count : Nat) (isMapped : Bool) : List Key :=
  (List.range count).map Key.ofIndex ++ .length :: if isMapped then [.name "callee"] else []

theorem argumentEntries_keys (f : ObjectId) (arguments : List Value) (isMapped : Bool) :
    (argumentEntries f arguments isMapped).map (·.1) = argumentKeys arguments.length isMapped := by
  rw [argumentEntries, List.map_append, elementEntries_keys, argumentKeys, List.range_eq_range',
    List.map_cons]
  cases isMapped <;> rfl

theorem argumentKeys_distinct (count : Nat) (isMapped : Bool) :
    (argumentKeys count isMapped).Pairwise fun a b => ¬(a == b) = true := by
  have hindices : ((List.range count).map Key.ofIndex).Pairwise fun a b => ¬(a == b) = true :=
    List.Pairwise.map _ (fun _ _ hlt hbeq => Nat.ne_of_lt hlt (Key.ofIndex_inj hbeq)) List.pairwise_lt_range
  refine List.pairwise_append.mpr ⟨hindices, ?_, fun a ha b hb => ?_⟩
  · have hne : ¬(Key.length == .name "callee") = true := by decide
    cases isMapped <;> simp [hne]
  · obtain ⟨i, -, rfl⟩ := List.mem_map.mp ha
    rcases List.mem_cons.mp hb with rfl | hb
    · exact Key.ofIndex_ne_length i
    · split at hb
      · obtain rfl := List.mem_singleton.mp hb
        exact Key.ofIndex_ne_callee i
      · cases hb

theorem argumentEntries_distinct (f : ObjectId) (arguments : List Value) (isMapped : Bool) :
    PropertyTable.Distinct ⟨argumentEntries f arguments isMapped⟩ := by
  unfold PropertyTable.Distinct PropertyTable.keys
  rw [argumentEntries_keys]
  exact argumentKeys_distinct _ _

end EcmaEval
