import EcmaEval.Proofs.Heap.Alias
import EcmaEval.Proofs.Heap.Chain

/-!
# The keys of a chain

An enumeration lists the keys of an object when its visit begins and remembers every key it has met. As long
as the heap does not change, it gives the own names along the chain in order, and what an object has of its
own, enumerable or not, is not given for an object after it.
-/
namespace EcmaEval

/-- The text of a string key. -/
def Key.text? : Key → Option Text
  | .string t => some t
  | .symbol _ => none

namespace Machine

/-- The own names of an object in enumeration order. -/
def ownNames (m : Machine) (o : ObjectId) : List Text :=
  match o.ownKeys m with
  | .ok keys => keys.filterMap Key.text?
  | .error _ => []

/-- Whether an object has an own property of a name. -/
def owns (m : Machine) (o : ObjectId) (t : Text) : Bool :=
  match o.hasOwnProperty (.string t) m with
  | .ok found => found
  | .error _ => false

/-- Whether an object has an enumerable own property of a name. -/
def enumerates (m : Machine) (o : ObjectId) (t : Text) : Bool :=
  match o.getOwnProperty (.string t) m with
  | .ok (some d) => d.enumerable
  | _ => false

/-- The names that are given along a chain: of each object its own ones in order, if they are enumerable
and not hidden. An object hides all its own names in those after it. -/
def enumeration (m : Machine) (hidden : Text → Bool) : List ObjectId → List Text
  | [] => []
  | o :: l =>
    (m.ownNames o).filter (fun t => m.enumerates o t && !hidden t) ++
      m.enumeration (fun t => hidden t || m.owns o t) l

end Machine

variable {m : Machine} {o : ObjectId} {obj : Object} {key : Key} {t : Text}

theorem PropertyTable.orderedKeys_perm (table : PropertyTable) : table.orderedKeys.Perm table.keys := by
  -- the groups take each key once
  have hgroups (keys : List Key) :
      ((keys.filterMap fun k => k.arrayIndex?.map fun i => (i, k)).map (·.2) ++
        keys.filter (fun k => k.isString && k.arrayIndex?.isNone) ++
        keys.filter fun k => !k.isString).Perm keys := by
    induction keys with
    | nil => simp
    | cons k rest ih =>
      cases k with
      | symbol s => simpa [Key.isString, Key.arrayIndex?] using List.perm_middle.trans (ih.cons _)
      | string t =>
        cases ht : t.arrayIndex? with
        | some i => simpa [Key.isString, Key.arrayIndex?, ht] using ih
        | none =>
          rw [List.append_assoc] at ih
          have hmiddle := List.perm_middle.trans (ih.cons (Key.string t))
          simpa [Key.isString, Key.arrayIndex?, ht] using hmiddle
  unfold orderedKeys
  refine List.Perm.trans (List.Perm.append_right _ (List.Perm.append_right _ ?_)) (hgroups table.keys)
  exact (List.mergeSort_perm _ _).map _

theorem PropertyTable.distinct_orderedKeys (table : PropertyTable) (h : table.Distinct) :
    table.orderedKeys.Pairwise fun a b => ¬(a == b) = true :=
  (table.orderedKeys_perm.pairwise_iff fun h hbeq => h (BEq.symm hbeq)).mpr h

theorem Key.filter_isString (keys : List Key) :
    keys.filter Key.isString = (keys.filterMap Key.text?).map Key.string := by
  induction keys with
  | nil => rfl
  | cons k rest ih =>
    cases k with
    | string t => exact congrArg (Key.string t :: ·) ih
    | symbol s => exact ih

theorem Key.string_beq (t t' : Text) : (Key.string t == Key.string t') = (t == t') := rfl

/-- The parameter of a mapped key has a value or waits for one. -/
theorem ObjectId.mappedValue_total (hm : m.MapsDeclarative) (ho : m.object? o = some obj) (key : Key) :
    ∃ v, o.mappedValue key m = .ok v := by
  cases hkey : obj.parameter? key with
  | none => exact ⟨none, mappedValue_eq_none ho hkey⟩
  | some p =>
    obtain ⟨env, name⟩ := p
    obtain ⟨map, hmap, rfl, hname⟩ := Object.parameter?_some hkey
    obtain ⟨r, he⟩ := hm o obj map ho hmap key name hname
    exact ⟨_, mappedValue_eq ho hkey he⟩

/-- An object whose mapped keys stand for bindings of declarative environments reports each of its
properties as enumerable as it is. -/
theorem ObjectId.getOwnProperty_total (hm : m.MapsDeclarative) (ho : m.object? o = some obj) (key : Key) :
    ∃ own, o.getOwnProperty key m = .ok own ∧
      own.map Descriptor.enumerable = (obj.properties.get? key).map Descriptor.enumerable := by
  obtain ⟨v, hv⟩ := mappedValue_total hm ho key
  unfold getOwnProperty
  rw [Query.bind_ok (load_eq ho), Query.bind_ok hv]
  cases obj.properties.get? key with
  | none => exact ⟨none, rfl, rfl⟩
  | some d => cases d <;> cases v <;> exact ⟨_, rfl, rfl⟩

namespace Machine

theorem ownNames_eq (ho : m.object? o = some obj) :
    m.ownNames o = obj.properties.orderedKeys.filterMap Key.text? := by
  have hkeys : o.ownKeys m = .ok obj.properties.orderedKeys := Query.bind_ok (ObjectId.load_eq ho)
  unfold ownNames
  rw [hkeys]

theorem nodup_ownNames (ho : m.object? o = some obj) (hkeys : obj.properties.Distinct) :
    (m.ownNames o).Nodup := by
  rw [ownNames_eq ho]
  refine List.Pairwise.filterMap _ (fun a b hab t ht t' ht' => ?_)
    (obj.properties.distinct_orderedKeys hkeys)
  rintro rfl
  cases a <;> cases b <;> cases ht <;> cases ht'
  exact hab BEq.rfl

theorem owns_eq (hm : m.MapsDeclarative) (ho : m.object? o = some obj) (t : Text) :
    m.owns o t = (m.ownNames o).contains t := by
  obtain ⟨own, hown, henumerable⟩ := ObjectId.getOwnProperty_total hm ho (.string t)
  have howns : m.owns o t = (obj.properties.get? (.string t)).isSome := by
    have hhas : o.hasOwnProperty (.string t) m = .ok own.isSome := Query.bind_ok hown
    unfold owns
    rw [hhas]
    simpa using congrArg Option.isSome henumerable
  rw [howns, Bool.eq_iff_iff, List.contains_iff_mem, ownNames_eq ho, List.mem_filterMap]
  unfold PropertyTable.get?
  rw [Option.isSome_map, List.find?_isSome]
  constructor
  · rintro ⟨e, he, hbeq⟩
    refine ⟨e.1, obj.properties.orderedKeys_perm.mem_iff.mpr (List.mem_map_of_mem he), ?_⟩
    cases hkey : e.1 with
    | symbol s =>
      rw [hkey] at hbeq
      cases hbeq
    | string t' =>
      rw [hkey, Key.string_beq] at hbeq
      exact congrArg some (eq_of_beq hbeq)
  · rintro ⟨k, hk, htext⟩
    obtain ⟨e, he, rfl⟩ := List.mem_map.mp (obj.properties.orderedKeys_perm.mem_iff.mp hk)
    refine ⟨e, he, ?_⟩
    cases hkey : e.1 with
    | symbol s =>
      rw [hkey] at htext
      cases htext
    | string t' =>
      rw [hkey] at htext
      cases htext
      exact BEq.rfl

theorem enumerates_eq (hm : m.MapsDeclarative) (ho : m.object? o = some obj) (t : Text) :
    m.enumerates o t = (obj.properties.get? (.string t)).any Descriptor.enumerable := by
  obtain ⟨own, hown, henumerable⟩ := ObjectId.getOwnProperty_total hm ho (.string t)
  have hany (d? : Option Descriptor) : d?.any Descriptor.enumerable = (d?.map Descriptor.enumerable).any id := by
    cases d? <;> rfl
  rw [hany, ← henumerable, ← hany]
  unfold enumerates
  rw [hown]
  cases own <;> rfl

theorem exists_of_owns (h : m.owns o t = true) : ∃ d, o.getOwnProperty (.string t) m = .ok (some d) := by
  unfold owns at h
  cases hown : o.getOwnProperty (.string t) m with
  | error e =>
    have hhas : o.hasOwnProperty (.string t) m = .error e := Query.bind_error hown
    simp [hhas] at h
  | ok own =>
    have hhas : o.hasOwnProperty (.string t) m = .ok own.isSome := Query.bind_ok hown
    rw [hhas] at h
    obtain ⟨d, rfl⟩ := Option.isSome_iff_exists.mp h
    exact ⟨d, rfl⟩

section Congr

variable {m' : Machine} {start : Option ObjectId} {l : List ObjectId} (hobjects : m'.objects = m.objects)

include hobjects

theorem object?_congr (o : ObjectId) : m'.object? o = m.object? o := by
  unfold object?
  rw [hobjects]

theorem Chain.congr (h : m.Chain start l) : m'.Chain start l := by
  induction h with
  | nil => exact .nil
  | cons ho _ ih => exact .cons ((object?_congr hobjects _).trans ho) ih

theorem enumeration_congr (hm : m.MapsDeclarative) (hm' : m'.MapsDeclarative) (hl : m.Chain start l)
    (hidden : Text → Bool) : m'.enumeration hidden l = m.enumeration hidden l := by
  induction hl generalizing hidden with
  | nil => rfl
  | @cons o obj l ho _ ih =>
    have ho' : m'.object? o = some obj := (object?_congr hobjects o).trans ho
    have hnames : m'.ownNames o = m.ownNames o := by rw [ownNames_eq ho', ownNames_eq ho]
    have howns : m'.owns o = m.owns o := by
      funext t
      rw [owns_eq hm' ho', owns_eq hm ho, hnames]
    have henumerates : m'.enumerates o = m.enumerates o := by
      funext t
      rw [enumerates_eq hm' ho', enumerates_eq hm ho]
    unfold enumeration
    rw [hnames, howns, henumerates, ih]

end Congr

end Machine

end EcmaEval
