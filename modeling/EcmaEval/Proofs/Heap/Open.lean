import Mathlib.Data.List.Basic
import EcmaEval.Proofs.Heap.Exact
import EcmaEval.Proofs.Index

/-!
# Objects that are being filled

An object that takes every property keeps new ones in the order in which they come, and if they come in
enumeration order they are listed as they came.
-/
namespace EcmaEval

namespace Key

variable {keys strings symbols : List Key} {indexed : List (Nat × Key)}

/-- Indices by their numbers, then the other strings, then the symbols. -/
def enumerate (keys : List Key) : List Key :=
  let indexed := keys.filterMap fun k => k.arrayIndex?.map fun i => (i, k)
  (indexed.mergeSort fun a b => a.1 ≤ b.1).map (·.2) ++
    keys.filter (fun k => k.isString && k.arrayIndex?.isNone) ++
    keys.filter (fun k => !k.isString)

/-- The three groups of an enumeration: indices with their numbers in order, other strings, and symbols. -/
structure Enumerated (indexed : List (Nat × Key)) (strings symbols : List Key) : Prop where
  indices : ∀ e ∈ indexed, e.2.arrayIndex? = some e.1
  sorted : indexed.Pairwise fun a b => a.1 ≤ b.1
  strings : ∀ k ∈ strings, k.isString = true ∧ k.arrayIndex? = none
  symbols : ∀ k ∈ symbols, k.isString = false

theorem isString_of_arrayIndex? {k : Key} {i : Nat} (h : k.arrayIndex? = some i) : k.isString = true := by
  cases k with
  | string t => rfl
  | symbol s => cases h

theorem arrayIndex?_of_symbol {k : Key} (h : k.isString = false) : k.arrayIndex? = none := by
  cases k with
  | string t => cases h
  | symbol s => rfl

namespace Enumerated

theorem enumerate_eq (h : Enumerated indexed strings symbols) :
    enumerate (indexed.map (·.2) ++ strings ++ symbols) = indexed.map (·.2) ++ strings ++ symbols := by
  -- each of the three filters leaves its own group and nothing of the other two
  have hindexed : (indexed.map (·.2) ++ strings ++ symbols).filterMap
      (fun k => k.arrayIndex?.map fun i => (i, k)) = indexed := by
    have hown : (indexed.map (·.2)).filterMap (fun k => k.arrayIndex?.map fun i => (i, k)) = indexed := by
      rw [List.filterMap_map]
      refine (List.filterMap_congr fun e he => ?_).trans List.filterMap_some
      simp [h.indices e he]
    have hstrings : strings.filterMap (fun k => k.arrayIndex?.map fun i => (i, k)) = [] :=
      List.filterMap_eq_nil_iff.mpr fun k hk => by simp [(h.strings k hk).2]
    have hsymbols : symbols.filterMap (fun k => k.arrayIndex?.map fun i => (i, k)) = [] :=
      List.filterMap_eq_nil_iff.mpr fun k hk => by simp [arrayIndex?_of_symbol (h.symbols k hk)]
    rw [List.filterMap_append, List.filterMap_append, hown, hstrings, hsymbols, List.append_nil,
      List.append_nil]
  have hstrings : (indexed.map (·.2) ++ strings ++ symbols).filter
      (fun k => k.isString && k.arrayIndex?.isNone) = strings := by
    rw [List.filter_append, List.filter_append, List.filter_eq_nil_iff.mpr, List.filter_eq_self.mpr,
      List.filter_eq_nil_iff.mpr, List.nil_append, List.append_nil]
    · intro k hk
      simp [h.symbols k hk]
    · intro k hk
      simp [h.strings k hk]
    · intro k hk
      obtain ⟨e, he, rfl⟩ := List.mem_map.mp hk
      simp [h.indices e he]
  have hsymbols : (indexed.map (·.2) ++ strings ++ symbols).filter (fun k => !k.isString) = symbols := by
    rw [List.filter_append, List.filter_append, List.filter_eq_nil_iff.mpr, List.filter_eq_nil_iff.mpr,
      List.filter_eq_self.mpr, List.nil_append, List.nil_append]
    · intro k hk
      simp [h.symbols k hk]
    · intro k hk
      simp [(h.strings k hk).1]
    · intro k hk
      obtain ⟨e, he, rfl⟩ := List.mem_map.mp hk
      simp [isString_of_arrayIndex? (h.indices e he)]
  have hsorted : indexed.mergeSort (fun a b => a.1 ≤ b.1) = indexed :=
    List.mergeSort_of_pairwise (h.sorted.imp decide_eq_true)
  unfold enumerate
  dsimp only
  rw [hindexed, hstrings, hsymbols, hsorted]

theorem filter (h : Enumerated indexed strings symbols) (p : Key → Bool) :
    Enumerated (indexed.filter (p ∘ (·.2))) (strings.filter p) (symbols.filter p) where
  indices e he := h.indices e (List.mem_of_mem_filter he)
  sorted := h.sorted.filter _
  strings k hk := h.strings k (List.mem_of_mem_filter hk)
  symbols k hk := h.symbols k (List.mem_of_mem_filter hk)

end Enumerated

/-- The groups of an enumeration. -/
theorem enumerated (keys : List Key) :
    Enumerated ((keys.filterMap fun k => k.arrayIndex?.map fun i => (i, k)).mergeSort fun a b => a.1 ≤ b.1)
      (keys.filter fun k => k.isString && k.arrayIndex?.isNone) (keys.filter fun k => !k.isString) where
  indices e he := by
    obtain ⟨k, -, hk⟩ := List.mem_filterMap.mp ((List.mergeSort_perm _ _).mem_iff.mp he)
    obtain ⟨i, hi, rfl⟩ := Option.map_eq_some_iff.mp hk
    exact hi
  sorted := by
    have htrans (a b c : Nat × Key) (hab : decide (a.1 ≤ b.1) = true) (hbc : decide (b.1 ≤ c.1) = true) :
        decide (a.1 ≤ c.1) = true :=
      decide_eq_true (Nat.le_trans (of_decide_eq_true hab) (of_decide_eq_true hbc))
    have htotal (a b : Nat × Key) : (decide (a.1 ≤ b.1) || decide (b.1 ≤ a.1)) = true := by
      simpa using Nat.le_total a.1 b.1
    exact (List.pairwise_mergeSort htrans htotal _).imp of_decide_eq_true
  strings k hk := by simpa using (List.mem_filter.mp hk).2
  symbols k hk := by simpa using (List.mem_filter.mp hk).2

/-- Some of the keys of an enumeration are in order. -/
theorem enumerate_filter (keys : List Key) (p : Key → Bool) :
    enumerate ((enumerate keys).filter p) = (enumerate keys).filter p := by
  have hgroups := ((enumerated keys).filter p).enumerate_eq
  rw [← List.filter_map, ← List.filter_append, ← List.filter_append] at hgroups
  exact hgroups

end Key

variable {m : Machine} {o : ObjectId} {obj : Object} {key : Key} {d : Descriptor} {v : Value}
  {entries : List (Key × Descriptor)}

namespace PropertyTable

variable {t : PropertyTable}

theorem orderedKeys_eq (t : PropertyTable) : t.orderedKeys = Key.enumerate t.keys := rfl

/-- A new key comes last. -/
theorem insert_new (h : t.contains key = false) (d : Descriptor) :
    t.insert key d = ⟨t.entries ++ [(key, d)]⟩ := by
  unfold contains at h
  refine congrArg PropertyTable.mk ?_
  generalize t.entries = entries at h
  induction entries with
  | nil => rfl
  | cons e rest ih =>
    rw [List.any_cons, Bool.or_eq_false_iff] at h
    simp [insertEntry, h.1, ih h.2]

theorem get?_eq_none (h : t.contains key = false) : t.get? key = none := by
  rw [contains_eq] at h
  simpa using h

theorem Distinct.get?_of_mem (h : t.Distinct) {e : Key × Descriptor} (he : e ∈ t.entries)
    (hkey : (e.1 == key) = true) : t.get? key = some e.2 := by
  unfold Distinct keys at h
  unfold get?
  generalize t.entries = entries at h he
  induction entries with
  | nil => cases he
  | cons first rest ih =>
    obtain ⟨hfirst, hrest⟩ := List.pairwise_cons.mp h
    rcases List.mem_cons.mp he with rfl | he
    · simp [hkey]
    · have hother : (first.1 == key) = false := by
        refine Bool.eq_false_iff.mpr fun hbeq => hfirst e.1 (List.mem_map_of_mem he) ?_
        exact BEq.trans hbeq (BEq.symm hkey)
      simp only [List.find?_cons, hother]
      exact ih hrest he

end PropertyTable

namespace Object

/-- The object takes every property, and nothing else is tied to it. -/
structure Open (obj : Object) : Prop where
  extensible : obj.extensible = true
  isArray : obj.isArray = false
  unmapped : ∀ key, obj.parameter? key = none
  configurable : ∀ key d, obj.properties.get? key = some d → d.configurable = true

/-- The object with further properties after those it has. -/
def append (obj : Object) (entries : List (Key × Descriptor)) : Object :=
  { obj with properties := ⟨obj.properties.entries ++ entries⟩ }

@[simp] theorem append_nil (obj : Object) : obj.append [] = obj := by
  simp [append]

@[simp] theorem append_append (obj : Object) (entries entries' : List (Key × Descriptor)) :
    (obj.append entries).append entries' = obj.append (entries ++ entries') := by
  simp [append]

theorem insert_new (h : obj.properties.contains key = false) (d : Descriptor) :
    obj.insert key d = obj.append [(key, d)] := by
  unfold insert append
  rw [PropertyTable.insert_new h]

theorem contains_append (obj : Object) (entries : List (Key × Descriptor)) (key : Key) :
    (obj.append entries).properties.contains key =
      (obj.properties.contains key || entries.any (·.1 == key)) := List.any_append

namespace Open

theorem insert (h : obj.Open) (key : Key) (hd : d.configurable = true) : (obj.insert key d).Open where
  extensible := h.extensible
  isArray := h.isArray
  unmapped := h.unmapped
  configurable k d' hd' := by
    rw [insert_get?] at hd'
    split at hd'
    · cases hd'
      exact hd
    · exact h.configurable k d' hd'

theorem define_eq (h : obj.Open) (ho : m.object? o = some obj) (key : Key) (d : Descriptor) :
    o.define key d m = .ok true (m.updateObject o (·.insert key d)) := by
  rw [ObjectId.define_eq ho (h.unmapped key) h.isArray, if_pos]
  cases hget : obj.properties.get? key with
  | none => exact h.extensible
  | some old => simp [Descriptor.mayBecome, h.configurable key old hget]

theorem defineOrThrow_eq (h : obj.Open) (ho : m.object? o = some obj) (key : Key) (d : Descriptor) :
    o.defineOrThrow key d m = .ok () (m.updateObject o (·.insert key d)) :=
  bind_ok (h.define_eq ho key d)

theorem createPropertyOrThrow_eq (h : obj.Open) (ho : m.object? o = some obj) (key : Key) (v : Value) :
    o.createPropertyOrThrow key v m = .ok () (m.updateObject o (·.insert key (.plain v))) :=
  bind_ok (h.define_eq ho key (.plain v))

end Open

end Object

/-- The properties of a list of values under consecutive indices. -/
def elementEntries : Nat → List Value → List (Key × Descriptor)
  | _, [] => []
  | index, value :: rest => (.ofIndex index, .plain value) :: elementEntries (index + 1) rest

theorem elementEntries_keys (index : Nat) (values : List Value) :
    (elementEntries index values).map (·.1) = (List.range' index values.length).map Key.ofIndex := by
  induction values generalizing index with
  | nil => rfl
  | cons value rest ih =>
    rw [elementEntries, List.map_cons, ih, List.length_cons, List.range'_succ, List.map_cons]

theorem elementEntries_mem {values : List Value} {i : Nat} (h : values[i]? = some v) (index : Nat) :
    (Key.ofIndex (index + i), Descriptor.plain v) ∈ elementEntries index values := by
  induction values generalizing index i with
  | nil => cases h
  | cons value rest ih =>
    cases i with
    | zero =>
      cases h
      exact List.mem_cons_self
    | succ i =>
      have hrest := ih h (index + 1)
      rw [Nat.add_assoc, Nat.add_comm 1 i] at hrest
      exact List.mem_cons_of_mem _ hrest

theorem elementEntries_plain {index : Nat} {values : List Value} {e : Key × Descriptor}
    (h : e ∈ elementEntries index values) : ∃ v ∈ values, e.2 = .plain v := by
  induction values generalizing index with
  | nil => cases h
  | cons value rest ih =>
    rcases List.mem_cons.mp h with rfl | h
    · exact ⟨value, List.mem_cons_self, rfl⟩
    · obtain ⟨v, hv, hplain⟩ := ih h
      exact ⟨v, List.mem_cons_of_mem value hv, hplain⟩

theorem elementEntries_any (hkey : ∀ i, ¬(Key.ofIndex i == key) = true) (index : Nat)
    (values : List Value) : (elementEntries index values).any (·.1 == key) = false := by
  induction values generalizing index with
  | nil => rfl
  | cons value rest ih => rw [elementEntries, List.any_cons, Bool.eq_false_iff.mpr (hkey index), ih]; rfl

/-- The elements of a list come behind the properties of an object that has none of their indices. -/
theorem defineElements_eq (index : Nat) (values : List Value) (ho : m.object? o = some obj)
    (hopen : obj.Open) (hnew : ∀ i, index ≤ i → obj.properties.contains (.ofIndex i) = false) :
    defineElements o index values m =
      .ok () (m.updateObject o (·.append (elementEntries index values))) := by
  induction values generalizing m obj index with
  | nil =>
    rw [elementEntries, Machine.updateObject_of_eq ho obj.append_nil]
    rfl
  | cons value rest ih =>
    let e : Key × Descriptor := (.ofIndex index, .plain value)
    have hfresh := hnew index (Nat.le_refl index)
    have hfirst : o.createPropertyOrThrow (.ofIndex index) value m =
        .ok () (m.updateObject o (·.append [e])) := by
      rw [hopen.createPropertyOrThrow_eq ho]
      exact congrArg (EStateM.Result.ok ()) (Machine.updateObject_congr ho (Object.insert_new hfresh _))
    have hopen₁ : (obj.append [e]).Open := by
      rw [← Object.insert_new hfresh]
      exact hopen.insert _ rfl
    have hnew₁ (i : Nat) (hi : index + 1 ≤ i) :
        (obj.append [e]).properties.contains (.ofIndex i) = false := by
      have hne : (Key.ofIndex index == Key.ofIndex i) = false :=
        Bool.eq_false_iff.mpr fun hbeq => Nat.ne_of_lt hi (Key.ofIndex_inj hbeq)
      rw [Object.contains_append, hnew i (Nat.le_of_succ_le hi), Bool.false_or]
      simpa [e] using hne
    unfold defineElements
    rw [bind_ok hfirst, ih (index + 1) (Machine.object?_updateObject_self ho _) hopen₁ hnew₁,
      Machine.updateObject_updateObject]
    simp only [Object.append_append]
    rfl

end EcmaEval
