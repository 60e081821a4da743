import EcmaEval.Proofs.Heap.Listing
import EcmaEval.Proofs.Heap.Open

/-!
# Order of insertion

The properties of an object are a list in order of insertion. Keeping them in a hash table, with the list of
its keys apart, comes to the same: after the same changes the table answers as the list does, and the keys are
those of the list, so both give one enumeration.
-/
namespace EcmaEval

namespace Key

variable {keys : List Key}

/-- Of distinct keys the array indices come first, in increasing order. -/
theorem enumerate_groups (h : (enumerate keys).Pairwise fun a b => ¬(a == b) = true) :
    ∃ numbers : List Nat, numbers.Pairwise (· < ·) ∧ (∀ n ∈ numbers, n < maxArrayLength) ∧
      enumerate keys = numbers.map ofIndex ++ keys.filter (fun k => k.isString && k.arrayIndex?.isNone) ++
        keys.filter fun k => !k.isString := by
  have hgroups := enumerated keys
  let indexed := (keys.filterMap fun k => k.arrayIndex?.map fun i => (i, k)).mergeSort fun a b => a.1 ≤ b.1
  have hindices (e : Nat × Key) (he : e ∈ indexed) : e.2 = ofIndex e.1 ∧ e.1 < maxArrayLength :=
    arrayIndex?_some (hgroups.indices e he)
  have hdistinct : indexed.Pairwise fun a b => ¬(a.2 == b.2) = true :=
    List.pairwise_map.mp (List.pairwise_append.mp (List.pairwise_append.mp h).1).1
  have hincreasing : indexed.Pairwise fun a b => a.1 < b.1 := by
    refine (hgroups.sorted.and hdistinct).imp_of_mem fun {a b} ha hb hab => ?_
    refine Nat.lt_of_le_of_ne hab.1 fun heq => hab.2 ?_
    rw [(hindices a ha).1, (hindices b hb).1, heq]
    exact BEq.rfl
  refine ⟨indexed.map (·.1), List.pairwise_map.mpr hincreasing, fun n hn => ?_, ?_⟩
  · obtain ⟨e, he, rfl⟩ := List.mem_map.mp hn
    exact (hindices e he).2
  · have hnumbers : (indexed.map (·.1)).map ofIndex = indexed.map (·.2) := by
      rw [List.map_map]
      exact List.map_congr_left fun e he => (hindices e he).1.symm
    rw [hnumbers]
    rfl

end Key

instance : Hashable Key where
  hash
    | .string t => mixHash 0 (hash t)
    | .symbol s => mixHash 1 (hash s.id)

/-- Equal keys have one hash, whatever their descriptions are. -/
instance : LawfulHashable Key where
  hash_eq a b h := by
    rw [Key.beq_eq] at h
    cases a with
    | string t =>
      cases b with
      | string t' => exact congrArg (fun t => mixHash 0 (hash t)) (eq_of_beq h)
      | symbol s => cases h
    | symbol s =>
      cases b with
      | string t => cases h
      | symbol s' =>
        have hid : (s.id == s'.id) = true := h
        exact congrArg (fun id => mixHash 1 (hash id)) (eq_of_beq hid)

/-- Properties by their keys and, apart from them, the keys in order of insertion. -/
structure PropertyIndex where
  properties : Std.HashMap Key Descriptor := {}
  keys : List Key := []

namespace PropertyIndex

/-- Stores a property; the key comes last if it is new. -/
def insert (s : PropertyIndex) (key : Key) (d : Descriptor) : PropertyIndex where
  properties := s.properties.insert key d
  keys := if s.properties.contains key then s.keys else s.keys ++ [key]

/-- Removes a property that is there. -/
def remove (s : PropertyIndex) (key : Key) : PropertyIndex :=
  if s.properties.contains key then
    { properties := s.properties.erase key, keys := s.keys.filter fun k => !(k == key) }
  else s

def orderedKeys (s : PropertyIndex) : List Key := Key.enumerate s.keys

/-- The table and the keys stand for a list of properties with distinct keys. -/
structure Represents (s : PropertyIndex) (entries : List (Key × Descriptor)) : Prop where
  keys : s.keys = entries.map (·.1)
  lookup : ∀ key, s.properties[key]? = (PropertyTable.mk entries).get? key
  distinct : (PropertyTable.mk entries).Distinct

end PropertyIndex

/-- A change of the properties of an object. -/
inductive PropertyChange where
  | insert (key : Key) (d : Descriptor)
  | remove (key : Key)

namespace PropertyChange

/-- The change of an insertion-ordered list: a key that is there keeps its place and a new one comes last. -/
def onEntries (entries : List (Key × Descriptor)) : PropertyChange → List (Key × Descriptor)
  | .insert key d =>
    if entries.any (·.1 == key) then entries.map fun e => if e.1 == key then (e.1, d) else e
    else entries ++ [(key, d)]
  | .remove key => entries.filter fun e => !(e.1 == key)

def onIndex (s : PropertyIndex) : PropertyChange → PropertyIndex
  | .insert key d => s.insert key d
  | .remove key => s.remove key

def onObject (obj : Object) : PropertyChange → Object
  | .insert key d => obj.insert key d
  | .remove key => obj.erase key

end PropertyChange

variable {s : PropertyIndex} {entries : List (Key × Descriptor)} {obj : Object}

theorem PropertyTable.insertEntry_eq (h : (PropertyTable.mk entries).Distinct) (key : Key) (d : Descriptor) :
    insertEntry key d entries = PropertyChange.onEntries entries (.insert key d) := by
  unfold Distinct keys at h
  unfold PropertyChange.onEntries
  dsimp only
  induction entries with
  | nil => rfl
  | cons e rest ih =>
    obtain ⟨hfirst, hrest⟩ := List.pairwise_cons.mp h
    unfold insertEntry
    by_cases he : (e.1 == key) = true
    · -- no later entry has the key
      have hothers (x : Key × Descriptor) (hx : x ∈ rest) : ¬(x.1 == key) = true := fun hbeq =>
        hfirst x.1 (List.mem_map_of_mem hx) (BEq.trans he (BEq.symm hbeq))
      have hrest : rest.map (fun x => if x.1 == key then (x.1, d) else x) = rest :=
        (List.map_congr_left fun x hx => if_neg (hothers x hx)).trans (List.map_id' rest)
      simp only [List.any_cons, he, Bool.true_or, if_true, List.map_cons, hrest]
    · have he : (e.1 == key) = false := Bool.eq_false_iff.mpr he
      simp only [List.any_cons, he, Bool.false_or, Bool.false_eq_true, if_false, List.map_cons,
        List.cons_append, ih hrest]
      split <;> rfl

namespace PropertyIndex.Represents

theorem empty : Represents {} [] where
  keys := rfl
  lookup key := by simp [PropertyTable.get?]
  distinct := List.Pairwise.nil

theorem contains_eq (h : s.Represents entries) (key : Key) :
    s.properties.contains key = (PropertyTable.mk entries).contains key := by
  rw [Std.HashMap.contains_eq_isSome_getElem?, h.lookup, PropertyTable.contains_eq]

/-- The keys of the table are the listed ones. -/
theorem mem_iff (h : s.Represents entries) (key : Key) :
    key ∈ s.properties ↔ s.keys.contains key = true := by
  rw [← Std.HashMap.contains_iff_mem, h.contains_eq, h.keys, PropertyTable.contains, List.contains_eq_any_beq,
    List.any_map]
  have hsymm : (fun e : Key × Descriptor => e.1 == key) = (fun k => key == k) ∘ (·.1) := by
    funext e
    exact BEq.comm
  rw [hsymm]

theorem insert (h : s.Represents entries) (key : Key) (d : Descriptor) :
    (s.insert key d).Represents (PropertyChange.onEntries entries (.insert key d)) := by
  let t : PropertyTable := ⟨entries⟩
  have hentries : PropertyTable.mk (PropertyChange.onEntries entries (.insert key d)) = t.insert key d :=
    congrArg PropertyTable.mk (PropertyTable.insertEntry_eq h.distinct key d).symm
  refine ⟨?_, fun k => ?_, ?_⟩
  · have hkeys := PropertyTable.keys_insert t key d
    rw [← hentries] at hkeys
    have hold : t.keys = s.keys := h.keys.symm
    rw [← h.contains_eq, hold] at hkeys
    exact hkeys.symm
  · rw [hentries, PropertyTable.get?_insert, ← h.lookup k]
    exact Std.HashMap.getElem?_insert
  · rw [hentries]
    exact PropertyTable.Distinct.insert h.distinct key d

theorem remove (h : s.Represents entries) (key : Key) :
    (s.remove key).Represents (PropertyChange.onEntries entries (.remove key)) := by
  let t : PropertyTable := ⟨entries⟩
  have hentries : PropertyTable.mk (PropertyChange.onEntries entries (.remove key)) = t.erase key := rfl
  unfold PropertyIndex.remove
  by_cases hkey : s.properties.contains key = true
  · rw [if_pos hkey]
    refine ⟨?_, fun k => ?_, PropertyTable.Distinct.erase h.distinct key⟩
    · dsimp only
      rw [h.keys, List.filter_map]
      rfl
    · rw [hentries, PropertyTable.get?_erase, ← h.lookup k]
      exact Std.HashMap.getElem?_erase
  · have hnone (e : Key × Descriptor) (he : e ∈ entries) : (!(e.1 == key)) = true := by
      rw [h.contains_eq, PropertyTable.contains, List.any_eq_true] at hkey
      simpa using fun hbeq => hkey ⟨e, he, hbeq⟩
    have hsame : PropertyChange.onEntries entries (.remove key) = entries :=
      List.filter_eq_self.mpr hnone
    rw [if_neg hkey, hsame]
    exact h

theorem change (h : s.Represents entries) (c : PropertyChange) :
    (c.onIndex s).Represents (c.onEntries entries) := by
  cases c with
  | insert key d => exact h.insert key d
  | remove key => exact h.remove key

theorem changes (h : s.Represents entries) (changes : List PropertyChange) :
    (changes.foldl PropertyChange.onIndex s).Represents (changes.foldl PropertyChange.onEntries entries) := by
  induction changes generalizing s entries with
  | nil => exact h
  | cons c rest ih => exact ih (h.change c)

end PropertyIndex.Represents

namespace Object

theorem entries_change (h : obj.properties.Distinct) (c : PropertyChange) :
    (c.onObject obj).properties.entries = c.onEntries obj.properties.entries ∧
      (c.onObject obj).properties.Distinct := by
  cases c with
  | insert key d => exact ⟨PropertyTable.insertEntry_eq h key d, h.insert key d⟩
  | remove key =>
    have hproperties : (obj.erase key).properties = obj.properties.erase key := unmap_properties _ _
    unfold PropertyChange.onObject
    dsimp only
    rw [hproperties]
    exact ⟨rfl, h.erase key⟩

theorem entries_changes (h : obj.properties.Distinct) (changes : List PropertyChange) :
    (changes.foldl PropertyChange.onObject obj).properties.entries =
      changes.foldl PropertyChange.onEntries obj.properties.entries := by
  induction changes generalizing obj with
  | nil => rfl
  | cons c rest ih =>
    obtain ⟨hentries, hdistinct⟩ := entries_change h c
    rw [List.foldl_cons, List.foldl_cons, ih hdistinct, hentries]

/-- Whatever is inserted and removed, an object and the table with its keys stand for the same list of
properties in order of insertion. Both list each key once, the array indices first and in increasing order,
then the other strings and then the symbols as they were inserted. -/
theorem refines_insertion_order (prototype : Option ObjectId) (kind : ObjectKind)
    (changes : List PropertyChange) :
    let obj := changes.foldl PropertyChange.onObject { prototype, kind }
    let s := changes.foldl PropertyChange.onIndex {}
    let entries := changes.foldl PropertyChange.onEntries []
    obj.properties.entries = entries ∧ s.Represents entries ∧
      (∀ key, key ∈ s.properties ↔ s.keys.contains key = true) ∧
      (∀ key, obj.properties.get? key = s.properties[key]?) ∧
      obj.properties.orderedKeys = s.orderedKeys ∧ s.orderedKeys.Perm s.keys ∧
      s.keys.Pairwise (fun a b => ¬(a == b) = true) ∧
      ∃ numbers : List Nat, numbers.Pairwise (· < ·) ∧ (∀ n ∈ numbers, n < maxArrayLength) ∧
        s.orderedKeys = numbers.map Key.ofIndex ++
          s.keys.filter (fun k => k.isString && k.arrayIndex?.isNone) ++
          s.keys.filter fun k => !k.isString := by
  intro obj s entries
  have hnew : ({ prototype, kind } : Object).properties.Distinct := List.Pairwise.nil
  have hentries : obj.properties.entries = entries := entries_changes hnew changes
  have hs : s.Represents entries := PropertyIndex.Represents.empty.changes changes
  have htable : PropertyTable.mk entries = obj.properties := congrArg PropertyTable.mk hentries.symm
  have hkeys : obj.properties.keys = s.keys := by
    rw [hs.keys, ← hentries]
    rfl
  have hordered : obj.properties.orderedKeys = s.orderedKeys := congrArg Key.enumerate hkeys
  have hdistinct : obj.properties.Distinct := htable ▸ hs.distinct
  have hperm : s.orderedKeys.Perm s.keys := by
    rw [← hordered, ← hkeys]
    exact obj.properties.orderedKeys_perm
  refine ⟨hentries, hs, hs.mem_iff, fun key => ?_, hordered, hperm, ?_, Key.enumerate_groups ?_⟩
  · rw [← htable, hs.lookup]
  · rw [← hkeys]
    exact hdistinct
  · change s.orderedKeys.Pairwise _
    rw [← hordered]
    exact obj.properties.distinct_orderedKeys hdistinct

end Object

end EcmaEval
