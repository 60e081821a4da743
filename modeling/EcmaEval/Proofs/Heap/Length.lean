import EcmaEval.Proofs.Heap.Define
import EcmaEval.Proofs.Index
import EcmaEval.Proofs.Number

/-!
# Definitions on an array

A definition on an array is one update of the array, or none. An index at or past the length takes the
length with it. A lower length cuts off the indices from it on, down to the last one that cannot be
removed; the length comes to lie right above that one.
-/
namespace EcmaEval

theorem PropertyTable.get?_isSome_of_mem {t : PropertyTable} {e : Key × Descriptor} (h : e ∈ t.entries) :
    (t.get? e.1).isSome = true := by
  unfold get?
  rw [Option.isSome_map, List.find?_isSome]
  exact ⟨e, h, BEq.rfl⟩

namespace Object

variable {obj : Object} {n i : Nat} {writable : Bool} {key : Key} {d : Descriptor}

theorem parameter?_of_isArray (h : obj.isArray = true) (key : Key) : obj.parameter? key = none := by
  cases hp : obj.parameter? key with
  | none => rfl
  | some p =>
    obtain ⟨env, name⟩ := p
    obtain ⟨map, hmap, -⟩ := parameter?_some hp
    simp [isArray_of_parameterMap? hmap] at h

theorem kind_of_isArray (h : obj.isArray = true) : obj.kind = .array := by
  unfold isArray at h
  split at h
  · assumption
  · cases h

/-- The object with a length. -/
def setLength (obj : Object) (n : Nat) (writable : Bool) : Object :=
  obj.insert .length (.data (.number (.ofNat n)) writable false false)

/-- The object without its indices from `n` on. -/
def cut (obj : Object) (n : Nat) : Object :=
  { obj with properties := ⟨obj.properties.entries.filter fun e => e.1.arrayIndex?.all (· < n)⟩ }

theorem setLength_get? (key : Key) :
    (obj.setLength n writable).properties.get? key =
      if Key.length == key then some (.data (.number (.ofNat n)) writable false false)
      else obj.properties.get? key := insert_get? _ _ _ _

theorem cut_get? (obj : Object) (n : Nat) (key : Key) :
    (obj.cut n).properties.get? key =
      if key.arrayIndex?.all (· < n) then obj.properties.get? key else none := by
  have hentries (entries : List (Key × Descriptor)) :
      (entries.filter fun e => e.1.arrayIndex?.all (· < n)).find? (·.1 == key) =
        if key.arrayIndex?.all (· < n) then entries.find? (·.1 == key) else none := by
    induction entries with
    | nil => simp
    | cons e rest ih =>
      by_cases he : (e.1 == key) = true
      · by_cases hkept : key.arrayIndex?.all (· < n) = true
        · simp [he, hkept, Key.arrayIndex?_congr he]
        · simpa [he, hkept, Key.arrayIndex?_congr he] using ih
      · by_cases hkept : e.1.arrayIndex?.all (· < n) = true
        · simp [he, hkept, ih]
        · simp [he, hkept, ih]
  unfold cut PropertyTable.get?
  rw [hentries]
  split
  · rfl
  · rfl

/-- Nothing is cut off that lies below. -/
theorem cut_of_indexed (h : obj.Indexed (· < n)) : obj.cut n = obj := by
  have hentries : (obj.properties.entries.filter fun e => e.1.arrayIndex?.all (· < n)) =
      obj.properties.entries := by
    rw [List.filter_eq_self]
    intro e he
    cases hi : e.1.arrayIndex? with
    | none => rfl
    | some i => simpa using h e.1 i (PropertyTable.get?_isSome_of_mem he) hi
  simp [cut, hentries]

theorem cut_insert (hkey : key.arrayIndex? = none) (d : Descriptor) :
    (obj.insert key d).cut n = (obj.cut n).insert key d := by
  have hentries (entries : List (Key × Descriptor)) :
      (PropertyTable.insertEntry key d entries).filter (fun e => e.1.arrayIndex?.all (· < n)) =
        PropertyTable.insertEntry key d (entries.filter fun e => e.1.arrayIndex?.all (· < n)) := by
    induction entries with
    | nil => simp [PropertyTable.insertEntry, hkey]
    | cons e rest ih =>
      by_cases he : (e.1 == key) = true
      · have hnone : e.1.arrayIndex? = none := (Key.arrayIndex?_congr he).trans hkey
        simp [PropertyTable.insertEntry, he, hnone]
      · by_cases hkept : e.1.arrayIndex?.all (· < n) = true
        · simp [PropertyTable.insertEntry, he, hkept, ih]
        · simp [PropertyTable.insertEntry, he, hkept, ih]
  simp [cut, insert, PropertyTable.insert, hentries]

/-- What is stored as the length on the way does not show in the end. -/
theorem cut_setLength (k : Nat) (w : Bool) :
    ((obj.setLength n writable).cut k).setLength k w = (obj.cut k).setLength k w := by
  unfold setLength
  rw [cut_insert Key.arrayIndex?_length, insert_insert]

theorem erase_of_isArray (harray : obj.isArray = true) (key : Key) :
    obj.erase key = { obj with properties := obj.properties.erase key } := by
  unfold isArray at harray
  unfold erase unmap
  cases hkind : obj.kind <;> simp_all

/-- An index that is cut off may as well be erased before. -/
theorem cut_erase (harray : obj.isArray = true) (hi : (Key.ofIndex i).arrayIndex? = some i) (hle : n ≤ i) :
    (obj.erase (.ofIndex i)).cut n = obj.cut n := by
  have hkept (e : Key × Descriptor) (he : e.1.arrayIndex?.all (· < n) = true) :
      (e.1 == Key.ofIndex i) = false := by
    by_contra hbeq
    rw [Key.arrayIndex?_congr (by simpa using hbeq), hi] at he
    simp at he
    omega
  have hentries : (obj.properties.entries.filter fun e => !(e.1 == Key.ofIndex i)).filter
      (fun e => e.1.arrayIndex?.all (· < n)) =
        obj.properties.entries.filter fun e => e.1.arrayIndex?.all (· < n) := by
    rw [List.filter_filter]
    apply List.filter_congr
    intro e _
    by_cases he : e.1.arrayIndex?.all (· < n) = true
    · simp [he, hkept e he]
    · simp [he]
  rw [erase_of_isArray harray]
  simp [cut, PropertyTable.erase, hentries]

theorem erase_of_none (harray : obj.isArray = true) (hnone : obj.properties.get? key = none) :
    obj.erase key = obj := by
  have hentries : obj.properties.entries.filter (fun e => !(e.1 == key)) = obj.properties.entries := by
    rw [List.filter_eq_self]
    intro e he
    have hfind := List.find?_eq_none.mp (Option.map_eq_none_iff.mp hnone) e he
    simpa using hfind
  rw [erase_of_isArray harray]
  simp [PropertyTable.erase, hentries]

/-- The property at an index cannot be removed. -/
def Pins (obj : Object) (i : Nat) : Prop :=
  ∃ key d, key.arrayIndex? = some i ∧ obj.properties.get? key = some d ∧ d.configurable = false

/-- The last index from `n` on that cannot be removed, if there is one. -/
def Stops (obj : Object) (n : Nat) : Option Nat → Prop
  | none => ∀ i, n ≤ i → ¬ obj.Pins i
  | some last => n ≤ last ∧ obj.Pins last ∧ ∀ i, last < i → ¬ obj.Pins i

/-- The length that an array comes to have when it is to have `n`. -/
def cutoff (n : Nat) : Option Nat → Nat
  | none => n
  | some last => last + 1

theorem Indexed.imp {P Q : Nat → Prop} (h : obj.Indexed P) (hPQ : ∀ i, P i → Q i) : obj.Indexed Q :=
  fun key i hkey hi => hPQ i (h key i hkey hi)

theorem Indexed.erase {P : Nat → Prop} (h : obj.Indexed P) (key : Key) : (obj.erase key).Indexed P := by
  intro k i hk hki
  rw [erase_get?] at hk
  split at hk
  · cases hk
  · exact h k i hk hki

theorem Indexed.cut (h : obj.Indexed (· < n)) (k : Nat) : (obj.cut k).Indexed (· < min n k) := by
  intro key i hkey hi
  rw [cut_get?, hi] at hkey
  split at hkey
  · rename_i hlt
    have hbelow := h key i hkey hi
    simp at hlt
    omega
  · cases hkey

theorem Pins.indexed {P : Nat → Prop} (h : obj.Pins i) (hobj : obj.Indexed P) : P i := by
  obtain ⟨key, d, hi, hget, -⟩ := h
  exact hobj key i (by rw [hget]; rfl) hi

theorem pins_congr {obj' : Object}
    (h : ∀ key, key.arrayIndex? = some i → obj'.properties.get? key = obj.properties.get? key) :
    obj'.Pins i ↔ obj.Pins i := by
  unfold Pins
  constructor
  · rintro ⟨key, d, hi, hget, hd⟩
    exact ⟨key, d, hi, (h key hi).symm.trans hget, hd⟩
  · rintro ⟨key, d, hi, hget, hd⟩
    exact ⟨key, d, hi, (h key hi).trans hget, hd⟩

theorem pins_setLength : (obj.setLength n writable).Pins i ↔ obj.Pins i := by
  refine pins_congr fun key hi => ?_
  rw [setLength_get?, if_neg]
  intro hbeq
  rw [← Key.arrayIndex?_congr hbeq] at hi
  cases hi

theorem pins_erase {j : Nat} (hj : (Key.ofIndex j).arrayIndex? = some j) (hfree : ¬ obj.Pins j) :
    (obj.erase (.ofIndex j)).Pins i ↔ obj.Pins i := by
  by_cases hij : i = j
  · subst hij
    refine iff_of_false ?_ hfree
    rintro ⟨key, d, hi, hget, -⟩
    rw [(Key.arrayIndex?_some hi).1, erase_get?, if_pos BEq.rfl] at hget
    cases hget
  · refine pins_congr fun key hi => ?_
    rw [erase_get?, if_neg]
    intro hbeq
    rw [← Key.arrayIndex?_congr hbeq, hj] at hi
    exact hij (Option.some.inj hi).symm

theorem Stops.congr {obj' : Object} (h : ∀ i, obj'.Pins i ↔ obj.Pins i) {result : Option Nat}
    (hstops : obj'.Stops n result) : obj.Stops n result := by
  cases result with
  | none => exact fun i hi => (h i).not.mp (hstops i hi)
  | some last => exact ⟨hstops.1, (h last).mp hstops.2.1, fun i hi => (h i).not.mp (hstops.2.2 i hi)⟩

theorem Stops.below (h : obj.Stops n result) (hlt : n < k) (hobj : obj.Indexed (· < k)) :
    cutoff n result ≤ k := by
  cases result with
  | none => exact Nat.le_of_lt hlt
  | some last => exact h.2.1.indexed hobj

end Object

/-- At most one object is new, and it is no array. -/
def Machine.Complains (m m' : Machine) : Prop :=
  m' = m ∨ ∃ obj, obj.isArray = false ∧ m' = m.pushObject obj

theorem complain_complains (c : Complaint) (m : Machine) :
    m.Complains ((complain c : Eval α).after m) := by
  cases hi : intrinsics m with
  | error e =>
    have hrun : (complain c : Eval α) m = .error e m := bind_error (bind_error (lift_error hi))
    exact .inl (Eval.after_error hrun)
  | ok i =>
    have hnew : newError c.kind (some c.message) m = .ok _ _ := bind_ok (lift_ok hi)
    have hrun : (complain c : Eval α) m = .error _ _ := bind_ok hnew
    exact .inr ⟨_, rfl, Eval.after_error hrun⟩

theorem complain_cases (c : Complaint) (m : Machine) :
    ∃ e m', (complain c : Eval α) m = .error e m' ∧ m.Complains m' := by
  obtain ⟨e, m', hrun⟩ := complain_fails (α := α) c m
  exact ⟨e, m', hrun, Eval.after_error hrun ▸ complain_complains c m⟩

/-- A conversion to a number changes nothing but by a complaint. -/
theorem Value.toNumber_cases (v : Value) (m : Machine) :
    (∃ x, v.toNumber m = .ok x m) ∨ ∃ e m', v.toNumber m = .error e m' ∧ m.Complains m' := by
  cases v with
  | symbol s => exact .inr (complain_cases _ m)
  | bigint n => exact .inr (complain_cases _ m)
  | object o => exact .inr ⟨_, m, rfl, .inl rfl⟩
  | reference r => exact .inr ⟨_, m, rfl, .inl rfl⟩
  | _ => exact .inl ⟨_, rfl⟩

/-- A value that stands for a whole number of at most 32 bits. -/
def Value.ConvertsTo (m : Machine) (v : Value) (n : Nat) : Prop :=
  n ≤ maxArrayLength ∧ ∃ x, v.toNumber m = .ok x m ∧ x.toInt? = some (n : Int)

theorem Value.ConvertsTo.unique {m : Machine} {v : Value} {n n' : Nat} (h : v.ConvertsTo m n)
    (h' : v.ConvertsTo m n') : n = n' := by
  obtain ⟨-, x, hx, hn⟩ := h
  obtain ⟨-, x', hx', hn'⟩ := h'
  rw [hx] at hx'
  cases hx'
  rw [hn] at hn'
  exact Int.ofNat.inj (Option.some.inj hn')

theorem Descriptor.mayBecome_of_writable (v v' : Value) (w' extensible : Bool) :
    mayBecome (some (.data v true false false)) extensible (.data v' w' false false) = true := by
  simp [mayBecome, configurable, enumerable]

section

variable {m : Machine} {o : ObjectId} {obj : Object} {n length : Nat} {writable : Bool}

namespace ObjectId

theorem arrayLength_eq (ho : m.object? o = some obj) (hobj : obj.Spans length writable) :
    o.arrayLength m = .ok (.ofNat length, writable) := by
  unfold arrayLength
  rw [Query.bind_ok (load_eq ho), hobj.length]
  rfl

/-- An index is deleted unless it is pinned. -/
theorem delete_index {i : Nat} (ho : m.object? o = some obj) (harray : obj.isArray = true)
    (hi : (Key.ofIndex i).arrayIndex? = some i) :
    (obj.Pins i ∧ o.delete (.ofIndex i) m = .ok false m) ∨
      (¬ obj.Pins i ∧
        o.delete (.ofIndex i) m = .ok true (m.updateObject o (·.erase (.ofIndex i)))) := by
  have hpins : obj.Pins i ↔
      ∃ d, obj.properties.get? (.ofIndex i) = some d ∧ d.configurable = false := by
    constructor
    · rintro ⟨key, d, hkey, hget, hd⟩
      exact ⟨d, (Key.arrayIndex?_some hkey).1 ▸ hget, hd⟩
    · rintro ⟨d, hget, hd⟩
      exact ⟨_, d, hi, hget, hd⟩
  have hown := getOwnProperty_eq_stored ho (Object.parameter?_of_isArray harray (.ofIndex i))
  rw [hpins]
  unfold delete
  rw [bind_ok (lift_ok hown)]
  cases hget : obj.properties.get? (.ofIndex i) with
  | none =>
    rw [Machine.updateObject_of_eq ho (Object.erase_of_none harray hget)]
    exact .inr ⟨by simp, rfl⟩
  | some d =>
    cases hd : d.configurable with
    | true =>
      refine .inr ⟨by simp [hd], ?_⟩
      dsimp only
      rw [if_pos hd]
      exact bind_ok (modify_eq (Machine.within_of_object? ho) _)
    | false =>
      refine .inl ⟨by simp [hd], ?_⟩
      dsimp only
      rw [if_neg (by simp [hd])]
      rfl

/-- Indices are removed from the top down to one that is pinned. -/
theorem removeIndices_eq {doomed : List Nat} (ho : m.object? o = some obj) (harray : obj.isArray = true)
    (hdoomed : ∀ i ∈ doomed, n ≤ i ∧ (Key.ofIndex i).arrayIndex? = some i)
    (hindexed : obj.Indexed fun i => i < n ∨ i ∈ doomed) (hsorted : doomed.Pairwise (· ≥ ·)) :
    ∃ result, obj.Stops n result ∧
      o.removeIndices doomed m = .ok result (m.updateObject o (·.cut (Object.cutoff n result))) := by
  induction doomed generalizing m obj with
  | nil =>
    have hbelow : obj.Indexed (· < n) := hindexed.imp fun i hi => by simpa using hi
    refine ⟨none, fun i hi hpins => ?_, ?_⟩
    · exact Nat.not_lt_of_le hi (hpins.indexed hbelow)
    · rw [Machine.updateObject_of_eq ho (Object.cut_of_indexed hbelow)]
      rfl
  | cons index rest ih =>
    obtain ⟨hhead, hsorted⟩ := List.pairwise_cons.mp hsorted
    obtain ⟨hle, hindex⟩ := hdoomed index List.mem_cons_self
    unfold removeIndices
    rcases delete_index ho harray hindex with ⟨hpins, hdelete⟩ | ⟨hfree, hdelete⟩
    · -- every index above is gone already
      have hbelow : obj.Indexed (· < index + 1) := by
        refine hindexed.imp fun i hi => ?_
        rcases hi with hi | hi
        · omega
        · rcases List.mem_cons.mp hi with rfl | hi
          · omega
          · have := hhead i hi
            omega
      refine ⟨some index, ⟨hle, hpins, fun i hi hpins' => ?_⟩, ?_⟩
      · have := hpins'.indexed hbelow
        omega
      · rw [Object.cutoff, Machine.updateObject_of_eq ho (Object.cut_of_indexed hbelow)]
        exact bind_ok hdelete
    · have hindexed' : (obj.erase (.ofIndex index)).Indexed fun i => i < n ∨ i ∈ rest := by
        intro k i hk hki
        refine (hindexed.erase (.ofIndex index) k i hk hki).imp_right fun hmem => ?_
        refine (List.mem_cons.mp hmem).resolve_left ?_
        rintro rfl
        rw [(Key.arrayIndex?_some hki).1, Object.erase_get?, if_pos BEq.rfl] at hk
        cases hk
      obtain ⟨result, hstops, hrun⟩ := ih
        (Machine.object?_updateObject_self ho (·.erase (.ofIndex index)))
        ((Object.erase_isArray _ _).trans harray) (fun i hi => hdoomed i (List.mem_cons_of_mem _ hi))
        hindexed' hsorted
      have hcut : (obj.erase (.ofIndex index)).cut (Object.cutoff n result) =
          obj.cut (Object.cutoff n result) := by
        refine Object.cut_erase harray hindex ?_
        cases result with
        | none => exact hle
        | some last =>
          have hmem : last ∈ rest := (hstops.2.1.indexed hindexed').resolve_left (by have := hstops.1; omega)
          have hne : last ≠ index := by
            rintro rfl
            exact hfree ((Object.pins_erase hindex hfree).mp hstops.2.1)
          have := hhead last hmem
          exact Nat.lt_of_le_of_ne this hne
      refine ⟨result, hstops.congr fun i => Object.pins_erase hindex hfree, ?_⟩
      rw [Machine.updateObject_updateObject] at hrun
      rw [bind_ok hdelete, if_pos rfl, hrun]
      exact congrArg _ (Machine.updateObject_congr ho hcut)

/-- The indices from `n` on are cut off, as far as that is possible. -/
theorem removeIndices_past (ho : m.object? o = some obj) (harray : obj.isArray = true) (n : Nat) :
    ∃ result, obj.Stops n result ∧
      o.removeIndices ((obj.properties.indices.filter (n ≤ ·)).mergeSort fun a b => b ≤ a) m =
        .ok result (m.updateObject o (·.cut (Object.cutoff n result))) := by
  have hmem (i : Nat) : i ∈ (obj.properties.indices.filter (n ≤ ·)).mergeSort (fun a b => b ≤ a) ↔
      i ∈ obj.properties.indices ∧ n ≤ i := by
    rw [List.mem_mergeSort, List.mem_filter, decide_eq_true_iff]
  have hsorted : ((obj.properties.indices.filter (n ≤ ·)).mergeSort fun a b => b ≤ a).Pairwise
      fun a b => decide (b ≤ a) = true :=
    List.pairwise_mergeSort (fun a b c hab hbc => by simp at *; omega) (fun a b => by simp; omega) _
  refine removeIndices_eq ho harray (fun i hi => ?_) (fun key i hkey hi => ?_)
    (hsorted.imp fun h => of_decide_eq_true h)
  · obtain ⟨hindex, hle⟩ := (hmem i).mp hi
    obtain ⟨key, -, hkey⟩ := List.mem_filterMap.mp hindex
    exact ⟨hle, (Key.arrayIndex?_some hkey).1 ▸ hkey⟩
  · rcases Nat.lt_or_ge i n with hlt | hge
    · exact .inl hlt
    · exact .inr ((hmem i).mpr ⟨PropertyTable.mem_indices hkey hi, hge⟩)

/-- The length of an array is stored with its flags, or it stays as it is. -/
theorem defineOrdinary_length (ho : m.object? o = some obj) (harray : obj.isArray = true)
    (hobj : obj.Spans length writable) (n : Nat) (newWritable enumerable configurable : Bool) :
    o.defineOrdinary .length (.data (.number (.ofNat n)) newWritable enumerable configurable) m =
        .ok false m ∨
      enumerable = false ∧ configurable = false ∧
        o.defineOrdinary .length (.data (.number (.ofNat n)) newWritable enumerable configurable) m =
          .ok true (m.updateObject o (·.setLength n newWritable)) := by
  have hrun := defineOrdinary_eq ho (Object.parameter?_of_isArray harray .length)
    (.data (.number (.ofNat n)) newWritable enumerable configurable)
  rw [hobj.length] at hrun
  split at hrun
  · rename_i hmay
    obtain ⟨rfl, rfl⟩ := Descriptor.mayBecome_flags hmay
    exact .inr ⟨rfl, rfl, hrun⟩
  · exact .inl hrun

/-- A writable length is always stored. -/
theorem defineOrdinary_setLength (ho : m.object? o = some obj) (harray : obj.isArray = true)
    (hlength : obj.properties.get? .length = some (.data (.number (.ofNat length)) true false false))
    (n : Nat) (newWritable : Bool) :
    o.defineOrdinary .length (.data (.number (.ofNat n)) newWritable false false) m =
      .ok true (m.updateObject o (·.setLength n newWritable)) := by
  have hrun := defineOrdinary_eq ho (Object.parameter?_of_isArray harray .length)
    (.data (.number (.ofNat n)) newWritable false false)
  rw [hlength, if_pos (Descriptor.mayBecome_of_writable _ _ _ _)] at hrun
  exact hrun

/-- Stores a lower length and removes the indices from it on. -/
def lowerLength (o : ObjectId) (n : Nat) (newWritable enumerable configurable : Bool) : Eval Bool := do
  let lengthOf (writable : Bool) (length : Nat) : Descriptor :=
    .data (.number (.ofNat length)) writable enumerable configurable
  if !(← o.defineOrdinary .length (lengthOf true n)) then return false
  else
    let doomed := (← o.load).properties.indices.filter (n ≤ ·)
    match ← o.removeIndices (doomed.mergeSort fun a b => b ≤ a) with
    | some index =>
      let _ ← o.defineOrdinary .length (lengthOf newWritable (index + 1))
      return false
    | none =>
      if !newWritable then
        let _ ← o.defineOrdinary .length (lengthOf false n)
      return true

/-- A writable length that is lowered cuts the array off. -/
theorem lowerLength_eq (ho : m.object? o = some obj) (harray : obj.isArray = true)
    (hobj : obj.Spans length true) (n : Nat) (newWritable : Bool) :
    ∃ result, obj.Stops n result ∧ o.lowerLength n newWritable false false m =
      .ok result.isNone (m.updateObject o fun x =>
        (x.cut (Object.cutoff n result)).setLength (Object.cutoff n result) newWritable) := by
  have hlower := defineOrdinary_setLength ho harray hobj.length n true
  have ho₁ := Machine.object?_updateObject_self ho (·.setLength n true)
  obtain ⟨result, hstops, hremove⟩ := removeIndices_past ho₁ harray n
  rw [Machine.updateObject_updateObject] at hremove
  refine ⟨result, hstops.congr fun i => Object.pins_setLength, ?_⟩
  -- the length stays writable until the indices are gone
  have hlength : ((obj.setLength n true).cut (Object.cutoff n result)).properties.get? .length =
      some (.data (.number (.ofNat n)) true false false) := by
    rw [Object.cut_get?, Key.arrayIndex?_length, Option.all_none, if_pos rfl, Object.setLength_get?,
      if_pos BEq.rfl]
  have hstore (k : Nat) := defineOrdinary_setLength (Machine.object?_updateObject_self ho
    fun x => (x.setLength n true).cut (Object.cutoff n result)) harray hlength k newWritable
  simp only [Machine.updateObject_updateObject] at hstore
  refine (bind_ok hlower).trans ?_
  refine (bind_ok (lift_ok (load_eq ho₁))).trans ?_
  refine (bind_ok hremove).trans ?_
  cases result with
  | some last =>
    refine (bind_ok (hstore (last + 1))).trans ?_
    simp only [Object.cutoff, Object.cut_setLength]
    rfl
  | none =>
    cases newWritable with
    | false =>
      refine (bind_ok (hstore n)).trans ?_
      simp only [Object.cutoff, Object.cut_setLength]
      rfl
    | true =>
      have hkeep (x : Object) : (x.setLength n true).cut n = (x.cut n).setLength n true :=
        Object.cut_insert Key.arrayIndex?_length _
      simp only [Object.cutoff, hkeep]
      rfl

/-- The definition of a length whose value converts. -/
theorem defineLength_eq (ho : m.object? o = some obj) (hobj : obj.Spans length writable) {v : Value}
    (hv : v.ConvertsTo m n) (newWritable enumerable configurable : Bool) :
    o.defineLength (.data v newWritable enumerable configurable) m =
      (if length ≤ n then
        o.defineOrdinary .length (.data (.number (.ofNat n)) newWritable enumerable configurable)
      else if !writable then pure false
      else o.lowerLength n newWritable enumerable configurable) m := by
  obtain ⟨hle, x, hx, hn⟩ := hv
  have hwhole : (Number.ofNat x.toUint32.toNat).equal x = true :=
    Number.equal_toUint32_iff.mpr ⟨n, hn, hle⟩
  unfold defineLength
  dsimp only
  rw [bind_ok hx, if_neg (by simp [hwhole]), Number.toUint32_of_toInt? hn hle,
    bind_ok (lift_ok (arrayLength_eq ho hobj))]
  dsimp only
  rw [reaches_ofNat (lt_mantissaLimit hle) (lt_mantissaLimit hobj.le)]
  by_cases hreach : length ≤ n
  · simp [hreach]
  · simp only [hreach, decide_false, Bool.false_eq_true, if_false]
    rfl

/-- A length whose value does not convert is refused by a failure. -/
theorem defineLength_fails {v : Value} (hv : ∀ n, ¬ v.ConvertsTo m n)
    (newWritable enumerable configurable : Bool) :
    ∃ e m', o.defineLength (.data v newWritable enumerable configurable) m = .error e m' ∧
      m.Complains m' := by
  unfold defineLength
  dsimp only
  rcases v.toNumber_cases m with ⟨x, hx⟩ | ⟨e, m', hrun, hcomplains⟩
  · have hwhole : ¬(Number.ofNat x.toUint32.toNat).equal x = true := by
      intro hequal
      obtain ⟨n, hn, hle⟩ := Number.equal_toUint32_iff.mp hequal
      exact hv n ⟨hle, x, hx, hn⟩
    rw [bind_ok hx, if_pos (by simpa using hwhole)]
    exact complain_cases _ m
  · exact ⟨e, m', bind_error hrun, hcomplains⟩

end ObjectId

end

/-- How the definition of a property of an object may end. -/
inductive DefineEnd (m : Machine) (o : ObjectId) (obj : Object) (key : Key) (d : Descriptor) :
    EStateM.Result Abrupt Machine Bool → Prop
  | refused : DefineEnd m o obj key d (.ok false m)
  | failed (hcomplains : m.Complains m') : DefineEnd m o obj key d (.error e m')
  /-- The property is tied to nothing. -/
  | stored (hfree : obj.parameter? key = none)
      (harray : obj.isArray = true → ¬(key == .length) = true ∧
        ∃ n writable, obj.Spans n writable ∧ ∀ i, key.arrayIndex? = some i → i < n) :
      DefineEnd m o obj key d (.ok true (m.updateObject o (·.insert key d)))
  /-- An index at or past the length of an array. -/
  | extended (harray : obj.isArray = true) (hobj : obj.Spans length true)
      (hindex : key.arrayIndex? = some i) (hle : length ≤ i) :
      DefineEnd m o obj key d (.ok true (m.updateObject o fun x => (x.insert key d).setLength (i + 1) true))
  | raised (harray : obj.isArray = true) (hkey : (key == .length) = true)
      (hobj : obj.Spans length writable) (hd : d = .data v newWritable false false)
      (hv : v.ConvertsTo m n) (hle : length ≤ n) :
      DefineEnd m o obj key d (.ok true (m.updateObject o (·.setLength n newWritable)))
  | lowered (harray : obj.isArray = true) (hkey : (key == .length) = true) (hobj : obj.Spans length true)
      (hd : d = .data v newWritable false false) (hv : v.ConvertsTo m n) (hlt : n < length)
      (hstops : obj.Stops n result) :
      DefineEnd m o obj key d (.ok result.isNone (m.updateObject o fun x =>
        (x.cut (Object.cutoff n result)).setLength (Object.cutoff n result) newWritable))
  | mapped (hkey : obj.parameter? key = some (env, name)) (he : m.env? env = some (.declarative r))
      (hx : r.get? name = some x) (hmutable : x.isMutable = true) (hcurrent : x.value = some current) :
      DefineEnd m o obj key d (.ok true (m.redefine o key d env r name))

namespace ObjectId

variable {m : Machine} {o : ObjectId} {obj : Object} {length : Nat} {writable : Bool} {key : Key}

theorem defineLength_ends (ho : m.object? o = some obj) (harray : obj.isArray = true)
    (hobj : obj.Spans length writable) (hkey : (key == .length) = true) (d : Descriptor) :
    DefineEnd m o obj key d (o.defineLength d m) := by
  cases d with
  | accessor get set enumerable configurable =>
    have hrun := defineOrdinary_eq ho (Object.parameter?_of_isArray harray .length)
      (.accessor get set enumerable configurable)
    rw [hobj.length, if_neg (by simp [Descriptor.mayBecome, Descriptor.configurable])] at hrun
    rw [defineLength, hrun]
    exact .refused
  | data v newWritable enumerable configurable =>
    by_cases hconverts : ∃ n, v.ConvertsTo m n
    · obtain ⟨n, hv⟩ := hconverts
      rw [defineLength_eq ho hobj hv]
      -- a length that does not fall removes nothing
      by_cases hreach : length ≤ n
      · rw [if_pos hreach]
        rcases defineOrdinary_length ho harray hobj n newWritable enumerable configurable with
          hrun | ⟨rfl, rfl, hrun⟩
        · rw [hrun]
          exact .refused
        · rw [hrun]
          exact .raised harray hkey hobj rfl hv hreach
      · rw [if_neg hreach]
        cases writable with
        | false => exact .refused
        | true =>
          rw [if_neg (by simp)]
          rcases defineOrdinary_length ho harray hobj n true enumerable configurable with
            hrun | ⟨rfl, rfl, -⟩
          · have hrefused : o.lowerLength n newWritable enumerable configurable m = .ok false m :=
              bind_ok hrun
            rw [hrefused]
            exact .refused
          · obtain ⟨result, hstops, hrun⟩ := lowerLength_eq ho harray hobj n newWritable
            rw [hrun]
            exact .lowered harray hkey hobj rfl hv (Nat.lt_of_not_le hreach) hstops
    · obtain ⟨e, m', hrun, hcomplains⟩ := defineLength_fails (o := o)
        (fun n hn => hconverts ⟨n, hn⟩) newWritable enumerable configurable
      rw [hrun]
      exact .failed hcomplains

theorem defineIndex_ends {index : Nat} (ho : m.object? o = some obj) (harray : obj.isArray = true)
    (hobj : obj.Spans length writable) (hindex : key.arrayIndex? = some index) (d : Descriptor) :
    DefineEnd m o obj key d (o.defineIndex index key d m) := by
  have hlt : index < maxArrayLength := (Key.arrayIndex?_some hindex).2
  have hkey : ¬(key == .length) = true := by
    intro hbeq
    rw [Key.arrayIndex?_congr hbeq, Key.arrayIndex?_length] at hindex
    cases hindex
  have hfree := Object.parameter?_of_isArray harray key
  have hdefine := defineOrdinary_eq ho hfree d
  unfold defineIndex
  rw [bind_ok (lift_ok (arrayLength_eq ho hobj))]
  dsimp only
  rw [reaches_ofNat (lt_mantissaLimit (Nat.le_of_lt hlt)) (lt_mantissaLimit hobj.le)]
  split
  · exact .refused
  rename_i hopen
  split at hdefine
  · rw [bind_ok hdefine]
    by_cases hreach : length ≤ index
    · have hwritable : writable = true := by simpa [hreach] using hopen
      subst hwritable
      have hlength : (obj.insert key d).properties.get? .length =
          some (.data (.number (.ofNat length)) true false false) := by
        rw [Object.insert_get?, if_neg hkey, hobj.length]
      have hraise := defineOrdinary_setLength
        (Machine.object?_updateObject_self ho (·.insert key d)) harray hlength (index + 1) true
      rw [Machine.updateObject_updateObject] at hraise
      simp only [hreach, decide_true, if_true]
      refine (congrArg (DefineEnd m o obj key d) (bind_ok hraise)).mpr ?_
      exact .extended harray hobj hindex hreach
    · simp only [hreach, decide_false]
      refine .stored hfree fun _ => ⟨hkey, length, writable, hobj, fun i hi => ?_⟩
      rw [hindex] at hi
      cases hi
      exact Nat.lt_of_not_le hreach
  · rw [bind_ok hdefine]
    exact .refused

end ObjectId

end EcmaEval
