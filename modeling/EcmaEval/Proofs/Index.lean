import EcmaEval.Proofs.Heap.Table
import Mathlib.Algebra.Group.Nat.Defs

/-!
# Keys that are array indices

A key is an array index exactly if it is the numeral of one below the greatest length, so a key and its index
determine each other.
-/
namespace EcmaEval

namespace Text

/-- The units of a numeral. -/
def numeral (n : Nat) : List UInt16 := (ofString n.repr).units

theorem numeral_eq (n : Nat) : numeral n = (Nat.toDigits 10 n).flatMap encodeChar := by
  unfold numeral ofString Nat.repr
  rw [String.toList_ofList]

theorem encodeChar_digitChar {digit : Nat} (h : digit < 10) :
    encodeChar digit.digitChar = [(48 + digit).toUInt16] := by
  have htoNat := Nat.toNat_digitChar_of_lt_ten h
  have hsmall : digit.digitChar.toNat < 0x10000 := by omega
  rw [encodeChar, if_pos hsmall, htoNat]

theorem numeral_of_lt {digit : Nat} (h : digit < 10) : numeral digit = [(48 + digit).toUInt16] := by
  rw [numeral_eq, Nat.toDigits_of_lt_base h]
  simp [encodeChar_digitChar h]

/-- One more digit is one more unit. -/
theorem numeral_snoc {n digit : Nat} (hn : 0 < n) (h : digit < 10) :
    numeral (n * 10 + digit) = numeral n ++ [(48 + digit).toUInt16] := by
  have hdigits : Nat.toDigits 10 n ++ Nat.toDigits 10 digit = Nat.toDigits 10 (10 * n + digit) :=
    Nat.toDigits_append_toDigits (by decide) hn h
  rw [numeral_eq, Nat.mul_comm, ← hdigits, List.flatMap_append, ← numeral_eq, ← numeral_eq,
    numeral_of_lt h]

/-- The last digit of a numeral with more than one. -/
theorem numeral_of_le {n : Nat} (h : 10 ≤ n) :
    numeral n = numeral (n / 10) ++ [(48 + n % 10).toUInt16] := by
  have hsplit : n / 10 * 10 + n % 10 = n := Nat.div_add_mod' n 10
  conv => lhs; rw [← hsplit]
  exact numeral_snoc (by omega) (Nat.mod_lt _ (by decide))

theorem numeral_ne_nil (n : Nat) : numeral n ≠ [] := by
  by_cases hn : n < 10
  · rw [numeral_of_lt hn]
    exact List.cons_ne_nil _ _
  · rw [numeral_of_le (Nat.le_of_not_lt hn)]
    exact List.append_ne_nil_of_right_ne_nil _ (List.cons_ne_nil _ _)

theorem toNat_digit_unit {digit : Nat} (h : digit < 10) : (48 + digit).toUInt16.toNat = 48 + digit :=
  UInt16.toNat_ofNat_of_lt' (show 48 + digit < 65536 by omega)

theorem readDigits_cons {digit : Nat} (h : digit < 10) (acc : Nat) (rest : List UInt16) :
    readDigits ((48 + digit).toUInt16 :: rest) acc = readDigits rest (acc * 10 + digit) := by
  have hunit := toNat_digit_unit h
  have hlower : 48 ≤ (48 + digit).toUInt16.toNat := by omega
  have hupper : (48 + digit).toUInt16.toNat ≤ 57 := by omega
  have hrange : 48 ≤ (48 + digit).toUInt16 ∧ (48 + digit).toUInt16 ≤ 57 :=
    ⟨UInt16.le_iff_toNat_le.mpr hlower, UInt16.le_iff_toNat_le.mpr hupper⟩
  rw [readDigits, if_pos hrange, hunit, Nat.add_sub_cancel_left]

/-- A number is read from its numeral. -/
theorem readDigits_numeral (n : Nat) (rest : List UInt16) :
    readDigits (numeral n ++ rest) 0 = readDigits rest n := by
  induction n using Nat.strongRecOn generalizing rest with
  | ind n ih =>
    by_cases hn : n < 10
    · rw [numeral_of_lt hn, List.singleton_append, readDigits_cons hn, Nat.zero_mul, Nat.zero_add]
    · rw [numeral_of_le (Nat.le_of_not_lt hn), List.append_assoc, ih (n / 10) (by omega),
        List.singleton_append, readDigits_cons (Nat.mod_lt _ (by decide)), Nat.div_add_mod']

theorem length_numeral_le {n k : Nat} (hk : 0 < k) (h : n < 10 ^ k) : (numeral n).length ≤ k := by
  induction k generalizing n with
  | zero => cases hk
  | succ k ih =>
    by_cases hn : n < 10
    · rw [numeral_of_lt hn]
      exact Nat.succ_le_succ (Nat.zero_le k)
    · have hlt : n / 10 < 10 ^ k := Nat.div_lt_of_lt_mul (by rwa [Nat.pow_succ'] at h)
      have hk : 0 < k := by
        rcases Nat.eq_zero_or_pos k with rfl | hk
        · omega
        · exact hk
      rw [numeral_of_le (Nat.le_of_not_lt hn), List.length_append]
      exact Nat.succ_le_succ (ih hk hlt)

/-- Only the numeral of zero starts with a zero. -/
theorem head_numeral {n : Nat} (h : (numeral n).head? = some 48) : n = 0 := by
  induction n using Nat.strongRecOn with
  | ind n ih =>
    by_cases hn : n < 10
    · rw [numeral_of_lt hn] at h
      have hunit := congrArg UInt16.toNat (Option.some.inj h)
      rw [toNat_digit_unit hn] at hunit
      exact Nat.add_left_cancel hunit
    · rw [numeral_of_le (Nat.le_of_not_lt hn), List.head?_append] at h
      cases hhead : (numeral (n / 10)).head? with
      | some u =>
        rw [hhead] at h
        have hzero := ih (n / 10) (by omega) (hhead.trans h)
        omega
      | none => exact absurd (List.head?_eq_none_iff.mp hhead) (numeral_ne_nil _)

/-- The unit of a decimal digit is that of the digit's value. -/
theorem digit_unit {u : UInt16} (h : 48 ≤ u ∧ u ≤ 57) :
    u.toNat - 48 < 10 ∧ (48 + (u.toNat - 48)).toUInt16 = u := by
  have hlower : 48 ≤ u.toNat := UInt16.le_iff_toNat_le.mp h.1
  have hupper : u.toNat ≤ 57 := UInt16.le_iff_toNat_le.mp h.2
  refine ⟨by omega, ?_⟩
  rw [Nat.add_sub_cancel' hlower]
  exact UInt16.ofNat_toNat

/-- Digits read onto a number continue its numeral. -/
theorem numeral_of_readDigits {units : List UInt16} {acc n : Nat} (hacc : 0 < acc)
    (h : readDigits units acc = some n) : numeral acc ++ units = numeral n := by
  induction units generalizing acc with
  | nil =>
    cases h
    exact List.append_nil _
  | cons u rest ih =>
    unfold readDigits at h
    split at h
    · rename_i hdigit
      obtain ⟨hlt, hunit⟩ := digit_unit hdigit
      have hrest := ih (by omega) h
      rw [numeral_snoc hacc hlt, hunit, List.append_assoc] at hrest
      exact hrest
    · cases h

/-- An array index is written as its numeral. -/
theorem arrayIndex?_some {t : Text} {i : Nat} (h : t.arrayIndex? = some i) :
    t = ofString i.repr ∧ i < maxArrayLength := by
  unfold arrayIndex? at h
  split at h
  · cases h
  rename_i hlength
  split at h
  · cases h
  rename_i hcanonical
  obtain ⟨hread, hlt⟩ := Option.filter_eq_some_iff.mp h
  refine ⟨?_, of_decide_eq_true hlt⟩
  suffices hunits : t.units = numeral i by
    cases t
    exact congrArg Text.mk hunits
  cases hu : t.units with
  | nil => simp [hu] at hlength
  | cons u rest =>
    rw [hu] at hread
    unfold readDigits at hread
    split at hread
    · rename_i hdigit
      obtain ⟨hlt, hunit⟩ := digit_unit hdigit
      rw [Nat.zero_mul, Nat.zero_add] at hread
      rcases Nat.eq_zero_or_pos (u.toNat - 48) with hzero | hpos
      · -- a leading zero stands alone
        have hu48 : u = 48 := by
          rw [← hunit, hzero]
          rfl
        cases rest with
        | nil =>
          rw [hzero] at hread
          cases hread
          have hnumeral : numeral 0 = [48] := numeral_of_lt (by decide)
          rw [hu48, hnumeral]
        | cons v tail => simp [hu, hu48] at hcanonical
      · rw [← numeral_of_readDigits hpos hread, numeral_of_lt hlt, hunit]
        rfl
    · cases hread

/-- A numeral of an index below the greatest length is an array index. -/
theorem arrayIndex?_ofString {i : Nat} (h : i < maxArrayLength) : (ofString i.repr).arrayIndex? = some i := by
  have hread : readDigits (numeral i) 0 = some i := by
    have hread := readDigits_numeral i []
    rwa [List.append_nil] at hread
  have hlength : (numeral i).length ≤ 10 := length_numeral_le (by decide) (Nat.lt_trans h (by decide))
  unfold arrayIndex?
  change (if (numeral i).isEmpty || decide (10 < (numeral i).length) then none
    else if decide (1 < (numeral i).length) && (numeral i).head? == some 48 then none
    else (readDigits (numeral i) 0).filter (· < maxArrayLength)) = some i
  rw [if_neg, if_neg, hread, Option.filter_some, if_pos (decide_eq_true h)]
  · intro hzero
    simp only [Bool.and_eq_true, decide_eq_true_eq, beq_iff_eq] at hzero
    rw [head_numeral hzero.2, numeral_of_lt (by decide)] at hzero
    exact absurd hzero.1 (by decide)
  · simp only [Bool.or_eq_true, List.isEmpty_iff, decide_eq_true_eq, not_or]
    exact ⟨numeral_ne_nil i, by omega⟩

end Text

namespace Key

theorem arrayIndex?_some {key : Key} {i : Nat} (h : key.arrayIndex? = some i) :
    key = ofIndex i ∧ i < maxArrayLength := by
  cases key with
  | string t =>
    obtain ⟨htext, hlt⟩ := Text.arrayIndex?_some h
    exact ⟨congrArg Key.string htext, hlt⟩
  | symbol s => cases h

theorem arrayIndex?_ofIndex {i : Nat} (h : i < maxArrayLength) : (ofIndex i).arrayIndex? = some i :=
  Text.arrayIndex?_ofString h

/-- Different numbers have different keys. -/
theorem ofIndex_inj {i j : Nat} (h : (ofIndex i == ofIndex j) = true) : i = j := by
  have htext : Text.ofString i.repr = Text.ofString j.repr := by
    rw [beq_eq] at h
    exact eq_of_beq h
  have hunits : Text.numeral i ++ [] = Text.numeral j ++ [] :=
    congrArg (·.units ++ []) htext
  have hread : Text.readDigits (Text.numeral i ++ []) 0 = Text.readDigits (Text.numeral j ++ []) 0 := by
    rw [hunits]
  rw [Text.readDigits_numeral, Text.readDigits_numeral] at hread
  exact Option.some.inj hread

theorem ofIndex_ne_length (i : Nat) : ¬(ofIndex i == .length) = true :=
  ofIndex_ne_name ⟨108, by decide, by decide⟩ i

theorem ofIndex_ne_callee (i : Nat) : ¬(ofIndex i == .name "callee") = true :=
  ofIndex_ne_name ⟨99, by decide, by decide⟩ i

@[simp] theorem arrayIndex?_length : Key.length.arrayIndex? = none := by decide

theorem arrayIndex?_congr {a b : Key} (h : (a == b) = true) : a.arrayIndex? = b.arrayIndex? := by
  rw [beq_eq] at h
  cases a <;> cases b <;> simp_all [same, arrayIndex?]

end Key

/-- The index of an own key is listed among the indices. -/
theorem PropertyTable.mem_indices {t : PropertyTable} {key : Key} {i : Nat}
    (hkey : (t.get? key).isSome = true) (hi : key.arrayIndex? = some i) : i ∈ t.indices := by
  unfold get? at hkey
  rw [Option.isSome_map] at hkey
  obtain ⟨e, he⟩ := Option.isSome_iff_exists.mp hkey
  have hbeq := List.find?_some he
  unfold indices keys
  refine List.mem_filterMap.mpr ⟨e.1, List.mem_map_of_mem (List.mem_of_find?_eq_some he), ?_⟩
  exact (Key.arrayIndex?_congr hbeq).trans hi

end EcmaEval
