import EcmaEval.Proofs.Index

/-!
# Array indices in machine words

The index of a key is read with a 64-bit word and handed on as one of 32 bits. A text that is short enough to
be an index cannot exceed the one, and an index cannot exceed the other, so reading it in words is exact.
-/
namespace EcmaEval

namespace Text

/-- Reads digits on to a word, in the arithmetic of words. -/
def readWord : List UInt16 → UInt64 → Option UInt64
  | [], n => some n
  | u :: rest, n => if 48 ≤ u ∧ u ≤ 57 then readWord rest (n * 10 + (u - 48).toUInt64) else none

/-- The array index a text spells, as a word. -/
def indexWord? (t : Text) : Option UInt32 :=
  if t.units.isEmpty || 10 < t.units.length then none
  else if 1 < t.units.length && t.units.head? == some 48 then none
  else ((readWord t.units 0).filter (· < 0xFFFFFFFF)).map UInt64.toUInt32

/-- One digit more, while there is room in a word. -/
theorem toNat_step {u : UInt16} (hdigit : 48 ≤ u ∧ u ≤ 57) {n : UInt64} (h : n.toNat * 10 + 10 < 2 ^ 64) :
    (n * 10 + (u - 48).toUInt64).toNat = n.toNat * 10 + (u.toNat - 48) := by
  obtain ⟨hlt, -⟩ := digit_unit hdigit
  have hu : (u - 48).toUInt64.toNat = u.toNat - 48 := by
    rw [UInt16.toNat_toUInt64, UInt16.toNat_sub_of_le _ _ hdigit.1]
    rfl
  have hproduct : (n * 10).toNat = n.toNat * 10 := by
    rw [UInt64.toNat_mul]
    exact Nat.mod_eq_of_lt (Nat.lt_of_le_of_lt (Nat.le_add_right _ 10) h)
  rw [UInt64.toNat_add, hproduct, hu]
  exact Nat.mod_eq_of_lt (by omega)

/-- Reading in words is exact as long as one more digit would fit. -/
theorem readWord_exact {units : List UInt16} {n : UInt64} (h : (n.toNat + 1) * 10 ^ units.length < 2 ^ 64) :
    (readWord units n).map UInt64.toNat = readDigits units n.toNat := by
  induction units generalizing n with
  | nil => rfl
  | cons u rest ih =>
    unfold readWord readDigits
    split
    · rename_i hdigit
      obtain ⟨hlt, -⟩ := digit_unit hdigit
      have hroom : (n.toNat + 1) * 10 * 10 ^ rest.length < 2 ^ 64 := by
        rwa [List.length_cons, Nat.pow_succ, Nat.mul_comm (10 ^ _), ← Nat.mul_assoc] at h
      have hfirst : (n.toNat + 1) * 10 < 2 ^ 64 :=
        Nat.lt_of_le_of_lt (Nat.le_mul_of_pos_right _ (Nat.pow_pos (by decide))) hroom
      have hstep := toNat_step hdigit (n := n) (by omega)
      rw [ih, hstep]
      rw [hstep]
      exact Nat.lt_of_le_of_lt (Nat.mul_le_mul_right _ (by omega)) hroom
    · rfl

/-- No step over ten units leaves the words. -/
theorem readWord_of_length_le {units : List UInt16} (h : units.length ≤ 10) :
    (readWord units 0).map UInt64.toNat = readDigits units 0 := by
  refine readWord_exact (Nat.lt_of_le_of_lt ?_ (show 10 ^ 10 < 2 ^ 64 by decide))
  simpa using Nat.pow_le_pow_right (show 0 < 10 by decide) h

/-- A word below the greatest of 32 bits is not cut. -/
theorem toNat_toUInt32_of_lt {w : UInt64} (h : w < 0xFFFFFFFF) : w.toUInt32.toNat = w.toNat := by
  have hlt : w.toNat < 0xFFFFFFFF := UInt64.lt_iff_toNat_lt.mp h
  rw [UInt64.toNat_toUInt32]
  exact Nat.mod_eq_of_lt (by omega)

theorem indexWord?_eq (t : Text) : t.indexWord?.map UInt32.toNat = t.arrayIndex? := by
  unfold indexWord? arrayIndex?
  split
  · rfl
  rename_i hlength
  split
  · rfl
  have hlength : t.units.length ≤ 10 := by
    simp only [Bool.or_eq_true, decide_eq_true_eq, not_or] at hlength
    omega
  rw [← readWord_of_length_le hlength]
  cases readWord t.units 0 with
  | none => rfl
  | some w =>
    rw [Option.map_some, Option.filter_some, Option.filter_some]
    by_cases hw : w < 0xFFFFFFFF
    · have hlt : w.toNat < maxArrayLength := UInt64.lt_iff_toNat_lt.mp hw
      rw [if_pos (decide_eq_true hw), if_pos (decide_eq_true hlt)]
      exact congrArg some (toNat_toUInt32_of_lt hw)
    · have hle : ¬w.toNat < maxArrayLength := fun hlt => hw (UInt64.lt_iff_toNat_lt.mpr hlt)
      rw [if_neg (by simpa using hw), if_neg (by simpa using hle)]
      rfl

end Text

namespace Key

/-- The key of a number is an index exactly if the number is small enough. -/
theorem arrayIndex?_ofIndex_eq (n : Nat) :
    (ofIndex n).arrayIndex? = if n < maxArrayLength then some n else none := by
  split
  · rename_i hlt
    exact arrayIndex?_ofIndex hlt
  · rename_i hlt
    refine Option.eq_none_iff_forall_ne_some.mpr fun i hi => hlt ?_
    obtain ⟨hkey, hi⟩ := arrayIndex?_some hi
    have hn : n = i := ofIndex_inj (hkey ▸ BEq.rfl)
    exact hn ▸ hi

/-- The key of a word is read back as that word, except for the greatest one. A text is an index exactly if it
is the numeral of one, with no zero in front, and then it is the key of that index. Words are wide enough for
each step of the reading and for its result. -/
theorem index_decodes_numeral :
    (∀ n : UInt32, (ofIndex n.toNat).arrayIndex? = if n.toNat < 2 ^ 32 - 1 then some n.toNat else none) ∧
      (∀ (t : Text) (n : Nat), t.arrayIndex? = some n →
        n < 2 ^ 32 - 1 ∧ t.units = Text.numeral n ∧ (t.units.head? = some 48 → t.units = [48]) ∧
          ofIndex n = .string t) ∧
      (∀ (t : Text) (read : Nat), t.units.length ≤ 10 →
        (Text.readWord (t.units.take read) 0).map UInt64.toNat = Text.readDigits (t.units.take read) 0) ∧
      ∀ t : Text, t.indexWord?.map UInt32.toNat = t.arrayIndex? := by
  refine ⟨fun n => arrayIndex?_ofIndex_eq n.toNat, fun t n h => ?_, fun t read hlength => ?_,
    Text.indexWord?_eq⟩
  · obtain ⟨htext, hlt⟩ := Text.arrayIndex?_some h
    have hunits : t.units = Text.numeral n := congrArg Text.units htext
    refine ⟨hlt, hunits, fun hzero => ?_, congrArg string htext.symm⟩
    rw [hunits] at hzero ⊢
    rw [Text.head_numeral hzero]
    exact Text.numeral_of_lt (by decide)
  · exact Text.readWord_of_length_le (Nat.le_trans (List.length_take_le' ..) hlength)

/-- The greatest index is written with ten digits. -/
theorem index_decodes_numeral_greatest :
    (Text.ofString "4294967294").arrayIndex? = some 4294967294 ∧
      ofIndex 4294967294 = .string (.ofString "4294967294") := by
  have hread : (Text.ofString "4294967294").arrayIndex? = some 4294967294 := by decide +kernel
  exact ⟨hread, (index_decodes_numeral.2.1 _ _ hread).2.2.2⟩

end Key

end EcmaEval
