import EcmaEval.Proofs.Heap.Table

/-!
# Names as texts

Decoding takes back what encoding a string did. So different names are different texts, and different
property keys. Encoding takes back what decoding did where no lone surrogate was lost.
-/
namespace EcmaEval

namespace Text

/-- A character is not a surrogate. -/
theorem toNat_char (c : Char) : c.toNat < 0xd800 ∨ 0xdfff < c.toNat ∧ c.toNat < 0x110000 := c.valid

/-- A character of one unit. -/
theorem decode_unit {c : Char} (h : c.toNat < 0x10000) (rest : List UInt16) :
    decode (c.toNat.toUInt16 :: rest) = some c :: decode rest := by
  have hnat : c.toNat.toUInt16.toNat = c.toNat := UInt16.toNat_ofNat_of_lt h
  have hchar := toNat_char c
  have hhigh : isHighSurrogate c.toNat.toUInt16 = false := by
    simp [isHighSurrogate, UInt16.le_iff_toNat_le, UInt16.lt_iff_toNat_lt, hnat]
    omega
  have hlow : isLowSurrogate c.toNat.toUInt16 = false := by
    simp [isLowSurrogate, UInt16.le_iff_toNat_le, UInt16.lt_iff_toNat_lt, hnat]
    omega
  rw [decode.eq_def]
  simp [hhigh, hlow, hnat]

/-- A character of two units. -/
theorem decode_pair {c : Char} (h : 0x10000 ≤ c.toNat) (rest : List UInt16) :
    let offset := c.toNat - 0x10000
    decode ((0xd800 + offset / 1024).toUInt16 :: (0xdc00 + offset % 1024).toUInt16 :: rest) =
      some c :: decode rest := by
  intro offset
  have hchar := toNat_char c
  have hhigh : (0xd800 + offset / 1024).toUInt16.toNat = 0xd800 + offset / 1024 :=
    UInt16.toNat_ofNat_of_lt (by change _ < 65536; omega)
  have hlow : (0xdc00 + offset % 1024).toUInt16.toNat = 0xdc00 + offset % 1024 :=
    UInt16.toNat_ofNat_of_lt (by change _ < 65536; omega)
  have hfirst : isHighSurrogate (0xd800 + offset / 1024).toUInt16 = true := by
    simp [isHighSurrogate, UInt16.le_iff_toNat_le, UInt16.lt_iff_toNat_lt]
    omega
  have hsecond : isLowSurrogate (0xdc00 + offset % 1024).toUInt16 = true := by
    simp [isLowSurrogate, UInt16.le_iff_toNat_le, UInt16.lt_iff_toNat_lt]
    omega
  have hvalue : 0x10000 + offset / 1024 * 1024 + offset % 1024 = c.toNat := by omega
  rw [decode.eq_def]
  simp only [hfirst, hsecond, if_true, pairChar, hhigh, hlow, Nat.add_sub_cancel_left, hvalue, Char.ofNat_toNat]

theorem decode_encode (cs : List Char) : decode (cs.flatMap encodeChar) = cs.map some := by
  induction cs with
  | nil => rfl
  | cons c cs ih =>
    rw [List.flatMap_cons, encodeChar, List.map_cons, ← ih]
    split
    · exact decode_unit ‹_› _
    · exact decode_pair (Nat.le_of_not_lt ‹_›) _

theorem toString_ofString (s : String) : (ofString s).toString = s := by
  unfold toString ofString
  rw [decode_encode, List.map_map]
  simp [Function.comp_def]

theorem ofString_injective : Function.Injective ofString :=
  Function.LeftInverse.injective toString_ofString

theorem toNat_ofNat_of_valid {n : Nat} (h : n < 0xd800 ∨ 0xdfff < n ∧ n < 0x110000) :
    (Char.ofNat n).toNat = n := by
  rw [Char.ofNat, dif_pos h]
  rfl

/-- A unit that is no surrogate encodes its character. -/
theorem encode_unit {u : UInt16} (hhigh : isHighSurrogate u = false) (hlow : isLowSurrogate u = false) :
    encodeChar (Char.ofNat u.toNat) = [u] := by
  have hlt : u.toNat < 0x10000 := u.toNat_lt
  have hnat : (Char.ofNat u.toNat).toNat = u.toNat := by
    apply toNat_ofNat_of_valid
    simp [isHighSurrogate, isLowSurrogate, UInt16.le_iff_toNat_le, UInt16.lt_iff_toNat_lt] at hhigh hlow
    omega
  rw [encodeChar, hnat, if_pos hlt, Nat.toUInt16_eq, UInt16.ofNat_toNat]

/-- A pair of surrogates encodes its character. -/
theorem encode_pair {u v : UInt16} (hu : isHighSurrogate u = true) (hv : isLowSurrogate v = true) :
    encodeChar (pairChar u v) = [u, v] := by
  simp [isHighSurrogate, isLowSurrogate, UInt16.le_iff_toNat_le, UInt16.lt_iff_toNat_lt] at hu hv
  obtain ⟨high, hhigh⟩ := Nat.exists_eq_add_of_le hu.1
  obtain ⟨low, hlow⟩ := Nat.exists_eq_add_of_le hv.1
  have hnat : (pairChar u v).toNat = 0x10000 + (high * 1024 + low) := by
    unfold pairChar
    rw [toNat_ofNat_of_valid] <;> omega
  have hdiv : (high * 1024 + low) / 1024 = high := by omega
  have hmod : (high * 1024 + low) % 1024 = low := by omega
  rw [encodeChar, hnat, if_neg (by omega)]
  simp only [Nat.add_sub_cancel_left, hdiv, hmod, ← hhigh, ← hlow, Nat.toUInt16_eq, UInt16.ofNat_toNat]

/-- What is decoded without a loss is encoded by its characters. -/
theorem encode_decode {units : List UInt16} {cs : List Char} (h : decode units = cs.map some) :
    cs.flatMap encodeChar = units := by
  fun_induction decode units generalizing cs with
  | case1 =>
    cases cs with
    | nil => rfl
    | cons c cs => cases h
  | case2 u hu => cases cs <;> cases h
  | case3 u hu v tail hv ih =>
    cases cs with
    | nil => cases h
    | cons c cs =>
      obtain ⟨hc, hrest⟩ := List.cons.inj h
      rw [List.flatMap_cons, ih hrest, ← Option.some.inj hc, encode_pair hu hv]
      rfl
  | case4 u hu v tail hv ih => cases cs <;> cases h
  | case5 u rest hu hv ih => cases cs <;> cases h
  | case6 u rest hu hv ih =>
    cases cs with
    | nil => cases h
    | cons c cs =>
      obtain ⟨hc, hrest⟩ := List.cons.inj h
      rw [List.flatMap_cons, ih hrest, ← Option.some.inj hc,
        encode_unit (by simpa using hu) (by simpa using hv)]
      rfl

/-- A text without lone surrogates is known by its characters; a lone surrogate shows as U+FFFD. -/
theorem ofString_toString {t : Text} (h : '\ufffd' ∉ t.toString.toList) : ofString t.toString = t := by
  have hlossless : decode t.units = t.toString.toList.map some := by
    unfold toString at h ⊢
    rw [String.toList_ofList, List.map_map]
    rw [String.toList_ofList] at h
    refine (List.map_id _).symm.trans (List.map_congr_left fun c hc => ?_)
    cases c with
    | none => exact absurd (List.mem_map_of_mem hc) h
    | some c => rfl
  unfold ofString
  rw [encode_decode hlossless]

end Text

/-- Names are one key only if they are one name. -/
@[simp] theorem Key.name_beq (a b : String) : (Key.name a == Key.name b) = (a == b) := by
  rw [beq_eq, Bool.eq_iff_iff, beq_iff_eq]
  exact beq_iff_eq.trans Text.ofString_injective.eq_iff

end EcmaEval
