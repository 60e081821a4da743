import EcmaEval.Proofs.Number
import Mathlib.Algebra.Order.Field.Basic
import Mathlib.Data.Int.Bitwise
import Mathlib.Data.Int.ModEq
import Mathlib.Data.Rat.Floor

/-!
# Residues of numbers

The bit operators see a number as the 32-bit residue of its whole part. Reducing the whole part as an integer
and reducing the number in doubles, by a truncation, a remainder and a cast to a word, give the same residue,
because each step of the latter gives a whole number that needs no rounding.
-/
namespace EcmaEval

/-- A rational number without its fraction. -/
def towardZero (r : Rat) : Int := if 0 ≤ r then ⌊r⌋ else ⌈r⌉

theorem towardZero_div (n : Int) (d : Nat) : towardZero (n / d) = n.tdiv d := by
  unfold towardZero
  rcases Int.le_total 0 n with hn | hn
  · have hpos : (0 : Rat) ≤ n / d := div_nonneg (Int.cast_nonneg hn) (Nat.cast_nonneg d)
    rw [if_pos hpos, Rat.floor_intCast_div_natCast, Int.tdiv_eq_ediv_of_nonneg hn]
  · have hneg : (n / d : Rat) ≤ 0 := div_nonpos_of_nonpos_of_nonneg (Int.cast_nonpos.mpr hn) (Nat.cast_nonneg d)
    have hceil : ⌈(n / d : Rat)⌉ = n.tdiv d := by
      rw [Rat.ceil_intCast_div_natCast, ← Int.tdiv_eq_ediv_of_nonneg (Int.neg_nonneg_of_nonpos hn),
        Int.neg_tdiv, Int.neg_neg]
    split
    · rename_i hpos
      have hzero : (n / d : Rat) = 0 := le_antisymm hneg hpos
      rw [← hceil, hzero, Int.floor_zero, Int.ceil_zero]
    · exact hceil

theorem unit_ne_zero : (stepsPerUnit : Int) ≠ 0 := Int.natCast_ne_zero.mpr (Nat.ne_of_gt stepsPerUnit_pos)

theorem unit_pos : 0 < (stepsPerUnit : Int) := Int.natCast_pos.mpr stepsPerUnit_pos

theorem two_pow_le_stepsPerUnit {shift : Nat} (h : shift ≤ 1074) : 2 ^ shift ≤ stepsPerUnit := by
  rw [stepsPerUnit_eq]
  generalize 1074 = e at h ⊢
  exact Nat.pow_le_pow_right (by decide) h

theorem stepsPerUnit_dvd_two_pow {shift : Nat} (h : 1074 ≤ shift) : stepsPerUnit ∣ 2 ^ shift := by
  rw [stepsPerUnit_eq]
  generalize 1074 = e at h ⊢
  exact Nat.pow_dvd_pow 2 h

theorem mul_unit_neg (n : Int) : n * stepsPerUnit < 0 ↔ n < 0 := by
  have hmono : n * stepsPerUnit < 0 * stepsPerUnit ↔ n < 0 := Int.mul_lt_mul_right unit_pos
  rwa [Int.zero_mul] at hmono

namespace Number

/-- The exact value of a finite number. -/
def toRat? : Number → Option Rat
  | .finite x => some (x.value / stepsPerUnit)
  | _ => none

/-- The whole part of the exact value; zero for NaN and the infinities. -/
def whole (x : Number) : Int := (x.toRat?.map towardZero).getD 0

theorem truncate_eq_whole (x : Number) : x.truncate = x.whole := by
  cases x with
  | finite x => exact (towardZero_div x.value stepsPerUnit).symm
  | _ => rfl

end Number

namespace Double

theorem value_natAbs (x : Double) : x.value.natAbs = x.steps := by
  unfold value
  split <;> simp

/-- The value of a double rounds to the double itself. -/
theorem ofSteps_value (x : Double) : Number.ofSteps x.negative x.value = .finite x := by
  unfold Number.ofSteps
  split
  · rename_i hvalue
    let zero : Double := ⟨x.negative, 0, 0, by decide⟩
    have hsteps : x.steps = 0 := by rw [← x.value_natAbs, hvalue, Int.natAbs_zero]
    have hzero : zero.steps = x.steps := hsteps ▸ Nat.zero_shiftLeft 0
    have hsigned : Number.signedZero x.negative = .finite zero := rfl
    rw [hsigned]
    exact Number.finite_eq rfl hzero
  · rename_i hvalue
    have hnegative : decide (x.value < 0) = x.negative := by
      unfold value at hvalue ⊢
      cases hsign : x.negative
      · simp
      · simp_all
        omega
    rw [hnegative, x.value_natAbs, Number.ofRatio_steps]

/-- Every whole number of at most 53 bits is a double, and zero is two. -/
theorem exists_whole {n : Int} (hn : n.natAbs < mantissaLimit) (negative : Bool) :
    ∃ x : Double, x.value = n * stepsPerUnit ∧ x.negative = if n = 0 then negative else decide (n < 0) := by
  obtain ⟨y, -, -, hsteps⟩ := Number.ofNat_eq hn
  let x : Double := { y with negative := if n = 0 then negative else decide (n < 0) }
  have hx : x.steps = n.natAbs * stepsPerUnit := hsteps
  refine ⟨x, ?_, rfl⟩
  unfold value
  rw [hx, Int.natCast_mul]
  rcases Int.lt_trichotomy n 0 with hneg | rfl | hpos
  · have hsign : x.negative = true := (if_neg (Int.ne_of_lt hneg)).trans (decide_eq_true hneg)
    have habs : (n.natAbs : Int) = -n := by omega
    rw [hsign, if_pos rfl, habs, Int.neg_mul, Int.neg_neg]
  · rw [Int.natAbs_zero, Int.natCast_zero, Int.zero_mul, Int.neg_zero, ite_self]
  · have hsign : x.negative = false :=
      (if_neg (Int.ne_of_gt hpos)).trans (decide_eq_false (Int.not_lt.mpr (Int.le_of_lt hpos)))
    have habs : (n.natAbs : Int) = n := by omega
    rw [hsign, if_neg Bool.false_ne_true, habs]

end Double

namespace Number

/-- The number is the integer; a zero may have either sign. -/
def IsWhole (x : Number) (n : Int) : Prop := ∃ y : Double, x = .finite y ∧ y.value = n * stepsPerUnit

/-- The number is the integer; a zero is the positive one. -/
def Denotes (x : Number) (n : Int) : Prop := x.toRat? = some (n : Rat) ∧ x.isNegative = decide (n < 0)

theorem IsWhole.truncate {x : Number} {n : Int} (h : x.IsWhole n) : x.truncate = n := by
  obtain ⟨y, rfl, hy⟩ := h
  change y.value.tdiv stepsPerUnit = n
  rw [hy, Int.mul_tdiv_cancel _ unit_ne_zero]

theorem IsWhole.toRat? {x : Number} {n : Int} (h : x.IsWhole n) : x.toRat? = some (n : Rat) := by
  obtain ⟨y, rfl, hy⟩ := h
  have hunit : (stepsPerUnit : Rat) ≠ 0 := Nat.cast_ne_zero.mpr (Nat.ne_of_gt stepsPerUnit_pos)
  change some ((y.value : Rat) / stepsPerUnit) = some (n : Rat)
  rw [hy, Int.cast_mul, Int.cast_natCast, mul_div_cancel_right₀ _ hunit]

/-- A whole number of at most 53 bits needs no rounding. -/
theorem ofSteps_whole {n : Int} (hn : n.natAbs < mantissaLimit) (negative : Bool) :
    ∃ y : Double, ofSteps negative (n * stepsPerUnit) = .finite y ∧ y.value = n * stepsPerUnit ∧
      y.negative = if n = 0 then negative else decide (n < 0) := by
  obtain ⟨y, hvalue, hnegative⟩ := Double.exists_whole hn negative
  refine ⟨y, ?_, hvalue, hnegative⟩
  rw [← y.ofSteps_value, hvalue, hnegative]
  split
  · rfl
  · rename_i hzero
    have hsteps : n * stepsPerUnit ≠ 0 := Int.mul_ne_zero hzero unit_ne_zero
    simp only [ofSteps, if_neg hsteps]

theorem ofSteps_isWhole {n : Int} (hn : n.natAbs < mantissaLimit) (negative : Bool) :
    (ofSteps negative (n * stepsPerUnit)).IsWhole n :=
  have ⟨y, hy, hvalue, _⟩ := ofSteps_whole hn negative
  ⟨y, hy, hvalue⟩

theorem ofInt_eq_ofSteps (n : Int) : ofInt n = ofSteps false (n * stepsPerUnit) := by
  unfold ofInt ofSteps
  split
  · rename_i hsteps
    obtain rfl : n = 0 := (Int.mul_eq_zero.mp hsteps).resolve_right unit_ne_zero
    rw [Int.natAbs_zero, Nat.zero_mul]
    rfl
  · rw [Int.natAbs_mul, Int.natAbs_natCast]
    simp only [mul_unit_neg]

theorem ofInt_denotes {n : Int} (hn : n.natAbs < mantissaLimit) : (ofInt n).Denotes n := by
  obtain ⟨y, hy, hvalue, hnegative⟩ := ofSteps_whole hn false
  rw [ofInt_eq_ofSteps, hy]
  refine ⟨IsWhole.toRat? ⟨y, rfl, hvalue⟩, ?_⟩
  change y.negative = decide (n < 0)
  rw [hnegative]
  split
  · rename_i hzero
    simp [hzero]
  · rfl

theorem ofInt_isWhole {n : Int} (hn : n.natAbs < mantissaLimit) : (ofInt n).IsWhole n :=
  ofInt_eq_ofSteps n ▸ ofSteps_isWhole hn false

def abs : Number → Number
  | .nan => .nan
  | .infinite _ => .infinite false
  | .finite x => .finite { x with negative := false }

/-- The nearest whole number toward zero. The sign stays, also at zero. -/
def trunc : Number → Number
  | .finite x => ofSteps x.negative (x.truncate * stepsPerUnit)
  | x => x

/-- The remainder that is not negative. -/
def remEuclid (x y : Number) : Number :=
  let r := x.rem y
  if r.less? zero = some true then r.add y.abs else r

/-- The cast of a number to a word: its whole part, or the nearest word to it. -/
def castUint32 : Number → UInt32
  | .nan => 0
  | .infinite negative => if negative then 0 else UInt32.ofNat (2 ^ 32 - 1)
  | .finite x => UInt32.ofNat (min x.truncate.toNat (2 ^ 32 - 1))

/-- The number of words. -/
def wordLimit : Number := ofInt (2 ^ 32)

/-- The residue by operations on doubles only. -/
def reduceUint32 (x : Number) : UInt32 :=
  match x with
  | .finite _ => if x.isZero then 0 else (x.trunc.remEuclid wordLimit).castUint32
  | _ => 0

theorem trunc_isWhole (x : Double) : (Number.finite x).trunc.IsWhole x.truncate := by
  by_cases hshift : x.shift < 1074
  · -- what is left of the mantissa after the point has at most as many bits as the mantissa
    have hsteps : x.steps < mantissaLimit * stepsPerUnit := by
      calc x.steps = x.mantissa * 2 ^ x.shift := x.steps_eq
        _ < mantissaLimit * 2 ^ x.shift := Nat.mul_lt_mul_of_pos_right x.canonical.1 (Nat.two_pow_pos _)
        _ ≤ mantissaLimit * stepsPerUnit :=
          Nat.mul_le_mul_left _ (two_pow_le_stepsPerUnit (Nat.le_of_lt hshift))
    have hwhole : x.truncate.natAbs < mantissaLimit := by
      unfold Double.truncate
      rw [Int.natAbs_tdiv, x.value_natAbs, Int.natAbs_natCast]
      exact Nat.div_lt_of_lt_mul (Nat.mul_comm _ _ ▸ hsteps)
    exact ofSteps_isWhole hwhole x.negative
  · -- nothing stands after the point
    have hdvd : (stepsPerUnit : Int) ∣ x.value := by
      rw [← Int.natAbs_dvd_natAbs, x.value_natAbs, Int.natAbs_natCast, x.steps_eq]
      exact Nat.dvd_mul_left_of_dvd (stepsPerUnit_dvd_two_pow (Nat.le_of_not_lt hshift)) _
    have hvalue : x.truncate * stepsPerUnit = x.value := by
      unfold Double.truncate
      exact Int.tdiv_mul_cancel hdvd
    exact ⟨x, by rw [trunc, hvalue, x.ofSteps_value], hvalue.symm⟩

theorem IsWhole.rem {x y : Number} {a b : Int} (hx : x.IsWhole a) (hy : y.IsWhole b) (hb : b ≠ 0)
    (hsmall : (a.tmod b).natAbs < mantissaLimit) : (x.rem y).IsWhole (a.tmod b) := by
  obtain ⟨x, rfl, hx⟩ := hx
  obtain ⟨y, rfl, hy⟩ := hy
  have hmantissa : y.mantissa ≠ 0 := by
    intro hzero
    have hsteps : y.steps = 0 := by rw [y.steps_eq, hzero, Nat.zero_mul]
    rw [← y.value_natAbs, hy, Int.natAbs_eq_zero] at hsteps
    exact hb ((Int.mul_eq_zero.mp hsteps).resolve_right unit_ne_zero)
  have hmod : x.value.tmod y.value = a.tmod b * stepsPerUnit := by
    rw [hx, hy, Int.mul_comm a, Int.mul_comm b, Int.mul_tmod_mul_of_pos _ _ unit_pos, Int.mul_comm]
  change (if y.mantissa = 0 then nan else ofSteps x.negative (x.value.tmod y.value)).IsWhole _
  rw [if_neg hmantissa, hmod]
  exact ofSteps_isWhole hsmall _

theorem IsWhole.add {x y : Number} {a b : Int} (hx : x.IsWhole a) (hy : y.IsWhole b)
    (hsmall : (a + b).natAbs < mantissaLimit) : (x.add y).IsWhole (a + b) := by
  obtain ⟨x, rfl, hx⟩ := hx
  obtain ⟨y, rfl, hy⟩ := hy
  change (ofSteps (x.negative && y.negative) (x.value + y.value)).IsWhole _
  rw [hx, hy, ← Int.add_mul]
  exact ofSteps_isWhole hsmall _

theorem IsWhole.abs {x : Number} {n : Int} (hx : x.IsWhole n) : x.abs.IsWhole n.natAbs := by
  obtain ⟨x, rfl, hx⟩ := hx
  refine ⟨{ x with negative := false }, rfl, ?_⟩
  have hsteps : x.steps = n.natAbs * stepsPerUnit := by
    rw [← x.value_natAbs, hx, Int.natAbs_mul, Int.natAbs_natCast]
  change ((x.steps : Nat) : Int) = _
  rw [hsteps, Int.natCast_mul]

theorem IsWhole.less?_zero {x : Number} {n : Int} (hx : x.IsWhole n) :
    x.less? zero = some (decide (n < 0)) := by
  obtain ⟨x, rfl, hx⟩ := hx
  obtain ⟨y, hy, hzero⟩ : zero.IsWhole 0 := ofInt_isWhole (by decide)
  rw [hy, less?]
  simp only [hx, hzero, Int.zero_mul, mul_unit_neg]

theorem IsWhole.castUint32 {x : Number} {n : Int} (hx : x.IsWhole n) (hn : n < 2 ^ 32) :
    x.castUint32 = UInt32.ofNat n.toNat := by
  have htruncate := hx.truncate
  obtain ⟨x, rfl, -⟩ := hx
  have hsmall : n.toNat ≤ 2 ^ 32 - 1 := by omega
  change UInt32.ofNat (min (Number.finite x).truncate.toNat (2 ^ 32 - 1)) = _
  rw [htruncate, Nat.min_eq_left hsmall]

theorem IsWhole.remEuclid {x y : Number} {a b : Int} (hx : x.IsWhole a) (hy : y.IsWhole b) (hb : b ≠ 0)
    (hsmall : b.natAbs < mantissaLimit) : (x.remEuclid y).IsWhole (a % b) := by
  have hbound : (a.tmod b).natAbs < b.natAbs := by
    rw [Int.natAbs_tmod]
    exact Nat.mod_lt _ (Int.natAbs_pos.mpr hb)
  have hrem := hx.rem hy hb (Nat.lt_trans hbound hsmall)
  unfold Number.remEuclid
  dsimp only
  rw [hrem.less?_zero, Int.emod_eq_tmod]
  by_cases hneg : a.tmod b < 0
  · have hraised : ¬ (0 ≤ a ∨ b ∣ a) := by
      rintro (hpos | hdvd)
      · exact absurd (Int.tmod_nonneg b hpos) (Int.not_le.mpr hneg)
      · rw [Int.tmod_eq_zero_of_dvd hdvd] at hneg
        exact Int.lt_irrefl 0 hneg
    rw [if_pos (by simp [hneg]), if_neg hraised]
    exact hrem.add hy.abs (by omega)
  · have hsame : 0 ≤ a ∨ b ∣ a := by
      by_contra hraised
      have hmod : a % b = a.tmod b + b.natAbs := by rw [Int.emod_eq_tmod, if_neg hraised]
      have hlt : a % b < b.natAbs := Int.emod_lt a hb
      omega
    rw [if_neg (by simp [hneg]), if_pos hsame, Int.natCast_zero, Int.add_zero]
    exact hrem

/-- The operations on doubles lose nothing. -/
theorem reduceUint32_eq (x : Number) : x.reduceUint32 = x.toUint32 := by
  cases x with
  | finite x =>
    change (if x.mantissa == 0 then 0 else ((Number.finite x).trunc.remEuclid wordLimit).castUint32) =
      UInt32.ofInt x.truncate
    split
    · rename_i hzero
      have hsteps : x.steps = 0 := by rw [x.steps_eq, eq_of_beq hzero, Nat.zero_mul]
      have hvalue : x.value = 0 := Int.natAbs_eq_zero.mp (x.value_natAbs.trans hsteps)
      rw [Double.truncate, hvalue, Int.zero_tdiv]
      rfl
    · have hlimit : wordLimit.IsWhole (2 ^ 32) := ofInt_isWhole (by decide)
      have hmod := (trunc_isWhole x).remEuclid hlimit (by decide) (by decide)
      exact hmod.castUint32 (Int.emod_lt_of_pos _ (by decide))
  | _ => rfl

theorem toNat_toUint32 (x : Number) : (x.toUint32.toNat : Int) = x.whole % 2 ^ 32 := by
  have hlower : 0 ≤ x.whole % 2 ^ 32 := Int.emod_nonneg _ (by decide)
  have hupper : x.whole % 2 ^ 32 < 2 ^ 32 := Int.emod_lt_of_pos _ (by decide)
  have hword : x.toUint32.toNat = (x.whole % 2 ^ 32).toNat := by
    have hsmall : (x.whole % 2 ^ 32).toNat < 2 ^ 32 := by omega
    rw [← truncate_eq_whole] at hsmall ⊢
    exact UInt32.toNat_ofNat_of_lt' hsmall
  rw [hword, Int.toNat_of_nonneg hlower]

theorem toInt_toInt32 (x : Number) : x.toInt32.toInt = x.whole.bmod (2 ^ 32) := by
  have hsigned : x.toInt32.toInt = (x.toUint32.toNat : Int).bmod (2 ^ 32) :=
    BitVec.toInt_eq_toNat_bmod x.toUint32.toBitVec
  rw [hsigned, toNat_toUint32]
  exact Int.emod_bmod x.whole (2 ^ 32)

end Number

/-- The bits of a signed word, with its sign bit in front. -/
theorem testBit_toInt (x : BitVec w) (i : Nat) :
    x.toInt.testBit i = if i < w then x.getLsbD i else x.msb := by
  cases hmsb : x.msb with
  | false =>
    rw [BitVec.toInt_eq_toNat_of_msb hmsb]
    change x.getLsbD i = _
    split
    · rfl
    · exact BitVec.getLsbD_of_ge x i (by omega)
  | true =>
    have hnegative : x.toInt = Int.negSucc (~~~x).toNat := by
      have hlt := x.isLt
      rw [BitVec.toInt_eq_msb_cond, hmsb, if_pos rfl, BitVec.toNat_not]
      omega
    rw [hnegative]
    change (!(~~~x).getLsbD i) = _
    rw [BitVec.getLsbD_not]
    split <;> simp [*]

/-- An integer is known by its bits. -/
theorem eq_of_testBit_eq {m n : Int} (h : ∀ i, m.testBit i = n.testBit i) : m = n := by
  -- far to the left the bits of an integer show its sign
  have hsign (a b : Nat) : a.testBit (a + b) = false := Nat.testBit_lt_two_pow
    (Nat.lt_of_lt_of_le Nat.lt_two_pow_self (Nat.pow_le_pow_right (by decide) (Nat.le_add_right a b)))
  cases m with
  | ofNat a =>
    cases n with
    | ofNat b => exact congrArg Int.ofNat (Nat.eq_of_testBit_eq h)
    | negSucc b =>
      have hbit : a.testBit (a + b) = !b.testBit (a + b) := h (a + b)
      rw [hsign a b, Nat.add_comm, hsign b a] at hbit
      cases hbit
  | negSucc a =>
    cases n with
    | ofNat b =>
      have hbit : (!a.testBit (a + b)) = b.testBit (a + b) := h (a + b)
      rw [hsign a b, Nat.add_comm, hsign b a] at hbit
      cases hbit
    | negSucc b => exact congrArg Int.negSucc (Nat.eq_of_testBit_eq fun i => Bool.not_inj (h i))

theorem toInt_and (x y : BitVec w) : (x &&& y).toInt = Int.land x.toInt y.toInt := by
  refine eq_of_testBit_eq fun i => ?_
  simp only [Int.testBit_land, testBit_toInt, BitVec.getLsbD_and, BitVec.msb_and]
  split <;> rfl

theorem toInt_or (x y : BitVec w) : (x ||| y).toInt = Int.lor x.toInt y.toInt := by
  refine eq_of_testBit_eq fun i => ?_
  simp only [Int.testBit_lor, testBit_toInt, BitVec.getLsbD_or, BitVec.msb_or]
  split <;> rfl

theorem toInt_xor (x y : BitVec w) : (x ^^^ y).toInt = Int.xor x.toInt y.toInt := by
  refine eq_of_testBit_eq fun i => ?_
  simp only [Int.testBit_lxor, testBit_toInt, BitVec.getLsbD_xor, BitVec.msb_xor]
  split <;> rfl

theorem toInt_not (x : BitVec w) (hw : 0 < w) : (~~~x).toInt = Int.lnot x.toInt := by
  refine eq_of_testBit_eq fun i => ?_
  simp only [Int.testBit_lnot, testBit_toInt, BitVec.getLsbD_not, BitVec.msb_not]
  split <;> simp [*]

namespace Number

theorem toNat_shiftAmount (y : Number) : y.shiftAmount.toNat = y.toUint32.toNat % 32 := by
  unfold shiftAmount
  rw [UInt32.toNat_and]
  exact Nat.and_two_pow_sub_one_eq_mod _ 5

/-- A shift takes its amount as it is. -/
theorem smod_shiftAmount (y : Number) :
    (y.shiftAmount.toInt32.toBitVec.smod 32).toNat = y.toUint32.toNat % 32 := by
  have hamount : y.shiftAmount.toInt32.toBitVec.toNat = y.toUint32.toNat % 32 := y.toNat_shiftAmount
  have hlt : y.shiftAmount.toInt32.toBitVec < 32#32 :=
    BitVec.lt_def.mpr (hamount ▸ Nat.mod_lt _ (by decide))
  have hmsb : y.shiftAmount.toInt32.toBitVec.msb = false := by
    rw [BitVec.msb_eq_false_iff_two_mul_lt, hamount]
    omega
  rw [BitVec.smod_eq, hmsb]
  change (y.shiftAmount.toInt32.toBitVec.umod 32#32).toNat = _
  rw [BitVec.umod_eq, BitVec.umod_eq_of_lt hlt, hamount]

theorem toInt_shiftLeft (x y : Number) : (x.toInt32 <<< y.shiftAmount.toInt32).toInt =
    (x.toInt32.toInt * 2 ^ (y.toUint32.toNat % 32)).bmod (2 ^ 32) := by
  have hword : (x.toInt32 <<< y.shiftAmount.toInt32).toInt =
      (x.toInt32.toBitVec <<< y.shiftAmount.toInt32.toBitVec.smod 32).toInt := rfl
  have hsigned : x.toInt32.toInt = (x.toInt32.toBitVec.toNat : Int).bmod (2 ^ 32) :=
    BitVec.toInt_eq_toNat_bmod _
  rw [hword, BitVec.shiftLeft_eq', smod_shiftAmount, BitVec.toInt_shiftLeft, Nat.shiftLeft_eq, hsigned,
    Int.bmod_mul_bmod, Int.natCast_mul, Int.natCast_pow]
  rfl

theorem toInt_shiftRight (x y : Number) : (x.toInt32 >>> y.shiftAmount.toInt32).toInt =
    x.toInt32.toInt / 2 ^ (y.toUint32.toNat % 32) := by
  have hword : (x.toInt32 >>> y.shiftAmount.toInt32).toInt =
      (x.toInt32.toBitVec.sshiftRight' (y.shiftAmount.toInt32.toBitVec.smod 32)).toInt := rfl
  rw [hword, BitVec.sshiftRight_eq', smod_shiftAmount, BitVec.toInt_sshiftRight, Int.shiftRight_eq_div_pow,
    Int.natCast_pow]
  rfl

theorem toNat_shiftRightZero (x y : Number) : (x.toUint32 >>> y.shiftAmount).toNat =
    x.toUint32.toNat / 2 ^ (y.toUint32.toNat % 32) := by
  rw [UInt32.toNat_shiftRight, toNat_shiftAmount, Nat.mod_mod, Nat.shiftRight_eq_div_pow]

theorem toInt32_bounds (w : Int32) : -2 ^ 31 ≤ w.toInt ∧ w.toInt < 2 ^ 31 := ⟨w.le_toInt, w.toInt_lt⟩

theorem ofInt_word (w : Int32) : (ofInt w.toInt).Denotes w.toInt := by
  have hbounds := toInt32_bounds w
  have hlimit : mantissaLimit = 2 ^ 53 := rfl
  exact ofInt_denotes (by omega)

theorem ofNat_word (w : UInt32) : (ofNat w.toNat).Denotes w.toNat := by
  have hlt := w.toNat_lt
  have hlimit : mantissaLimit = 2 ^ 53 := rfl
  exact ofInt_denotes (by omega)

theorem toUint32_congr {x y : Number} (h : x.whole ≡ y.whole [ZMOD 2 ^ 32]) : x.toUint32 = y.toUint32 := by
  have hresidue : x.whole % 2 ^ 32 = y.whole % 2 ^ 32 := h
  rw [← toNat_toUint32, ← toNat_toUint32] at hresidue
  exact UInt32.toNat_inj.mp (Int.ofNat_inj.mp hresidue)

/-- **Bit operators.** The residue of a number is that of its whole part, also when it is computed in doubles.
A shift amount is the residue of the right operand modulo 32: a shift to the left is a multiplication by a
power of two and a reduction, the shifts to the right are divisions that round down, and the other operators
work on the two's complement of the signed residues. Each result is an exact whole number, and depends on the
residues only. -/
theorem bitOperators_are_modular (x y : Number) :
    let s := y.toUint32.toNat % 32
    let a := x.toInt32.toInt
    let b := y.toInt32.toInt
    ((x.toUint32.toNat : Int) = x.whole % 2 ^ 32 ∧ x.toUint32 = x.reduceUint32) ∧
      (a ≡ x.whole [ZMOD 2 ^ 32] ∧ -2 ^ 31 ≤ a ∧ a < 2 ^ 31) ∧
      (x.shiftLeft y).Denotes ((a * 2 ^ s).bmod (2 ^ 32)) ∧
      (x.shiftRight y).Denotes (a / 2 ^ s) ∧
      (x.shiftRightZero y).Denotes (x.toUint32.toNat / 2 ^ s) ∧
      (x.bitAnd y).Denotes (Int.land a b) ∧ (x.bitOr y).Denotes (Int.lor a b) ∧
      (x.bitXor y).Denotes (Int.xor a b) ∧ x.bitNot.Denotes (Int.lnot a) ∧
      ∀ x' y' : Number, x'.whole ≡ x.whole [ZMOD 2 ^ 32] → y'.whole ≡ y.whole [ZMOD 2 ^ 32] →
        x'.shiftLeft y' = x.shiftLeft y ∧ x'.shiftRight y' = x.shiftRight y ∧
          x'.shiftRightZero y' = x.shiftRightZero y ∧ x'.bitAnd y' = x.bitAnd y ∧
          x'.bitOr y' = x.bitOr y ∧ x'.bitXor y' = x.bitXor y ∧ x'.bitNot = x.bitNot := by
  intro s a b
  have hcongr : a ≡ x.whole [ZMOD 2 ^ 32] := by
    have hsigned : a = x.whole.bmod (2 ^ 32) := x.toInt_toInt32
    rw [hsigned]
    exact Int.bmod_emod
  refine ⟨⟨x.toNat_toUint32, x.reduceUint32_eq.symm⟩, ⟨hcongr, toInt32_bounds _⟩, ?_, ?_, ?_, ?_, ?_, ?_, ?_,
    fun x' y' hx hy => ?_⟩
  · rw [← toInt_shiftLeft]
    exact ofInt_word _
  · rw [← toInt_shiftRight]
    exact ofInt_word _
  · have hquotient : ((x.toUint32.toNat / 2 ^ s : Nat) : Int) = x.toUint32.toNat / 2 ^ s := by
      rw [Int.natCast_ediv, Int.natCast_pow]
      rfl
    rw [← hquotient, ← toNat_shiftRightZero]
    exact ofNat_word _
  · have hbits : (x.toInt32 &&& y.toInt32).toInt = Int.land a b := toInt_and _ _
    rw [← hbits]
    exact ofInt_word _
  · have hbits : (x.toInt32 ||| y.toInt32).toInt = Int.lor a b := toInt_or _ _
    rw [← hbits]
    exact ofInt_word _
  · have hbits : (x.toInt32 ^^^ y.toInt32).toInt = Int.xor a b := toInt_xor _ _
    rw [← hbits]
    exact ofInt_word _
  · have hbits : (~~~x.toInt32).toInt = Int.lnot a := toInt_not _ (by decide)
    rw [← hbits]
    exact ofInt_word _
  · simp only [shiftLeft, shiftRight, shiftRightZero, bitAnd, bitOr, bitXor, bitNot, toInt32, shiftAmount,
      toUint32_congr hx, toUint32_congr hy, and_self]

/-- The least signed word with a fraction is shifted like the number after the greatest signed word. -/
theorem bitOperators_are_modular_half :
    let x := (ofInt (-4294967297)).div (ofInt 2)
    let y := ofInt 33
    x.toInt32.toInt = -2147483648 ∧ (x.shiftRight y).Denotes (-1073741824) ∧
      (ofInt 2147483648).shiftRight (ofInt (-4294967263)) = x.shiftRight y := by
  intro x y
  have hx : x.whole = -2147483648 := by
    rw [← truncate_eq_whole]
    decide +kernel
  have hx' : (ofInt 2147483648).whole = 2147483648 := by
    rw [← truncate_eq_whole]
    decide +kernel
  have hy : y.whole = 33 := by
    rw [← truncate_eq_whole]
    decide +kernel
  have hy' : (ofInt (-4294967263)).whole = -4294967263 := by
    rw [← truncate_eq_whole]
    decide +kernel
  have hword : x.toInt32.toInt = -2147483648 := by
    rw [toInt_toInt32, hx]
    decide
  have hamount : y.toUint32.toNat % 32 = 1 := by
    have hresidue := y.toNat_toUint32
    rw [hy] at hresidue
    omega
  obtain ⟨-, -, -, hshift, -, -, -, -, -, hsame⟩ := bitOperators_are_modular x y
  rw [hword, hamount] at hshift
  have hleft : (ofInt 2147483648).whole ≡ x.whole [ZMOD 2 ^ 32] := by
    rw [hx, hx']
    decide
  have hright : (ofInt (-4294967263)).whole ≡ y.whole [ZMOD 2 ^ 32] := by
    rw [hy, hy']
    decide
  exact ⟨hword, hshift, (hsame _ _ hleft hright).2.1⟩

end Number

end EcmaEval
