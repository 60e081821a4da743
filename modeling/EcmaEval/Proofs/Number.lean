import EcmaEval.Object.Access
import Mathlib.Algebra.Group.Nat.Defs
import Mathlib.Data.Nat.Log

/-!
# Whole numbers as doubles

The steps of a double round to the double itself, so a whole number with at most 53 bits is a double
exactly. Comparing such doubles is comparing the whole numbers.
-/
namespace EcmaEval

/-- Lengths and indices are exact as doubles. -/
theorem lt_mantissaLimit {n : Nat} (h : n ≤ maxArrayLength) : n < mantissaLimit :=
  Nat.lt_of_le_of_lt h (by decide)

theorem stepsPerUnit_eq : stepsPerUnit = 2 ^ 1074 := by
  unfold stepsPerUnit
  generalize 1074 = e
  rfl

theorem stepsPerUnit_pos : 0 < stepsPerUnit := by
  unfold stepsPerUnit
  generalize 1074 = e
  exact Nat.two_pow_pos e

namespace Double

theorem steps_eq (x : Double) : x.steps = x.mantissa * 2 ^ x.shift := Nat.shiftLeft_eq _ _

/-- The steps of a double show its shift. -/
theorem log2_steps (x : Double) : x.steps.log2 - 52 = x.shift := by
  obtain ⟨hlimit, -, hleading⟩ := x.canonical
  rw [steps_eq, Nat.log2_eq_log_two]
  by_cases hfull : leadingBit ≤ x.mantissa
  · have hlog : Nat.log 2 (x.mantissa * 2 ^ x.shift) = 52 + x.shift := by
      apply Nat.log_eq_of_pow_le_of_lt_pow
      · rw [Nat.pow_add]
        exact Nat.mul_le_mul_right _ hfull
      · rw [show 52 + x.shift + 1 = 53 + x.shift by omega, Nat.pow_add]
        exact Nat.mul_lt_mul_of_pos_right hlimit (Nat.two_pow_pos _)
    omega
  · have hshift := hleading.resolve_left hfull
    have hlog : Nat.log 2 x.mantissa < 53 := by
      apply Nat.log_lt_of_lt_pow'
      · decide
      · exact hlimit
    rw [hshift, Nat.pow_zero, Nat.mul_one]
    omega

theorem eq_zero_of_steps {x : Double} (h : x.steps = 0) : x.mantissa = 0 := by
  rw [x.steps_eq] at h
  exact (Nat.mul_eq_zero.mp h).resolve_right (Nat.ne_of_gt (Nat.two_pow_pos _))

end Double

namespace Number

/-- Rounding changes no double. -/
theorem ofRatio_steps (x : Double) : ofRatio x.negative x.steps 1 = .finite x := by
  have hfloor : x.steps / 2 ^ x.shift = x.mantissa := by
    rw [x.steps_eq]
    exact Nat.mul_div_cancel _ (Nat.two_pow_pos _)
  have hrest : x.steps % 2 ^ x.shift = 0 := by
    rw [x.steps_eq]
    exact Nat.mul_mod_left _ _
  have hlimit : x.mantissa ≠ mantissaLimit := Nat.ne_of_lt x.canonical.1
  unfold ofRatio
  simp only [Nat.div_one, x.log2_steps, Nat.shiftLeft_eq, Nat.one_mul, hfloor, hrest, Nat.mul_zero,
    Nat.two_pow_pos, true_or, if_true, hlimit, if_false]
  exact dif_pos x.canonical

/-- A whole number below `2 ^ 53` is a double exactly. -/
theorem ofNat_eq {n : Nat} (h : n < mantissaLimit) :
    ∃ x : Double, ofNat n = .finite x ∧ x.negative = false ∧ x.steps = n * stepsPerUnit := by
  obtain ⟨x, hsign, hsteps⟩ : ∃ x : Double, x.negative = false ∧ x.steps = n * stepsPerUnit := by
    rcases Nat.eq_zero_or_pos n with rfl | hpos
    · exact ⟨⟨false, 0, 0, by decide⟩, rfl, by simp [Double.steps]⟩
    · -- the leading bit of `n` is moved to the place of the leading bit of a mantissa
      have hlog : Nat.log 2 n ≤ 52 := Nat.lt_succ_iff.mp (Nat.log_lt_of_lt_pow' (by decide) h)
      have hsplit : 52 - Nat.log 2 n + Nat.log 2 n = 52 := by omega
      have hlower : leadingBit ≤ n * 2 ^ (52 - Nat.log 2 n) := by
        calc leadingBit = 2 ^ Nat.log 2 n * 2 ^ (52 - Nat.log 2 n) := by
              rw [← Nat.pow_add, Nat.add_comm, hsplit]; rfl
          _ ≤ n * 2 ^ (52 - Nat.log 2 n) :=
              Nat.mul_le_mul_right _ (Nat.pow_log_le_self 2 (by omega))
      have hupper : n * 2 ^ (52 - Nat.log 2 n) < mantissaLimit := by
        calc n * 2 ^ (52 - Nat.log 2 n)
            < 2 ^ (Nat.log 2 n + 1) * 2 ^ (52 - Nat.log 2 n) :=
              Nat.mul_lt_mul_of_pos_right (Nat.lt_pow_succ_log_self (by decide) n) (Nat.two_pow_pos _)
          _ = mantissaLimit := by
              rw [← Nat.pow_add, show Nat.log 2 n + 1 + (52 - Nat.log 2 n) = 53 by omega]; rfl
      refine ⟨⟨false, n * 2 ^ (52 - Nat.log 2 n), Nat.log 2 n + 1022, hupper, by omega, .inl hlower⟩,
        rfl, ?_⟩
      have hexponent : 1074 = 52 - Nat.log 2 n + (Nat.log 2 n + 1022) := by omega
      rw [Double.steps_eq, Nat.mul_assoc, stepsPerUnit_eq, hexponent,
        Nat.pow_add 2 (52 - Nat.log 2 n) (Nat.log 2 n + 1022)]
  refine ⟨x, ?_, hsign, hsteps⟩
  have hround := ofRatio_steps x
  rw [hsign, hsteps] at hround
  exact hround

theorem toInt?_ofNat {n : Nat} (h : n < mantissaLimit) : (ofNat n).toInt? = some (n : Int) := by
  obtain ⟨x, hx, hsign, hsteps⟩ := ofNat_eq h
  have hunit : (stepsPerUnit : Int) ≠ 0 := Int.ofNat_ne_zero.mpr (Nat.ne_of_gt stepsPerUnit_pos)
  have htruncate : x.truncate = n := by
    simp only [Double.truncate, Double.value, hsign, hsteps, Bool.false_eq_true, if_false]
    rw [Int.natCast_mul, Int.mul_tdiv_cancel _ hunit]
  rw [hx, toInt?, hsteps, if_pos (Nat.mul_mod_left _ _), htruncate]

theorem less?_ofNat {k n : Nat} (hk : k < mantissaLimit) (hn : n < mantissaLimit) :
    (ofNat k).less? (ofNat n) = some (decide (k < n)) := by
  obtain ⟨x, hx, hxsign, hxsteps⟩ := ofNat_eq hk
  obtain ⟨y, hy, hysign, hysteps⟩ := ofNat_eq hn
  have hvalue : x.value < y.value ↔ k < n := by
    simp only [Double.value, hxsign, hysign, hxsteps, hysteps, Bool.false_eq_true, if_false]
    exact Int.ofNat_lt.trans (Nat.mul_lt_mul_right stepsPerUnit_pos)
  rw [hx, hy, less?]
  simp only [hvalue]

/-- A double is known by its sign and its steps. -/
theorem finite_eq {x y : Double} (hsign : x.negative = y.negative) (hsteps : x.steps = y.steps) :
    Number.finite x = .finite y := by
  rw [← ofRatio_steps x, hsign, hsteps, ofRatio_steps]

/-- What it means that a number denotes a whole number; only zero has both signs. -/
theorem toInt?_some {x : Number} {n : Nat} (h : x.toInt? = some (n : Int)) :
    ∃ y : Double, x = .finite y ∧ y.truncate = n ∧ y.steps = n * stepsPerUnit ∧
      (y.negative = true → n = 0) := by
  cases x with
  | nan => cases h
  | infinite negative => cases h
  | finite y =>
    have hunit : (stepsPerUnit : Int) ≠ 0 := Int.ofNat_ne_zero.mpr (Nat.ne_of_gt stepsPerUnit_pos)
    rw [toInt?] at h
    split at h
    · rename_i hwhole
      obtain ⟨k, hk⟩ := Nat.dvd_of_mod_eq_zero hwhole
      have htruncate : y.truncate = n := Option.some.inj h
      have hvalue : y.truncate = if y.negative then -(k : Int) else k := by
        unfold Double.truncate Double.value
        rw [hk, Nat.mul_comm, Int.natCast_mul]
        split
        · rw [Int.neg_tdiv, Int.mul_tdiv_cancel _ hunit]
        · rw [Int.mul_tdiv_cancel _ hunit]
      have hcases : k = n ∧ (y.negative = true → n = 0) := by
        rw [htruncate] at hvalue
        split at hvalue
        · omega
        · rename_i hsign
          exact ⟨by omega, fun h => absurd h hsign⟩
      exact ⟨y, rfl, htruncate, by rw [hk, hcases.1, Nat.mul_comm], hcases.2⟩
    · cases h

theorem toUint32_of_toInt? {x : Number} {n : Nat} (h : x.toInt? = some (n : Int))
    (hle : n ≤ maxArrayLength) : x.toUint32.toNat = n := by
  obtain ⟨y, rfl, htruncate, -⟩ := toInt?_some h
  have hlt : n < 2 ^ 32 := Nat.lt_succ_of_le hle
  change (UInt32.ofInt y.truncate).toNat = n
  have hword : ((n : Int) % 2 ^ 32).toNat = n := by omega
  rw [htruncate, UInt32.ofInt, hword, UInt32.toNat_ofNat_of_lt' hlt]

/-- A number equals its 32-bit residue exactly if it is a whole number of at most that many bits. -/
theorem equal_toUint32_iff {x : Number} :
    (ofNat x.toUint32.toNat).equal x = true ↔
      ∃ n : Nat, x.toInt? = some (n : Int) ∧ n ≤ maxArrayLength := by
  have hresidue : x.toUint32.toNat ≤ maxArrayLength := Nat.le_of_lt_succ (UInt32.toNat_lt _)
  constructor
  · intro h
    simp only [equal, sameValueZero, Bool.and_eq_true, Bool.or_eq_true, beq_iff_eq] at h
    rcases h.2 with hsame | ⟨-, hzero⟩
    · exact ⟨_, (congrArg toInt? hsame).symm.trans (toInt?_ofNat (lt_mantissaLimit hresidue)), hresidue⟩
    · refine ⟨0, ?_, Nat.zero_le _⟩
      cases x with
      | finite y =>
        have hmantissa : y.mantissa = 0 := eq_of_beq hzero
        have hsteps : y.steps = 0 := by rw [y.steps_eq, hmantissa, Nat.zero_mul]
        have hvalue : y.value = 0 := by
          unfold Double.value
          rw [hsteps]
          split <;> rfl
        rw [toInt?, hsteps, Nat.zero_mod, if_pos rfl, Double.truncate, hvalue, Int.zero_tdiv]
        rfl
      | _ => cases hzero
  · rintro ⟨n, hn, hle⟩
    rw [toUint32_of_toInt? hn hle]
    obtain ⟨z, hz, hzsign, hzsteps⟩ := ofNat_eq (lt_mantissaLimit hle)
    obtain ⟨y, rfl, -, hsteps, hsign⟩ := toInt?_some hn
    rw [hz]
    simp only [equal, sameValueZero, isNaN]
    cases hnegative : y.negative with
    | false => simp [finite_eq (hzsign.trans hnegative.symm) (hzsteps.trans hsteps.symm)]
    | true =>
      have hzero := hsign hnegative
      subst hzero
      simp [isZero, Double.eq_zero_of_steps (hzsteps.trans (Nat.zero_mul _)),
        Double.eq_zero_of_steps (hsteps.trans (Nat.zero_mul _))]

end Number

/-- Whole numbers reach each other as they do before rounding. -/
theorem ObjectId.reaches_ofNat {index n : Nat} (hi : index < mantissaLimit) (hn : n < mantissaLimit) :
    reaches index (.ofNat n) = decide (n ≤ index) := by
  rw [reaches, Number.less?_ofNat hi hn]
  by_cases h : index < n
  · simp [h]
  · simp [h, Nat.le_of_not_lt h]

end EcmaEval
