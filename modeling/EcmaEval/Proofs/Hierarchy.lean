import EcmaEval.Proofs.Equality

/-!
# The hierarchy of the equalities

Three equalities of values agree on all values but NaN and the two zeros. `Value.same` is the finest: it
tells the zeros apart, and no equality tells apart what it relates. `Value.sameZero` is the coarsest: it
identifies the zeros, and NaN with itself. `Value.strictlyEqual` leaves NaN out of that, and so compares
numbers by what they denote.
-/
namespace EcmaEval

namespace Double

theorem value_of_mantissa {x : Double} (h : x.mantissa = 0) : x.value = 0 := by
  simp [value, steps_eq, h]

/-- Different doubles have different values, the zeros apart. -/
theorem value_eq_iff {x y : Double} :
    x.value = y.value ↔ x = y ∨ x.mantissa = 0 ∧ y.mantissa = 0 := by
  constructor
  · intro h
    have hcases : x.negative = y.negative ∧ x.steps = y.steps ∨ x.steps = 0 ∧ y.steps = 0 := by
      unfold value at h
      cases hx : x.negative <;> cases hy : y.negative <;> simp [hx, hy] at h ⊢ <;> omega
    rcases hcases with ⟨hsign, hsteps⟩ | ⟨hx, hy⟩
    · exact .inl (Number.finite.inj (Number.finite_eq hsign hsteps))
    · exact .inr ⟨eq_zero_of_steps hx, eq_zero_of_steps hy⟩
  · rintro (rfl | ⟨hx, hy⟩)
    · rfl
    · rw [value_of_mantissa hx, value_of_mantissa hy]

end Double

namespace Number

variable {a b : Number}

/-- Two numbers denote the same: one infinity, or one finite value. NaN denotes nothing. -/
def Agrees : Number → Number → Prop
  | .infinite n, .infinite k => n = k
  | .finite x, .finite y => x.value = y.value
  | _, _ => False

theorem equal_iff_agrees : a.equal b = true ↔ a.Agrees b := by
  cases a with
  | nan => exact ⟨nofun, nofun⟩
  | infinite n => cases b <;> simp [equal, sameValueZero, isNaN, isZero, Agrees]
  | finite x =>
    cases b with
    | finite y =>
      rw [Agrees, Double.value_eq_iff]
      simp [equal, sameValueZero, isNaN, isZero]
    | _ => simp [equal, sameValueZero, isNaN, isZero, Agrees]

theorem signedZero_eq (negative : Bool) :
    signedZero negative = .finite ⟨negative, 0, 0, by decide⟩ := rfl

theorem isZero_iff : a.isZero = true ↔ ∃ negative, a = signedZero negative := by
  constructor
  · intro h
    cases a with
    | finite x =>
      obtain ⟨negative, mantissa, shift, hcanonical⟩ := x
      obtain rfl : mantissa = 0 := eq_of_beq h
      obtain rfl : shift = 0 := hcanonical.2.2.resolve_left (by decide)
      exact ⟨negative, (signedZero_eq negative).symm⟩
    | _ => cases h
  · rintro ⟨negative, rfl⟩
    rw [signedZero_eq]
    rfl

theorem signedZero_inj {s t : Bool} : signedZero s = signedZero t ↔ s = t := by
  simp [signedZero_eq]

/-- The equality that identifies the zeros identifies nothing else. -/
theorem sameValueZero_iff : a.sameValueZero b = true ↔
    a = b ∨ ∃ negative, a = signedZero negative ∧ b = signedZero !negative := by
  simp only [sameValueZero, Bool.or_eq_true, beq_iff_eq, Bool.and_eq_true, isZero_iff]
  constructor
  · rintro (h | ⟨⟨s, rfl⟩, t, rfl⟩)
    · exact .inl h
    · by_cases hst : t = s
      · exact .inl (by rw [hst])
      · exact .inr ⟨s, rfl, by rw [Bool.eq_not_of_ne hst]⟩
  · rintro (h | ⟨s, ha, hb⟩)
    · exact .inl h
    · exact .inr ⟨⟨s, ha⟩, !s, hb⟩

end Number

namespace Value

variable {x y z : Value}

theorem same_comm (x y : Value) : x.same y = y.same x := by
  cases x <;> cases y <;> simp only [same, sameNonNumber, BEq.comm]

theorem same_symm (h : x.same y = true) : y.same x = true := (same_comm y x).trans h

/-- A number is the same as itself only. -/
theorem same_number_iff {b : Number} : x.same (.number b) = true ↔ x = .number b := by
  cases x <;> simp [same, sameNonNumber]

theorem same_congr (h : x.same y = true) (z : Value) : x.same z = y.same z :=
  Bool.eq_iff_iff.mpr ⟨same_trans (same_symm h), same_trans h⟩

/-- The two zeros, in either order. -/
def OppositeZeros (x y : Value) : Prop :=
  ∃ negative, x = .number (.signedZero negative) ∧ y = .number (.signedZero !negative)

theorem OppositeZeros.symm (h : x.OppositeZeros y) : y.OppositeZeros x := by
  obtain ⟨negative, hx, hy⟩ := h
  exact ⟨!negative, hy, by rw [Bool.not_not, hx]⟩

theorem OppositeZeros.not_same (h : x.OppositeZeros y) : x.same y = false := by
  obtain ⟨negative, rfl, rfl⟩ := h
  simp [same, Number.signedZero_inj]

/-- The coarsest equality relates the zeros beyond what the finest does. -/
theorem sameZero_iff : x.sameZero y = true ↔ x.same y = true ∨ x.OppositeZeros y := by
  cases x with
  | number a =>
    cases y with
    | number b => simp [sameZero, same, OppositeZeros, Number.sameValueZero_iff]
    | _ => simp [sameZero, same, OppositeZeros]
  | _ => simp [sameZero, same, OppositeZeros]

theorem sameZero_of_same (h : x.same y = true) : x.sameZero y = true := by
  rw [sameZero_iff]
  exact .inl h

theorem same_ne_sameZero_iff : x.same y ≠ x.sameZero y ↔ x.OppositeZeros y := by
  constructor
  · intro hne
    cases hsame : x.same y with
    | true => exact absurd (hsame.trans (sameZero_of_same hsame).symm) hne
    | false =>
      have hzero : x.sameZero y = true := by simpa [hsame] using hne
      rw [sameZero_iff] at hzero
      exact hzero.resolve_left (by simp [hsame])
  · intro hzeros
    have hzero : x.sameZero y = true := by
      rw [sameZero_iff]
      exact .inr hzeros
    rw [hzeros.not_same, hzero]
    exact Bool.false_ne_true

theorem sameZero_comm (x y : Value) : x.sameZero y = y.sameZero x := by
  rw [Bool.eq_iff_iff, sameZero_iff, sameZero_iff, same_comm x y]
  exact or_congr_right ⟨.symm, .symm⟩

theorem sameZero_trans (h₁ : x.sameZero y = true) (h₂ : y.sameZero z = true) : x.sameZero z = true := by
  rcases Iff.mp sameZero_iff h₁ with hxy | ⟨s, rfl, rfl⟩
  · rcases Iff.mp sameZero_iff h₂ with hyz | ⟨t, rfl, rfl⟩
    · exact sameZero_of_same (same_trans hxy hyz)
    · rw [same_number_iff] at hxy
      rwa [hxy]
  · rcases Iff.mp sameZero_iff h₂ with hyz | ⟨t, hy, rfl⟩
    · have hzy := same_symm hyz
      rw [same_number_iff] at hzy
      rwa [hzy]
    · -- from a zero to the other one and back
      have hst := number.inj hy
      rw [Number.signedZero_inj] at hst
      rw [← hst, Bool.not_not]
      exact sameZero_of_same (same_refl rfl)

theorem sameZero_congr (h : x.sameZero y = true) (z : Value) : x.sameZero z = y.sameZero z :=
  Bool.eq_iff_iff.mpr ⟨sameZero_trans ((sameZero_comm y x).trans h), sameZero_trans h⟩

/-- Values of different types are not even related by the coarsest equality. -/
theorem typeName_eq_of_sameZero (h : x.sameZero y = true) : x.typeName = y.typeName := by
  cases x <;> cases y <;> simp [sameZero, sameNonNumber] at h <;> rfl

/-- Strict equality is the coarsest equality without NaN. -/
theorem strictlyEqual_iff : x.strictlyEqual y = true ↔ x.sameZero y = true ∧ x ≠ .number .nan := by
  cases x with
  | number a =>
    cases y with
    | number b => cases a <;> simp [strictlyEqual, sameZero, Number.equal, Number.isNaN]
    | _ => simp [strictlyEqual, sameZero, sameNonNumber]
  | _ => simp [strictlyEqual, sameZero]

theorem strictlyEqual_congr (h : x.same y = true) (z : Value) : x.strictlyEqual z = y.strictlyEqual z := by
  have hnan : x = .number .nan ↔ y = .number .nan := by
    rw [← same_number_iff, ← same_number_iff, same_congr h]
  rw [Bool.eq_iff_iff, strictlyEqual_iff, strictlyEqual_iff, sameZero_congr (sameZero_of_same h), Ne, hnan]

/-- The equalities of values. -/
def equalities : List (Value → Value → Bool) := [same, sameZero, strictlyEqual]

variable {equality : Value → Value → Bool}

theorem mem_equalities :
    equality ∈ equalities ↔ equality = same ∨ equality = sameZero ∨ equality = strictlyEqual := by
  simp [equalities]

/-- No equality tells two values apart, on either side. -/
def Exchangeable (x y : Value) : Prop :=
  ∀ equality ∈ equalities, ∀ z, equality x z = equality y z ∧ equality z x = equality z y

theorem equality_comm (h : equality ∈ equalities) (x y : Value) : equality x y = equality y x := by
  obtain rfl | rfl | rfl := Iff.mp mem_equalities h
  · exact same_comm x y
  · exact sameZero_comm x y
  · exact strictlyEqual_comm x y

theorem sameZero_of_equality (h : equality ∈ equalities) (hxy : equality x y = true) :
    x.sameZero y = true := by
  obtain rfl | rfl | rfl := Iff.mp mem_equalities h
  · exact sameZero_of_same hxy
  · exact hxy
  · exact (Iff.mp strictlyEqual_iff hxy).1

theorem equality_of_typeName_ne (h : equality ∈ equalities) (htype : x.typeName ≠ y.typeName) :
    equality x y = false :=
  Bool.eq_false_iff.mpr fun hxy => htype (typeName_eq_of_sameZero (sameZero_of_equality h hxy))

/-- What is the same can be exchanged. -/
theorem Exchangeable.of_same (h : x.same y = true) : x.Exchangeable y := by
  intro equality hequality z
  have hleft : equality x z = equality y z := by
    obtain rfl | rfl | rfl := Iff.mp mem_equalities hequality
    · exact same_congr h z
    · exact sameZero_congr (sameZero_of_same h) z
    · exact strictlyEqual_congr h z
  exact ⟨hleft, by rw [equality_comm hequality z x, hleft, equality_comm hequality y z]⟩

/-- Nothing else can be exchanged. -/
theorem same_iff_exchangeable (hx : x.isReference = false) : x.same y = true ↔ x.Exchangeable y := by
  refine ⟨.of_same, fun h => ?_⟩
  rw [← (h same List.mem_cons_self x).2]
  exact same_refl hx

/-- A value that is no reference. -/
abbrev Plain := { v : Value // v.isReference = false }

theorem same_equivalence : Equivalence fun x y : Plain => x.val.same y.val = true where
  refl x := same_refl x.property
  symm := same_symm
  trans := same_trans

theorem sameZero_equivalence : Equivalence fun x y : Plain => x.val.sameZero y.val = true where
  refl x := sameZero_of_same (same_refl x.property)
  symm {x y} h := (sameZero_comm y.val x.val).trans h
  trans := sameZero_trans

end Value

end EcmaEval
