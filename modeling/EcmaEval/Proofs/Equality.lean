import EcmaEval.Proofs.Heap.Table
import EcmaEval.Proofs.Number
import EcmaEval.Proofs.Run

/-!
# Loose equality

The `==` operator goes down a ladder of conversions: each step answers, or converts one side and compares
again, and which side comes first depends on the types. The ladder ends for any two values with one answer,
which does not depend on the order of the values, changes nothing and throws nothing. It fails only where an
object would have to become a primitive value.
-/
namespace EcmaEval

namespace Number

theorem equal_comm (x y : Number) : x.equal y = y.equal x := by
  unfold equal sameValueZero
  rw [BEq.comm, Bool.and_comm x.isZero]
  cases x <;> cases y <;> simp [isNaN, isZero]

/-- What it means that a number denotes an integer. -/
theorem toInt?_eq_some {x : Number} {k : Int} :
    x.toInt? = some k ↔ ∃ y : Double, x = .finite y ∧ y.value = k * stepsPerUnit := by
  have hunit : (stepsPerUnit : Int) ≠ 0 := Int.ofNat_ne_zero.mpr (Nat.ne_of_gt stepsPerUnit_pos)
  cases x with
  | nan => exact ⟨nofun, fun ⟨_, h, _⟩ => nomatch h⟩
  | infinite negative => exact ⟨nofun, fun ⟨_, h, _⟩ => nomatch h⟩
  | finite y =>
    have hsteps : y.value.natAbs = y.steps := by
      unfold Double.value
      split <;> simp
    have hdvd : y.steps % stepsPerUnit = 0 ↔ (stepsPerUnit : Int) ∣ y.value := by
      rw [← hsteps, ← Nat.dvd_iff_mod_eq_zero, ← Int.ofNat_dvd_left]
    rw [toInt?]
    constructor
    · intro h
      split at h
      · rename_i hwhole
        have hk : y.value.tdiv stepsPerUnit = k := Option.some.inj h
        exact ⟨y, rfl, by rw [← hk, Int.tdiv_mul_cancel (hdvd.mp hwhole)]⟩
      · cases h
    · rintro ⟨_, hy, hvalue⟩
      cases hy
      rw [if_pos (hdvd.mpr (hvalue ▸ Int.dvd_mul_left _ _)), Double.truncate, hvalue, Int.mul_tdiv_cancel _ hunit]

end Number

namespace Value

/-- A primitive value other than undefined, null and the booleans. -/
def isScalar : Value → Bool
  | .number _ | .string _ | .symbol _ | .bigint _ => true
  | _ => false

def isBoolean : Value → Bool
  | .boolean _ => true
  | _ => false

/-- The steps of loose equality, with the answer they end in. A step applies where those before it do not. -/
inductive Compares : Value → Value → Except Fault Bool → Prop
  | sameType (h : x.typeName = y.typeName) : Compares x y (.ok (x.strictlyEqual y))
  | nullish (hx : x.isNullish = true) (hy : y.isNullish = true) : Compares x y (.ok true)
  | numberString (h : Compares (.number n) (.number t.toNumber) r) : Compares (.number n) (.string t) r
  | stringNumber (h : Compares (.number t.toNumber) (.number n) r) : Compares (.string t) (.number n) r
  | bigintString (ht : t.toInt? = some k) (h : Compares (.bigint b) (.bigint k) r) :
    Compares (.bigint b) (.string t) r
  | bigintText (ht : t.toInt? = none) : Compares (.bigint b) (.string t) (.ok false)
  | stringBigint (h : Compares (.bigint b) (.string t) r) : Compares (.string t) (.bigint b) r
  | boolean (hy : y.isBoolean = false) (h : Compares (.number (if b then .one else .zero)) y r) :
    Compares (.boolean b) y r
  | toBoolean (hx : x.isBoolean = false) (h : Compares x (.number (if b then .one else .zero)) r) :
    Compares x (.boolean b) r
  | toObject (hx : x.isScalar = true) : Compares x (.object o) (.error (.notImplemented .objectToPrimitive))
  | object (hy : y.isScalar = true) : Compares (.object o) y (.error (.notImplemented .objectToPrimitive))
  | bigintNumber : Compares (.bigint b) (.number n) (.ok (n.toInt? == some b))
  | numberBigint : Compares (.number n) (.bigint b) (.ok (n.toInt? == some b))
  | nullishOther (hx : x.isNullish = true) (hy : y.isScalar = true ∨ y.isObject = true) :
    Compares x y (.ok false)
  | otherNullish (hx : x.isScalar = true ∨ x.isObject = true) (hy : y.isNullish = true) :
    Compares x y (.ok false)
  | symbolOther (hy : y.isScalar = true) (h : y.typeName ≠ "Symbol") : Compares (.symbol s) y (.ok false)
  | otherSymbol (hx : x.isScalar = true) (h : x.typeName ≠ "Symbol") : Compares x (.symbol s) (.ok false)

variable {x y : Value} {r : Except Fault Bool}

theorem Compares.numbers (a b : Number) :
    Compares (.number a) (.number b) (.ok (strictlyEqual (.number a) (.number b))) :=
  .sameType rfl

theorem strictlyEqual_comm (x y : Value) : x.strictlyEqual y = y.strictlyEqual x := by
  cases x <;> cases y <;> simp only [strictlyEqual, sameNonNumber, Number.equal_comm, BEq.comm]

/-- The ladder goes down in the same way from both sides. -/
theorem Compares.symm (h : x.Compares y r) : y.Compares x r := by
  induction h with
  | @sameType x y h =>
    rw [strictlyEqual_comm x y]
    exact .sameType h.symm
  | nullish hx hy => exact .nullish hy hx
  | numberString h ih => exact .stringNumber ih
  | stringNumber h ih => exact .numberString ih
  | bigintString ht h => exact .stringBigint (.bigintString ht h)
  | bigintText ht => exact .stringBigint (.bigintText ht)
  | stringBigint h => exact h
  | boolean hy h ih => exact .toBoolean hy ih
  | toBoolean hx h ih => exact .boolean hx ih
  | toObject hx => exact .object hx
  | object hy => exact .toObject hy
  | bigintNumber => exact .numberBigint
  | numberBigint => exact .bigintNumber
  | nullishOther hx hy => exact .otherNullish hy hx
  | otherNullish hx hy => exact .nullishOther hy hx
  | symbolOther hy h => exact .otherSymbol hy h
  | otherSymbol hx h => exact .symbolOther hx h

theorem kind_cases (h : x.isReference = false) :
    x.isNullish = true ∨ x.isScalar = true ∨ (∃ o, x = .object o) ∨ ∃ b, x = .boolean b := by
  cases x <;> simp_all [isNullish, isScalar, isReference]

theorem not_boolean_of_nullish (h : x.isNullish = true) : x.isBoolean = false := by
  cases x <;> simp [isNullish] at h <;> rfl

theorem not_boolean_of_scalar (h : x.isScalar = true) : x.isBoolean = false := by
  cases x <;> simp [isScalar] at h <;> rfl

theorem exists_compares_text (b : Int) (t : Text) : ∃ r, Compares (.bigint b) (.string t) r := by
  cases ht : t.toInt? with
  | none => exact ⟨_, .bigintText ht⟩
  | some k => exact ⟨_, .bigintString ht (.sameType rfl)⟩

theorem exists_compares_of_scalar (hx : x.isScalar = true) (hy : y.isScalar = true) : ∃ r, x.Compares y r := by
  by_cases htype : x.typeName = y.typeName
  · exact ⟨_, .sameType htype⟩
  · cases x with
    | symbol s => exact ⟨_, .symbolOther hy (Ne.symm htype)⟩
    | number n =>
      cases y with
      | string t => exact ⟨_, .numberString (.sameType rfl)⟩
      | bigint b => exact ⟨_, .numberBigint⟩
      | symbol s => exact ⟨_, .otherSymbol rfl htype⟩
      | number _ => exact absurd rfl htype
      | _ => cases hy
    | string t =>
      cases y with
      | number n => exact ⟨_, .stringNumber (.sameType rfl)⟩
      | bigint b => exact (exists_compares_text b t).imp fun _ h => .stringBigint h
      | symbol s => exact ⟨_, .otherSymbol rfl htype⟩
      | string _ => exact absurd rfl htype
      | _ => cases hy
    | bigint b =>
      cases y with
      | number n => exact ⟨_, .bigintNumber⟩
      | string t => exact exists_compares_text b t
      | symbol s => exact ⟨_, .otherSymbol rfl htype⟩
      | bigint _ => exact absurd rfl htype
      | _ => cases hy
    | _ => cases hx

/-- A number meets every value but a reference. -/
theorem exists_compares_of_number (n : Number) (hy : y.isReference = false) :
    ∃ r, Compares (.number n) y r := by
  obtain hy | hy | ⟨o, rfl⟩ | ⟨b, rfl⟩ := kind_cases hy
  · exact ⟨_, .otherNullish (.inl rfl) hy⟩
  · exact exists_compares_of_scalar rfl hy
  · exact ⟨_, .toObject rfl⟩
  · exact ⟨_, .toBoolean rfl (.sameType rfl)⟩

theorem exists_compares (hx : x.isReference = false) (hy : y.isReference = false) : ∃ r, x.Compares y r := by
  have hboolean {b : Bool} {v : Value} (hv : v.isBoolean = false) (hv' : v.isReference = false) :
      ∃ r, Compares (.boolean b) v r :=
    (exists_compares_of_number _ hv').imp fun _ h => .boolean hv h
  obtain hx' | hx' | ⟨o, rfl⟩ | ⟨b, rfl⟩ := kind_cases hx
  · obtain hy' | hy' | ⟨p, rfl⟩ | ⟨c, rfl⟩ := kind_cases hy
    · exact ⟨_, .nullish hx' hy'⟩
    · exact ⟨_, .nullishOther hx' (.inl hy')⟩
    · exact ⟨_, .nullishOther hx' (.inr rfl)⟩
    · exact (hboolean (not_boolean_of_nullish hx') hx).imp fun _ h => h.symm
  · obtain hy' | hy' | ⟨p, rfl⟩ | ⟨c, rfl⟩ := kind_cases hy
    · exact ⟨_, .otherNullish (.inl hx') hy'⟩
    · exact exists_compares_of_scalar hx' hy'
    · exact ⟨_, .toObject hx'⟩
    · exact (hboolean (not_boolean_of_scalar hx') hx).imp fun _ h => h.symm
  · obtain hy' | hy' | ⟨p, rfl⟩ | ⟨c, rfl⟩ := kind_cases hy
    · exact ⟨_, .otherNullish (.inr rfl) hy'⟩
    · exact ⟨_, .object hy'⟩
    · exact ⟨_, .sameType rfl⟩
    · exact (hboolean rfl hx).imp fun _ h => h.symm
  · obtain hy' | hy' | ⟨p, rfl⟩ | ⟨c, rfl⟩ := kind_cases hy
    · exact hboolean (not_boolean_of_nullish hy') hy
    · exact hboolean (not_boolean_of_scalar hy') hy
    · exact hboolean rfl hy
    · exact ⟨_, .sameType rfl⟩

theorem looselyEqual_boolean (hy : y.isBoolean = false) :
    looselyEqual (.boolean b) y = looselyEqual (.number (if b then .one else .zero)) y := by
  cases y <;> simp [isBoolean] at hy <;> rfl

theorem looselyEqual_toBoolean (hx : x.isBoolean = false) :
    looselyEqual x (.boolean b) = looselyEqual x (.number (if b then .one else .zero)) := by
  cases x <;> simp [isBoolean] at hx <;> rfl

/-- The ladder ends in the answer of loose equality. -/
theorem Compares.looselyEqual (h : x.Compares y r) : x.looselyEqual y = r := by
  induction h with
  | @sameType x y h => cases x <;> cases y <;> simp [typeName] at h <;> rfl
  | @nullish x y hx hy => cases x <;> cases y <;> simp [isNullish] at hx hy <;> rfl
  | numberString h ih => exact ih
  | stringNumber h ih => exact ih
  | bigintString ht h ih =>
    rw [← ih]
    simp [Value.looselyEqual, looselyEqualNonBoolean, booleanToNumber, ht, strictlyEqual, sameNonNumber, eq_comm]
  | bigintText ht => simp [Value.looselyEqual, looselyEqualNonBoolean, booleanToNumber, ht]
  | stringBigint h ih => exact ih
  | boolean hy h ih => rw [looselyEqual_boolean hy, ih]
  | toBoolean hx h ih => rw [looselyEqual_toBoolean hx, ih]
  | @toObject x o hx => cases x <;> simp [isScalar] at hx <;> rfl
  | @object o y hy => cases y <;> simp [isScalar] at hy <;> rfl
  | bigintNumber => rfl
  | numberBigint => rfl
  | @nullishOther x y hx hy =>
    cases x <;> cases y <;> simp [isNullish, isScalar, isObject] at hx hy <;> rfl
  | @otherNullish x y hx hy =>
    cases x <;> cases y <;> simp [isNullish, isScalar, isObject] at hx hy <;> rfl
  | @symbolOther s y hy h => cases y <;> simp [isScalar, typeName] at hy h <;> rfl
  | @otherSymbol x s hx h => cases x <;> simp [isScalar, typeName] at hx h <;> rfl

theorem compares_iff (hx : x.isReference = false) (hy : y.isReference = false) :
    x.Compares y r ↔ x.looselyEqual y = r := by
  constructor
  · exact Compares.looselyEqual
  · rintro rfl
    obtain ⟨r, h⟩ := exists_compares hx hy
    exact h.looselyEqual ▸ h

/-- An object meets a value that only a primitive value could equal. -/
def needsPrimitive (x y : Value) : Bool :=
  x.isObject && (y.isBoolean || y.isScalar) || (x.isBoolean || x.isScalar) && y.isObject

theorem not_needsPrimitive_of_typeName (h : x.typeName = y.typeName) : x.needsPrimitive y = false := by
  cases x <;> cases y <;> simp [typeName] at h <;> rfl

/-- The ladder ends in an answer, unless an object would have to become a primitive value. -/
theorem Compares.ends (h : x.Compares y r) :
    if x.needsPrimitive y then r = .error (.notImplemented .objectToPrimitive) else ∃ b, r = .ok b := by
  induction h with
  | sameType h =>
    rw [if_neg (by simp [not_needsPrimitive_of_typeName h])]
    exact ⟨_, rfl⟩
  | @nullish x y hx hy => cases x <;> cases y <;> simp [isNullish] at hx hy <;> exact ⟨_, rfl⟩
  | numberString h ih => exact ih
  | stringNumber h ih => exact ih
  | bigintString ht h ih => exact ih
  | bigintText ht => exact ⟨_, rfl⟩
  | stringBigint h ih => exact ih
  | boolean hy h ih => exact ih
  | toBoolean hx h ih => simpa [needsPrimitive, isObject, isBoolean, isScalar] using ih
  | toObject hx => simp [needsPrimitive, isObject, hx]
  | object hy => simp [needsPrimitive, isObject, hy]
  | bigintNumber => exact ⟨_, rfl⟩
  | numberBigint => exact ⟨_, rfl⟩
  | @nullishOther x y hx hy =>
    cases x <;> simp [isNullish] at hx <;> simp [needsPrimitive, isObject, isBoolean, isScalar]
  | @otherNullish x y hx hy =>
    cases y <;> simp [isNullish] at hy <;> simp [needsPrimitive, isObject, isBoolean, isScalar]
  | @symbolOther s y hy h => cases y <;> simp [isScalar] at hy <;> exact ⟨_, rfl⟩
  | @otherSymbol x s hx h => cases x <;> simp [isScalar] at hx <;> exact ⟨_, rfl⟩

theorem looselyEqual_fails_iff (hx : x.isReference = false) (hy : y.isReference = false) :
    x.looselyEqual y = .error (.notImplemented .objectToPrimitive) ↔ x.needsPrimitive y = true := by
  obtain ⟨r, h⟩ := exists_compares hx hy
  have hends := h.ends
  rw [h.looselyEqual]
  cases hneeds : x.needsPrimitive y with
  | true => simpa [hneeds] using hends
  | false =>
    rw [hneeds] at hends
    obtain ⟨b, rfl⟩ := hends
    simp

theorem looselyEqual_answers (hx : x.isReference = false) (hy : y.isReference = false)
    (h : x.needsPrimitive y = false) : ∃ b, x.looselyEqual y = .ok b := by
  obtain ⟨r, hr⟩ := exists_compares hx hy
  have hends := hr.ends
  rw [h] at hends
  rwa [hr.looselyEqual]

theorem applyLooselyEqual_ok {b : Bool} (h : x.looselyEqual y = .ok b) (m : Machine) :
    (applyLooselyEqual x y).run m = .ok b m := by
  simp only [applyLooselyEqual, h]
  rfl

theorem applyLooselyEqual_error {f : Fault} (h : x.looselyEqual y = .error f) (m : Machine) :
    (applyLooselyEqual x y).run m = .error (.fault f) m := by
  simp only [applyLooselyEqual, h]
  rfl

theorem bigint_looselyEqual_number (b : Int) (n : Number) :
    looselyEqual (.bigint b) (.number n) = .ok true ↔
      ∃ d : Double, n = .finite d ∧ d.value = b * stepsPerUnit := by
  rw [Compares.bigintNumber.looselyEqual, ← Number.toInt?_eq_some]
  simp

/-- **Loose equality is total, pure and symmetric.** For values that are not references the ladder ends, and in
one way only. On every machine the operator answers what the ladder ends in and leaves the machine as it was;
it throws nothing, and it fails exactly if an object would have to become a primitive value. Values of one type
are compared strictly, and an integer equals the numbers that denote it. -/
theorem looselyEqual_total (x y : Value) (hx : x.isReference = false) (hy : y.isReference = false) :
    (∀ r, x.Compares y r ↔ x.looselyEqual y = r) ∧
      (∀ m, (∃ b, x.looselyEqual y = .ok b ∧ (applyLooselyEqual x y).run m = .ok b m) ∨
        x.looselyEqual y = .error (.notImplemented .objectToPrimitive) ∧
          (applyLooselyEqual x y).run m = .error (.fault (.notImplemented .objectToPrimitive)) m) ∧
      (∀ m, (applyLooselyEqual x y).run m = (applyLooselyEqual y x).run m) ∧
      (x.looselyEqual y = .error (.notImplemented .objectToPrimitive) ↔
        x.isObject = true ∧ (y.isBoolean = true ∨ y.isScalar = true) ∨
          (x.isBoolean = true ∨ x.isScalar = true) ∧ y.isObject = true) ∧
      (x.typeName = y.typeName → x.looselyEqual y = .ok (x.strictlyEqual y)) ∧
      ∀ b n, x = .bigint b ∧ y = .number n ∨ x = .number n ∧ y = .bigint b →
        (x.looselyEqual y = .ok true ↔ ∃ d : Double, n = .finite d ∧ d.value = b * stepsPerUnit) := by
  have hcomm : x.looselyEqual y = y.looselyEqual x := by
    obtain ⟨r, h⟩ := exists_compares hx hy
    rw [h.looselyEqual, h.symm.looselyEqual]
  refine ⟨fun r => compares_iff hx hy, fun m => ?_, fun m => ?_, ?_,
    fun h => (Compares.sameType h).looselyEqual, ?_⟩
  · cases hneeds : x.needsPrimitive y with
    | false =>
      obtain ⟨b, hb⟩ := looselyEqual_answers hx hy hneeds
      exact .inl ⟨b, hb, applyLooselyEqual_ok hb m⟩
    | true =>
      have hfails := (looselyEqual_fails_iff hx hy).mpr hneeds
      exact .inr ⟨hfails, applyLooselyEqual_error hfails m⟩
  · unfold applyLooselyEqual
    rw [hcomm]
  · rw [looselyEqual_fails_iff hx hy]
    simp [needsPrimitive]
  · rintro b n (⟨rfl, rfl⟩ | ⟨rfl, rfl⟩)
    · exact bigint_looselyEqual_number b n
    · rw [hcomm]
      exact bigint_looselyEqual_number b n

/-- True meets the text `0x1` as the number one, from either side. -/
theorem looselyEqual_total_boolean_text :
    (boolean true).isReference = false ∧ (ofString "0x1").isReference = false ∧
      ∀ m : Machine, (applyLooselyEqual (boolean true) (ofString "0x1")).run m = .ok true m ∧
        (applyLooselyEqual (ofString "0x1") (boolean true)).run m = .ok true m := by
  have hequal : strictlyEqual (.number .one) (.number (Text.ofString "0x1").toNumber) = true := by decide +kernel
  have hnumbers : Compares (.number .one) (.number (Text.ofString "0x1").toNumber) (.ok true) :=
    hequal ▸ Compares.numbers _ _
  have hladder : Compares (boolean true) (ofString "0x1") (.ok true) := by
    refine .boolean rfl ?_
    rw [if_pos rfl]
    exact hnumbers.numberString
  obtain ⟨hanswer, -, hcomm, -⟩ := looselyEqual_total (boolean true) (ofString "0x1") rfl rfl
  refine ⟨rfl, rfl, fun m => ?_⟩
  rw [← hcomm m, and_self]
  exact applyLooselyEqual_ok ((hanswer _).mp hladder) m

end Value

end EcmaEval
