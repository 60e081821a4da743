import EcmaEval.Proofs.Hierarchy
import EcmaEval.Proofs.Host.Define

/-!
# Frozen properties

A data property that is neither writable nor configurable takes another value only if that is the same as
its own. A definition that gives it such a value does nothing but replace the one by the other, and no
equality can tell that it has.
-/
namespace EcmaEval

variable {g : Contract} {m m' : Machine} {o : ObjectId} {obj : Object} {key : Key} {v w : Value}
  {enumerable configurable : Bool}

theorem Descriptor.mayBecome_of_same (hsame : v.same w = true) (extensible : Bool) :
    mayBecome (some (.data v false enumerable false)) extensible (.data w false enumerable false) = true := by
  simp [mayBecome, Descriptor.configurable, Descriptor.enumerable, hsame]

theorem Key.eq_length_of_beq (h : (key == .length) = true) : key = .length := by
  cases key with
  | string t => exact congrArg Key.string (eq_of_beq h)
  | symbol s => cases h

/-- A read-only property is tied to no parameter. -/
theorem Contract.Sound.parameter?_of_readOnly (hg : g.guarded) (hm : g.Sound m)
    (ho : m.object? o = some obj)
    (hget : obj.properties.get? key = some (.data v false enumerable configurable)) :
    obj.parameter? key = none := by
  cases hkey : obj.parameter? key with
  | none => rfl
  | some p =>
    obtain ⟨env, name⟩ := p
    obtain ⟨map, hmap, rfl, hname⟩ := Object.parameter?_some hkey
    obtain ⟨-, v', enumerable', configurable', hstored⟩ :=
      hm.aliases hg o obj ho map key name hmap hname
    rw [hget] at hstored
    cases hstored

/-- A read-only property is reported exactly if it is stored. -/
theorem ObjectId.getOwnProperty_readOnly_iff (hg : g.guarded) (hm : g.Sound m) :
    o.getOwnProperty key m = .ok (some (.data v false enumerable configurable)) ↔
      ∃ obj, m.object? o = some obj ∧
        obj.properties.get? key = some (.data v false enumerable configurable) := by
  constructor
  · intro hown
    obtain ⟨obj, ho, -⟩ := exists_object_of_ok hown
    refine ⟨obj, ho, ?_⟩
    obtain ⟨-, hnone⟩ | ⟨d, r, hd, hr, hreported⟩ := getOwnProperty_reports hg hm ho key
    · rw [hnone] at hown
      cases hown
    · rw [hr] at hown
      cases hown
      cases hreported
      exact hd
  · rintro ⟨obj, ho, hget⟩
    rw [getOwnProperty_eq_stored ho (hm.parameter?_of_readOnly hg ho hget), hget]

namespace ObjectId

/-- An index below the length of an array is stored as any other key. -/
theorem defineIndex_below {n i : Nat} {writable : Bool} {d : Descriptor} (ho : m.object? o = some obj)
    (hobj : obj.Spans n writable) (hlt : i < n) (hstore : o.defineOrdinary key d m = .ok true m') :
    o.defineIndex i key d m = .ok true m' := by
  have hlimit : n < mantissaLimit := lt_mantissaLimit hobj.le
  have hreaches : reaches i (.ofNat n) = false := by
    rw [reaches_ofNat (Nat.lt_trans hlt hlimit) hlimit, decide_eq_false (Nat.not_le.mpr hlt)]
  unfold defineIndex
  rw [bind_ok (lift_ok (arrayLength_eq ho hobj))]
  dsimp only
  rw [hreaches, Bool.false_and, if_neg Bool.false_ne_true, bind_ok hstore]
  rfl

/-- The length that an array has already is stored as any other key. -/
theorem define_length_again {n : Nat} {writable : Bool} (ho : m.object? o = some obj)
    (harray : obj.isArray = true) (hobj : obj.Spans n writable) (newWritable : Bool) :
    o.define .length (.data (.number (.ofNat n)) newWritable enumerable configurable) m =
      o.defineOrdinary .length (.data (.number (.ofNat n)) newWritable enumerable configurable) m := by
  have hconverts : (Value.number (.ofNat n)).ConvertsTo m n :=
    ⟨hobj.le, .ofNat n, rfl, Number.toInt?_ofNat (lt_mantissaLimit hobj.le)⟩
  rw [define_length ho harray, defineLength_eq ho hobj hconverts, if_pos (Nat.le_refl n)]

/-- A frozen property takes a value that is the same, and nothing else happens. -/
theorem define_frozen (hg : g.guarded) (hm : g.Sound m) (horderly : m.Orderly)
    (ho : m.object? o = some obj)
    (hget : obj.properties.get? key = some (.data v false enumerable false)) (hsame : v.same w = true) :
    o.define key (.data w false enumerable false) m =
      .ok true (m.updateObject o (·.insert key (.data w false enumerable false))) := by
  have hfree := hm.parameter?_of_readOnly hg ho hget
  have hstore : o.defineOrdinary key (.data w false enumerable false) m =
      .ok true (m.updateObject o (·.insert key (.data w false enumerable false))) := by
    rw [defineOrdinary_eq ho hfree, hget, if_pos (Descriptor.mayBecome_of_same hsame _)]
  cases harray : obj.isArray with
  | false => rw [define_eq ho hfree harray, hget, if_pos (Descriptor.mayBecome_of_same hsame _)]
  | true =>
    obtain ⟨n, writable, hobj⟩ := horderly o obj ho harray
    by_cases hlength : (key == .length) = true
    · -- the length is a number, which is the same as itself only
      obtain rfl := Key.eq_length_of_beq hlength
      rw [hobj.length] at hget
      cases hget
      obtain rfl := Value.same_number_iff.mp (Value.same_symm hsame)
      rw [define_length_again ho harray hobj, hstore]
    · unfold define
      rw [bind_ok (lift_ok (mappedParameter_eq ho)), hfree]
      dsimp only
      rw [bind_ok (lift_ok (load_eq ho)), harray, if_neg (by simp), if_neg hlength]
      cases hindex : key.arrayIndex? with
      | none => exact hstore
      | some i => exact defineIndex_below ho hobj (hobj.below key i (by rw [hget]; rfl) hindex) hstore

end ObjectId

/-- A frozen property stays one, with a value that is the same. -/
theorem Contract.Leads.keeps_frozen (hopen : g.Open) (hg : g.guarded) (hplain : g.plain)
    (hm : g.Sound m) (h : g.Leads m m')
    (hown : o.getOwnProperty key m = .ok (some (.data v false enumerable false))) :
    ∃ w, o.getOwnProperty key m' = .ok (some (.data w false enumerable false)) ∧ v.same w = true := by
  have hm' : g.Sound m' := Steps.sound (h.steps hopen hm) hm
  obtain ⟨obj, ho, hget⟩ := (ObjectId.getOwnProperty_readOnly_iff hg hm).mp hown
  obtain ⟨obj', ho', hkeeps⟩ := h.keeps hopen hg hm ho
  obtain ⟨d, hd, hstays⟩ := hkeeps.fixed hplain key _ hget rfl
  cases d with
  | accessor => exact hstays.elim
  | data w writable enumerable' configurable =>
    obtain ⟨rfl, rfl, hvalue⟩ := hstays
    obtain ⟨rfl, hsame⟩ := hvalue rfl
    exact ⟨w, (ObjectId.getOwnProperty_readOnly_iff hg hm').mpr ⟨obj', ho', hd⟩, hsame⟩

/-- **The hierarchy of the equalities.** On values that are no references `same` and `sameZero` are
equivalences. They differ on the two zeros only, which `sameZero` identifies; `strictlyEqual` is `sameZero`
without NaN, and so tells of numbers whether they denote the same. Values of different types are related by
none of the three. What is the same, and nothing else, can be exchanged without any of them telling. That is
why a host may define a frozen property once more with a value that is the same: the value is replaced and
nothing else happens. And whatever a host does, the property keeps a value that can be exchanged with the one
it had. -/
theorem equalities_form_hierarchy :
    (Equivalence fun x y : Value.Plain => x.val.same y.val = true) ∧
    (Equivalence fun x y : Value.Plain => x.val.sameZero y.val = true) ∧
    (∀ x y : Value, (x.same y = true → x.sameZero y = true) ∧
      (x.same y ≠ x.sameZero y ↔ x.OppositeZeros y) ∧
      (x.strictlyEqual y = true ↔ x.sameZero y = true ∧ x ≠ .number .nan) ∧
      (∀ a b, x = .number a → y = .number b → (x.strictlyEqual y = true ↔ a.Agrees b)) ∧
      (x.typeName ≠ y.typeName → ∀ equality ∈ Value.equalities, equality x y = false) ∧
      (x.isReference = false → (x.same y = true ↔ x.Exchangeable y))) ∧
    ∀ (m : Machine) (o : ObjectId) (key : Key) (v : Value) (enumerable : Bool),
      Contract.values.Reachable m →
      o.getOwnProperty key m = .ok (some (.data v false enumerable false)) →
      (∀ w, v.same w = true → v.Exchangeable w ∧
        o.define key (.data w false enumerable false) m =
          .ok true (m.updateObject o (·.insert key (.data w false enumerable false)))) ∧
      ∀ m', Contract.values.Leads m m' → ∃ w, v.Exchangeable w ∧
        o.getOwnProperty key m' = .ok (some (.data w false enumerable false)) := by
  refine ⟨Value.same_equivalence, Value.sameZero_equivalence, fun x y => ?_,
    fun m o key v enumerable hreach hown => ?_⟩
  · refine ⟨Value.sameZero_of_same, Value.same_ne_sameZero_iff, Value.strictlyEqual_iff, ?_,
      fun htype equality hequality => Value.equality_of_typeName_ne hequality htype,
      Value.same_iff_exchangeable⟩
    rintro a b rfl rfl
    exact Number.equal_iff_agrees
  · have hm := hreach.sound Contract.values_open
    have horderly := hreach.orderly Contract.values_open trivial
    constructor
    · intro w hsame
      obtain ⟨obj, ho, hget⟩ := (ObjectId.getOwnProperty_readOnly_iff trivial hm).mp hown
      exact ⟨.of_same hsame, ObjectId.define_frozen trivial hm horderly ho hget hsame⟩
    · intro m' hleads
      obtain ⟨w, hown', hsame⟩ := hleads.keeps_frozen Contract.values_open trivial trivial hm hown
      exact ⟨w, .of_same hsame, hown'⟩

/-- The zeros are apart for the finest equality alone. A frozen symbol is replaced by itself under another
description. -/
theorem equalities_form_hierarchy_symbol :
    let zero : Value := .number (.signedZero false)
    let minusZero : Value := .number (.signedZero true)
    let v : Value := .symbol ⟨1, none⟩
    let w : Value := .symbol ⟨1, some (.ofString "again")⟩
    let m₁ := (Operation.newObject none).run.after {}
    let m₂ := (Operation.define ⟨0⟩ (.name "x") (.frozen v)).run.after m₁
    let m₃ := (Operation.define ⟨0⟩ (.name "x") (.frozen w)).run.after m₂
    (minusZero.same zero ≠ minusZero.sameZero zero) ∧
      (v.isReference = false ∧ v.same w = true ∧ v.Exchangeable w) ∧
      ObjectId.getOwnProperty ⟨0⟩ (.name "x") m₂ = .ok (some (.frozen v)) ∧
      ObjectId.define ⟨0⟩ (.name "x") (.frozen w) m₂ =
        .ok true (m₂.updateObject ⟨0⟩ (·.insert (.name "x") (.frozen w))) ∧
      ∃ u, v.Exchangeable u ∧ ObjectId.getOwnProperty ⟨0⟩ (.name "x") m₃ = .ok (some (.frozen u)) := by
  intro zero minusZero v w m₁ m₂ m₃
  have ho₁ : ObjectId.Within m₁.bounds ⟨0⟩ := by decide +kernel
  have ho₂ : ObjectId.Within m₂.bounds ⟨0⟩ := by decide +kernel
  have hreach : Contract.values.Reachable m₂ :=
    ((Contract.Reachable.new _).perform (.newObject none) (fun p hp => by cases hp)).perform
      (.define ⟨0⟩ (.name "x") (.frozen v)) ⟨ho₁, trivial, fun _ => rfl⟩
  have hnext : Contract.values.Leads m₂ m₃ :=
    .single (Contract.performs (.define ⟨0⟩ (.name "x") (.frozen w)) ⟨ho₂, trivial, fun _ => rfl⟩)
  have hown : ObjectId.getOwnProperty ⟨0⟩ (.name "x") m₂ = .ok (some (.frozen v)) := by rfl
  obtain ⟨-, -, hrelations, hfrozen⟩ := equalities_form_hierarchy
  obtain ⟨-, hdiffer, -⟩ := hrelations minusZero zero
  obtain ⟨hreplace, hkeep⟩ := hfrozen m₂ ⟨0⟩ (.name "x") v false hreach hown
  obtain ⟨hexchange, hdefine⟩ := hreplace w rfl
  exact ⟨hdiffer.mpr ⟨true, rfl, rfl⟩, ⟨rfl, rfl, hexchange⟩, hown, hdefine, hkeep m₃ hnext⟩

end EcmaEval
