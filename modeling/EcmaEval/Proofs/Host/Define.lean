import EcmaEval.Proofs.Heap.Create
import EcmaEval.Proofs.Host.Alias
import EcmaEval.Proofs.Host.Array

/-!
# Definitions as a host sees them

What is defined is what is reported, and a refusal changes nothing. The one definition that may change
something and still be refused is that of a lower length of an array: it cuts the array off right above
the last index that cannot be removed.
-/
namespace EcmaEval

variable {m m' : Machine} {o : ObjectId} {obj : Object} {key : Key} {d : Descriptor}

/-- An array has one length. -/
theorem Object.Spans.unique {n n' : Nat} {writable writable' : Bool} (h : obj.Spans n writable)
    (h' : obj.Spans n' writable') : n = n' ∧ writable = writable' := by
  have hlength := h.length.symm.trans h'.length
  simp only [Option.some.injEq, Descriptor.data.injEq, Value.number.injEq] at hlength
  have hn : some (n : Int) = some (n' : Int) := by
    rw [← Number.toInt?_ofNat (lt_mantissaLimit h.le), ← Number.toInt?_ofNat (lt_mantissaLimit h'.le),
      hlength.1]
  exact ⟨Int.ofNat.inj (Option.some.inj hn), hlength.2.1⟩

/-- An array that is updated reports what is stored. -/
theorem ObjectId.getOwnProperty_updateObject (ho : m.object? o = some obj) {f : Object → Object}
    (harray : (f obj).isArray = true) (key : Key) :
    o.getOwnProperty key (m.updateObject o f) = .ok ((f obj).properties.get? key) :=
  getOwnProperty_eq_stored (Machine.object?_updateObject_self ho f)
    (Object.parameter?_of_isArray harray key)

/-- An own index from `n` on whose property cannot be removed. -/
def Machine.PinsFrom (m : Machine) (o : ObjectId) (n i : Nat) : Prop :=
  n ≤ i ∧ ∃ key d, key.arrayIndex? = some i ∧ o.getOwnProperty key m = .ok (some d) ∧
    d.configurable = false

/-- The indices of an array from `n` on are gone, its length is `n`, and nothing else is changed. -/
structure Machine.CutsOff (m m' : Machine) (o : ObjectId) (n : Nat) (writable : Bool) : Prop where
  length : o.getOwnProperty .length m' =
    .ok (some (.data (.number (.ofNat n)) writable false false))
  below : ∀ key i, key.arrayIndex? = some i → i < n →
    o.getOwnProperty key m' = o.getOwnProperty key m
  past : ∀ key i, key.arrayIndex? = some i → n ≤ i → o.getOwnProperty key m' = .ok none
  named : ∀ key, key.arrayIndex? = none → ¬(key == .length) = true →
    o.getOwnProperty key m' = o.getOwnProperty key m
  itself : ∀ obj, m.object? o = some obj → ∃ properties, m'.object? o = some { obj with properties }
  others : ∀ p, p ≠ o → m'.object? p = m.object? p
  rest : m' = { m with objects := m'.objects }

theorem Machine.cutsOff (ho : m.object? o = some obj) (harray : obj.isArray = true) (n : Nat)
    (writable : Bool) :
    m.CutsOff (m.updateObject o fun x => (x.cut n).setLength n writable) o n writable := by
  have hreport (key : Key) := ObjectId.getOwnProperty_updateObject ho
    (f := fun x => (x.cut n).setLength n writable) harray key
  have hstored (key : Key) := ObjectId.getOwnProperty_eq_stored ho
    (Object.parameter?_of_isArray harray key)
  have hindex {key : Key} {i : Nat} (hi : key.arrayIndex? = some i) : ¬(Key.length == key) = true := by
    intro hbeq
    rw [← Key.arrayIndex?_congr hbeq] at hi
    cases hi
  refine ⟨?_, ?_, ?_, ?_, ?_, ?_, rfl⟩
  · rw [hreport, Object.setLength_get?, if_pos BEq.rfl]
  · intro key i hi hlt
    rw [hreport, hstored, Object.setLength_get?, if_neg (hindex hi), Object.cut_get?, hi]
    simp [hlt]
  · intro key i hi hle
    rw [hreport, Object.setLength_get?, if_neg (hindex hi), Object.cut_get?, hi]
    simp [Nat.not_lt.mpr hle]
  · intro key hi hkey
    rw [hreport, hstored, Object.setLength_get?, if_neg (fun h => hkey (BEq.symm h)), Object.cut_get?, hi]
    rfl
  · intro obj' ho'
    rw [ho] at ho'
    cases ho'
    exact ⟨_, Machine.object?_updateObject_self ho _⟩
  · intro p hp
    rw [Machine.object?_updateObject, if_neg hp]

theorem Object.pins_iff (ho : m.object? o = some obj) (harray : obj.isArray = true) (n i : Nat) :
    m.PinsFrom o n i ↔ n ≤ i ∧ obj.Pins i := by
  unfold Machine.PinsFrom Object.Pins
  simp only [ObjectId.getOwnProperty_eq_stored ho (Object.parameter?_of_isArray harray _),
    Except.ok.injEq]

theorem ObjectId.define_length (ho : m.object? o = some obj) (harray : obj.isArray = true)
    (d : Descriptor) : o.define .length d m = o.defineLength d m := by
  unfold define
  rw [bind_ok (lift_ok (mappedParameter_eq ho)), Object.parameter?_of_isArray harray]
  dsimp only
  rw [bind_ok (lift_ok (load_eq ho)), harray]
  rfl

/-- **Truncation of an array.** A lower length of an array whose length is writable cuts it off there
if every index from there on can be removed, and the definition is made. Otherwise it is refused, and
the array is cut off right above the last index that cannot be removed. A value that stands for no
length of an array changes nothing that is there. -/
theorem define_length_cuts_off (ho : m.object? o = some obj) (harray : obj.kind = .array) :
    (∀ length n v writable, obj.Spans length true → v.ConvertsTo m n → n < length →
      ((∀ i, ¬ m.PinsFrom o n i) →
        ∃ m', o.define .length (.data v writable false false) m = .ok true m' ∧
          m.CutsOff m' o n writable) ∧
      ∀ last, m.PinsFrom o n last → (∀ i, m.PinsFrom o n i → i ≤ last) →
        ∃ m', o.define .length (.data v writable false false) m = .ok false m' ∧
          m.CutsOff m' o (last + 1) writable) ∧
    ∀ v writable enumerable configurable, (∀ n, ¬ v.ConvertsTo m n) →
      ∃ e m', o.define .length (.data v writable enumerable configurable) m = .error e m' ∧
        m.Allocates m' := by
  have hisArray : obj.isArray = true := by rw [Object.isArray, harray]
  have hpins := Object.pins_iff ho hisArray
  simp only [ObjectId.define_length ho hisArray, hpins]
  constructor
  · intro length n v writable hobj hv hlt
    obtain ⟨result, hstops, hrun⟩ := ObjectId.lowerLength_eq ho hisArray hobj n writable
    have hdefine : o.defineLength (.data v writable false false) m = _ :=
      (ObjectId.defineLength_eq ho hobj hv writable false false).trans
        ((congrFun (if_neg (Nat.not_le.mpr hlt)) m).trans hrun)
    have hcuts := Machine.cutsOff ho hisArray (Object.cutoff n result) writable
    constructor
    · intro hnone
      cases result with
      | none => exact ⟨_, hdefine, hcuts⟩
      | some last => exact absurd ⟨hstops.1, hstops.2.1⟩ (hnone last)
    · intro last hlast hgreatest
      cases result with
      | none => exact absurd hlast.2 (hstops last hlast.1)
      | some last' =>
        have hle : last' ≤ last := hgreatest last' ⟨hstops.1, hstops.2.1⟩
        have hge : last ≤ last' := Nat.le_of_not_lt fun h => hstops.2.2 last h hlast.2
        cases Nat.le_antisymm hle hge
        exact ⟨_, hdefine, hcuts⟩
  · intro v writable enumerable configurable hv
    obtain ⟨e, m', hrun, hcomplains⟩ :=
      ObjectId.defineLength_fails (o := o) hv writable enumerable configurable
    exact ⟨e, m', hrun, hcomplains.allocates⟩

/-- Of three elements the middle one cannot be removed, so the array keeps it and the one below. -/
theorem define_length_cuts_off_pinned :
    let empty : Object := { prototype := none, kind := .array }
    let below := (empty.setLength 3 true).insert (.ofIndex 0) (.plain .null)
    let array := (below.insert (.ofIndex 1) (.data .null true true false)).insert (.ofIndex 2)
      (.plain .null)
    let m := ({} : Machine).pushObject array
    ∃ m', ObjectId.define ⟨0⟩ .length (.data (.number (.ofNat 0)) false false false) m = .ok false m' ∧
      m.CutsOff m' ⟨0⟩ 2 false := by
  intro empty below array m
  have ho : m.object? ⟨0⟩ = some array := rfl
  have hempty : empty.Indexed (· < 3) := fun key i hkey hi => by cases hkey
  have hindex (i : Nat) (hi : i < 3) :
      ¬(Key.ofIndex i == .length) = true ∧ ∀ j, (Key.ofIndex i).arrayIndex? = some j → j < 3 := by
    have hkey : (Key.ofIndex i).arrayIndex? = some i ∧ (Key.ofIndex i == .length) = false := by
      obtain rfl | rfl | rfl : i = 0 ∨ i = 1 ∨ i = 2 := by omega
      all_goals decide +kernel
    refine ⟨by simp [hkey.2], fun j hj => ?_⟩
    rw [hkey.1] at hj
    cases hj
    exact hi
  have hspans : array.Spans 3 true :=
    (((Object.spans_setLength (by decide) hempty true).insert (hindex 0 (by omega)).1
      (hindex 0 (by omega)).2 _).insert (hindex 1 (by omega)).1 (hindex 1 (by omega)).2 _).insert
        (hindex 2 (by omega)).1 (hindex 2 (by omega)).2 _
  have hconverts : (Value.number (.ofNat 0)).ConvertsTo m 0 :=
    ⟨Nat.zero_le _, .ofNat 0, rfl, Number.toInt?_ofNat (by decide)⟩
  have hone : array.Pins 1 := by
    refine ⟨.ofIndex 1, .data .null true true false, by decide +kernel, ?_, rfl⟩
    rw [Object.insert_get?, if_neg (by decide +kernel), Object.insert_get?, if_pos BEq.rfl]
  have hgreatest (i : Nat) (hi : array.Pins i) : i ≤ 1 := by
    have hlt : i < 3 := hi.indexed hspans.below
    obtain ⟨key, d, hkey, hget, hd⟩ := hi
    by_contra hgt
    obtain rfl : i = 2 := by omega
    rw [(Key.arrayIndex?_some hkey).1, Object.insert_get?, if_pos BEq.rfl] at hget
    cases hget
    cases hd
  have hpins := Object.pins_iff ho rfl 0
  obtain ⟨hcut, -⟩ := define_length_cuts_off ho rfl
  exact (hcut 3 0 _ false hspans hconverts (by omega)).2 1 ((hpins 1).mpr ⟨by omega, hone⟩)
    fun i hi => hgreatest i ((hpins i).mp hi).2

/-- An array of a length. -/
def Machine.HasLength (m : Machine) (o : ObjectId) (n : Nat) (writable : Bool) : Prop :=
  ∃ obj, m.object? o = some obj ∧ obj.kind = .array ∧ obj.Spans n writable

/-- The key is the index `i` of an array, at or past its length. -/
def Machine.Exceeds (m : Machine) (o : ObjectId) (key : Key) (i : Nat) (writable : Bool) : Prop :=
  ∃ length, m.HasLength o length writable ∧ key.arrayIndex? = some i ∧ length ≤ i

/-- The definition is that of a length `n` below the length of an array. -/
def Machine.Lowers (m : Machine) (o : ObjectId) (key : Key) (d : Descriptor) (n : Nat) : Prop :=
  (key == .length) = true ∧ ∃ length writable v, m.HasLength o length writable ∧ d.value? = some v ∧
    v.ConvertsTo m n ∧ n < length

/-- A descriptor has been defined under a key. -/
structure Machine.Defines (m m' : Machine) (o : ObjectId) (key : Key) (d : Descriptor) : Prop where
  property : ¬(m.IsArray o ∧ (key == .length) = true) → o.getOwnProperty key m' = .ok (some d)
  /-- The length of an array is the number that the value stands for. -/
  length : m.IsArray o → (key == .length) = true →
    ∃ v writable enumerable configurable n, d = .data v writable enumerable configurable ∧
      v.ConvertsTo m n ∧ o.getOwnProperty key m' =
        .ok (some (.data (.number (.ofNat n)) writable enumerable configurable))
  siblings : ∀ k, ¬(key == k) = true →
    (∀ i writable, m.Exceeds o key i writable → ¬(k == .length) = true) →
    (∀ n i, m.Lowers o key d n → k.arrayIndex? = some i → i < n) →
    o.getOwnProperty k m' = o.getOwnProperty k m
  exceeding : ∀ i writable, m.Exceeds o key i writable → o.getOwnProperty .length m' =
    .ok (some (.data (.number (.ofNat (i + 1))) writable false false))
  lowering : ∀ n k i, m.Lowers o key d n → k.arrayIndex? = some i → n ≤ i →
    o.getOwnProperty k m' = .ok none
  itself : o.getPrototype m' = o.getPrototype m ∧ o.isExtensible m' = o.isExtensible m
  others : ∀ p, p ≠ o → m'.object? p = m.object? p
  /-- Only the parameter that the key stands for is written. -/
  environments : ∀ env, m'.env? env = m.env? env ∨
    ∃ name v r, o.mappedParameter key m = .ok (some (env, name)) ∧ d.value? = some v ∧
      m.env? env = some (.declarative r) ∧ m'.env? env = some (.declarative (r.put name v))

theorem Machine.HasLength.spans (ho : m.object? o = some obj) {n : Nat} {writable : Bool}
    (h : m.HasLength o n writable) : obj.isArray = true ∧ obj.Spans n writable := by
  obtain ⟨obj', ho', hkind, hobj⟩ := h
  rw [ho] at ho'
  cases ho'
  exact ⟨by rw [Object.isArray, hkind], hobj⟩

theorem Machine.IsArray.isArray (ho : m.object? o = some obj) (h : m.IsArray o) :
    obj.isArray = true := by
  obtain ⟨obj', ho', hkind⟩ := h
  rw [ho] at ho'
  cases ho'
  rw [Object.isArray, hkind]

theorem Machine.Exceeds.index {i : Nat} {writable : Bool} (h : m.Exceeds o key i writable) :
    ¬(key == .length) = true := by
  obtain ⟨length, -, hi, -⟩ := h
  intro hbeq
  rw [Key.arrayIndex?_congr hbeq] at hi
  cases hi

theorem Object.unmap_parameter? (obj : Object) (key k : Key) :
    (obj.unmap key).parameter? k = if key == k then none else obj.parameter? k := by
  unfold parameter?
  rw [unmap_parameterMap?]
  cases obj.parameterMap? with
  | none => simp
  | some map =>
    by_cases hk : (key == k) = true
    · simp [ParameterMap.get?_erase, hk]
    · simp [ParameterMap.get?_erase, hk]

namespace ObjectId

variable {f : Object → Object}

/-- A key reports the same after an update that touches neither its property nor its tie. -/
theorem getOwnProperty_update (ho : m.object? o = some obj)
    (hstored : (f obj).properties.get? key = obj.properties.get? key)
    (hparameter : (f obj).parameter? key = obj.parameter? key) :
    o.getOwnProperty key (m.updateObject o f) = o.getOwnProperty key m := by
  have ho' := Machine.object?_updateObject_self ho f
  have hvalue : o.mappedValue key (m.updateObject o f) = o.mappedValue key m := by
    unfold mappedValue
    rw [Query.bind_ok (mappedParameter_eq ho'), Query.bind_ok (mappedParameter_eq ho), hparameter]
    cases obj.parameter? key with
    | none => rfl
    | some p =>
      obtain ⟨env, name⟩ := p
      have hload : env.load (m.updateObject o f) = env.load m := rfl
      dsimp only
      cases he : env.load m with
      | error e => rw [Query.bind_error he, Query.bind_error (hload.trans he)]
      | ok e =>
        rw [Query.bind_ok he, Query.bind_ok (hload.trans he)]
        cases e <;> rfl
  unfold getOwnProperty
  rw [Query.bind_ok (load_eq ho'), Query.bind_ok (load_eq ho), hstored]
  cases hmapped : o.mappedValue key m with
  | error e => rw [Query.bind_error hmapped, Query.bind_error (hvalue.trans hmapped)]
  | ok v =>
    rw [Query.bind_ok hmapped, Query.bind_ok (hvalue.trans hmapped)]
    cases obj.properties.get? key with
    | none => rfl
    | some d => cases d <;> cases v <;> rfl

/-- A write to a parameter does not show at a key that stands for another one. -/
theorem getOwnProperty_storeEnv {env : EnvId} {name : String} {r : DeclarativeRecord} (v : Value)
    (ho : m.object? o = some obj) (he : m.env? env = some (.declarative r))
    (hother : ∀ env' name', obj.parameter? key = some (env', name') → env' = env ∧ name' ≠ name) :
    o.getOwnProperty key (m.storeEnv env (.declarative (r.put name v))) = o.getOwnProperty key m := by
  have he' := Machine.env?_storeEnv_self he (.declarative (r.put name v))
  have ho' : (m.storeEnv env (.declarative (r.put name v))).object? o = some obj := ho
  unfold getOwnProperty
  rw [Query.bind_ok (load_eq ho'), Query.bind_ok (load_eq ho)]
  cases hkey : obj.parameter? key with
  | none =>
    rw [Query.bind_ok (mappedValue_eq_none ho' hkey), Query.bind_ok (mappedValue_eq_none ho hkey)]
    cases obj.properties.get? key with
    | none => rfl
    | some d => cases d <;> rfl
  | some p =>
    obtain ⟨env', name'⟩ := p
    obtain ⟨rfl, hname⟩ := hother env' name' hkey
    have hget : (r.put name v).get? name' = r.get? name' := by
      rw [DeclarativeRecord.get?_put]
      simp [hname]
    rw [Query.bind_ok (mappedValue_eq ho' hkey he'), Query.bind_ok (mappedValue_eq ho hkey he), hget]
    cases obj.properties.get? key with
    | none => rfl
    | some d => cases d <;> cases (r.get? name').bind (·.value) <;> rfl

end ObjectId

namespace Machine.Defines

/-- What an update of one object leaves alone. -/
theorem frame (ho : m.object? o = some obj) {f : Object → Object}
    (hf : (f obj).prototype = obj.prototype ∧ (f obj).extensible = obj.extensible) :
    (o.getPrototype (m.updateObject o f) = o.getPrototype m ∧
      o.isExtensible (m.updateObject o f) = o.isExtensible m) ∧
    ∀ p, p ≠ o → (m.updateObject o f).object? p = m.object? p := by
  have ho' := object?_updateObject_self ho f
  refine ⟨⟨?_, ?_⟩, fun p hp => ?_⟩
  · rw [ObjectId.getPrototype_eq ho', ObjectId.getPrototype_eq ho, hf.1]
  · rw [ObjectId.isExtensible_eq ho', ObjectId.isExtensible_eq ho, hf.2]
  · rw [object?_updateObject, if_neg hp]

/-- A property that nothing is tied to. -/
theorem stored (ho : m.object? o = some obj) (hfree : obj.parameter? key = none)
    (harray : obj.isArray = true → ¬(key == .length) = true ∧
      ∃ n writable, obj.Spans n writable ∧ ∀ i, key.arrayIndex? = some i → i < n) :
    m.Defines (m.updateObject o (·.insert key d)) o key d := by
  have hexceeds (i : Nat) (writable : Bool) : ¬ m.Exceeds o key i writable := by
    rintro ⟨length, hlength, hi, hle⟩
    obtain ⟨hisArray, hobj⟩ := hlength.spans ho
    obtain ⟨-, n, w, hobj', hbelow⟩ := harray hisArray
    have hlt := hbelow i hi
    have := (hobj.unique hobj').1
    omega
  have hlowers (n : Nat) : ¬ m.Lowers o key d n := by
    rintro ⟨hkey, length, writable, v, hlength, -⟩
    exact (harray (hlength.spans ho).1).1 hkey
  obtain ⟨hitself, hothers⟩ := frame ho (f := (·.insert key d)) ⟨rfl, rfl⟩
  refine ⟨fun _ => ?_, fun hisArray hkey => ?_, fun k hk _ _ => ?_, ?_, ?_, hitself, hothers,
    fun env => .inl rfl⟩
  · rw [ObjectId.getOwnProperty_eq_stored (object?_updateObject_self ho _) hfree, Object.insert_get?,
      if_pos BEq.rfl]
  · exact absurd hkey (harray (hisArray.isArray ho)).1
  · exact ObjectId.getOwnProperty_update ho (by rw [Object.insert_get?, if_neg hk]) rfl
  · exact fun i writable h => absurd h (hexceeds i writable)
  · exact fun n k i h => absurd h (hlowers n)

/-- An index past the length of an array. -/
theorem extended {length i : Nat} (ho : m.object? o = some obj) (harray : obj.isArray = true)
    (hobj : obj.Spans length true) (hindex : key.arrayIndex? = some i) (hle : length ≤ i) :
    m.Defines (m.updateObject o fun x => (x.insert key d).setLength (i + 1) true) o key d := by
  have hkey : ¬(key == .length) = true := by
    intro hbeq
    rw [Key.arrayIndex?_congr hbeq] at hindex
    cases hindex
  have hreport (k : Key) := ObjectId.getOwnProperty_updateObject ho
    (f := fun x => (x.insert key d).setLength (i + 1) true) harray k
  have hexceeds : m.Exceeds o key i true :=
    ⟨length, ⟨obj, ho, Object.kind_of_isArray harray, hobj⟩, hindex, hle⟩
  obtain ⟨hitself, hothers⟩ := frame ho (f := fun x => (x.insert key d).setLength (i + 1) true) ⟨rfl, rfl⟩
  refine ⟨fun _ => ?_, fun _ h => absurd h hkey, fun k hk hlength _ => ?_, fun j writable h => ?_, ?_,
    hitself, hothers, fun env => .inl rfl⟩
  · rw [hreport, Object.setLength_get?, if_neg (fun h => hkey (BEq.symm h)), Object.insert_get?,
      if_pos BEq.rfl]
  · have hlength := hlength i true hexceeds
    rw [hreport, Object.setLength_get?, if_neg (fun h => hlength (BEq.symm h)), Object.insert_get?,
      if_neg hk, ObjectId.getOwnProperty_eq_stored ho (Object.parameter?_of_isArray harray k)]
  · obtain ⟨length', hlength', hj, -⟩ := h
    rw [hindex] at hj
    cases hj
    rw [hreport, Object.setLength_get?, if_pos BEq.rfl, (hobj.unique (hlength'.spans ho).2).2]
  · rintro n k j ⟨h, -⟩
    exact absurd h hkey

/-- The length of an array, from which on there are no indices. -/
theorem resized {length n : Nat} {v : Value} {writable newWritable : Bool} (ho : m.object? o = some obj)
    (harray : obj.isArray = true) (hkey : (key == .length) = true) (hobj : obj.Spans length writable)
    (hv : v.ConvertsTo m n) {f : Object → Object}
    (hf : f obj = (obj.cut n).setLength n newWritable) :
    m.Defines (m.updateObject o f) o key (.data v newWritable false false) := by
  have hreport (k : Key) : o.getOwnProperty k (m.updateObject o f) =
      .ok ((f obj).properties.get? k) :=
    ObjectId.getOwnProperty_updateObject ho (by rw [hf]; exact harray) k
  have hown (k : Key) := ObjectId.getOwnProperty_eq_stored ho (Object.parameter?_of_isArray harray k)
  obtain ⟨hitself, hothers⟩ := frame ho (f := f) (by rw [hf]; exact ⟨rfl, rfl⟩)
  have hisArray : m.IsArray o := ⟨obj, ho, Object.kind_of_isArray harray⟩
  refine ⟨fun h => absurd ⟨hisArray, hkey⟩ h, fun _ _ => ?_, fun k hk _ hlowers => ?_, ?_, ?_, hitself,
    hothers, fun env => .inl rfl⟩
  · refine ⟨v, newWritable, false, false, n, rfl, hv, ?_⟩
    rw [hreport, hf, Object.setLength_get?, if_pos (BEq.symm hkey)]
  · have hlength : ¬(Key.length == k) = true := fun h => hk (BEq.trans hkey h)
    rw [hreport, hf, hown, Object.setLength_get?, if_neg hlength, Object.cut_get?]
    cases hi : k.arrayIndex? with
    | none => rfl
    | some i =>
      by_cases hlt : i < n
      · simp [hlt]
      · -- an index from `n` on is there only if the length is lowered
        have hgone : obj.properties.get? k = none := by
          by_contra hsome
          have hbelow := hobj.below k i (Option.isSome_iff_ne_none.mpr hsome) hi
          have hlowered : m.Lowers o key (.data v newWritable false false) n :=
            ⟨hkey, length, writable, v, ⟨obj, ho, Object.kind_of_isArray harray, hobj⟩, rfl, hv, by omega⟩
          exact hlt (hlowers n i hlowered hi)
        simp [hgone]
  · intro i w h
    exact absurd hkey h.index
  · rintro n' k i ⟨-, length', w, v', hlength', hvalue, hv', hlt⟩ hi hle
    cases hvalue
    cases hv.unique hv'
    have hlength : ¬(Key.length == k) = true := by
      intro h
      rw [← Key.arrayIndex?_congr h] at hi
      cases hi
    rw [hreport, hf, Object.setLength_get?, if_neg hlength, Object.cut_get?, hi]
    simp [Nat.not_lt.mpr hle]

/-- A key that stands for a parameter. -/
theorem mapped {env : EnvId} {name : String} {r : DeclarativeRecord} {x : Binding}
    (ho : m.object? o = some obj) (hdistinct : m.Distinct)
    (hkey : obj.parameter? key = some (env, name)) (he : m.env? env = some (.declarative r))
    (hx : r.get? name = some x) : m.Defines (m.redefine o key d env r name) o key d := by
  obtain ⟨map, hmap, rfl, hname⟩ := Object.parameter?_some hkey
  have harray := Object.isArray_of_parameterMap? hmap
  have hno : ¬ m.IsArray o := fun h => by simp [h.isArray ho] at harray
  have hexceeds (i : Nat) (writable : Bool) : ¬ m.Exceeds o key i writable := by
    rintro ⟨length, hlength, -⟩
    simp [(hlength.spans ho).1] at harray
  have hlowers (n : Nat) : ¬ m.Lowers o key d n := by
    rintro ⟨-, length, writable, v, hlength, -⟩
    simp [(hlength.spans ho).1] at harray
  have hother (k : Key) (hk : ¬(key == k) = true) (env' : EnvId) (name' : String)
      (hk' : obj.parameter? k = some (env', name')) : env' = map.env ∧ name' ≠ name := by
    obtain ⟨map', hmap', rfl, hname'⟩ := Object.parameter?_some hk'
    rw [hmap] at hmap'
    cases hmap'
    refine ⟨rfl, ?_⟩
    rintro rfl
    exact hk (hdistinct o obj map ho hmap key k name' hname hname')
  -- the descriptor is stored and the tie is cut
  have hcut {m₁ : Machine} (ho₁ : m₁.object? o = some obj) :
      o.getOwnProperty key (m₁.updateObject o fun x => (x.insert key d).unmap key) = .ok (some d) ∧
      ∀ k, ¬(key == k) = true →
        o.getOwnProperty k (m₁.updateObject o fun x => (x.insert key d).unmap key) =
          o.getOwnProperty k m₁ := by
    constructor
    · rw [ObjectId.getOwnProperty_eq_stored (object?_updateObject_self ho₁ _)
        ((Object.unmap_parameter? _ _ _).trans (if_pos BEq.rfl)), Object.unmap_properties,
        Object.insert_get?, if_pos BEq.rfl]
    · intro k hk
      refine ObjectId.getOwnProperty_update ho₁ ?_ ((Object.unmap_parameter? _ _ _).trans (if_neg hk))
      rw [Object.unmap_properties, Object.insert_get?, if_neg hk]
  cases d with
  | accessor get set enumerable configurable =>
    obtain ⟨hproperty, hsiblings⟩ := hcut ho
    obtain ⟨hitself, hothers⟩ := frame ho
      (f := fun x => (x.insert key (.accessor get set enumerable configurable)).unmap key) (by simp)
    exact ⟨fun _ => hproperty, fun h => absurd h hno, fun k hk _ _ => hsiblings k hk,
      fun i writable h => absurd h (hexceeds i writable), fun n k i h => absurd h (hlowers n), hitself,
      hothers, fun env => .inl rfl⟩
  | data v writable enumerable configurable =>
    let d : Descriptor := .data v writable enumerable configurable
    let m₁ := m.storeEnv map.env (.declarative (r.put name v))
    have ho₁ : m₁.object? o = some obj := ho
    have he₁ : m₁.env? map.env = some (.declarative (r.put name v)) := env?_storeEnv_self he _
    obtain ⟨hproperty, hsiblings⟩ : o.getOwnProperty key (m.redefine o key d map.env r name) =
          .ok (some d) ∧
        ∀ k, ¬(key == k) = true →
          o.getOwnProperty k (m.redefine o key d map.env r name) = o.getOwnProperty k m₁ := by
      cases writable with
      | false => exact hcut ho₁
      | true =>
        have hstored : (obj.insert key d).properties.get? key = some d :=
          (Object.insert_get? _ _ _ _).trans (if_pos BEq.rfl)
        refine ⟨?_, fun k hk => ?_⟩
        · exact ObjectId.getOwnProperty_eq_mapped (object?_updateObject_self ho₁ _) hkey he₁
            (DeclarativeRecord.get?_put_self hx v) rfl hstored
        · exact ObjectId.getOwnProperty_update ho₁ ((Object.insert_get? _ _ _ _).trans (if_neg hk)) rfl
    obtain ⟨hitself, hothers⟩ := frame ho₁ (f := fun x =>
      if writable then x.insert key d else (x.insert key d).unmap key) (by split <;> simp)
    refine ⟨fun _ => hproperty, fun h => absurd h hno, fun k hk _ _ => ?_,
      fun i writable h => absurd h (hexceeds i writable), fun n k i h => absurd h (hlowers n), hitself,
      hothers, fun env => ?_⟩
    · exact (hsiblings k hk).trans (ObjectId.getOwnProperty_storeEnv v ho he (hother k hk))
    · by_cases henv : env = map.env
      · subst henv
        exact .inr ⟨name, v, r, (ObjectId.mappedParameter_eq ho).trans (congrArg _ hkey), rfl, he, he₁⟩
      · exact .inl ((env?_storeEnv _ _ _ _ he).trans (if_neg henv))

end Machine.Defines

/-- What is left after each answer to a definition. -/
def Machine.AfterDefine (m : Machine) (o : ObjectId) (key : Key) (d : Descriptor) :
    EStateM.Result Abrupt Machine Bool → Prop
  | .ok true m' => m.Defines m' o key d
  | .ok false m' => (∀ n, ¬ m.Lowers o key d n) → m' = m
  | .error _ m' => m.Allocates m'

theorem DefineEnd.changes {result : EStateM.Result Abrupt Machine Bool}
    (h : DefineEnd m o obj key d result) (ho : m.object? o = some obj) (hdistinct : m.Distinct) :
    m.AfterDefine o key d result := by
  cases h with
  | refused => exact fun _ => rfl
  | failed hcomplains => exact hcomplains.allocates
  | stored hfree harray => exact Machine.Defines.stored ho hfree harray
  | extended harray hobj hindex hle => exact Machine.Defines.extended ho harray hobj hindex hle
  | @raised length writable v newWritable n harray hkey hobj hd hv hle =>
    subst hd
    have hkept : obj.cut n = obj :=
      Object.cut_of_indexed (hobj.below.imp fun i hi => Nat.lt_of_lt_of_le hi hle)
    exact Machine.Defines.resized ho harray hkey hobj hv (by rw [hkept])
  | @lowered length v newWritable n result harray hkey hobj hd hv hlt hstops =>
    subst hd
    cases result with
    | none => exact Machine.Defines.resized ho harray hkey hobj hv rfl
    | some last =>
      intro hlowers
      exact absurd ⟨hkey, length, true, v, ⟨obj, ho, Object.kind_of_isArray harray, hobj⟩, rfl, hv, hlt⟩
        (hlowers n)
  | mapped hkey he hx hmutable hcurrent => exact Machine.Defines.mapped ho hdistinct hkey he hx

theorem Contract.Reachable.distinct {g : Contract} (hopen : g.Open) (h : g.Reachable m) :
    m.Distinct := by
  obtain ⟨limit, h⟩ := h
  refine Steps.distinct (h.steps hopen (g.sound_new limit)) fun o obj map ho => ?_
  cases ho

/-- **Definition of a property.** A definition that is made is what the object reports from then on,
and it changes nothing else but the parameter behind a mapped key, the length of an array that gets an
index past it, and the indices of an array that gets a lower length. A definition that is refused
changes nothing unless it is that of a lower length, and one that fails adds an object at most. -/
theorem reachable_define_reports (h : Contract.checks.Reachable m) (o : ObjectId) (key : Key)
    (d : Descriptor) :
    (∀ m', o.define key d m = .ok true m' → m.Defines m' o key d) ∧
    (∀ m', o.define key d m = .ok false m' → (∀ n, ¬ m.Lowers o key d n) → m' = m) ∧
    ∀ e m', o.define key d m = .error e m' → m.Allocates m' := by
  have hafter : m.AfterDefine o key d (o.define key d m) := by
    cases ho : m.object? o with
    | none =>
      obtain ⟨e, hrun⟩ := ObjectId.define_eq_error ho key d
      rw [hrun]
      exact Machine.Allocates.refl m
    | some obj =>
      have hends := ObjectId.define_ends trivial (h.sound Contract.checks_open)
        (h.orderly Contract.checks_open trivial) ho key d
      exact hends.changes ho (h.distinct Contract.checks_open)
  refine ⟨fun m' hrun => ?_, fun m' hrun => ?_, fun e m' hrun => ?_⟩
  · rw [hrun] at hafter
    exact hafter
  · rw [hrun] at hafter
    exact hafter
  · rw [hrun] at hafter
    exact hafter

/-- The argument of a call is redefined on the arguments object, and stays tied to its parameter. -/
theorem reachable_define_reports_argument :
    let f : FunctionCode := ⟨some "f", .normal, [.identifier "a"], .block [], false, false⟩
    let m₁ := Operation.newRealm.run.after {}
    let m₂ := (Operation.pushScriptContext ⟨0⟩ false).run.after m₁
    let m₃ := (Operation.evaluate 4 (.script [.function f])).run.after m₂
    let m₄ := (Operation.call 4 (.object ⟨14⟩) .undefined [.null]).run.after m₃
    ∃ m₅, ObjectId.define ⟨16⟩ (.ofIndex 0) (.data (.boolean true) true false true) m₄ = .ok true m₅ ∧
      m₄.Defines m₅ ⟨16⟩ (.ofIndex 0) (.data (.boolean true) true false true) := by
  intro f m₁ m₂ m₃ m₄
  have h₄ : Contract.checks.Reachable m₄ := Contract.reachable_call.1
  have hmade := Eval.eq_ok_after (x := ObjectId.define ⟨16⟩ (.ofIndex 0) (.data (.boolean true) true false true))
    (m := m₄) (a := true) (by decide +kernel)
  obtain ⟨hdefines, -, -⟩ :=
    reachable_define_reports h₄ ⟨16⟩ (.ofIndex 0) (.data (.boolean true) true false true)
  exact ⟨_, hmade, hdefines _ hmade⟩

end EcmaEval
