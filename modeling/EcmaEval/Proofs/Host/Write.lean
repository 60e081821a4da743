import EcmaEval.Proofs.Heap.Write
import EcmaEval.Proofs.Host.Define

/-!
# Writing properties as a host sees it

A write along a prototype chain touches its receiver only. It is refused or it is the definition of the
value on the receiver, and a write that is made is what the receiver reports.
-/
namespace EcmaEval

variable {m m' : Machine} {o receiver : ObjectId} {obj : Object} {key : Key} {v : Value}
  {own found : Option Descriptor}

/-- The object has taken a value under a key: the length of an array the number that the value stands
for, any other property the value itself. -/
def Machine.Takes (m m' : Machine) (o : ObjectId) (key : Key) (v : Value) : Prop :=
  ∃ w enumerable configurable, o.getOwnProperty key m' = .ok (some (.data w true enumerable configurable)) ∧
    (¬(m.IsArray o ∧ (key == .length) = true) → w = v) ∧
    (m.IsArray o → (key == .length) = true → ∃ n, v.ConvertsTo m n ∧ w = .number (.ofNat n))

theorem Machine.Defines.takes {enumerable configurable : Bool}
    (h : m.Defines m' o key (.data v true enumerable configurable)) : m.Takes m' o key v := by
  by_cases hlength : m.IsArray o ∧ (key == .length) = true
  · obtain ⟨harray, hkey⟩ := hlength
    obtain ⟨w, writable, enumerable', configurable', n, hd, hw, hown⟩ := h.length harray hkey
    cases hd
    exact ⟨_, _, _, hown, fun hno => absurd ⟨harray, hkey⟩ hno, fun _ _ => ⟨n, hw, rfl⟩⟩
  · exact ⟨v, enumerable, configurable, h.property hlength, fun _ => rfl,
      fun harray hkey => absurd ⟨harray, hkey⟩ hlength⟩

namespace SetEnd

variable (hreceiver : m.object? receiver = some obj)
  (hends : ∀ d, DefineEnd m receiver obj key d (receiver.define key d m))

include hreceiver hends

theorem changesOnly {x : Eval Bool} (h : SetEnd m receiver key v found own (x m)) :
    m.ChangesOnly (x.after m) receiver key v := by
  have hsame : m.ChangesOnly m receiver key v := .of_allocates (.refl m) receiver key v
  generalize hrun : x m = result at h
  cases h with
  | readOnly => rwa [Eval.after_ok hrun]
  | withoutSetter hsetter => rwa [Eval.after_ok hrun]
  | setter hsetter => rwa [Eval.after_error hrun]
  | added hopen =>
    rw [Eval.after_congr hrun]
    exact (hends _).changesOnly hreceiver
  | changed hopen =>
    rw [Eval.after_congr hrun]
    exact (hends _).changesOnly hreceiver
  | kept hopen hown => rwa [Eval.after_ok hrun]

/-- Whatever a write leaves behind, the definition of its value may leave behind. -/
theorem afterDefine {result : EStateM.Result Abrupt Machine Bool}
    (h : SetEnd m receiver key v found own result) (hdistinct : m.Distinct) :
    ∃ enumerable configurable,
      m.AfterDefine receiver key (.data v true enumerable configurable) result := by
  cases h with
  | readOnly => exact ⟨true, true, fun _ => rfl⟩
  | withoutSetter hsetter => exact ⟨true, true, fun _ => rfl⟩
  | setter hsetter => exact ⟨true, true, .refl m⟩
  | added hopen => exact ⟨true, true, (hends _).changes hreceiver hdistinct⟩
  | changed hopen => exact ⟨_, _, (hends _).changes hreceiver hdistinct⟩
  | kept hopen hown => exact ⟨true, true, fun _ => rfl⟩

end SetEnd

/-- How a write on a reachable machine ends. -/
theorem Contract.Reachable.set_ends (h : Contract.checks.Reachable m) (ho : o.Within m.bounds)
    (hreceiver : receiver.Within m.bounds) (key : Key) (v : Value) :
    ∃ l found own, m.Chain (some o) l ∧ m.Nearest key l found ∧
      receiver.getOwnProperty key m = .ok own ∧
      SetEnd m receiver key v found own (o.set key v (.object receiver) m) := by
  have hm := h.sound Contract.checks_open
  obtain ⟨l, hl⟩ := hm.chain (some o) fun p hp => by cases hp; exact ho
  obtain ⟨found, hn⟩ := hm.nearest trivial hl key
  obtain ⟨obj, hobj⟩ := Machine.exists_object hreceiver
  obtain ⟨own, hown, -⟩ := hm.reports trivial hobj key
  exact ⟨l, found, own, hl, hn, hown, hm.set_ends trivial hl hn hown⟩

theorem Contract.Reachable.define_ends (h : Contract.checks.Reachable m)
    (ho : m.object? o = some obj) (key : Key) (d : Descriptor) :
    DefineEnd m o obj key d (o.define key d m) :=
  ObjectId.define_ends trivial (h.sound Contract.checks_open) (h.orderly Contract.checks_open trivial) ho
    key d

/-- **Writing along a prototype chain.** The nearest property of the key on the chain refuses a write if it
is read-only data or has no setter, and setters are not called. Otherwise the write is the definition on the
receiver of the value with the flags that are there, or with all of them, unless the receiver's own property
refuses it. Of what existed only the receiver changes, and the parameter behind a mapped key of it; a write
that is made is what the receiver reports. -/
theorem reachable_set_touches_receiver (h : Contract.checks.Reachable m) (ho : o.Within m.bounds)
    (hreceiver : receiver.Within m.bounds) (key : Key) (v : Value) :
    (∃ l found own, m.Chain (some o) l ∧ m.Nearest key l found ∧
      receiver.getOwnProperty key m = .ok own ∧
      SetEnd m receiver key v found own (o.set key v (.object receiver) m)) ∧
    m.ChangesOnly ((o.set key v (.object receiver)).after m) receiver key v ∧
    ∀ m', o.set key v (.object receiver) m = .ok true m' → m.Takes m' receiver key v := by
  obtain ⟨l, found, own, hl, hn, hown, hend⟩ := h.set_ends ho hreceiver key v
  obtain ⟨obj, hobj⟩ := Machine.exists_object hreceiver
  refine ⟨⟨l, found, own, hl, hn, hown, hend⟩, hend.changesOnly hobj (h.define_ends hobj key),
    fun m' hrun => ?_⟩
  obtain ⟨enumerable, configurable, hafter⟩ :=
    hend.afterDefine hobj (h.define_ends hobj key) (h.distinct Contract.checks_open)
  rw [hrun] at hafter
  exact hafter.takes

/-- An object that inherits the argument of a call takes a value of its own. -/
theorem reachable_set_touches_receiver_inherited :
    let f : FunctionCode := ⟨some "f", .normal, [.identifier "a"], .block [], false, false⟩
    let m₁ := Operation.newRealm.run.after {}
    let m₂ := (Operation.pushScriptContext ⟨0⟩ false).run.after m₁
    let m₃ := (Operation.evaluate 4 (.script [.function f])).run.after m₂
    let m₄ := (Operation.call 4 (.object ⟨14⟩) .undefined [.null]).run.after m₃
    let m₅ := (Operation.newObject (some ⟨16⟩)).run.after m₄
    ∃ m₆, ObjectId.set ⟨17⟩ (.ofIndex 0) (.boolean true) (.object ⟨17⟩) m₅ = .ok true m₆ ∧
      m₅.Takes m₆ ⟨17⟩ (.ofIndex 0) (.boolean true) ∧ m₆.object? ⟨16⟩ = m₅.object? ⟨16⟩ ∧
      m₆.env? ⟨1⟩ = m₅.env? ⟨1⟩ := by
  intro f m₁ m₂ m₃ m₄ m₅
  have hp₅ : ObjectId.Within m₅.bounds ⟨16⟩ := by decide +kernel
  have ho : ObjectId.Within m₅.bounds ⟨17⟩ := by decide +kernel
  obtain ⟨h₄, hp, -⟩ : Contract.checks.Reachable m₄ ∧ ObjectId.Within m₄.bounds ⟨16⟩ ∧ _ :=
    Contract.reachable_call
  have h₅ : Contract.checks.Reachable m₅ :=
    h₄.perform (.newObject (some ⟨16⟩)) fun p hp' => by cases hp'; exact hp
  have hmade := Eval.eq_ok_after (x := ObjectId.set ⟨17⟩ (.ofIndex 0) (.boolean true) (.object ⟨17⟩)) (m := m₅)
    (a := true) (by decide +kernel)
  have hfree : ObjectId.mappedParameter ⟨17⟩ (.ofIndex 0) m₅ = .ok none := Query.eq_ok (by decide +kernel)
  obtain ⟨-, hchanges, htakes⟩ :=
    reachable_set_touches_receiver h₅ ho ho (.ofIndex 0) (.boolean true)
  have hothers := hchanges.others ⟨16⟩ (by decide) hp₅
  have henvironments := hchanges.environments ⟨1⟩
  refine ⟨_, hmade, htakes _ hmade, hothers, henvironments.resolve_right ?_⟩
  rintro ⟨name, r, hmapped, -⟩
  cases hfree.symm.trans hmapped

end EcmaEval
