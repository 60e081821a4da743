import EcmaEval.Proofs.Heap.Read
import EcmaEval.Proofs.Host.Operation

/-!
# Reading properties as a host sees it

Whatever a host does to a machine with valid handles and through the checks of its objects, code that it
runs included, what is read and what is found along a prototype chain is what the own properties of its
objects are reported to be.
-/
namespace EcmaEval

/-- **Reading along a prototype chain.** Every object of the chain reports whether it has the key. There
is a property of that key if and only if one of them does, and its value is that of the first one: of
data its value, of an accessor without a getter undefined, and getters are not called. -/
theorem reachable_reads_agree {m : Machine} (h : Contract.checks.Reachable m) {o : ObjectId}
    (ho : o.Within m.bounds) (key : Key) :
    ∃ l found, m.Chain (some o) l ∧ (∀ p ∈ l, ∃ own, p.getOwnProperty key m = .ok own) ∧
      m.Nearest key l found ∧
      (∃ b, o.hasProperty key m = .ok b ∧
        (b = true ↔ ∃ p ∈ l, ∃ d, p.getOwnProperty key m = .ok (some d))) ∧
      o.get key m = found.elim (.ok .undefined) Descriptor.read := by
  have hm := h.sound Contract.checks_open
  obtain ⟨l, hl⟩ := hm.chain (some o) fun p hp => by cases hp; exact ho
  obtain ⟨found, hn⟩ := hm.nearest trivial hl key
  refine ⟨l, found, hl, fun p hp => ?_, hn, ⟨_, hm.hasProperty_eq trivial hl hn, hn.isSome_iff⟩,
    hm.get_eq trivial hl hn⟩
  obtain ⟨obj, hobj⟩ := Machine.exists_object (hl.within p hp)
  obtain ⟨own, hown, -⟩ := hm.reports trivial hobj key
  exact ⟨own, hown⟩

/-- A query that can be seen to answer with the value for truth does. -/
theorem Query.eq_true {q : Query Value}
    (h : (match q m with | .ok (.boolean true) => true | _ => false) = true) : q m = .ok (.boolean true) := by
  split at h
  · assumption
  · cases h

/-- An object inherits the argument of a call, whose parameter has been assigned to since. -/
theorem reachable_reads_agree_inherited :
    let f : FunctionCode := ⟨some "f", .normal, [.identifier "a"], .block [], false, false⟩
    let m₁ := Operation.newRealm.run.after {}
    let m₂ := (Operation.pushScriptContext ⟨0⟩ false).run.after m₁
    let m₃ := (Operation.evaluate 4 (.script [.function f])).run.after m₂
    let m₄ := (Operation.call 4 (.object ⟨14⟩) .undefined [.null]).run.after m₃
    let m₅ := (Operation.newObject (some ⟨16⟩)).run.after m₄
    let m₆ := (Operation.assign ⟨1⟩ "a" (.boolean true) false).run.after m₅
    ∃ l d, m₆.Chain (some ⟨17⟩) l ∧ m₆.Nearest (.ofIndex 0) l (some d) ∧ d.read = .ok (.boolean true) ∧
      ObjectId.hasProperty ⟨17⟩ (.ofIndex 0) m₆ = .ok true ∧
      ObjectId.hasOwnProperty ⟨17⟩ (.ofIndex 0) m₆ = .ok false := by
  intro f m₁ m₂ m₃ m₄ m₅ m₆
  have henv : EnvId.Within m₅.bounds ⟨1⟩ := by decide +kernel
  have ho : ObjectId.Within m₆.bounds ⟨17⟩ := by decide +kernel
  obtain ⟨h₄, hp, -⟩ : Contract.checks.Reachable m₄ ∧ ObjectId.Within m₄.bounds ⟨16⟩ ∧ _ :=
    Contract.reachable_call
  have h₅ : Contract.checks.Reachable m₅ :=
    h₄.perform (.newObject (some ⟨16⟩)) fun p hp' => by cases hp'; exact hp
  have h₆ : Contract.checks.Reachable m₆ :=
    h₅.perform (.assign ⟨1⟩ "a" (.boolean true) false) ⟨henv, trivial, fun _ => rfl⟩
  have hread : ObjectId.get ⟨17⟩ (.ofIndex 0) m₆ = .ok (.boolean true) := Query.eq_true (by decide +kernel)
  have hown : ObjectId.hasOwnProperty ⟨17⟩ (.ofIndex 0) m₆ = .ok false := Query.eq_ok (by decide +kernel)
  obtain ⟨l, found, hl, -, hn, ⟨b, hhas, hb⟩, hget⟩ := reachable_reads_agree h₆ ho (.ofIndex 0)
  have hfound : b = found.isSome := Bool.eq_iff_iff.mpr (hb.trans hn.isSome_iff.symm)
  cases found with
  | none => cases hget.symm.trans hread
  | some d => exact ⟨l, d, hl, hn, hget.symm.trans hread, hhas.trans (congrArg Except.ok hfound), hown⟩

end EcmaEval
