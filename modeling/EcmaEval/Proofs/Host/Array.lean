import EcmaEval.Proofs.Host.Operation
import Mathlib.Algebra.Group.Nat.Defs

/-!
# Arrays as a host sees them

Whatever a host does to a machine with valid handles and through the checks of its objects, code that
it runs included, every array reports a length above its indices.
-/
namespace EcmaEval

variable {g : Contract} {m : Machine}

theorem Contract.Reachable.orderly (hopen : g.Open) (hg : g.guarded) (h : g.Reachable m) :
    m.Orderly := by
  obtain ⟨limit, h⟩ := h
  have hnew := g.sound_new limit
  refine Steps.orderly hg hnew (h.steps hopen hnew) fun o obj ho => ?_
  cases ho

/-- **Order of arrays.** Every array has an own data property `length` that is neither enumerable nor
configurable. Its value is a whole number of at most 32 bits, and every own index lies below it. The
last operation may have ended in any way. -/
theorem reachable_arrays_report_length (h : Contract.checks.Reachable m) {o : ObjectId} {obj : Object}
    (ho : m.object? o = some obj) (harray : obj.kind = .array) :
    ∃ (length : Number) (n : Nat) (writable : Bool),
      o.getOwnProperty .length m = .ok (some (.data (.number length) writable false false)) ∧
        length.toInt? = some (n : Int) ∧ n ≤ 2 ^ 32 - 1 ∧
        ∀ key d i, o.getOwnProperty key m = .ok (some d) → key.arrayIndex? = some i → i < n := by
  have hisArray : obj.isArray = true := by rw [Object.isArray, harray]
  obtain ⟨n, writable, hobj⟩ := h.orderly Contract.checks_open trivial o obj ho hisArray
  have hreport (key : Key) := ObjectId.getOwnProperty_eq_stored ho
    (Object.parameter?_of_isArray hisArray key)
  refine ⟨.ofNat n, n, writable, ?_, Number.toInt?_ofNat (lt_mantissaLimit hobj.le), hobj.le, ?_⟩
  · rw [hreport, hobj.length]
  · intro key d i hkey hi
    have hget := (hreport key).symm.trans hkey
    exact hobj.below key i (by rw [Except.ok.inj hget]; rfl) hi

/-- A property that can be seen to be there is. -/
theorem Query.exists_some {q : Query (Option α)}
    (h : (match q m with | .ok (some _) => true | _ => false) = true) : ∃ a, q m = .ok (some a) := by
  split at h
  · exact ⟨_, ‹_›⟩
  · cases h

/-- An empty array that is given the greatest index. -/
theorem reachable_arrays_report_length_greatest :
    let m₁ := Operation.newRealm.run.after {}
    let m₂ := (Operation.pushScriptContext ⟨0⟩ false).run.after m₁
    let m₃ := (Operation.newArray 0).run.after m₂
    let m₄ := (Operation.define ⟨14⟩ (.ofIndex 4294967294) (.plain .null)).run.after m₃
    ∃ (length : Number) (writable : Bool),
      ObjectId.getOwnProperty ⟨14⟩ .length m₄ =
          .ok (some (.data (.number length) writable false false)) ∧
        length.toInt? = some 4294967295 := by
  intro m₁ m₂ m₃ m₄
  have hrealm : RealmId.Within m₁.bounds ⟨0⟩ := by decide +kernel
  have ho₃ : ObjectId.Within m₃.bounds ⟨14⟩ := by decide +kernel
  have h₁ : Contract.checks.Reachable m₁ := (Contract.Reachable.new _).perform .newRealm trivial
  have h₃ : Contract.checks.Reachable m₃ :=
    (h₁.perform (.pushScriptContext ⟨0⟩ false) hrealm).perform (.newArray 0) trivial
  have h₄ : Contract.checks.Reachable m₄ :=
    h₃.perform (.define ⟨14⟩ (.ofIndex 4294967294) (.plain .null)) ⟨ho₃, trivial, fun _ => rfl⟩
  have harray : (m₄.object? ⟨14⟩).any (·.isArray) = true := by decide +kernel
  obtain ⟨obj, ho, hisArray⟩ := (Option.any_eq_true _ _).mp harray
  have hkind : obj.kind = .array := by
    unfold Object.isArray at hisArray
    split at hisArray
    · assumption
    · cases hisArray
  obtain ⟨length, n, writable, hlength, hn, hle, hbelow⟩ := reachable_arrays_report_length h₄ ho hkind
  have hindex : (Key.ofIndex 4294967294).arrayIndex? = some 4294967294 := by decide +kernel
  obtain ⟨d, hreport⟩ := Query.exists_some (q := ObjectId.getOwnProperty ⟨14⟩ (.ofIndex 4294967294)) (m := m₄)
    (by decide +kernel)
  -- the index lies below the length, which leaves one value for it
  have hlower := hbelow _ d _ hreport hindex
  have hgreatest : n = 4294967295 := by omega
  exact ⟨length, writable, hlength, by rw [hn, hgreatest]; rfl⟩

end EcmaEval
