import EcmaEval.Proofs.Heap.Length
import EcmaEval.Proofs.Heap.Step

/-!
# The length of an array

A definition on an array may leave indices past the length for a while: a lower length is stored first
and the indices are removed from the top, until one cannot be. At its end, however it ends, the length
is again above every index. No other step of a machine touches the two.
-/
namespace EcmaEval

namespace Object

variable {obj : Object} {n : Nat} {writable : Bool} {key : Key} {d : Descriptor}

/-- A property that is no index is not minded. -/
theorem Indexed.insert {P : Nat → Prop} (h : obj.Indexed P) (hi : ∀ i, key.arrayIndex? = some i → P i)
    (d : Descriptor) : (obj.insert key d).Indexed P := by
  intro k i hk hki
  rw [insert_get?] at hk
  split at hk
  · rename_i hbeq
    exact hi i ((Key.arrayIndex?_congr hbeq).trans hki)
  · exact h k i hk hki

/-- An object takes a length above its indices. -/
theorem spans_setLength (hle : n ≤ maxArrayLength) (hbelow : obj.Indexed (· < n)) (writable : Bool) :
    (obj.setLength n writable).Spans n writable where
  le := hle
  length := by rw [setLength_get?, if_pos BEq.rfl]
  below := hbelow.insert (fun i hi => by simp at hi) _

theorem Spans.insert (h : obj.Spans n writable) (hkey : ¬(key == .length) = true)
    (hi : ∀ i, key.arrayIndex? = some i → i < n) (d : Descriptor) :
    (obj.insert key d).Spans n writable where
  le := h.le
  length := by rw [insert_get?, if_neg hkey, h.length]
  below := h.below.insert hi d

theorem Spans.erase (h : obj.Spans n writable)
    (hconfigurable : ∀ d, obj.properties.get? key = some d → d.configurable = true) :
    (obj.erase key).Spans n writable where
  le := h.le
  length := by
    have hkey : ¬(key == .length) = true := by
      intro hbeq
      have hget := (obj.properties.get?_congr hbeq).trans h.length
      exact absurd (hconfigurable _ hget) (by simp [Descriptor.configurable])
    rw [erase_get?, if_neg hkey, h.length]
  below := h.below.erase key

theorem Orderly.congr {obj' : Object} (h : obj.Orderly) (hkind : obj'.isArray = obj.isArray)
    (hproperties : obj'.properties = obj.properties) : obj'.Orderly := by
  intro harray
  obtain ⟨n, writable, hobj⟩ := h (hkind ▸ harray)
  refine ⟨n, writable, hobj.le, ?_, ?_⟩
  · rw [hproperties, hobj.length]
  · unfold Indexed
    rw [hproperties]
    exact hobj.below

end Object

/-- Every array has a length above its indices. -/
def Machine.Orderly (m : Machine) : Prop := ∀ o obj, m.object? o = some obj → obj.Orderly

variable {m m' : Machine} {o : ObjectId} {obj : Object} {key : Key} {d : Descriptor}

namespace Machine.Orderly

theorem updateObject (hm : m.Orderly) (ho : m.object? o = some obj) {f : Object → Object}
    (hf : (f obj).Orderly) : (m.updateObject o f).Orderly := by
  intro p obj' hp
  rw [object?_updateObject] at hp
  split at hp
  · subst p
    rw [ho] at hp
    cases hp
    exact hf
  · exact hm p obj' hp

theorem pushObject (hm : m.Orderly) (hobj : obj.Orderly) : (m.pushObject obj).Orderly := by
  intro p obj' hp
  rw [object?_pushObject] at hp
  split at hp
  · cases hp
    exact hobj
  · exact hm p obj' hp

theorem complains (hm : m.Orderly) (h : m.Complains m') : m'.Orderly := by
  obtain rfl | ⟨new, harray, rfl⟩ := h
  · exact hm
  · exact hm.pushObject (.of_isArray harray)

end Machine.Orderly

/-- On a machine in order a definition ends in one of these ways. -/
theorem ObjectId.define_ends {g : Contract} (hg : g.guarded) (hsound : g.Sound m) (hm : m.Orderly)
    (ho : m.object? o = some obj) (key : Key) (d : Descriptor) :
    DefineEnd m o obj key d (o.define key d m) := by
  cases hkey : obj.parameter? key with
  | some p =>
    obtain ⟨env, name⟩ := p
    obtain ⟨map, hmap, rfl, hname⟩ := Object.parameter?_some hkey
    obtain ⟨⟨r, x, he, hx, hmutable, -, hvalue⟩, v, enumerable, configurable, hstored⟩ :=
      hsound.aliases hg o obj ho map key name hmap hname
    obtain ⟨current, hcurrent⟩ := Option.isSome_iff_exists.mp hvalue
    rw [define_eq_mapped ho hkey he hx hmutable hcurrent hstored d]
    split
    · exact .mapped hkey he hx hmutable hcurrent
    · exact .refused
  | none =>
    cases harray : obj.isArray with
    | false =>
      rw [define_eq ho hkey harray d]
      split
      · exact .stored hkey fun h => by simp [harray] at h
      · exact .refused
    | true =>
      obtain ⟨n, writable, hobj⟩ := hm o obj ho harray
      unfold define
      rw [bind_ok (lift_ok (mappedParameter_eq ho)), hkey]
      dsimp only
      rw [bind_ok (lift_ok (load_eq ho)), harray]
      split
      · contradiction
      split
      · exact defineLength_ends ho harray hobj ‹_› d
      rename_i hother
      cases hindex : key.arrayIndex? with
      | some index => exact defineIndex_ends ho harray hobj hindex d
      | none =>
        dsimp only
        rw [defineOrdinary_eq ho hkey d]
        split
        · exact .stored hkey fun _ => ⟨hother, n, writable, hobj, fun i hi => by simp [hindex] at hi⟩
        · exact .refused

theorem DefineEnd.orderly {x : Eval Bool} (h : DefineEnd m o obj key d (x m)) (hm : m.Orderly)
    (ho : m.object? o = some obj) : (x.after m).Orderly := by
  unfold Eval.after
  generalize x m = result at h ⊢
  cases h with
  | refused => exact hm
  | failed hcomplains => exact hm.complains hcomplains
  | stored hfree harray =>
    refine hm.updateObject ho fun hisArray => ?_
    obtain ⟨hkey, n, writable, hobj, hbelow⟩ := harray hisArray
    exact ⟨n, writable, hobj.insert hkey hbelow d⟩
  | @extended length i harray hobj hindex hle =>
    have hindexed : (obj.insert key d).Indexed (· < i + 1) := by
      refine Object.Indexed.insert (hobj.below.imp fun j hj => by omega) (fun j hj => ?_) d
      rw [hindex] at hj
      cases hj
      exact Nat.lt_succ_self _
    exact hm.updateObject ho fun _ =>
      ⟨i + 1, true, Object.spans_setLength (Key.arrayIndex?_some hindex).2 hindexed true⟩
  | @raised length writable v newWritable n harray hkey hobj hd hv hle =>
    have hindexed : obj.Indexed (· < n) := hobj.below.imp fun i hi => Nat.lt_of_lt_of_le hi hle
    exact hm.updateObject ho fun _ =>
      ⟨n, newWritable, Object.spans_setLength hv.1 hindexed newWritable⟩
  | @lowered length v newWritable n result harray hkey hobj hd hv hlt hstops =>
    have hle : Object.cutoff n result ≤ maxArrayLength :=
      Nat.le_trans (hstops.below hlt hobj.below) hobj.le
    have hindexed : (obj.cut (Object.cutoff n result)).Indexed (· < Object.cutoff n result) :=
      (hobj.below.cut _).imp fun i hi => by omega
    exact hm.updateObject ho fun _ =>
      ⟨_, newWritable, Object.spans_setLength hle hindexed newWritable⟩
  | mapped hkey he hx hmutable hcurrent =>
    obtain ⟨map, hmap, -⟩ := Object.parameter?_some hkey
    have harray := Object.isArray_of_parameterMap? hmap
    cases d with
    | accessor get set enumerable configurable =>
      exact hm.updateObject ho (.of_isArray (by simpa using harray))
    | data v writable enumerable configurable =>
      refine Machine.Orderly.updateObject (m := m.storeEnv _ _) hm ho (.of_isArray ?_)
      split <;> simpa using harray

theorem ObjectId.define_eq_error (ho : m.object? o = none) (key : Key) (d : Descriptor) :
    ∃ e, o.define key d m = .error e m :=
  ⟨_, bind_error (lift_error (Query.bind_error (load_eq_error ho)))⟩

/-- However a definition ends, arrays are in order again. -/
theorem ObjectId.define_orderly {g : Contract} (hg : g.guarded) (hsound : g.Sound m) (hm : m.Orderly)
    (o : ObjectId) (key : Key) (d : Descriptor) : ((o.define key d).after m).Orderly := by
  cases ho : m.object? o with
  | none =>
    obtain ⟨e, hrun⟩ := define_eq_error ho key d
    rw [Eval.after_error hrun]
    exact hm
  | some obj => exact (define_ends hg hsound hm ho key d).orderly hm ho

namespace Contract

variable {g : Contract} {A : Grant}

theorem Step.orderly (hg : g.guarded) (hsound : g.Sound m) (h : g.Step A m m') (hm : m.Orderly) :
    m'.Orderly := by
  cases h with
  | object hok hmap horderly => exact hm.pushObject horderly
  | define hmoves => exact ObjectId.define_orderly hg hsound hm _ _ _
  | insert ho hd hraw => exact hm.updateObject ho (.of_isArray (hraw hg).2.1)
  | @erase o obj key ho hconfigurable =>
    refine hm.updateObject ho fun harray => ?_
    rw [Object.erase_isArray] at harray
    obtain ⟨n, writable, hobj⟩ := hm o obj ho harray
    exact ⟨n, writable, hobj.erase (hconfigurable hg)⟩
  | reparent ho hp hSp hSo hS hfree => exact hm.updateObject ho ((hm _ _ ho).congr rfl rfl)
  | freeze ho => exact hm.updateObject ho ((hm _ _ ho).congr rfl rfl)
  | @markConstructor o obj ho =>
    refine hm.updateObject ho ?_
    unfold Object.markConstructor
    split
    · exact .of_isArray rfl
    · exact hm o obj ho
  | attach ho hkind henv hdistinct hmap hraw halias => exact hm.updateObject ho (.of_isArray rfl)
  | _ => exact hm

theorem Steps.orderly (hg : g.guarded) (hsound : g.Sound m) (h : g.Steps A m m') (hm : m.Orderly) :
    m'.Orderly := by
  induction h with
  | refl => exact hm
  | tail hsteps hstep ih => exact hstep.orderly hg (Steps.sound hsteps hsound) ih

end Contract

end EcmaEval
