import EcmaEval.Proofs.Heap.Create
import EcmaEval.Proofs.Heap.Read

/-!
# Writing a property along a prototype chain

The nearest property of the key says whether a write may be made; if so, the write is a definition on the
receiver that keeps the flags of what the receiver has, or a new property with every flag on. The parameter
behind a mapped key is written before any of this is asked, but only where the definition is then made and
gives it the same value. A definition changes no object but its own.
-/
namespace EcmaEval

/-- How a write to a receiver ends, by the nearest property on the chain and by what the receiver itself
reports. -/
inductive SetEnd (m : Machine) (receiver : ObjectId) (key : Key) (v : Value) :
    Option Descriptor → Option Descriptor → EStateM.Result Abrupt Machine Bool → Prop
  | readOnly : SetEnd m receiver key v (some (.data w false enumerable configurable)) own (.ok false m)
  | withoutSetter (hsetter : setter.isUndefined = true) :
      SetEnd m receiver key v (some (.accessor getter setter enumerable configurable)) own (.ok false m)
  | setter (hsetter : setter.isUndefined = false) :
      SetEnd m receiver key v (some (.accessor getter setter enumerable configurable)) own
        (.error (.fault (.notImplemented .setter)) m)
  /-- The receiver has no such property. -/
  | added (hopen : ∀ d, found = some d → d.writable? = some true) :
      SetEnd m receiver key v found none (receiver.define key (.plain v) m)
  | changed (hopen : ∀ d, found = some d → d.writable? = some true) :
      SetEnd m receiver key v found (some (.data w true enumerable configurable))
        (receiver.define key (.data v true enumerable configurable) m)
  | kept (hopen : ∀ d, found = some d → d.writable? = some true) (hown : own.writable? ≠ some true) :
      SetEnd m receiver key v found (some own) (.ok false m)

/-- Nothing changes but one object, and the parameter that its key stands for takes the value. New objects
may have come. -/
structure Machine.ChangesOnly (m m' : Machine) (o : ObjectId) (key : Key) (v : Value) : Prop where
  rest : m' = { m with objects := m'.objects, environments := m'.environments }
  others : ∀ p, p ≠ o → p.Within m.bounds → m'.object? p = m.object? p
  environments : ∀ env, m'.env? env = m.env? env ∨
    ∃ name r, o.mappedParameter key m = .ok (some (env, name)) ∧ m.env? env = some (.declarative r) ∧
      m'.env? env = some (.declarative (r.put name v))

variable {g : Contract} {m m' : Machine} {o receiver : ObjectId} {obj : Object} {key : Key} {v : Value}
  {own found : Option Descriptor} {l : List ObjectId}

theorem ObjectId.assignOwn_ends (hopen : ∀ d, found = some d → d.writable? = some true)
    (hown : receiver.getOwnProperty key m = .ok own) :
    SetEnd m receiver key v found own (receiver.assignOwn key v m) := by
  unfold assignOwn
  rw [bind_ok (lift_ok hown)]
  cases own with
  | none => exact .added hopen
  | some d =>
    cases d with
    | accessor get set enumerable configurable => exact .kept hopen (by simp [Descriptor.writable?])
    | data w writable enumerable configurable =>
      cases writable with
      | true => exact .changed hopen
      | false => exact .kept hopen (by simp [Descriptor.writable?])

namespace Contract.Sound

variable (hm : g.Sound m) (hg : g.guarded) (hl : m.Chain (some o) l) (hn : m.Nearest key l found)
  (hown : receiver.getOwnProperty key m = .ok own)

include hm hg hl hn hown

theorem setOnChain_ends :
    SetEnd m receiver key v found own (o.setOnChain key v (.object receiver) m) := by
  -- the search looks at what is stored, which is what is reported but for its value
  obtain ⟨stored, hsearch, hshape⟩ := searchChain_nearest
    (q := fun p => return (← p.load).properties.get? key)
    (P := fun own answer =>
      ∃ stored, answer = .ok stored ∧ stored.map Descriptor.shape = own.map Descriptor.shape)
    hl hn (by simp) (by simp) fun p obj own hp hown => by
      obtain ⟨own', hown', hreports⟩ := hm.reports hg hp key
      cases Except.ok.inj (hown.symm.trans hown')
      exact ⟨_, Query.bind_ok (ObjectId.load_eq hp), hreports.shape⟩
  unfold ObjectId.setOnChain
  rw [bind_ok (lift_ok hsearch)]
  cases found with
  | none =>
    cases Option.map_eq_none_iff.mp hshape
    exact ObjectId.assignOwn_ends (by simp) hown
  | some d =>
    obtain ⟨d', rfl, hd'⟩ := Option.map_eq_some_iff.mp hshape
    cases d with
    | data w writable enumerable configurable =>
      cases d' with
      | accessor get set enumerable' configurable' => cases hd'
      | data w' writable' enumerable' configurable' =>
        cases hd'
        cases writable with
        | true => exact ObjectId.assignOwn_ends (by simp [Descriptor.writable?]) hown
        | false => exact .readOnly
    | accessor get set enumerable configurable =>
      cases d' with
      | data w' writable' enumerable' configurable' => cases hd'
      | accessor get' set' enumerable' configurable' =>
        cases hd'
        dsimp only [Option.getD_some]
        split
        · exact .withoutSetter ‹_›
        · rename_i hset
          exact .setter (Bool.eq_false_iff.mpr hset)

theorem set_ends : SetEnd m receiver key v found own (o.set key v (.object receiver) m) := by
  have hchain := hm.setOnChain_ends (v := v) hg hl hn hown
  unfold ObjectId.set
  split
  · rename_i hsame
    obtain rfl : receiver = o := eq_of_beq hsame
    cases hl with
    | @cons _ obj _ ho hrest =>
      obtain ⟨own', hown', hreports⟩ := hm.reports hg ho key
      cases Except.ok.inj (hown.symm.trans hown')
      cases hreports with
      | stored hfree =>
        have hwrite : receiver.writeMapped key v m = .ok () m := by
          unfold ObjectId.writeMapped
          rw [bind_ok (lift_ok (ObjectId.mappedParameter_eq ho)), hfree]
          rfl
        exact (bind_ok hwrite).symm ▸ hchain
      | mapped hkey he hx hmutable hcurrent hstored =>
        obtain ⟨hset, hdefine⟩ := ObjectId.set_eq_mapped ho hkey he hx hcurrent hmutable hstored v
        unfold ObjectId.set at hset
        rw [if_pos hsame] at hset
        rw [hset, ← hdefine]
        refine .changed fun d hd => ?_
        cases hn with
        | here hown' =>
          cases Except.ok.inj (hown.symm.trans hown')
          cases hd
          rfl
        | above hown' _ => cases Except.ok.inj (hown.symm.trans hown')
  · exact hchain

end Contract.Sound

namespace Machine.ChangesOnly

theorem of_allocates (h : m.Allocates m') (o : ObjectId) (key : Key) (v : Value) :
    m.ChangesOnly m' o key v where
  rest := by
    rw [h.rest]
  others p _ hp := h.objects p hp
  environments env := .inl (h.env? env)

theorem updateObject (m : Machine) (o : ObjectId) (f : Object → Object) (key : Key) (v : Value) :
    m.ChangesOnly (m.updateObject o f) o key v where
  rest := rfl
  others p hp _ := by rw [object?_updateObject, if_neg hp]
  environments _ := .inl rfl

end Machine.ChangesOnly

theorem DefineEnd.changesOnly {x : Eval Bool} {writable enumerable configurable : Bool}
    (h : DefineEnd m o obj key (.data v writable enumerable configurable) (x m))
    (ho : m.object? o = some obj) : m.ChangesOnly (x.after m) o key v := by
  unfold Eval.after
  generalize x m = result at h ⊢
  cases h with
  | refused => exact .of_allocates (.refl m) o key v
  | failed hcomplains => exact .of_allocates hcomplains.allocates o key v
  | stored hfree harray => exact .updateObject m o _ key v
  | extended harray hobj hindex hle => exact .updateObject m o _ key v
  | raised harray hkey hobj hd hv hle => exact .updateObject m o _ key v
  | lowered harray hkey hobj hd hv hlt hstops => exact .updateObject m o _ key v
  | @mapped env name r x current hkey he hx hmutable hcurrent =>
    refine ⟨rfl, fun p hp _ => ?_, fun env' => ?_⟩
    · exact (Machine.object?_updateObject _ _ _ _).trans (if_neg hp)
    · by_cases henv : env' = env
      · subst henv
        exact .inr ⟨name, r, (ObjectId.mappedParameter_eq ho).trans (congrArg _ hkey), he,
          Machine.env?_storeEnv_self he _⟩
      · exact .inl ((Machine.env?_storeEnv _ _ _ _ he).trans (if_neg henv))

end EcmaEval
