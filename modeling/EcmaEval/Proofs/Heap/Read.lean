import EcmaEval.Proofs.Heap.Alias
import EcmaEval.Proofs.Heap.Chain

/-!
# Properties along a prototype chain

To read a property the parameter behind a mapped key is asked first, to look for one only the stored
properties are, and the report of an own property joins both. On a machine whose mapped keys are own
writable data the three agree, so each search along a chain ends at the nearest object that reports the
key.
-/
namespace EcmaEval

/-- The value that is read from a property. -/
def Descriptor.read : Descriptor → Except Abrupt Value
  | .data value _ _ _ => .ok value
  | .accessor get _ _ _ =>
    if get.isUndefined then .ok .undefined else .error (.fault (.notImplemented .getter))

/-- The property without its value. -/
def Descriptor.shape : Descriptor → Descriptor
  | .data _ writable enumerable configurable => .data .undefined writable enumerable configurable
  | d => d

/-- What an object reports under a key: writable data with the value of the parameter if the key is
mapped, and what is stored if it is not. -/
inductive Machine.Reports (m : Machine) (obj : Object) (key : Key) : Option Descriptor → Prop
  | stored (hfree : obj.parameter? key = none) : m.Reports obj key (obj.properties.get? key)
  | mapped (hkey : obj.parameter? key = some (env, name)) (he : m.env? env = some (.declarative r))
      (hx : r.get? name = some x) (hmutable : x.isMutable = true) (hcurrent : x.value = some current)
      (hstored : obj.properties.get? key = some (.data v true enumerable configurable)) :
      m.Reports obj key (some (.data current true enumerable configurable))

/-- The property of a key at the first object of a chain that reports one. -/
inductive Machine.Nearest (m : Machine) (key : Key) : List ObjectId → Option Descriptor → Prop
  | nil : m.Nearest key [] none
  | here (h : o.getOwnProperty key m = .ok (some d)) : m.Nearest key (o :: l) (some d)
  | above (h : o.getOwnProperty key m = .ok none) (hl : m.Nearest key l found) :
      m.Nearest key (o :: l) found

variable {g : Contract} {m : Machine} {o : ObjectId} {obj : Object} {key : Key}
  {own found : Option Descriptor}

theorem Contract.Sound.reports (hm : g.Sound m) (hg : g.guarded) (ho : m.object? o = some obj)
    (key : Key) : ∃ own, o.getOwnProperty key m = .ok own ∧ m.Reports obj key own := by
  cases hkey : obj.parameter? key with
  | none => exact ⟨_, ObjectId.getOwnProperty_eq_stored ho hkey, .stored hkey⟩
  | some p =>
    obtain ⟨env, name⟩ := p
    obtain ⟨map, hmap, rfl, hname⟩ := Object.parameter?_some hkey
    obtain ⟨⟨r, x, he, hx, hmutable, -, hvalue⟩, v, enumerable, configurable, hstored⟩ :=
      hm.aliases hg o obj ho map key name hmap hname
    obtain ⟨current, hcurrent⟩ := Option.isSome_iff_exists.mp hvalue
    exact ⟨_, ObjectId.getOwnProperty_eq_mapped ho hkey he hx hcurrent hstored,
      .mapped hkey he hx hmutable hcurrent hstored⟩

namespace Machine.Reports

theorem contains (h : m.Reports obj key own) : obj.properties.contains key = own.isSome := by
  rw [PropertyTable.contains_eq]
  cases h with
  | stored hfree => rfl
  | mapped hkey he hx hmutable hcurrent hstored =>
    rw [hstored]
    rfl

theorem shape (h : m.Reports obj key own) :
    (obj.properties.get? key).map Descriptor.shape = own.map Descriptor.shape := by
  cases h with
  | stored hfree => rfl
  | mapped hkey he hx hmutable hcurrent hstored =>
    rw [hstored]
    rfl

theorem readOwn (h : m.Reports obj key own) (ho : m.object? o = some obj) :
    ObjectId.readOwn key o m = own.elim (.ok none) fun d => d.read.map some := by
  unfold ObjectId.readOwn
  cases h with
  | stored hfree =>
    rw [Query.bind_ok (ObjectId.mappedValue_eq_none ho hfree)]
    dsimp only
    rw [Query.bind_ok (ObjectId.load_eq ho)]
    cases obj.properties.get? key with
    | none => rfl
    | some d =>
      cases d with
      | data value writable enumerable configurable => rfl
      | accessor get set enumerable configurable =>
        unfold Descriptor.read
        dsimp only [Option.elim]
        split <;> rfl
  | mapped hkey he hx hmutable hcurrent hstored =>
    rw [Query.bind_ok (ObjectId.mappedValue_eq ho hkey he), hx, Option.bind_some, hcurrent]
    rfl

end Machine.Reports

/-- An own data property is found, and its value is read. -/
theorem ObjectId.reads_of_data {v : Value} {writable enumerable configurable : Bool}
    (h : o.getOwnProperty key m = .ok (some (.data v writable enumerable configurable))) :
    o.hasProperty key m = .ok true ∧ o.get key m = .ok v := by
  unfold getOwnProperty at h
  obtain ⟨obj, hload, h⟩ := Query.bind_eq_ok h
  obtain ⟨current, hvalue, h⟩ := Query.bind_eq_ok h
  have ho := load_ok hload
  cases hstored : obj.properties.get? key with
  | none =>
    rw [hstored] at h
    cases h
  | some d =>
    refine ⟨hasProperty_own ho (by rw [hstored]; rfl), ?_⟩
    rw [hstored] at h
    have hread : readOwn key o m = .ok (some v) := by
      unfold readOwn
      rw [Query.bind_ok hvalue]
      cases d with
      | accessor get set enumerable' configurable' => cases current <;> cases h
      | data w writable' enumerable' configurable' =>
        cases current with
        | some w' =>
          cases h
          rfl
        | none =>
          cases h
          dsimp only
          rw [Query.bind_ok hload, hstored]
          rfl
    unfold ObjectId.get
    rw [Query.bind_ok (searchChain_here hread)]
    rfl

variable {start : Option ObjectId} {l : List ObjectId}

theorem Contract.Sound.nearest (hm : g.Sound m) (hg : g.guarded) (hl : m.Chain start l) (key : Key) :
    ∃ found, m.Nearest key l found := by
  induction hl with
  | nil => exact ⟨none, .nil⟩
  | cons ho _ ih =>
    obtain ⟨own, hown, -⟩ := hm.reports hg ho key
    cases own with
    | some d => exact ⟨some d, .here hown⟩
    | none =>
      obtain ⟨found, hfound⟩ := ih
      exact ⟨found, .above hown hfound⟩

theorem Machine.Nearest.isSome_iff (h : m.Nearest key l found) :
    found.isSome = true ↔ ∃ p ∈ l, ∃ d, p.getOwnProperty key m = .ok (some d) := by
  induction h with
  | nil => simp
  | @here o rest d h => exact iff_of_true rfl ⟨o, List.mem_cons_self, d, h⟩
  | @above rest found o h _ ih =>
    rw [ih]
    constructor
    · rintro ⟨p, hp, hown⟩
      exact ⟨p, List.mem_cons_of_mem _ hp, hown⟩
    · rintro ⟨p, hp, d, hown⟩
      rcases List.mem_cons.mp hp with rfl | hp
      · rw [h] at hown
        cases hown
      · exact ⟨p, hp, d, hown⟩

/-- A search passes over what has no property of the key, so it answers as the probe does at the nearest
object that has one. -/
theorem searchChain_nearest {q : ObjectId → Query (Option β)}
    {P : Option Descriptor → Except Abrupt (Option β) → Prop} (hl : m.Chain start l)
    (hn : m.Nearest key l found) (hnone : ∀ answer, P none answer ↔ answer = .ok none)
    (hsome : ∀ d, ¬ P (some d) (.ok none))
    (hprobe : ∀ p obj own, m.object? p = some obj → p.getOwnProperty key m = .ok own →
      P own (q p m)) : P found (searchChain start q m) := by
  -- the steps granted are as many as there are objects, so the search does not run out of them
  suffices h : ∀ steps, l.length ≤ steps → P found (findOnChain q steps start m) from
    h _ (Nat.le_succ_of_le hl.length_le)
  induction hn generalizing start with
  | nil =>
    intro steps _
    cases hl
    unfold findOnChain
    exact (hnone _).mpr rfl
  | @here o rest d hown =>
    intro steps hsteps
    obtain _ | steps := steps
    · simp at hsteps
    cases hl with
    | cons ho _ =>
      have hanswer := hprobe o _ (some d) ho hown
      suffices hsame : findOnChain q (steps + 1) (some o) m = q o m from hsame ▸ hanswer
      unfold findOnChain
      cases hrun : q o m with
      | error e => rw [Query.bind_error hrun]
      | ok answer =>
        rw [Query.bind_ok hrun]
        cases answer with
        | none => exact absurd (hrun ▸ hanswer) (hsome d)
        | some b => rfl
  | @above rest found o hown _ ih =>
    intro steps hsteps
    obtain _ | steps := steps
    · simp at hsteps
    cases hl with
    | cons ho hrest =>
      have hrun := (hnone _).mp (hprobe o _ none ho hown)
      unfold findOnChain
      rw [Query.bind_ok hrun]
      dsimp only
      rw [Query.bind_ok (ObjectId.load_eq ho)]
      exact ih hrest steps (Nat.le_of_succ_le_succ hsteps)

namespace Contract.Sound

variable (hm : g.Sound m) (hg : g.guarded) (hl : m.Chain (some o) l) (hn : m.Nearest key l found)

include hm hg hl hn

theorem hasProperty_eq : o.hasProperty key m = .ok found.isSome := by
  have hsearch := searchChain_nearest (β := Unit)
    (q := fun p => do return if (← p.load).properties.contains key then some () else none)
    (P := fun own answer => answer = .ok (own.map fun _ => ())) hl hn (fun _ => Iff.rfl) (by simp) ?_
  · unfold ObjectId.hasProperty
    rw [Query.bind_ok hsearch, Option.isSome_map]
    rfl
  · intro p obj own hp hown
    obtain ⟨own', hown', hreports⟩ := hm.reports hg hp key
    cases Except.ok.inj (hown.symm.trans hown')
    rw [Query.bind_ok (ObjectId.load_eq hp), hreports.contains]
    cases own <;> rfl

theorem get_eq : o.get key m = found.elim (.ok .undefined) Descriptor.read := by
  have hsearch := searchChain_nearest (q := ObjectId.readOwn key)
    (P := fun own answer => answer = own.elim (.ok none) fun d => d.read.map some) hl hn
    (fun _ => Iff.rfl) ?_ ?_
  · unfold ObjectId.get
    cases found with
    | none =>
      rw [Query.bind_ok hsearch]
      rfl
    | some d =>
      dsimp only [Option.elim] at hsearch ⊢
      cases hd : d.read with
      | ok v =>
        rw [hd] at hsearch
        rw [Query.bind_ok hsearch]
        rfl
      | error e =>
        rw [hd] at hsearch
        rw [Query.bind_error hsearch]
  · intro d h
    dsimp only [Option.elim] at h
    cases hd : d.read <;> simp [hd, Except.map] at h
  · intro p obj own hp hown
    obtain ⟨own', hown', hreports⟩ := hm.reports hg hp key
    cases Except.ok.inj (hown.symm.trans hown')
    exact hreports.readOwn hp

end Contract.Sound

end EcmaEval
