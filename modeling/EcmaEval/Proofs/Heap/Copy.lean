import EcmaEval.Proofs.Heap.Create
import EcmaEval.Proofs.Heap.Listing
import EcmaEval.Proofs.Heap.Open
import EcmaEval.Proofs.Heap.Read

/-!
# Copies of properties

A new object that takes what is left of another one gets its enumerable properties as plain data with the
values that reading them gives, in the order in which the other object lists them. A getter among them ends
the copying, because getters are not called.
-/
namespace EcmaEval

namespace Machine

/-- Whether an object has an enumerable own property of a key. -/
def exposes (m : Machine) (o : ObjectId) (key : Key) : Bool :=
  match o.getOwnProperty key m with
  | .ok (some d) => d.enumerable
  | _ => false

/-- The own property of a key is an accessor with a getter. -/
def HasGetter (m : Machine) (o : ObjectId) (key : Key) : Prop :=
  ∃ get set enumerable configurable, get.isUndefined = false ∧
    o.getOwnProperty key m = .ok (some (.accessor get set enumerable configurable))

/-- The enumerable properties among the keys, as plain data with the values that they have. -/
structure Copies (m : Machine) (source : ObjectId) (keys : List Key) (entries : List (Key × Descriptor)) :
    Prop where
  order : entries.map (·.1) = keys.filter (m.exposes source)
  values : ∀ e ∈ entries, ∃ v, e.2 = .plain v ∧ source.get e.1 m = .ok v ∧
    ∃ d, source.getOwnProperty e.1 m = .ok (some d) ∧ d.read = .ok v

end Machine

variable {g : Contract} {m : Machine} {source target : ObjectId} {obj dest : Object} {key : Key}
  {keys : List Key} {own : Option Descriptor} {d : Descriptor} {v : Value} {e : Abrupt}
  {entries : List (Key × Descriptor)}

namespace Machine.Reports

theorem getOwnProperty (h : m.Reports obj key own) (ho : m.object? source = some obj) :
    source.getOwnProperty key m = .ok own := by
  cases h with
  | stored hfree => exact ObjectId.getOwnProperty_eq_stored ho hfree
  | mapped hkey he hx hmutable hcurrent hstored =>
    exact ObjectId.getOwnProperty_eq_mapped ho hkey he hx hcurrent hstored

/-- An own property is read without a look at the prototypes. -/
theorem get_eq (h : m.Reports obj key (some d)) (ho : m.object? source = some obj) :
    source.get key m = d.read := by
  have hread := h.readOwn ho
  dsimp only [Option.elim] at hread
  unfold ObjectId.get
  cases hd : d.read with
  | ok v =>
    rw [hd] at hread
    exact Query.bind_ok (searchChain_here hread)
  | error e =>
    rw [hd] at hread
    have hsearch : searchChain (some source) (ObjectId.readOwn key) m = .error e := by
      change findOnChain (ObjectId.readOwn key) (m.objects.size + 1) (some source) m = _
      unfold findOnChain
      exact Query.bind_error hread
    exact Query.bind_error hsearch

/-- What an object reports depends on the environments only. -/
theorem updateObject (h : m.Reports obj key own) (o : ObjectId) (f : Object → Object) :
    (m.updateObject o f).Reports obj key own := by
  cases h with
  | stored hfree => exact .stored hfree
  | mapped hkey he hx hmutable hcurrent hstored => exact .mapped hkey he hx hmutable hcurrent hstored

end Machine.Reports

theorem Descriptor.read_eq_error (h : d.read = .error e) : e = .fault (.notImplemented .getter) ∧
    ∃ get set enumerable configurable, get.isUndefined = false ∧
      d = .accessor get set enumerable configurable := by
  unfold read at h
  split at h
  · cases h
  · split at h
    · cases h
    · cases h
      exact ⟨rfl, _, _, _, _, Bool.not_eq_true _ ▸ ‹_›, rfl⟩

namespace Machine.Copies

theorem nil (m : Machine) (source : ObjectId) : m.Copies source [] [] := ⟨rfl, by simp⟩

theorem skip (h : m.Copies source keys entries) (hkey : m.exposes source key = false) :
    m.Copies source (key :: keys) entries where
  order := h.order.trans (List.filter_cons_of_neg (by simp [hkey])).symm
  values := h.values

theorem cons (h : m.Copies source keys entries) (hown : source.getOwnProperty key m = .ok (some d))
    (henumerable : d.enumerable = true) (hread : d.read = .ok v) (hget : source.get key m = .ok v) :
    m.Copies source (key :: keys) ((key, .plain v) :: entries) where
  order := by
    have hexposes : m.exposes source key = true := by
      unfold exposes
      rw [hown]
      exact henumerable
    rw [List.filter_cons_of_pos hexposes, List.map_cons, h.order]
  values e he := by
    rcases List.mem_cons.mp he with rfl | he
    · exact ⟨v, rfl, hget, d, hown, hread⟩
    · exact h.values e he

/-- What is copied has no getter. -/
theorem no_getter (h : m.Copies source keys entries) (hkey : key ∈ keys.filter (m.exposes source)) :
    ¬ m.HasGetter source key := by
  rintro ⟨get, set, enumerable, configurable, hget, hown⟩
  rw [← h.order] at hkey
  obtain ⟨e, he, rfl⟩ := List.mem_map.mp hkey
  obtain ⟨v, -, -, d, hown', hread⟩ := h.values e he
  rw [hown] at hown'
  cases hown'
  simp [Descriptor.read, hget] at hread

section

variable {t : PropertyTable} {p : Key → Bool} (h : m.Copies source (t.orderedKeys.filter p) entries)

include h

theorem keys_eq : (PropertyTable.mk entries).keys = (t.orderedKeys.filter p).filter (m.exposes source) :=
  h.order

/-- A copy of keys that were listed in order is listed as it was made. -/
theorem orderedKeys_eq :
    (PropertyTable.mk entries).orderedKeys = (t.orderedKeys.filter p).filter (m.exposes source) := by
  rw [PropertyTable.orderedKeys_eq, h.keys_eq, List.filter_filter]
  exact Key.enumerate_filter t.keys _

theorem get?_eq (ht : t.Distinct) {e : Key × Descriptor} (he : e ∈ entries) :
    (PropertyTable.mk entries).get? e.1 = some e.2 := by
  have hdistinct : (PropertyTable.mk entries).Distinct := by
    unfold PropertyTable.Distinct
    rw [h.keys_eq]
    exact ((t.distinct_orderedKeys ht).filter p).filter (m.exposes source)
  exact hdistinct.get?_of_mem he BEq.rfl

end

end Machine.Copies

/-- How the copying of keys behind entries that are there already ends: every property is there, or a getter
was met. -/
inductive CopyEnd (m : Machine) (source target : ObjectId) (keys : List Key)
    (done : List (Key × Descriptor)) : EStateM.Result Abrupt Machine Unit → Prop
  | copied {entries : List (Key × Descriptor)} (h : m.Copies source keys entries) :
    CopyEnd m source target keys done (.ok () (m.updateObject target (·.append (done ++ entries))))
  | getter {key : Key} (hkey : key ∈ keys.filter (m.exposes source)) (h : m.HasGetter source key)
    (entries : List (Key × Descriptor)) :
    CopyEnd m source target keys done
      (.error (.fault (.notImplemented .getter)) (m.updateObject target (·.append entries)))

namespace CopyEnd

variable {done : List (Key × Descriptor)} {result : EStateM.Result Abrupt Machine Unit}

theorem skip (h : CopyEnd m source target keys done result) (hkey : m.exposes source key = false) :
    CopyEnd m source target (key :: keys) done result := by
  cases h with
  | copied h => exact .copied (h.skip hkey)
  | getter hmem h entries =>
    refine .getter ?_ h entries
    rwa [List.filter_cons_of_neg (by simp [hkey])]

theorem cons (h : CopyEnd m source target keys (done ++ [(key, .plain v)]) result)
    (hown : source.getOwnProperty key m = .ok (some d)) (henumerable : d.enumerable = true)
    (hread : d.read = .ok v) (hget : source.get key m = .ok v) :
    CopyEnd m source target (key :: keys) done result := by
  cases h with
  | copied h =>
    rw [List.append_assoc]
    exact .copied (h.cons hown henumerable hread hget)
  | getter hmem h entries =>
    refine .getter ?_ h entries
    rw [List.filter_cons]
    split
    · exact List.mem_cons_of_mem _ hmem
    · exact hmem

end CopyEnd

/-- Distinct keys of one object are copied to another one that has none of them, in order, up to the first
getter. -/
theorem copyKeys_ends (hs : m.object? source = some obj) (ht : m.object? target = some dest)
    (hne : source ≠ target) (hreports : ∀ key, ∃ own, m.Reports obj key own) (keys : List Key)
    {done : List (Key × Descriptor)} (hopen : (dest.append done).Open)
    (hnew : ∀ key ∈ keys, (dest.append done).properties.contains key = false)
    (hdistinct : keys.Pairwise fun a b => ¬(a == b) = true) :
    CopyEnd m source target keys done
      (copyKeys target source keys (m.updateObject target (·.append done))) := by
  -- By induction on the keys that are left. The target has taken `done`, the source is as it was,
  -- and a key that is left is new to the target.
  induction keys generalizing done with
  | nil =>
    have hend : CopyEnd m source target [] done (.ok () (m.updateObject target (·.append (done ++ [])))) :=
      .copied (.nil m source)
    rwa [List.append_nil] at hend
  | cons key rest ih =>
    obtain ⟨hfirst, hothers⟩ := List.pairwise_cons.mp hdistinct
    let m₁ := m.updateObject target (·.append done)
    have hs₁ : m₁.object? source = some obj := by rw [Machine.object?_updateObject, if_neg hne, hs]
    have ht₁ : m₁.object? target = some (dest.append done) := Machine.object?_updateObject_self ht _
    obtain ⟨own, hreport⟩ := hreports key
    have hreport₁ : m₁.Reports obj key own := hreport.updateObject target _
    have hown := hreport.getOwnProperty hs
    have hrest : CopyEnd m source target rest done (copyKeys target source rest m₁) :=
      ih hopen (fun k hk => hnew k (List.mem_cons_of_mem _ hk)) hothers
    unfold copyKeys
    rw [bind_ok (lift_ok (hreport₁.getOwnProperty hs₁))]
    cases own with
    | none => exact hrest.skip (by simp [Machine.exposes, hown])
    | some d =>
      dsimp only
      cases henumerable : d.enumerable with
      | false => exact hrest.skip (by simp [Machine.exposes, hown, henumerable])
      | true =>
        rw [if_pos rfl]
        cases hread : d.read with
        | error e =>
          obtain ⟨rfl, get, set, enumerable, configurable, hget, rfl⟩ := Descriptor.read_eq_error hread
          rw [bind_error (lift_error ((hreport₁.get_eq hs₁).trans hread))]
          refine .getter ?_ ⟨get, set, enumerable, configurable, hget, hown⟩ done
          exact List.mem_filter.mpr ⟨List.mem_cons_self, by simp [Machine.exposes, hown, henumerable]⟩
        | ok v =>
          have hfresh := hnew key List.mem_cons_self
          let m₂ := m.updateObject target (·.append (done ++ [(key, .plain v)]))
          have hcreate : target.createPropertyOrThrow key v m₁ = .ok () m₂ := by
            rw [hopen.createPropertyOrThrow_eq ht₁ key v]
            refine congrArg (EStateM.Result.ok ()) ?_
            rw [Machine.updateObject_updateObject]
            refine Machine.updateObject_congr ht ?_
            rw [Object.insert_new hfresh, Object.append_append]
          rw [bind_ok (lift_ok ((hreport₁.get_eq hs₁).trans hread)), bind_ok hcreate]
          refine (ih ?_ ?_ hothers).cons hown henumerable hread ((hreport.get_eq hs).trans hread)
          · rw [← Object.append_append, ← Object.insert_new hfresh]
            exact hopen.insert key rfl
          · intro k hk
            rw [← Object.append_append, Object.contains_append, hnew k (List.mem_cons_of_mem _ hk)]
            simpa using hfirst k hk

namespace Contract.Sound

variable (hm : g.Sound m) (hg : g.guarded)

include hm hg

/-- An object without properties is neither an array nor mapped. -/
theorem isOpen (ht : m.object? target = some dest) (hextensible : dest.extensible = true)
    (hempty : dest.properties.entries = []) : dest.Open := by
  have hnone (key : Key) : dest.properties.get? key = none := by simp [PropertyTable.get?, hempty]
  refine ⟨hextensible, Bool.eq_false_iff.mpr fun harray => ?_, fun key => ?_, fun key d hd => ?_⟩
  · obtain ⟨n, writable, hlength⟩ := (hm.objects target dest ht).length hg harray
    rw [hnone] at hlength
    cases hlength
  · cases hkey : dest.parameter? key with
    | none => rfl
    | some p =>
      obtain ⟨map, hmap, -, hname⟩ := Object.parameter?_some hkey
      obtain ⟨-, v, enumerable, configurable, hstored⟩ := hm.aliases hg target dest ht map key p.2 hmap hname
      rw [hnone] at hstored
      cases hstored
  · rw [hnone] at hd
    cases hd

variable (hs : m.object? source = some obj) (ht : m.object? target = some dest)
  (hextensible : dest.extensible = true) (hempty : dest.properties.entries = [])

include hs ht hextensible hempty

theorem copyProperties_ends (excluded : List Key) : CopyEnd m source target
    (obj.properties.orderedKeys.filter fun key => !excluded.contains key) []
    (copyProperties target source excluded m) := by
  have hkeys : source.ownKeys m = .ok obj.properties.orderedKeys := Query.bind_ok (ObjectId.load_eq hs)
  have hrun : copyProperties target source excluded m =
      copyKeys target source (obj.properties.orderedKeys.filter fun key => !excluded.contains key) m :=
    bind_ok (lift_ok hkeys)
  rw [hrun]
  by_cases hne : source = target
  · -- an object without properties has nothing to copy
    subst hne
    rw [hs] at ht
    cases ht
    have hnothing : (obj.properties.orderedKeys.filter fun key => !excluded.contains key) = [] := by
      simp [PropertyTable.orderedKeys, PropertyTable.keys, hempty]
    have hend : CopyEnd m source source [] [] (.ok () (m.updateObject source (·.append ([] ++ [])))) :=
      .copied (.nil m source)
    rw [hnothing]
    rwa [List.append_nil, Machine.updateObject_of_eq hs obj.append_nil] at hend
  · have hends : CopyEnd m source target _ []
        (copyKeys target source _ (m.updateObject target (·.append []))) :=
      copyKeys_ends hs ht hne (fun key => ?_) _ ?_ (fun key _ => ?_)
        (List.Pairwise.filter (fun key => !excluded.contains key) (obj.properties.distinct_orderedKeys
          (hm.objects source obj hs).keys))
    · rwa [Machine.updateObject_of_eq ht dest.append_nil] at hends
    · obtain ⟨own, -, hreport⟩ := hm.reports hg hs key
      exact ⟨own, hreport⟩
    · rw [Object.append_nil]
      exact hm.isOpen hg ht hextensible hempty
    · simp [PropertyTable.contains, hempty]

end Contract.Sound

/-- **Object rest.** On a machine that keeps its invariants, an object takes what is left of another one: of
an object without properties that takes new ones only the table changes, it lists the enumerable keys that
are not excluded in the order in which the source lists them, and holds them as plain data with the values
that the source gives for them. If one of them has a getter, nothing comes of it but the complaint that
getters have no support. -/
theorem copyProperties_copies (hm : g.Sound m) (hg : g.guarded) (hs : source.Within m.bounds)
    (ht : m.object? target = some dest) (hextensible : dest.extensible = true)
    (hempty : dest.properties.entries = []) (excluded : List Key) :
    ∃ keys, source.ownKeys m = .ok keys ∧
      let kept := keys.filter fun key => m.exposes source key && !excluded.contains key
      ((∀ key ∈ kept, ¬ m.HasGetter source key) →
        ∃ properties m', copyProperties target source excluded m = .ok () m' ∧
          m' = m.updateObject target ({ · with properties }) ∧ target.ownKeys m' = .ok kept ∧
          ∀ key ∈ kept, ∃ d v, source.getOwnProperty key m = .ok (some d) ∧ d.read = .ok v ∧
            source.get key m = .ok v ∧ target.getOwnProperty key m' = .ok (some (.plain v))) ∧
      ((∃ key ∈ kept, m.HasGetter source key) →
        ∃ m', copyProperties target source excluded m = .error (.fault (.notImplemented .getter)) m') := by
  obtain ⟨obj, hobj⟩ := Machine.exists_object hs
  have hopen := hm.isOpen hg ht hextensible hempty
  have hkeys : source.ownKeys m = .ok obj.properties.orderedKeys := Query.bind_ok (ObjectId.load_eq hobj)
  have hends := hm.copyProperties_ends hg hobj ht hextensible hempty excluded
  refine ⟨_, hkeys, ?_⟩
  intro kept
  have hkept : (obj.properties.orderedKeys.filter fun key => !excluded.contains key).filter
      (m.exposes source) = kept := List.filter_filter
  generalize copyProperties target source excluded m = result at hends ⊢
  cases hends with
  | @getter key hkey hgetter entries =>
    rw [hkept] at hkey
    exact ⟨fun hnone => absurd hgetter (hnone key hkey), fun _ => ⟨_, rfl⟩⟩
  | @copied entries hcopies =>
    let m' := m.updateObject target ({ · with properties := ⟨entries⟩ })
    have ht' : m'.object? target = some { dest with properties := ⟨entries⟩ } :=
      Machine.object?_updateObject_self ht _
    have hm' : m.updateObject target (·.append ([] ++ entries)) = m' :=
      Machine.updateObject_congr ht (by simp [Object.append, hempty])
    rw [hm']
    refine ⟨fun _ => ⟨⟨entries⟩, m', rfl, rfl, ?_, fun key hkey => ?_⟩, ?_⟩
    · rw [← hkept, ← hcopies.orderedKeys_eq]
      exact Query.bind_ok (ObjectId.load_eq ht')
    · rw [← hkept, ← hcopies.order] at hkey
      obtain ⟨e, he, rfl⟩ := List.mem_map.mp hkey
      obtain ⟨v, hplain, hget, d, hown, hread⟩ := hcopies.values e he
      refine ⟨d, v, hown, hread, hget, ?_⟩
      rw [← hplain, ← hcopies.get?_eq (hm.objects source obj hobj).keys he]
      exact ObjectId.getOwnProperty_eq_stored ht' (hopen.unmapped e.1)
    · rintro ⟨key, hkey, hgetter⟩
      exact absurd hgetter (hcopies.no_getter (hkept ▸ hkey))

/-- A query that can be seen to list three texts does. -/
theorem Query.eq_texts {q : Query (List Key)} {a b c : Text}
    (h : (match q m with
      | .ok [.string a', .string b', .string c'] => decide (a' = a ∧ b' = b ∧ c' = c)
      | _ => false) = true) : q m = .ok [.string a, .string b, .string c] := by
  split at h
  · rename_i a' b' c' heq
    obtain ⟨rfl, rfl, rfl⟩ := of_decide_eq_true h
    exact heq
  · cases h

/-- A property that can be seen to hold the value for truth as plain data does. -/
theorem Query.eq_plain_true {q : Query (Option Descriptor)}
    (h : (match q m with
      | .ok (some (.data (.boolean true) true true true)) => true
      | _ => false) = true) : q m = .ok (some (.plain (.boolean true))) := by
  split at h
  · assumption
  · cases h

/-- The argument of a call is copied with the value that its parameter has been given since. -/
theorem copyProperties_copies_argument :
    let f : FunctionCode := ⟨some "f", .normal, [.identifier "a"], .block [], false, false⟩
    let m₁ := Operation.newRealm.run.after {}
    let m₂ := (Operation.pushScriptContext ⟨0⟩ false).run.after m₁
    let m₃ := (Operation.evaluate 4 (.script [.function f])).run.after m₂
    let m₄ := (Operation.call 4 (.object ⟨14⟩) .undefined [.null]).run.after m₃
    let m₅ := (Operation.assign ⟨1⟩ "a" (.boolean true) false).run.after m₄
    let m₆ := (Operation.newObject none).run.after m₅
    ∃ m₇, copyProperties ⟨17⟩ ⟨16⟩ [.name "b"] m₆ = .ok () m₇ ∧
      ObjectId.ownKeys ⟨16⟩ m₆ = .ok [.ofIndex 0, .length, .name "callee"] ∧
      ObjectId.ownKeys ⟨17⟩ m₇ = .ok [.ofIndex 0] ∧
      ObjectId.getOwnProperty ⟨17⟩ (.ofIndex 0) m₇ = .ok (some (.plain (.boolean true))) := by
  intro f m₁ m₂ m₃ m₄ m₅ m₆
  have hs : ObjectId.Within m₆.bounds ⟨16⟩ := by decide +kernel
  obtain ⟨h₄, -, henv⟩ : Contract.checks.Reachable m₄ ∧ _ ∧ EnvId.Within m₄.bounds ⟨1⟩ :=
    Contract.reachable_call
  have h₅ : Contract.checks.Reachable m₅ :=
    h₄.perform (.assign ⟨1⟩ "a" (.boolean true) false) ⟨henv, trivial, fun _ => rfl⟩
  have h₆ : Contract.checks.Reachable m₆ := h₅.perform (.newObject none) fun p hp => by cases hp
  have ht : m₆.object? ⟨17⟩ = some { prototype := none, kind := .ordinary } := by
    have hsize : m₅.objects.size = 17 := by decide +kernel
    exact hsize ▸ m₅.object?_pushObject_self { prototype := none, kind := .ordinary }
  have hlist : ObjectId.ownKeys ⟨16⟩ m₆ = .ok [.ofIndex 0, .length, .name "callee"] :=
    Query.eq_texts (by decide +kernel)
  have hown : ObjectId.getOwnProperty ⟨16⟩ (.ofIndex 0) m₆ = .ok (some (.plain (.boolean true))) :=
    Query.eq_plain_true (by decide +kernel)
  have hfirst : m₆.exposes ⟨16⟩ (.ofIndex 0) = true := by decide +kernel
  have hlength : m₆.exposes ⟨16⟩ .length = false := by decide +kernel
  have hcallee : m₆.exposes ⟨16⟩ (.name "callee") = false := by decide +kernel
  obtain ⟨keys, hkeys, hcopied, -⟩ :=
    copyProperties_copies (h₆.sound Contract.checks_open) trivial hs ht rfl rfl [.name "b"]
  obtain rfl : keys = [.ofIndex 0, .length, .name "callee"] := Except.ok.inj (hkeys.symm.trans hlist)
  have hkept : [Key.ofIndex 0, .length, .name "callee"].filter
      (fun key => m₆.exposes ⟨16⟩ key && !List.contains [Key.name "b"] key) = [.ofIndex 0] := by
    have hother : List.contains [Key.name "b"] (.ofIndex 0) = false := by decide +kernel
    simp [List.filter, hfirst, hlength, hcallee, hother]
  rw [hkept] at hcopied
  have hdata : ∀ key ∈ [Key.ofIndex 0], ¬ m₆.HasGetter ⟨16⟩ key := by
    intro key hkey
    rw [List.mem_singleton.mp hkey]
    rintro ⟨get, set, enumerable, configurable, -, haccessor⟩
    cases hown.symm.trans haccessor
  obtain ⟨-, m₇, hrun, -, horder, hvalues⟩ := hcopied hdata
  obtain ⟨d, v, hd, hread, -, hv⟩ := hvalues (.ofIndex 0) List.mem_cons_self
  refine ⟨m₇, hrun, hkeys, horder, hv.trans ?_⟩
  cases hown.symm.trans hd
  cases hread
  rfl

end EcmaEval
