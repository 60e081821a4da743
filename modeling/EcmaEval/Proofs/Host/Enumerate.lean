import EcmaEval.Proofs.Heap.Enumerate
import EcmaEval.Proofs.Host.Operation

/-!
# Enumerations as a host sees them

A host may do anything to a machine between two calls of an enumeration, and it may also do nothing to its
objects. What has been given is remembered in the names that are met, and what is left is known as long as
the objects stay the same.
-/
namespace EcmaEval

variable {g : Contract} {m₀ m m' : Machine} {o : ObjectId} {it : KeyIterator} {given : List Text}

/-- One enumeration of an object from a machine on, between the calls of which the machine may change along
a relation, and the names it has given so far. -/
inductive KeyIterator.Interleaves (R : Machine → Machine → Prop) (m₀ : Machine) (o : ObjectId) :
    Machine → KeyIterator → List Text → Prop
  | start : Interleaves R m₀ o m₀ (.start o) []
  | change {m m' : Machine} {it : KeyIterator} {given : List Text} (h : Interleaves R m₀ o m it given)
    (hR : R m m') : Interleaves R m₀ o m' it given
  | give {m : Machine} {it it' : KeyIterator} {given : List Text} {t : Text}
    (h : Interleaves R m₀ o m it given) (hnext : it.next m = .ok (some (t, it'))) :
    Interleaves R m₀ o m it' (given ++ [t])
  | finish {m : Machine} {it : KeyIterator} {given : List Text} (h : Interleaves R m₀ o m it given)
    (hnext : it.next m = .ok none) :
    Interleaves R m₀ o m { it with object := none, pending := none } given

theorem Contract.Reachable.mapsDeclarative (hopen : g.Open) (h : g.Reachable m) : m.MapsDeclarative := by
  obtain ⟨limit, h⟩ := h
  refine Steps.mapsDeclarative (h.steps hopen (g.sound_new limit)) (g.sound_new limit) fun o obj map ho => ?_
  cases ho

theorem Contract.Reachable.leads (h : g.Reachable m) (hleads : g.Leads m m') : g.Reachable m' := by
  obtain ⟨limit, h⟩ := h
  exact ⟨limit, h.trans hleads⟩

namespace KeyIterator.Interleaves

variable {R R' : Machine → Machine → Prop}

theorem mono (hR : ∀ m m', R m m' → R' m m') (h : Interleaves R m₀ o m it given) :
    Interleaves R' m₀ o m it given := by
  induction h with
  | start => exact .start
  | change _ hm ih => exact ih.change (hR _ _ hm)
  | give _ hnext ih => exact ih.give hnext
  | finish _ hnext ih => exact ih.finish hnext

/-- What has been given is met, and has been given once. -/
theorem met (h : Interleaves R m₀ o m it given) : given.Nodup ∧ ∀ t ∈ given, it.Met t = true := by
  induction h with
  | start => exact ⟨.nil, nofun⟩
  | change _ _ ih => exact ih
  | finish _ _ ih => exact ih
  | @give m it it' given t _ hnext ih =>
    obtain ⟨hnodup, hmet⟩ := ih
    have hgives := next_gives hnext
    constructor
    · refine hnodup.append (List.nodup_singleton t) (List.disjoint_singleton.mpr fun ht => ?_)
      exact Bool.false_ne_true (hgives.new.symm.trans (hmet t ht))
    · intro t' ht'
      rcases List.mem_append.mp ht' with ht' | ht'
      · exact hgives.keeps t' (hmet t' ht')
      · cases List.mem_singleton.mp ht'
        exact hgives.met

/-- Operations leave the object being visited in range. -/
theorem within (hopen : g.Open) (hm₀ : g.Reachable m₀) (ho : o.Within m₀.bounds)
    (h : Interleaves g.Leads m₀ o m it given) : g.Reachable m ∧ it.Within m.bounds := by
  induction h with
  | start => exact ⟨hm₀, fun p hp => by cases hp; exact ho⟩
  | change _ hleads ih =>
    have hbounds := Contract.Steps.bounds (hleads.steps hopen (ih.1.sound hopen)) (ih.1.sound hopen)
    exact ⟨ih.1.leads hleads, ih.2.mono hbounds⟩
  | finish _ _ ih => exact ⟨ih.1, nofun⟩
  | give _ hnext ih =>
    have hsound := ih.1.sound hopen
    obtain ⟨l, hl⟩ := hsound.chain _ ih.2
    have hasks := next_asks hl hsound
    rw [hnext] at hasks
    obtain ⟨l', hl', -⟩ := hasks _ _ rfl
    exact ⟨ih.1, .of_chain hl'⟩

/-- As long as operations leave the objects as they are, what has been given and what is left make up the
enumeration of the chain. -/
theorem awaits (hopen : g.Open) (hm₀ : g.Reachable m₀) (ho : o.Within m₀.bounds) {l : List ObjectId}
    (hl : m₀.Chain (some o) l)
    (h : Interleaves (fun m m' => g.Leads m m' ∧ m'.objects = m.objects) m₀ o m it given) :
    ∃ rest, given ++ rest = m₀.enumeration (fun _ => false) l ∧ it.Awaits m rest := by
  have hreachable {m : Machine} {it : KeyIterator} {given : List Text}
      (h : Interleaves (fun m m' => g.Leads m m' ∧ m'.objects = m.objects) m₀ o m it given) :
      g.Reachable m := ((h.mono fun _ _ hR => hR.1).within hopen hm₀ ho).1
  have hanswers {m : Machine} {it : KeyIterator} {rest : List Text} {r : Option (Text × KeyIterator)}
      (hm : g.Reachable m) (hawaits : it.Awaits m rest) (hnext : it.next m = .ok r) :
      Answers m rest r := by
    obtain ⟨r', hr, hanswers⟩ := next_answers (hm.sound hopen) (hm.mapsDeclarative hopen) hawaits
    cases hnext.symm.trans hr
    exact hanswers
  induction h with
  | start => exact ⟨_, rfl, .before hl rfl⟩
  | change hbefore hR ih =>
    obtain ⟨rest, hrest, hawaits⟩ := ih
    refine ⟨rest, hrest, hawaits.congr ((hreachable hbefore).mapsDeclarative hopen) ?_ hR.2⟩
    exact ((hreachable hbefore).leads hR.1).mapsDeclarative hopen
  | give hbefore hnext ih =>
    obtain ⟨rest, hrest, hawaits⟩ := ih
    cases hanswers (hreachable hbefore) hawaits hnext with
    | name hawaits => exact ⟨_, by rw [← hrest, List.append_assoc, List.singleton_append], hawaits⟩
  | finish hbefore hnext ih =>
    obtain ⟨rest, hrest, hawaits⟩ := ih
    cases hanswers (hreachable hbefore) hawaits hnext
    exact ⟨[], hrest, .before (l := []) .nil rfl⟩

end KeyIterator.Interleaves

/-- **Enumeration.** However the machine changes between the calls of an enumeration, no name is given
twice, and each is an enumerable own property of the object being visited when it is given. Among operations
of a host every call gives a name or that there is none left. As long as they leave the objects as they are,
the names given are the first ones of those along the prototype chain, each call gives the next, and there
is none left only when all have been given. -/
theorem reachable_enumeration (h : Contract.handles.Reachable m₀) (ho : o.Within m₀.bounds) :
    (∀ R m it given, KeyIterator.Interleaves R m₀ o m it given → given.Nodup ∧
      ∀ t it', it.next m = .ok (some (t, it')) → t ∉ given ∧ ∃ p, it'.object = some p ∧
        ∃ d, p.getOwnProperty (.string t) m = .ok (some d) ∧ d.enumerable = true) ∧
    (∀ m it given, KeyIterator.Interleaves Contract.handles.Leads m₀ o m it given →
      ∃ r, it.next m = .ok r) ∧
    ∃ l, m₀.Chain (some o) l ∧ ∀ m it given,
      KeyIterator.Interleaves (fun m m' => Contract.handles.Leads m m' ∧ m'.objects = m.objects)
        m₀ o m it given →
      ∃ rest, given ++ rest = m₀.enumeration (fun _ => false) l ∧
        ∃ r, it.next m = .ok r ∧ r.map Prod.fst = rest.head? := by
  have hopen := Contract.handles_open
  refine ⟨fun R m it given hcalls => ⟨hcalls.met.1, fun t it' hnext => ?_⟩, fun m it given hcalls => ?_, ?_⟩
  · have hgives := KeyIterator.next_gives hnext
    refine ⟨fun ht => ?_, hgives.enumerable⟩
    exact Bool.false_ne_true (hgives.new.symm.trans (hcalls.met.2 t ht))
  · obtain ⟨hm, hit⟩ := hcalls.within hopen h ho
    obtain ⟨l, hl⟩ := (hm.sound hopen).chain _ hit
    exact KeyIterator.next_total (hm.mapsDeclarative hopen) hl
  · obtain ⟨l, hl⟩ := (h.sound hopen).chain (some o) fun p hp => by cases hp; exact ho
    refine ⟨l, hl, fun m it given hcalls => ?_⟩
    obtain ⟨rest, hrest, hawaits⟩ := hcalls.awaits hopen h ho hl
    obtain ⟨hm, -⟩ := (hcalls.mono fun _ _ hR => hR.1).within hopen h ho
    obtain ⟨r, hr, hanswers⟩ := KeyIterator.next_answers (hm.sound hopen) (hm.mapsDeclarative hopen) hawaits
    refine ⟨rest, hrest, r, hr, ?_⟩
    cases hanswers <;> rfl

/-- A property that is not enumerable hides the one of the prototype, and an index comes first. -/
theorem reachable_enumeration_shadowed :
    let m₁ := (Operation.newObject none).run.after {}
    let m₂ := (Operation.createProperty ⟨0⟩ (.name "k") (.boolean true)).run.after m₁
    let m₃ := (Operation.createProperty ⟨0⟩ (.name "p") (.boolean true)).run.after m₂
    let m₄ := (Operation.newObject (some ⟨0⟩)).run.after m₃
    let m₅ := (Operation.define ⟨1⟩ (.name "k") (.data .null true false true)).run.after m₄
    let m₆ := (Operation.createProperty ⟨1⟩ (.ofIndex 0) .null).run.after m₅
    let m₇ := (Operation.newSymbol none).run.after m₆
    ∃ it it', (KeyIterator.start ⟨1⟩).next m₆ = .ok (some (.ofString "0", it)) ∧
      it.next m₇ = .ok (some (.ofString "p", it')) ∧ it'.next m₇ = .ok none := by
  intro m₁ m₂ m₃ m₄ m₅ m₆ m₇
  have hp : ObjectId.Within m₁.bounds ⟨0⟩ := by decide +kernel
  have hp' : ObjectId.Within m₂.bounds ⟨0⟩ := by decide +kernel
  have hp'' : ObjectId.Within m₃.bounds ⟨0⟩ := by decide +kernel
  have ho : ObjectId.Within m₄.bounds ⟨1⟩ := by decide +kernel
  have ho' : ObjectId.Within m₅.bounds ⟨1⟩ := by decide +kernel
  have ho'' : ObjectId.Within m₆.bounds ⟨1⟩ := by decide +kernel
  have h₁ : Contract.handles.Reachable m₁ := (Contract.Reachable.new _).perform (.newObject none) nofun
  have h₂ : Contract.handles.Reachable m₂ :=
    h₁.perform (.createProperty ⟨0⟩ (.name "k") (.boolean true)) ⟨hp, trivial, nofun⟩
  have h₃ : Contract.handles.Reachable m₃ :=
    h₂.perform (.createProperty ⟨0⟩ (.name "p") (.boolean true)) ⟨hp', trivial, nofun⟩
  have h₄ : Contract.handles.Reachable m₄ :=
    h₃.perform (.newObject (some ⟨0⟩)) fun p hp => by cases hp; exact hp''
  have h₅ : Contract.handles.Reachable m₅ :=
    h₄.perform (.define ⟨1⟩ (.name "k") (.data .null true false true)) ⟨ho, trivial, nofun⟩
  have h₆ : Contract.handles.Reachable m₆ :=
    h₅.perform (.createProperty ⟨1⟩ (.ofIndex 0) .null) ⟨ho', trivial, nofun⟩
  have hleads : Contract.handles.Leads m₆ m₇ := .single (Contract.performs (.newSymbol none) trivial)
  have hsame (m : Machine) : ((Operation.newSymbol none).run.after m).objects = m.objects := rfl
  -- the chain is found by evaluation, and the enumeration along it as well
  have hchain : m₆.Chain (some ⟨1⟩) [⟨1⟩, ⟨0⟩] := by
    have hobject : (m₆.object? ⟨1⟩).map Object.prototype = some (some ⟨0⟩) := by decide +kernel
    have hproto : (m₆.object? ⟨0⟩).map Object.prototype = some none := by decide +kernel
    obtain ⟨obj, hobj, hprototype⟩ := Option.map_eq_some_iff.mp hobject
    obtain ⟨obj', hobj', hprototype'⟩ := Option.map_eq_some_iff.mp hproto
    exact .cons hobj (hprototype ▸ .cons hobj' (hprototype' ▸ .nil))
  have hnames : m₆.enumeration (fun _ => false) [⟨1⟩, ⟨0⟩] = [.ofString "0", .ofString "p"] := by
    decide +kernel
  obtain ⟨-, -, l, hl, hcalls⟩ := reachable_enumeration h₆ ho''
  cases hl.unique hchain
  rw [hnames] at hcalls
  have hnext {m : Machine} {it : KeyIterator} {given : List Text} (rest : List Text)
      (h : KeyIterator.Interleaves
        (fun m m' => Contract.handles.Leads m m' ∧ m'.objects = m.objects) m₆ ⟨1⟩ m it given)
      (hrest : given ++ rest = [.ofString "0", .ofString "p"]) :
      ∃ r, it.next m = .ok r ∧ r.map Prod.fst = rest.head? := by
    obtain ⟨rest', hrest', hr⟩ := hcalls m it given h
    cases List.append_cancel_left (hrest'.trans hrest.symm)
    exact hr
  obtain ⟨r, hr, hfirst⟩ := hnext _ .start rfl
  obtain ⟨⟨t, it⟩, rfl, rfl⟩ := Option.map_eq_some_iff.mp hfirst
  have hgiven : KeyIterator.Interleaves (fun m m' => Contract.handles.Leads m m' ∧ m'.objects = m.objects)
      m₆ ⟨1⟩ m₇ it ([] ++ [.ofString "0"]) := (KeyIterator.Interleaves.start.give hr).change ⟨hleads, hsame m₆⟩
  obtain ⟨r', hr', hsecond⟩ := hnext [.ofString "p"] hgiven rfl
  obtain ⟨⟨t', it'⟩, rfl, rfl⟩ := Option.map_eq_some_iff.mp hsecond
  obtain ⟨r'', hr'', hend⟩ := hnext [] (hgiven.give hr') rfl
  cases Option.map_eq_none_iff.mp hend
  exact ⟨it, it', hr, hr', hr''⟩

end EcmaEval
