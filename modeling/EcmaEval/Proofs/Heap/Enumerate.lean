import EcmaEval.Proofs.Heap.Listing
import EcmaEval.Proofs.Sound.ForIn

/-!
# Enumerations

What one call of an enumeration gives is new to it and there to be given, whatever has happened to the machine
since the call before. A call does not fail on a sound machine. On a heap that stays the same the calls give
one name after the other of the enumeration of the chain, until none is left.
-/
namespace EcmaEval.KeyIterator

variable {g : Contract} {m : Machine} {o : ObjectId} {obj : Object} {t : Text} {it it' : KeyIterator}

/-- Whether an enumeration has met a name. -/
def Met (it : KeyIterator) (t : Text) : Bool := it.visited.contains (.string t)

/-- A name is given as an enumerable own property, and is met from then on. -/
structure Gives (m : Machine) (it : KeyIterator) (t : Text) (it' : KeyIterator) : Prop where
  new : it.Met t = false
  met : it'.Met t = true
  keeps : ∀ t, it.Met t = true → it'.Met t = true
  enumerable : ∃ p, it'.object = some p ∧
    ∃ d, p.getOwnProperty (.string t) m = .ok (some d) ∧ d.enumerable = true

/-- What is picked of the keys left of an object is a new name, that of an enumerable own property. -/
structure Picks (m : Machine) (o : ObjectId) (visited : List Key) (found : Option (Text × List Key))
    (visited' : List Key) : Prop where
  keeps : ∀ key, visited.contains key = true → visited'.contains key = true
  new : ∀ t rest, found = some (t, rest) → visited.contains (.string t) = false
  met : ∀ t rest, found = some (t, rest) → visited'.contains (.string t) = true
  enumerable : ∀ t rest, found = some (t, rest) →
    ∃ d, o.getOwnProperty (.string t) m = .ok (some d) ∧ d.enumerable = true

theorem Picks.of_cons {key : Key} {visited visited' : List Key} {found : Option (Text × List Key)}
    (h : Picks m o (key :: visited) found visited') : Picks m o visited found visited' where
  keeps k hk := h.keeps k (by rw [List.contains_cons, hk, Bool.or_true])
  new t rest hfound := by
    have hnew := h.new t rest hfound
    rw [List.contains_cons, Bool.or_eq_false_iff] at hnew
    exact hnew.2
  met := h.met
  enumerable := h.enumerable

theorem nextOwn_picks {keys visited visited' : List Key} {found : Option (Text × List Key)}
    (h : nextOwn o keys visited m = .ok (found, visited')) : Picks m o visited found visited' := by
  induction keys generalizing visited with
  | nil =>
    cases h
    exact ⟨fun _ hk => hk, nofun, nofun, nofun⟩
  | cons key rest ih =>
    unfold nextOwn at h
    cases hvisited : visited.contains key with
    | true =>
      rw [if_pos hvisited] at h
      exact ih h
    | false =>
      rw [if_neg (Bool.eq_false_iff.mp hvisited)] at h
      obtain ⟨own, hown, h⟩ := Query.bind_eq_ok h
      cases own with
      | none => exact ih h
      | some d =>
        cases key with
        | symbol s => exact (ih h).of_cons
        | string t =>
          dsimp only at h
          split at h
          · cases h
            refine ⟨fun k hk => ?_, ?_, ?_, ?_⟩
            · rw [List.contains_cons, hk, Bool.or_true]
            all_goals
              intro t' rest' hfound
              cases hfound
            · exact hvisited
            · rw [List.contains_cons, BEq.rfl, Bool.true_or]
            · exact ⟨d, hown, ‹_›⟩
          · exact (ih h).of_cons

theorem advance_of_end {steps : Nat} (hobject : it.object = none) :
    it.advance (steps + 1) m = .ok none := by
  unfold advance
  rw [hobject]
  rfl

/-- The keys of an object are listed unless its visit has begun. -/
theorem advance_eq_visit {steps : Nat} (hobject : it.object = some o) (ho : m.object? o = some obj) :
    it.advance (steps + 1) m =
      visit steps o (it.pending.getD (obj.properties.orderedKeys.filter Key.isString)) it.visited m := by
  have hkeys : o.ownKeys m = .ok obj.properties.orderedKeys := Query.bind_ok (ObjectId.load_eq ho)
  unfold advance
  rw [hobject]
  cases it.pending with
  | some keys => rfl
  | none => exact Query.bind_ok hkeys

theorem visit_gives {steps : Nat} {keys visited : List Key}
    (hadvance : ∀ it : KeyIterator, it.advance steps m = .ok (some (t, it')) → it.Gives m t it')
    (h : visit steps o keys visited m = .ok (some (t, it'))) :
    Gives m ⟨some o, some keys, visited⟩ t it' := by
  unfold visit at h
  obtain ⟨⟨found, visited'⟩, hnext, h⟩ := Query.bind_eq_ok h
  have hpicks := nextOwn_picks hnext
  cases found with
  | some found =>
    obtain ⟨t', rest⟩ := found
    cases h
    exact ⟨hpicks.new t rest rfl, hpicks.met t rest rfl, fun t => hpicks.keeps (.string t), o, rfl,
      hpicks.enumerable t rest rfl⟩
  | none =>
    obtain ⟨obj, -, h⟩ := Query.bind_eq_ok h
    obtain ⟨hnew, hmet, hkeeps, henumerable⟩ := hadvance _ h
    refine ⟨?_, hmet, fun t ht => hkeeps t (hpicks.keeps (.string t) ht), henumerable⟩
    exact Bool.eq_false_iff.mpr fun ht => Bool.eq_false_iff.mp hnew (hpicks.keeps (.string t) ht)

theorem advance_gives {steps : Nat} (h : it.advance steps m = .ok (some (t, it'))) : it.Gives m t it' := by
  induction steps generalizing it with
  | zero => cases h
  | succ steps ih =>
    cases hobject : it.object with
    | none =>
      rw [advance_of_end hobject] at h
      cases h
    | some o =>
      have hvisit : ∃ keys, visit steps o keys it.visited m = .ok (some (t, it')) := by
        unfold advance at h
        rw [hobject] at h
        cases hpending : it.pending with
        | some keys =>
          rw [hpending] at h
          exact ⟨keys, h⟩
        | none =>
          rw [hpending] at h
          obtain ⟨keys, -, h⟩ := Query.bind_eq_ok h
          exact ⟨_, h⟩
      obtain ⟨keys, hrun⟩ := hvisit
      obtain ⟨hnew, hmet, hkeeps, henumerable⟩ := visit_gives (fun it => ih) hrun
      exact ⟨hnew, hmet, hkeeps, henumerable⟩

theorem next_gives (h : it.next m = .ok (some (t, it'))) : it.Gives m t it' := advance_gives h

theorem nextOwn_total (hm : m.MapsDeclarative) (ho : m.object? o = some obj) (keys visited : List Key) :
    ∃ r, nextOwn o keys visited m = .ok r := by
  induction keys generalizing visited with
  | nil => exact ⟨_, rfl⟩
  | cons key rest ih =>
    obtain ⟨own, hown, -⟩ := ObjectId.getOwnProperty_total hm ho key
    unfold nextOwn
    split
    · exact ih visited
    · rw [Query.bind_ok hown]
      cases own with
      | none => exact ih visited
      | some d =>
        cases key with
        | symbol s => exact ih _
        | string t =>
          dsimp only
          split
          · exact ⟨_, rfl⟩
          · exact ih _

/-- With a step for each object of its chain, an enumeration whose objects report their properties comes
to an answer. -/
theorem advance_total {steps : Nat} {l : List ObjectId} (hm : m.MapsDeclarative) (hl : m.Chain it.object l)
    (hsteps : l.length < steps) : ∃ r, it.advance steps m = .ok r := by
  induction steps generalizing it l with
  | zero => exact absurd hsteps (Nat.not_lt_zero _)
  | succ steps ih =>
    cases hobject : it.object with
    | none => exact ⟨none, advance_of_end hobject⟩
    | some o =>
      rw [hobject] at hl
      cases hl with
      | cons ho hrest =>
        rw [advance_eq_visit hobject ho]
        obtain ⟨⟨found, visited⟩, hnext⟩ := nextOwn_total hm ho
          (it.pending.getD _) it.visited
        unfold visit
        rw [Query.bind_ok hnext]
        cases found with
        | some found => exact ⟨_, rfl⟩
        | none =>
          dsimp only
          rw [Query.bind_ok (ObjectId.load_eq ho)]
          exact ih hrest (Nat.lt_of_succ_lt_succ hsteps)

theorem next_total {l : List ObjectId} (hm : m.MapsDeclarative) (hl : m.Chain it.object l) :
    ∃ r, it.next m = .ok r :=
  advance_total hm hl (Nat.lt_succ_of_le (Nat.le_succ_of_le hl.length_le))

/-- Which of the names left in the visit of an object are to be given. -/
def toGive (m : Machine) (o : ObjectId) (visited : List Key) (left : List Text) : List Text :=
  left.filter fun t => m.enumerates o t && !visited.contains (.string t)

/-- What is hidden from the objects after one whose visit has some names left. -/
def hidden (visited : List Key) (left : List Text) (t : Text) : Bool :=
  visited.contains (.string t) || left.contains t

/-- The names an enumeration has left to give on a heap that stays the same. Before the visit of an object
these are the ones of the enumeration of its chain that have not been met; during the visit, some of its
own names come before those of the objects after it. -/
inductive Awaits (m : Machine) (it : KeyIterator) : List Text → Prop
  | before {l : List ObjectId} (hl : m.Chain it.object l) (hpending : it.pending = none) :
    Awaits m it (m.enumeration it.Met l)
  | during {o : ObjectId} {obj : Object} {l : List ObjectId} {left : List Text}
    (hobject : it.object = some o) (ho : m.object? o = some obj) (hl : m.Chain obj.prototype l)
    (hpending : it.pending = some (left.map Key.string)) (hleft : left.Nodup)
    (howned : ∀ t ∈ left, m.owns o t = true) :
    Awaits m it (toGive m o it.visited left ++ m.enumeration (hidden it.visited left) l)

/-- A call gives the first of the names that are left, or none if none is left. -/
inductive Answers (m : Machine) : List Text → Option (Text × KeyIterator) → Prop
  | nothing : Answers m [] none
  | name {t : Text} {rest : List Text} {it : KeyIterator} (h : it.Awaits m rest) :
    Answers m (t :: rest) (some (t, it))

section Exact

variable {left : List Text} {visited : List Key} {l : List ObjectId} {steps : Nat}

theorem hidden_of_met (h : visited.contains (.string t) = true) (left : List Text) :
    hidden visited (t :: left) = hidden visited left := by
  funext t'
  unfold hidden
  rw [List.contains_cons]
  cases ht : t' == t with
  | false => rw [Bool.false_or]
  | true => rw [eq_of_beq ht, h, Bool.true_or, Bool.true_or]

theorem hidden_of_cons (t : Text) (visited : List Key) (left : List Text) :
    hidden (.string t :: visited) left = hidden visited (t :: left) := by
  funext t'
  unfold hidden
  rw [List.contains_cons, List.contains_cons, Key.string_beq, Bool.or_assoc, Bool.or_left_comm]

/-- To meet a name makes no difference for others. -/
theorem toGive_of_cons (o : ObjectId) (ht : t ∉ left) (visited : List Key) :
    toGive m o (.string t :: visited) left = toGive m o visited left := by
  refine List.filter_congr fun t' ht' => ?_
  have hne : (t' == t) = false := beq_false_of_ne fun h => ht (h ▸ ht')
  rw [List.contains_cons, Key.string_beq, hne, Bool.false_or]

/-- The first name to be given among the names left is found, and what is left after it. -/
theorem nextOwn_eq (hleft : left.Nodup) (howned : ∀ t ∈ left, m.owns o t = true) (visited : List Key) :
    ∃ found left' visited',
      nextOwn o (left.map Key.string) visited m = .ok (found.map (·, left'.map Key.string), visited') ∧
      left' <:+ left ∧ (found = none → left' = []) ∧
      toGive m o visited left = found.toList ++ toGive m o visited' left' ∧
      hidden visited' left' = hidden visited left := by
  -- By induction on the names left: passing over one that was met or is not enumerable changes neither
  -- what is left to give nor what is hidden.
  induction left generalizing visited with
  | nil => exact ⟨none, [], visited, rfl, List.suffix_rfl, fun _ => rfl, rfl, rfl⟩
  | cons t rest ih =>
    obtain ⟨ht, hrest⟩ := List.nodup_cons.mp hleft
    have ih := ih hrest fun t ht => howned t (List.mem_cons_of_mem _ ht)
    rw [List.map_cons]
    unfold nextOwn
    cases hvisited : visited.contains (Key.string t) with
    | true =>
      obtain ⟨found, left', visited', hrun, hsuffix, hend, hgive, hhidden⟩ := ih visited
      rw [if_pos rfl]
      refine ⟨found, left', visited', hrun, hsuffix.trans (List.suffix_cons t rest), hend, ?_, ?_⟩
      · rw [← hgive]
        exact List.filter_cons_of_neg (by simp [hvisited])
      · rw [hidden_of_met hvisited, hhidden]
    | false =>
      obtain ⟨d, hown⟩ := Machine.exists_of_owns (howned t List.mem_cons_self)
      have henumerates : m.enumerates o t = d.enumerable := by
        unfold Machine.enumerates
        rw [hown]
      rw [if_neg Bool.false_ne_true, Query.bind_ok hown]
      dsimp only
      cases henumerable : d.enumerable with
      | true =>
        rw [if_pos rfl]
        refine ⟨some t, rest, .string t :: visited, rfl, List.suffix_cons t rest,
          fun h => absurd h (Option.some_ne_none t), ?_, ?_⟩
        · rw [toGive_of_cons o ht]
          exact List.filter_cons_of_pos (by simp [henumerates, henumerable, hvisited])
        · exact hidden_of_cons t visited rest
      | false =>
        obtain ⟨found, left', visited', hrun, hsuffix, hend, hgive, hhidden⟩ := ih (.string t :: visited)
        rw [if_neg Bool.false_ne_true]
        refine ⟨found, left', visited', hrun, hsuffix.trans (List.suffix_cons t rest), hend, ?_, ?_⟩
        · rw [← hgive, toGive_of_cons o ht]
          exact List.filter_cons_of_neg (by simp [henumerates, henumerable])
        · rw [hhidden, hidden_of_cons]

theorem visit_eq (ho : m.object? o = some obj) (hl : m.Chain obj.prototype l) (hleft : left.Nodup)
    (howned : ∀ t ∈ left, m.owns o t = true)
    (hadvance : ∀ it : KeyIterator, it.object = obj.prototype → it.pending = none →
      ∃ r, it.advance steps m = .ok r ∧ Answers m (m.enumeration it.Met l) r) :
    ∃ r, visit steps o (left.map Key.string) visited m = .ok r ∧
      Answers m (toGive m o visited left ++ m.enumeration (hidden visited left) l) r := by
  obtain ⟨found, left', visited', hrun, hsuffix, hend, hgive, hhidden⟩ := nextOwn_eq hleft howned visited
  rw [hgive, ← hhidden]
  unfold visit
  rw [Query.bind_ok hrun]
  cases found with
  | some t =>
    refine ⟨_, rfl, .name (.during rfl ho hl rfl ?_ ?_)⟩
    · exact hleft.sublist hsuffix.sublist
    · exact fun t ht => howned t (hsuffix.mem ht)
  | none =>
    cases hend rfl
    have hmet : hidden visited' [] = Met ⟨obj.prototype, none, visited'⟩ := by
      funext t
      exact Bool.or_false _
    rw [hmet]
    dsimp only [Option.map_none]
    rw [Query.bind_ok (ObjectId.load_eq ho)]
    exact hadvance _ rfl rfl

/-- With a step for each object of its chain and one more, an enumeration gives the first of the names it
has left. -/
theorem advance_eq {rest : List Text} (hsound : g.Sound m) (hm : m.MapsDeclarative) (h : it.Awaits m rest)
    (hl : m.Chain it.object l) (hsteps : l.length < steps) :
    ∃ r, it.advance steps m = .ok r ∧ Answers m rest r := by
  induction steps generalizing it l rest with
  | zero => exact absurd hsteps (Nat.not_lt_zero _)
  | succ steps ih =>
    cases hobject : it.object with
    | none =>
      refine ⟨none, advance_of_end hobject, ?_⟩
      cases h with
      | before hl hpending =>
        rw [hobject] at hl
        cases hl
        exact .nothing
      | during hobject' => cases hobject.symm.trans hobject'
    | some o =>
      rw [hobject] at hl
      cases hl with
      | @cons _ obj l ho hrest =>
        have hvisit {left : List Text} (hleft : left.Nodup) (howned : ∀ t ∈ left, m.owns o t = true) :
            ∃ r, visit steps o (left.map Key.string) it.visited m = .ok r ∧
              Answers m (toGive m o it.visited left ++ m.enumeration (hidden it.visited left) l) r :=
          visit_eq ho hrest hleft howned fun it hobject hpending => by
            rw [← hobject] at hrest
            exact ih (.before hrest hpending) hrest (Nat.lt_of_succ_lt_succ hsteps)
        rw [advance_eq_visit hobject ho]
        cases h with
        | before hl hpending =>
          rw [hobject] at hl
          cases hl.unique (.cons ho hrest)
          -- the visit begins with all own names left, which are also what the object hides
          have hkeys : obj.properties.orderedKeys.filter Key.isString = (m.ownNames o).map Key.string := by
            rw [Key.filter_isString, Machine.ownNames_eq ho]
          have hhidden : (fun t => it.Met t || m.owns o t) = hidden it.visited (m.ownNames o) := by
            funext t
            rw [Machine.owns_eq hm ho]
            rfl
          rw [hpending, Option.getD_none, hkeys, Machine.enumeration, hhidden]
          refine hvisit (Machine.nodup_ownNames ho (hsound.objects o obj ho).keys) fun t ht => ?_
          rw [Machine.owns_eq hm ho, List.contains_iff_mem]
          exact ht
        | during hobject' ho' hl hpending hleft howned =>
          cases hobject.symm.trans hobject'
          cases ho.symm.trans ho'
          cases hl.unique hrest
          rw [hpending, Option.getD_some]
          exact hvisit hleft howned

theorem next_answers {rest : List Text} (hsound : g.Sound m) (hm : m.MapsDeclarative)
    (h : it.Awaits m rest) : ∃ r, it.next m = .ok r ∧ Answers m rest r := by
  have hchain : ∃ l, m.Chain it.object l := by
    cases h with
    | before hl hpending => exact ⟨_, hl⟩
    | during hobject ho hl hpending hleft howned => exact ⟨_, by rw [hobject]; exact .cons ho hl⟩
  obtain ⟨l, hl⟩ := hchain
  exact advance_eq hsound hm h hl (Nat.lt_succ_of_le (Nat.le_succ_of_le hl.length_le))

/-- What is left stays the same on a machine that has the same objects. -/
theorem Awaits.congr {m' : Machine} {rest : List Text} (h : it.Awaits m rest) (hm : m.MapsDeclarative)
    (hm' : m'.MapsDeclarative) (hobjects : m'.objects = m.objects) : it.Awaits m' rest := by
  cases h with
  | @before l hl hpending =>
    rw [← Machine.enumeration_congr hobjects hm hm' hl]
    exact .before (hl.congr hobjects) hpending
  | @during o obj l left hobject ho hl hpending hleft howned =>
    have ho' : m'.object? o = some obj := (Machine.object?_congr hobjects o).trans ho
    have hsame (t : Text) : m'.owns o t = m.owns o t := by
      rw [Machine.owns_eq hm' ho', Machine.owns_eq hm ho, Machine.ownNames_eq ho', Machine.ownNames_eq ho]
    have hgive : toGive m' o it.visited left = toGive m o it.visited left := by
      refine List.filter_congr fun t _ => ?_
      rw [Machine.enumerates_eq hm' ho', Machine.enumerates_eq hm ho]
    rw [← Machine.enumeration_congr hobjects hm hm' hl, ← hgive]
    exact .during hobject ho' (hl.congr hobjects) hpending hleft fun t ht => by
      rw [hsame]
      exact howned t ht

end Exact

end EcmaEval.KeyIterator
