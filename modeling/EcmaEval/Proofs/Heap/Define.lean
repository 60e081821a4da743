import EcmaEval.Proofs.Heap.Move

/-!
# Defining a property

A definition is a sequence of moves, whatever kind of object it is made on: an ordinary object stores
a descriptor that passes the check, a mapped key is redefined together with its parameter, and an
array moves its length or removes indices. It fails by a complaint only, provided that arrays have a
length and that mapped keys stand for variables.
-/
namespace EcmaEval

variable {g : Contract} {m : Machine} {o : ObjectId} {obj : Object} {key : Key} {d : Descriptor}

namespace ObjectId

theorem mappedParameter_asks (ho : m.object? o = some obj) :
    g.Asks m (o.mappedParameter key) fun p => p = obj.parameter? key := by
  intro _
  rw [mappedParameter_eq ho]

/-- A mapped key has a parameter in a declarative environment, under a guarded contract. -/
theorem mappedValue_asks {P : Value → Prop} (hP : m.Holds P) (ho : m.object? o = some obj) :
    g.Asks m (o.mappedValue key) fun v => ∀ w, v = some w → P w := by
  refine .of_sound fun hm => ?_
  cases hkey : obj.parameter? key with
  | none =>
    intro _
    rw [mappedValue_eq_none ho hkey]
    simp
  | some p =>
    obtain ⟨env, name⟩ := p
    obtain ⟨map, hmap, rfl, hname⟩ := Object.parameter?_some hkey
    have henv := (hm.objects o obj ho).parameterMap hmap
    obtain ⟨e, he⟩ := Machine.exists_env henv
    cases e with
    | declarative r =>
      intro _
      rw [mappedValue_eq ho hkey he]
      intro w hw
      obtain ⟨x, hx, hv⟩ := Option.bind_eq_some_iff.mp hw
      exact hP.bindings _ r he _ (DeclarativeRecord.mem_of_get? hx) w hv
    | _ =>
      refine .bind (mappedParameter_asks ho) fun p _ hp => ?_
      rw [hp, hkey]
      refine .bind (EnvId.load_asks henv) fun e' _ he' => ?_
      rw [he] at he'
      cases he'
      refine .breach _ fun hc => ?_
      obtain ⟨⟨r, x, hr, -⟩, -⟩ := hm.aliases (g.guarded_of_checked hc) o obj ho map key name hmap hname
      rw [he] at hr
      cases hr

/-- What an own property is reported to be: the stored one, but for the value of a mapped key. -/
theorem getOwnProperty_asks (ho : o.Within m.bounds) :
    g.Asks m (o.getOwnProperty key) fun current =>
      ∃ obj, m.object? o = some obj ∧
        (current.isSome = (obj.properties.get? key).isSome) ∧
        (∀ d, current = some d → d.All (g.Stored m.bounds)) ∧
        (∀ d, current = some d → ∃ d', obj.properties.get? key = some d' ∧
          d'.configurable = d.configurable) := by
  refine .of_sound fun hm => .bind (load_asks ho) fun obj _ hobj => ?_
  refine .bind (mappedValue_asks hm.holds hobj) fun v _ hv => ?_
  have hok := hm.objects o obj hobj
  cases hstored : obj.properties.get? key with
  | none => exact .pure ⟨obj, hobj, by simp [hstored], by simp, by simp⟩
  | some d =>
    have hd := hok.get? hstored
    cases d with
    | accessor get set enumerable configurable =>
      refine .pure ⟨obj, hobj, by simp [hstored], ?_, ?_⟩
      · rintro _ ⟨rfl⟩
        exact hd
      · rintro _ ⟨rfl⟩
        exact ⟨_, hstored, rfl⟩
    | data w writable enumerable configurable =>
      cases v with
      | none =>
        refine .pure ⟨obj, hobj, by simp [hstored], ?_, ?_⟩
        · rintro _ ⟨rfl⟩
          exact hd
        · rintro _ ⟨rfl⟩
          exact ⟨_, hstored, rfl⟩
      | some v =>
        refine .pure ⟨obj, hobj, by simp [hstored], ?_, ?_⟩
        · rintro _ ⟨rfl⟩
          exact hv v rfl
        · rintro _ ⟨rfl⟩
          exact ⟨_, hstored, rfl⟩

/-- An ordinary definition. Under a guarded contract the key must not be mapped, and the length of an
array must stay a number. -/
theorem defineOrdinary_yields (ho : m.object? o = some obj) (hd : d.All (g.Stored m.bounds))
    (hfree : g.guarded → obj.parameter? key = none)
    (hlength : g.guarded → obj.isArray = true → (key == .length) = true →
      Descriptor.mayBecome (obj.properties.get? key) obj.extensible d = true →
      ∃ n, d.value? = some (.number n)) :
    g.Yields g.Moves m (o.defineOrdinary key d) fun _ _ => True := by
  have hR := g.moves_motion
  intro hm
  have hasks : g.Asks m (o.getOwnProperty key) _ := getOwnProperty_asks (Machine.within_of_object? ho)
  have hget := hasks hm
  cases hcurrent : o.getOwnProperty key m with
  | error e =>
    rw [hcurrent] at hget
    have hrun : o.defineOrdinary key d m = .error e m := bind_error (lift_error hcurrent)
    rw [hrun]
    exact ⟨.refl, hget⟩
  | ok current =>
    rw [defineOrdinary_eq_of_current ho hcurrent]
    by_cases hmay : Descriptor.mayBecome current obj.extensible d = true
    · rw [if_pos hmay]
      have hstored (hg : g.guarded) :
          Descriptor.mayBecome (obj.properties.get? key) obj.extensible d = true := by
        rw [getOwnProperty_eq_stored ho (hfree hg)] at hcurrent
        cases hcurrent
        exact hmay
      exact ⟨.single (.insert ho hd hfree hstored fun hg ha hk => hlength hg ha hk (hstored hg)),
        trivial⟩
    · rw [if_neg hmay]
      exact ⟨.refl, trivial⟩

theorem modify_yields {R : Machine → Machine → Prop} {f : Object → Object} (ho : o.Within m.bounds)
    (hstep : R m (m.updateObject o f)) :
    g.Yields R m (o.modify f) fun m' _ => m' = m.updateObject o f :=
  .of_ok (modify_eq ho f) hstep rfl

/-- Without a guard a parameter is written as its record allows. -/
theorem writeParameter_moves {env : EnvId} {name : String} {v : Value} (hraw : ¬ g.guarded)
    (henv : env.Within m.bounds) (hv : g.Stored m.bounds v) :
    g.Yields g.Moves m (writeParameter env name v) fun _ _ => True := by
  have hR := g.moves_motion
  refine .query hR (EnvId.load_asks henv) fun e _ he => ?_
  cases e with
  | declarative r =>
    refine .bind hR (Q := fun m' r' => m' = m ∧ r.assign name v false = .ok r')
      (settle_yields hR (fun r' hr' => ⟨rfl, hr'⟩) fun hc => absurd (g.guarded_of_checked hc) hraw) ?_
    rintro r' _ - - - ⟨rfl, hr'⟩
    exact .of_ok (EnvId.store_eq henv _) (.single (.assign hraw he hr' hv)) trivial
  | _ => exact .breach hR _ fun hc => hraw (g.guarded_of_checked hc)

theorem defineMapped_yields {env : EnvId} {name : String} (ho : m.object? o = some obj)
    (hkey : obj.parameter? key = some (env, name)) (hd : d.All (g.Stored m.bounds)) :
    g.Yields g.Moves m (o.defineMapped key d env name) fun _ _ => True := by
  have hR := g.moves_motion
  refine .of_sound fun hm => ?_
  obtain ⟨map, hmap, rfl, hname⟩ := Object.parameter?_some hkey
  by_cases hg : g.guarded
  · obtain ⟨⟨r, x, he, hx, hmut, -, hvalue⟩, v, enumerable, configurable, hstored⟩ :=
      hm.aliases hg o obj ho map key name hmap hname
    obtain ⟨current, hcurrent⟩ := Option.isSome_iff_exists.mp hvalue
    have hrun := defineMapped_eq ho hkey he hx hmut hcurrent hstored d
    by_cases hmay : Descriptor.mayBecome (some (.data current true enumerable configurable))
        obj.extensible d = true
    · rw [if_pos hmay] at hrun
      exact .of_ok hrun (.single (.redefine hg ho hkey he hx hcurrent hstored hmay hd)) trivial
    · rw [if_neg hmay] at hrun
      exact .of_ok hrun .refl trivial
  · refine .bind hR (defineOrdinary_yields ho hd (absurd · hg) (absurd · hg)) ?_
    intro defined m₁ _ hmoves hm₁ _
    have hb := hR.bounds hm hmoves
    have ho₁ : o.Within m₁.bounds := Nat.lt_of_lt_of_le (Machine.within_of_object? ho) hb.1
    have hunmap {m₂ : Machine} (hin : o.Within m₂.bounds) :
        g.Moves m₂ (m₂.updateObject o (·.unmap key)) :=
      have ⟨_, hobj⟩ := Machine.exists_object hin
      .single (.unmap hg hobj)
    cases defined with
    | false => exact .pure hR trivial
    | true =>
      cases d with
      | accessor get set enumerable configurable =>
        exact .bind hR (modify_yields ho₁ (hunmap ho₁)) fun _ _ _ _ _ _ => .pure hR trivial
      | data v writable enumerable configurable =>
        have henv : map.env.Within m₁.bounds :=
          Nat.lt_of_lt_of_le ((hm.objects o obj ho).parameterMap hmap) hb.2.1
        refine .bind hR (writeParameter_moves hg henv (Contract.Stored.mono hb hd)) ?_
        intro _ m₂ _ hmoves₂ _ _
        have ho₂ : o.Within m₂.bounds := Nat.lt_of_lt_of_le ho₁ (hR.bounds hm₁ hmoves₂).1
        cases writable with
        | true => exact .pure hR trivial
        | false => exact .bind hR (modify_yields ho₂ (hunmap ho₂)) fun _ _ _ _ _ _ => .pure hR trivial

/-- A property is erased after its check, by whatever steps the run is made of. -/
theorem delete_yields {R : Machine → Machine → Prop} (hR : g.Motion R) (ho : o.Within m.bounds)
    (herase : ∀ obj, m.object? o = some obj →
      (g.guarded → ∀ d, obj.properties.get? key = some d → d.configurable = true) →
      R m (m.updateObject o (·.erase key))) :
    g.Yields R m (o.delete key) fun _ _ => True := by
  refine .query hR (getOwnProperty_asks ho) fun current _ ⟨obj, hobj, _, _, hstored⟩ => ?_
  cases current with
  | none => exact .pure hR trivial
  | some d =>
    dsimp only
    split
    · rename_i hconfigurable
      refine .bind hR (modify_yields ho (herase obj hobj fun _ d' hd' => ?_))
        fun _ _ _ _ _ _ => .pure hR trivial
      obtain ⟨d'', hd'', hc⟩ := hstored d rfl
      rw [hd'] at hd''
      cases hd''
      exact hc.trans hconfigurable
    · exact .pure hR trivial

theorem removeIndices_yields (indices : List Nat) (ho : o.Within m.bounds) :
    g.Yields g.Moves m (o.removeIndices indices) fun _ _ => True := by
  have hR := g.moves_motion
  induction indices generalizing m with
  | nil => exact .pure hR trivial
  | cons index rest ih =>
    refine .of_sound fun hm => ?_
    refine .bind hR (delete_yields hR ho fun _ hobj hc => .single (.erase hobj hc)) ?_
    intro deleted m' _ hmoves _ _
    cases deleted with
    | false => exact .pure hR trivial
    | true => exact ih (Nat.lt_of_lt_of_le ho (hR.bounds hm hmoves).1)

end ObjectId

/-- An object that is an array. -/
def Machine.IsArray (m : Machine) (o : ObjectId) : Prop :=
  ∃ obj, m.object? o = some obj ∧ obj.kind = .array

theorem Machine.IsArray.moves {m' : Machine} (ha : m.IsArray o) (h : g.Moves m m') :
    m'.IsArray o := by
  obtain ⟨obj, ho, hk⟩ := ha
  obtain ⟨obj', ho', hk'⟩ := Contract.moves_kind h ho (by simp [Object.parameterMap?, hk])
  exact ⟨obj', ho', hk'.trans hk⟩

theorem Machine.IsArray.within (ha : m.IsArray o) : o.Within m.bounds :=
  have ⟨_, ho, _⟩ := ha
  Machine.within_of_object? ho

namespace ObjectId

/-- An array has no mapped keys, so an ordinary definition only has to keep its length a number. -/
theorem defineOrdinary_array (ha : m.IsArray o) (hd : d.All (g.Stored m.bounds))
    (hlength : (key == .length) = true → d.isData = true → ∃ n, d.value? = some (.number n)) :
    g.Yields g.Moves m (o.defineOrdinary key d) fun _ _ => True := by
  obtain ⟨obj, ho, hk⟩ := ha
  refine .of_sound fun hm => defineOrdinary_yields ho hd (fun _ => ?_) fun hg harray hkey hmay => ?_
  · simp [Object.parameter?, Object.parameterMap?, hk]
  · cases d with
    | data value writable enumerable configurable => exact hlength hkey rfl
    | accessor get set enumerable configurable =>
      -- The length is data that is not configurable, so it does not become an accessor.
      obtain ⟨n, writable, hget⟩ := (hm.objects o obj ho).length hg harray
      rw [PropertyTable.get?_congr _ hkey, hget] at hmay
      simp [Descriptor.mayBecome, Descriptor.configurable] at hmay

theorem arrayLength_asks (ha : m.IsArray o) : g.Asks m o.arrayLength fun _ => True := by
  obtain ⟨obj, ho, hk⟩ := ha
  refine .of_sound fun hm => .bind (load_asks (Machine.within_of_object? ho)) fun obj' _ ho' => ?_
  rw [ho] at ho'
  cases ho'
  split
  · exact .pure trivial
  · rename_i hother
    refine .breach _ fun hc => ?_
    obtain ⟨n, writable, hget⟩ :=
      (hm.objects o obj ho).length (g.guarded_of_checked hc) (by simp [Object.isArray, hk])
    exact hother n writable false false hget

theorem defineLength_yields (ha : m.IsArray o) (hd : d.All (g.Stored m.bounds)) :
    g.Yields g.Moves m (o.defineLength d) fun _ _ => True := by
  have hR := g.moves_motion
  cases d with
  | accessor get set enumerable configurable => exact defineOrdinary_array ha hd fun _ h => by cases h
  | data value newWritable enumerable configurable =>
    have hlengthOf {m' : Machine} (ha' : m'.IsArray o) (writable : Bool) (length : Nat) :
        g.Yields g.Moves m' (o.defineOrdinary .length
          (.data (.number (.ofNat length)) writable enumerable configurable)) fun _ _ => True :=
      defineOrdinary_array ha' ⟨trivial, fun _ => rfl⟩ fun _ _ => ⟨_, rfl⟩
    refine .bind hR (Value.toNumber_yields hR hd) fun number m₁ _ _ _ hm₁ => ?_
    subst hm₁
    dsimp only
    split
    · exact complain_yields hR _
    refine .query hR (arrayLength_asks ha) fun p _ _ => ?_
    obtain ⟨oldLength, oldWritable⟩ := p
    dsimp only
    split
    · exact hlengthOf ha _ _
    split
    · exact .pure hR trivial
    refine .bind hR (hlengthOf ha true _) fun defined m₂ _ hmoves₂ _ _ => ?_
    have ha₂ := ha.moves hmoves₂
    split
    · exact .pure hR trivial
    refine .query hR (load_asks ha₂.within) fun obj _ _ => ?_
    refine .bind hR (removeIndices_yields _ ha₂.within) fun last m₃ _ hmoves₃ _ _ => ?_
    have ha₃ := ha₂.moves hmoves₃
    cases last with
    | some index => exact .bind hR (hlengthOf ha₃ _ _) fun _ _ _ _ _ _ => .pure hR trivial
    | none =>
      dsimp only
      split
      · exact .bind hR (hlengthOf ha₃ _ _) fun _ _ _ _ _ _ => .pure hR trivial
      · exact .pure hR trivial

theorem defineIndex_yields {index : Nat} (ha : m.IsArray o) (hkey : (key == .length) = false)
    (hd : d.All (g.Stored m.bounds)) :
    g.Yields g.Moves m (o.defineIndex index key d) fun _ _ => True := by
  have hR := g.moves_motion
  refine .query hR (arrayLength_asks ha) fun p _ _ => ?_
  obtain ⟨length, lengthWritable⟩ := p
  dsimp only
  split
  · exact .pure hR trivial
  refine .bind hR (defineOrdinary_array ha hd fun h => by simp [hkey] at h)
    fun defined m₁ _ hmoves _ _ => ?_
  split
  · exact .pure hR trivial
  split
  · have hlength : g.Yields g.Moves m₁ (o.defineOrdinary .length
        (.data (.number (.ofNat (index + 1))) lengthWritable false false)) fun _ _ => True :=
      defineOrdinary_array (ha.moves hmoves) ⟨trivial, fun _ => rfl⟩ fun _ _ => ⟨_, rfl⟩
    exact .bind hR hlength fun _ _ _ _ _ _ => .pure hR trivial
  · exact .pure hR trivial

/-- Every definition is a sequence of moves. -/
theorem define_yields (ho : o.Within m.bounds) (hd : d.All (g.Stored m.bounds)) :
    g.Yields g.Moves m (o.define key d) fun _ _ => True := by
  have hR := g.moves_motion
  obtain ⟨obj, hobj⟩ := Machine.exists_object ho
  refine .query hR (mappedParameter_asks hobj) fun p _ hp => ?_
  cases p with
  | some p => exact defineMapped_yields hobj hp.symm hd
  | none =>
    refine .query hR (load_asks ho) fun obj' _ hobj' => ?_
    rw [hobj] at hobj'
    cases hobj'
    cases harray : obj.isArray with
    | false =>
      exact defineOrdinary_yields hobj hd (fun _ => hp.symm) fun _ ha => by simp [harray] at ha
    | true =>
      have ha : m.IsArray o := by
        unfold Object.isArray at harray
        split at harray
        · exact ⟨obj, hobj, ‹_›⟩
        · cases harray
      split
      · contradiction
      split
      · exact defineLength_yields ha hd
      · rename_i hkey
        have hkey : (key == .length) = false := by simpa using hkey
        split
        · exact defineIndex_yields ha hkey hd
        · exact defineOrdinary_array ha hd fun h => by simp [hkey] at h

end ObjectId

end EcmaEval
