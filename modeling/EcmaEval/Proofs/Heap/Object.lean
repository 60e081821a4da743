import EcmaEval.Proofs.Heap.Array
import EcmaEval.Proofs.Heap.Chain

/-!
# Operations on objects

Each operation of an object is a run: what it reads is in range, and what it changes it changes by
definitions, deletions, assignments to mapped parameters and changes of a prototype that closes no
cycle.
-/
namespace EcmaEval

variable {g : Contract} {A : Grant} {m : Machine} {o : ObjectId} {key : Key} {d : Descriptor}
  {value : Value}

theorem newObject_runs {prototype : Option ObjectId}
    (hp : ∀ p, prototype = some p → p.Within m.bounds) :
    g.Runs A m (newObject prototype) fun m' o =>
      m' = m.pushObject { prototype, kind := .ordinary } ∧ o = ⟨m.objects.size⟩ :=
  fun _ => allocate_yields (g.steps_motion A) (.empty hp trivial (by simp)) rfl (.of_isArray rfl)

theorem newArray_runs (length : Nat) :
    g.Runs A m (newArray length) fun m' o => o.Within m'.bounds := by
  unfold newArray
  split
  · exact .complain _
  rename_i hlength
  refine .query intrinsics_asks fun i _ hi => ?_
  have hok : g.ObjectOk m.bounds (Object.insert
      { prototype := some i.arrayPrototype, kind := .array } .length
      (.data (.number (.ofNat length)) true false false)) := by
    refine ⟨fun p hp => ?_, fun e he => ?_, .insert (t := {}) .nil _ _, trivial,
      fun _ _ => ⟨.ofNat length, true, ?_⟩⟩
    · cases hp
      exact hi.arrayPrototype
    · rcases PropertyTable.mem_insert he with hnew | hold
      · rw [hnew]
        exact ⟨trivial, fun _ => rfl⟩
      · simp at hold
    · rw [Object.insert_get?]
      exact if_pos (BEq.rfl)
  have hempty : (Object.mk (some i.arrayPrototype) .array true {}).Indexed (· < length) := by
    intro key i hkey
    cases hkey
  have horderly : Object.Orderly _ := fun _ =>
    ⟨length, true, Object.spans_setLength (Nat.le_of_not_lt hlength) hempty true⟩
  intro _
  refine (allocate_yields (g.steps_motion A) hok rfl horderly).imp fun m' o _ _ ⟨hm', ho⟩ => ?_
  rw [hm', ho]
  exact Machine.size_within _

namespace ObjectId

theorem getPrototype_asks (ho : o.Within m.bounds) :
    g.Asks m o.getPrototype fun p => ∀ q, p = some q → q.Within m.bounds :=
  .of_sound fun hm => .bind (load_asks ho) fun obj _ hobj =>
    .pure (hm.objects o obj hobj).prototype

theorem isExtensible_asks (ho : o.Within m.bounds) : g.Asks m o.isExtensible fun _ => True :=
  .bind (load_asks ho) fun _ _ _ => .pure trivial

/-- A prototype is changed only if the object is not on the chain of the new one. -/
theorem setPrototype_runs {prototype : Option ObjectId} (ho : o.Within m.bounds)
    (hp : ∀ p, prototype = some p → p.Within m.bounds) :
    g.Runs A m (o.setPrototype prototype) fun _ _ => True := by
  refine .of_sound fun hm => .query (load_asks ho) fun obj _ hobj => ?_
  split
  · exact .pure trivial
  split
  · exact .pure trivial
  rename_i hextensible
  have hsearch : g.Asks m (searchChain prototype fun p => pure (if p == o then some () else none)) _ :=
    searchChain_asks (P := fun _ => True) hp fun _ _ => .pure fun _ _ => trivial
  refine .query hsearch fun cycle _ ⟨_, hnone⟩ => ?_
  cases cycle with
  | some _ => exact .pure trivial
  | none =>
    obtain ⟨l, hl⟩ := hm.chain prototype hp
    have hnot (x : ObjectId) (hx : x ∈ l) : x ≠ o := by
      rintro rfl
      have hprobe := hnone rfl l hl x hx
      simp [pure, ReaderT.pure, Except.pure] at hprobe
    have hstart (p : ObjectId) (hproto : prototype = some p) : p ∈ l := by
      subst hproto
      cases hl
      simp
    have hstep : g.Step m.grant m (m.updateObject o ({ · with prototype })) :=
      .reparent (S := (· ∈ l)) hobj hp hstart (fun hmem => hnot o hmem rfl)
        (fun _ _ => hl.closed) fun _ => .inr (by simpa using hextensible)
    exact .bind (fun _ => modify_yields ho (.single hstep)) fun _ _ _ _ _ _ => .pure trivial

theorem preventExtensions_runs (ho : o.Within m.bounds) :
    g.Runs A m o.preventExtensions fun _ _ => True := by
  obtain ⟨obj, hobj⟩ := Machine.exists_object ho
  exact .bind (fun _ => modify_yields ho (.single (.freeze hobj))) fun _ _ _ _ _ _ => .pure trivial

theorem hasOwnProperty_asks (ho : o.Within m.bounds) : g.Asks m (o.hasOwnProperty key) fun _ => True :=
  .bind (getOwnProperty_asks ho) fun _ _ _ => .pure trivial

theorem ownKeys_asks (ho : o.Within m.bounds) : g.Asks m o.ownKeys fun _ => True :=
  .bind (load_asks ho) fun _ _ _ => .pure trivial

theorem delete_runs (ho : o.Within m.bounds) : g.Runs A m (o.delete key) fun _ _ => True :=
  fun _ => delete_yields (g.steps_motion A) ho fun _ hobj hc => .single (.erase hobj hc)

/-- A definition is one step. -/
theorem define_runs (ho : o.Within m.bounds) (hd : d.All (g.Stored m.bounds)) :
    g.Runs A m (o.define key d) fun _ _ => True := by
  intro _ hm
  have hdefine : g.Yields g.Moves m (o.define key d) _ := define_yields ho hd
  have hyields := hdefine hm
  have hstep : g.Steps A m ((o.define key d).after m) := .single (.define (hdefine.after hm))
  unfold Eval.after at hstep
  cases hr : o.define key d m with
  | ok b m' =>
    rw [hr] at hyields hstep
    exact ⟨hstep, trivial⟩
  | error e m' =>
    rw [hr] at hyields hstep
    exact ⟨hstep, hyields.2⟩

theorem createProperty_runs (ho : o.Within m.bounds) (hv : g.Stored m.bounds value) :
    g.Runs A m (o.createProperty key value) fun _ _ => True := define_runs ho hv

theorem createPropertyOrThrow_runs (ho : o.Within m.bounds) (hv : g.Stored m.bounds value) :
    g.Runs A m (o.createPropertyOrThrow key value) fun _ _ => True := by
  refine .bind (createProperty_runs ho hv) fun b _ _ _ _ _ => ?_
  cases b with
  | true => exact .pure trivial
  | false => exact .complain _

theorem defineOrThrow_runs (ho : o.Within m.bounds) (hd : d.All (g.Stored m.bounds)) :
    g.Runs A m (o.defineOrThrow key d) fun _ _ => True := by
  refine .bind (define_runs ho hd) fun b _ _ _ _ _ => ?_
  cases b with
  | true => exact .pure trivial
  | false => exact .complain _

theorem deleteOrThrow_runs (ho : o.Within m.bounds) :
    g.Runs A m (o.deleteOrThrow key) fun _ _ => True := by
  refine .bind (delete_runs ho) fun b _ _ _ _ _ => ?_
  cases b with
  | true => exact .pure trivial
  | false => exact .complain _

theorem hasProperty_asks (ho : o.Within m.bounds) : g.Asks m (o.hasProperty key) fun _ => True := by
  have hstart (p : ObjectId) (h : some o = some p) : p.Within m.bounds := by
    cases h
    exact ho
  refine .bind (searchChain_asks (P := fun _ => True) hstart fun p hp => ?_) fun _ _ _ => .pure trivial
  exact .bind (load_asks hp) fun _ _ _ => .pure fun _ _ => trivial

theorem readOwn_asks {P : Value → Prop} (hP : m.Holds P) (hundefined : P .undefined)
    (ho : o.Within m.bounds) : g.Asks m (readOwn key o) fun b => ∀ v, b = some v → P v := by
  obtain ⟨obj, hobj⟩ := Machine.exists_object ho
  refine .bind (mappedValue_asks hP hobj) fun mapped _ hmapped => ?_
  cases mapped with
  | some v => exact .pure hmapped
  | none =>
    refine .bind (load_asks ho) fun obj' _ hobj' => ?_
    cases hstored : obj'.properties.get? key with
    | none => exact .pure (by simp)
    | some d =>
      have hd : d.All P := by
        obtain ⟨e, he, rfl⟩ := PropertyTable.mem_of_get? hstored
        exact hP.properties o obj' hobj' e he
      cases d with
      | data v writable enumerable configurable =>
        refine .pure fun w hw => ?_
        cases hw
        exact hd
      | accessor get set enumerable configurable =>
        dsimp only
        split
        · refine .pure fun w hw => ?_
          cases hw
          exact hundefined
        · exact .unsupported _

/-- What is read is undefined or held somewhere. -/
theorem get_asks_of_holds {P : Value → Prop} (hP : m.Holds P) (hundefined : P .undefined)
    (ho : o.Within m.bounds) : g.Asks m (o.get key) P := by
  have hstart (p : ObjectId) (h : some o = some p) : p.Within m.bounds := by
    cases h
    exact ho
  refine .bind (searchChain_asks hstart fun p hp => readOwn_asks hP hundefined hp)
    fun b _ ⟨hsome, _⟩ => .pure ?_
  cases b with
  | none => exact hundefined
  | some v => exact hsome v rfl

theorem get_asks (ho : o.Within m.bounds) : g.Asks m (o.get key) (g.Stored m.bounds) :=
  .of_sound fun hm => get_asks_of_holds hm.holds ⟨trivial, fun _ => rfl⟩ ho

theorem assignOwn_runs (ho : o.Within m.bounds) (hv : g.Stored m.bounds value) :
    g.Runs A m (o.assignOwn key value) fun _ _ => True := by
  refine .query (getOwnProperty_asks ho) fun current _ _ => ?_
  cases current with
  | none => exact createProperty_runs ho hv
  | some d =>
    cases d with
    | accessor get set enumerable configurable => exact .pure trivial
    | data old writable enumerable configurable =>
      cases writable with
      | true => exact define_runs ho hv
      | false => exact .pure trivial

end ObjectId

theorem DeclarativeRecord.assign_ne_fault (r : DeclarativeRecord) (name : String) (v : Value)
    (strict : Bool) (f : Fault) : r.assign name v strict ≠ .error (.fault f) := by
  unfold assign
  split
  · split <;> simp
  · split
    · simp
    · split
      · simp
      · split <;> simp

namespace ObjectId

/-- A mapped parameter is a variable, so writing it is an assignment. -/
theorem writeMapped_runs (ho : o.Within m.bounds) (hv : g.Stored m.bounds value) :
    g.Runs A m (o.writeMapped key value) fun _ _ => True := by
  refine .of_sound fun hm => ?_
  obtain ⟨obj, hobj⟩ := Machine.exists_object ho
  refine .query (mappedParameter_asks hobj) fun p _ hp => ?_
  cases p with
  | none => exact .pure trivial
  | some p =>
    obtain ⟨env, name⟩ := p
    obtain ⟨map, hmap, rfl, hname⟩ := Object.parameter?_some hp.symm
    have henv := (hm.objects o obj hobj).parameterMap hmap
    have hvariable (hc : g.checked) : m.IsVariable map.env name :=
      (hm.aliases (g.guarded_of_checked hc) o obj hobj map key name hmap hname).1
    refine .query (EnvId.load_asks henv) fun e _ he => ?_
    cases e with
    | declarative r =>
      refine .bind (P := fun m' r' => m' = m ∧ r.assign name value false = .ok r')
        (.settle (fun r' hr' => ⟨rfl, hr'⟩) fun _ f => r.assign_ne_fault name value false f) ?_
      rintro r' _ - - - ⟨rfl, hr'⟩
      have hbound (hc : g.checked) : r.has name = true := by
        obtain ⟨r₁, x, hr₁, hx, -⟩ := hvariable hc
        rw [he] at hr₁
        cases hr₁
        simp [DeclarativeRecord.has, hx]
      refine .of_ok (EnvId.store_eq henv _) (.single (.record he ?_)) trivial
      exact .record rfl (.assign hr' hv hbound)
    | _ =>
      refine .breach _ fun hc => ?_
      obtain ⟨r, x, hr, -⟩ := hvariable hc
      rw [he] at hr
      cases hr

theorem setOnChain_runs {receiver : Value} (ho : o.Within m.bounds) (hv : g.Stored m.bounds value)
    (hreceiver : receiver.Within m.bounds) :
    g.Runs A m (o.setOnChain key value receiver) fun _ _ => True := by
  refine .of_sound fun hm => ?_
  have hstart (p : ObjectId) (h : some o = some p) : p.Within m.bounds := by
    cases h
    exact ho
  refine .query (searchChain_asks (P := fun _ => True) hstart fun p hp => ?_) fun own _ _ => ?_
  · exact .bind (load_asks hp) fun _ _ _ => .pure fun _ _ => trivial
  split
  · cases receiver with
    | object target =>
      dsimp only
      split
      · exact assignOwn_runs hreceiver hv
      · exact .pure trivial
    | _ => exact .pure trivial
  · split
    · exact .pure trivial
    · exact .unsupported _

theorem set_runs {receiver : Value} (ho : o.Within m.bounds) (hv : g.Stored m.bounds value)
    (hreceiver : receiver.Within m.bounds) :
    g.Runs A m (o.set key value receiver) fun _ _ => True := by
  refine .of_sound fun hm => ?_
  unfold set
  split
  · refine .bind (writeMapped_runs ho hv) fun _ m' _ hsteps _ _ => ?_
    have hb := hsteps.bounds hm
    exact setOnChain_runs (Nat.lt_of_lt_of_le ho hb.1) (hv.mono hb) (hreceiver.mono hb)
  · exact setOnChain_runs ho hv hreceiver

end ObjectId

theorem findErrorKind_asks (hv : value.Within m.bounds) : g.Asks m (findErrorKind value) fun _ => True := by
  refine .of_sound fun hm => ?_
  cases value with
  | object o =>
    refine .bind (Q := (· = m)) (fun _ => rfl) fun _ _ _ => ?_
    refine .bind (ObjectId.load_asks hv) fun obj _ hobj => ?_
    refine (searchChain_asks (P := fun _ => True) (hm.objects o obj hobj).prototype fun p hp => ?_).imp
      fun _ _ => trivial
    exact .pure fun _ _ => trivial
  | _ => exact .pure trivial

end EcmaEval
