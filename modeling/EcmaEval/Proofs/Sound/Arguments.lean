import EcmaEval.Proofs.Heap.Mapping
import EcmaEval.Proofs.Sound.Pattern

/-!
# The arguments object of a call

An arguments object is mapped before the parameters it stands for have their values, so right after
that a mapped key may stand for a variable that is not one yet. Nothing looks at the object until the
parameters are bound. So the machine that comes out is the one where the parameters are bound first
and the object is mapped then, and to that one every step keeps the machine sound.
-/
namespace EcmaEval

variable {g : Contract} {A : Grant} {m : Machine} {env : EnvId} {r r' r'' : DeclarativeRecord}

theorem Machine.storeEnv_self {e : Environment} (h : m.env? env = some e) : m.storeEnv env e = m := by
  have hset : m.environments.setIfInBounds env.index e = m.environments := by
    apply Array.ext_getElem?
    intro i
    rw [Array.getElem?_setIfInBounds]
    split
    · subst i
      exact (if_pos (within_of_env? h)).trans h.symm
    · rfl
  simp [storeEnv, hset]

/-- Whatever else the machine holds, the evaluation turns one record of an environment into another
and does nothing more. -/
def Eval.ActsOn (x : Eval Unit) (env : EnvId) (r r' : DeclarativeRecord) : Prop :=
  ∀ m, m.env? env = some (.declarative r) → x m = .ok () (m.storeEnv env (.declarative r'))

namespace Eval.ActsOn

theorem pure (env : EnvId) (r : DeclarativeRecord) : Eval.ActsOn (pure ()) env r r := by
  intro m he
  rw [Machine.storeEnv_self he]
  rfl

theorem bind {x : Eval Unit} {f : Unit → Eval Unit} (hx : x.ActsOn env r r')
    (hf : (f ()).ActsOn env r' r'') : Eval.ActsOn (x >>= f) env r r'' := by
  intro m he
  have he' : (m.storeEnv env (.declarative r')).env? env = some (.declarative r') :=
    Machine.env?_storeEnv_self he _
  rw [bind_ok (hx m he), hf _ he', Machine.storeEnv_storeEnv]

end Eval.ActsOn

namespace EnvId

variable {name : String}

theorem createMutable_acts {deletable : Bool} (h : r.get? name = none) :
    (env.createMutable name deletable).ActsOn env r
      { r with bindings := (name, ⟨true, deletable, false, none⟩) :: r.bindings } := by
  intro m he
  have hcreate : r.createMutable name deletable =
      .ok { r with bindings := (name, ⟨true, deletable, false, none⟩) :: r.bindings } := by
    simp [DeclarativeRecord.createMutable, DeclarativeRecord.create, DeclarativeRecord.has, h]
  unfold createMutable
  rw [bind_ok (lift_ok (load_eq he))]
  dsimp only
  rw [hcreate]
  exact store_eq (Machine.within_of_env? he) _

theorem initBinding_acts {v : Value} (hinit : r.initBinding name v = .ok r') :
    (env.initBinding name v).ActsOn env r r' := by
  intro m he
  unfold initBinding
  rw [bind_ok (lift_ok (load_eq he))]
  dsimp only
  rw [hinit]
  exact store_eq (Machine.within_of_env? he) _

theorem hasBinding_eq (he : m.env? env = some (.declarative r)) :
    env.hasBinding name m = .ok (r.has name) := by
  unfold hasBinding
  rw [Query.bind_ok (load_eq he)]
  rfl

end EnvId

/-- Changes of a record are steps of the machine that holds it. -/
theorem Contract.Steps.of_record (he : m.env? env = some (.declarative r))
    (h : Relation.ReflTransGen (g.RecordStep m.bounds (A.declare env)) r r') :
    g.Steps A m (m.storeEnv env (.declarative r')) := by
  induction h with
  | refl => rw [Machine.storeEnv_self he]
  | @tail r₁ r₂ _ hstep ih =>
    have he₁ : (m.storeEnv env (.declarative r₁)).env? env = some (.declarative r₁) :=
      Machine.env?_storeEnv_self he _
    have hstep' : g.RecordStep (m.storeEnv env (.declarative r₁)).bounds (A.declare env) r₁ r₂ := by
      rw [Machine.bounds_storeEnv]
      exact hstep
    have hlast := ih.tail (.record he₁ (.record rfl hstep'))
    rwa [Environment.withRecord, Machine.storeEnv_storeEnv] at hlast

/-- The records differ in their bindings only. -/
def DeclarativeRecord.Rebound (r r' : DeclarativeRecord) : Prop := ∃ bindings, r' = { r with bindings }

namespace DeclarativeRecord.Rebound

theorem refl (r : DeclarativeRecord) : r.Rebound r := ⟨r.bindings, rfl⟩

theorem trans (h : r.Rebound r') (h' : r'.Rebound r'') : r.Rebound r'' := by
  obtain ⟨_, rfl⟩ := h
  obtain ⟨bindings, rfl⟩ := h'
  exact ⟨bindings, rfl⟩

theorem put (r : DeclarativeRecord) (name : String) (v : Value) : r.Rebound (r.put name v) := ⟨_, rfl⟩

end DeclarativeRecord.Rebound

/-- The record binds the name as a variable, which is initialized or waiting. -/
def DeclarativeRecord.HasVariable (r : DeclarativeRecord) (name : String) (initialized : Bool) : Prop :=
  ∃ value, r.get? name = some ⟨true, false, false, value⟩ ∧ value.isSome = initialized

/-- The record binds just the given names, as variables that are all initialized or all waiting. -/
structure DeclarativeRecord.Declares (r : DeclarativeRecord) (names : List String)
    (initialized : Bool) : Prop where
  bound : ∀ n ∈ names, r.HasVariable n initialized
  unbound : ∀ n, n ∉ names → r.get? n = none

namespace DeclarativeRecord

theorem HasVariable.create {n : String} {initialized : Bool} (h : r.HasVariable n initialized)
    {name : String} (hne : n ≠ name) (x : Binding) :
    HasVariable { r with bindings := (name, x) :: r.bindings } n initialized := by
  obtain ⟨value, hvalue, hrest⟩ := h
  exact ⟨value, by rw [get?_cons, if_neg hne]; exact hvalue, hrest⟩

theorem hasVariable_create (r : DeclarativeRecord) (name : String) :
    HasVariable { r with bindings := (name, ⟨true, false, false, none⟩) :: r.bindings } name false :=
  ⟨none, by rw [get?_cons, if_pos rfl], rfl⟩

theorem HasVariable.put {n : String} {initialized : Bool} (h : r.HasVariable n initialized)
    (name : String) (v : Value) : (r.put name v).HasVariable n (decide (n = name) || initialized) := by
  obtain ⟨value, hx, hvalue⟩ := h
  by_cases hn : n = name
  · exact ⟨some v, by rw [get?_put, hx, Option.map_some, if_pos hn], by simp [hn]⟩
  · exact ⟨value, by rw [get?_put, hx, Option.map_some, if_neg hn], by simpa [hn] using hvalue⟩

theorem HasVariable.initBinding {name : String} (h : r.HasVariable name false) (v : Value) :
    r.initBinding name v = .ok (r.put name v) := by
  obtain ⟨value, hx, hvalue⟩ := h
  have hnone : value = none := by simpa using hvalue
  simp [DeclarativeRecord.initBinding, hx, hnone]

end DeclarativeRecord

/-- A query on a record decides what acts on it. -/
theorem Eval.ActsOn.query {q : Query Bool} {f : Bool → Eval Unit} {b : Bool}
    (hq : ∀ m, m.env? env = some (.declarative r) → q m = .ok b) (hf : (f b).ActsOn env r r') :
    Eval.ActsOn ((liftM q : Eval Bool) >>= f) env r r' := by
  intro m he
  rw [bind_ok (lift_ok (hq m he))]
  exact hf m he

theorem DeclarativeRecord.Declares.create (hr : r.Declares names initialized) (name : String) :
    (∀ n ∈ names, n ≠ name → DeclarativeRecord.HasVariable
      { r with bindings := (name, ⟨true, false, false, none⟩) :: r.bindings } n initialized) ∧
    ∀ n, n ∉ name :: names → DeclarativeRecord.get?
      { r with bindings := (name, ⟨true, false, false, none⟩) :: r.bindings } n = none := by
  refine ⟨fun n hn hne => (hr.bound n hn).create hne _, fun n hn => ?_⟩
  rw [DeclarativeRecord.get?_cons, if_neg fun h => hn (by simp [h])]
  exact hr.unbound n fun h => hn (by simp [h])

theorem DeclarativeRecord.Declares.createWaiting (hr : r.Declares names false) (name : String) :
    DeclarativeRecord.Declares
      { r with bindings := (name, ⟨true, false, false, none⟩) :: r.bindings } (name :: names) false where
  bound n hn := by
    by_cases hne : n = name
    · subst hne
      exact r.hasVariable_create n
    · exact (hr.create name).1 n ((List.mem_cons.mp hn).resolve_left hne) hne
  unbound := (hr.create name).2

theorem DeclarativeRecord.Declares.createInitialized (hr : r.Declares names true) (name : String)
    (v : Value) : DeclarativeRecord.Declares
      (DeclarativeRecord.put { r with bindings := (name, ⟨true, false, false, none⟩) :: r.bindings }
        name v) (name :: names) true where
  bound n hn := by
    by_cases hne : n = name
    · subst hne
      simpa using (r.hasVariable_create n).put n v
    · simpa using ((hr.create name).1 n ((List.mem_cons.mp hn).resolve_left hne) hne).put name v
  unbound n hn := by
    rw [DeclarativeRecord.get?_put, (hr.create name).2 n hn]
    rfl

/-- The parameters of a call are created in a record, with repeated names as undefined. -/
theorem declareParameters_acts (env : EnvId) (repeated : Bool) (names : List String) {done : List String}
    (hr : r.Declares done repeated) :
    ∃ r', (declareParameters env repeated names).ActsOn env r r' ∧ r.Rebound r' ∧
      r'.Declares (names.reverse ++ done) repeated ∧
      ∀ b declare, (g.checked → ∀ n ∈ names, declare n) →
        Relation.ReflTransGen (g.RecordStep b declare) r r' := by
  induction names generalizing r done with
  | nil => exact ⟨r, .pure env r, .refl r, hr, fun _ _ _ => .refl⟩
  | cons name rest ih =>
    -- The first name is there already, or it is created and, if names repeat, initialized.
    have hfirst : ∃ r₁, Eval.ActsOn (do
          if !(← env.hasBinding name) then
            env.createMutable name false
            if repeated then env.initBinding name .undefined) env r r₁ ∧ r.Rebound r₁ ∧
        r₁.Declares (name :: done) repeated ∧
        ∀ b (declare : String → Prop), (g.checked → declare name) →
          Relation.ReflTransGen (g.RecordStep b declare) r r₁ := by
      cases hhas : r.has name with
      | true =>
        refine ⟨r, .query (b := true) (fun m he => ?_) (.pure env r), .refl r, ⟨fun n hn => ?_, fun n hn => ?_⟩,
          fun _ _ _ => .refl⟩
        · rw [EnvId.hasBinding_eq he, hhas]
        · refine hr.bound n ((List.mem_cons.mp hn).elim (fun h => ?_) id)
          by_contra hnot
          have hnone := hr.unbound n hnot
          subst h
          simp [DeclarativeRecord.has, hnone] at hhas
        · exact hr.unbound n fun h => hn (by simp [h])
      | false =>
        have hnone : r.get? name = none := by simpa [DeclarativeRecord.has] using hhas
        have hquery (m : Machine) (he : m.env? env = some (.declarative r)) :
            env.hasBinding name m = .ok false := by rw [EnvId.hasBinding_eq he, hhas]
        let r₁ : DeclarativeRecord := { r with bindings := (name, ⟨true, false, false, none⟩) :: r.bindings }
        have hcreate : r.create name true false false = .ok r₁ := by
          simp [DeclarativeRecord.create, hhas, r₁]
        have hvariable : r₁.HasVariable name false := r.hasVariable_create name
        cases repeated with
        | false =>
          refine ⟨r₁, .query hquery (.bind (EnvId.createMutable_acts hnone) (.pure env _)), ⟨_, rfl⟩,
            hr.createWaiting name, fun b declare hd => .single (.create hcreate (fun _ => rfl) hd)⟩
        | true =>
          refine ⟨r₁.put name .undefined, .query hquery (.bind (EnvId.createMutable_acts hnone)
            (EnvId.initBinding_acts (hvariable.initBinding _))), ⟨_, rfl⟩, hr.createInitialized name _,
            fun b declare hd => ?_⟩
          exact .tail (.single (.create hcreate (fun _ => rfl) hd))
            (.init (hvariable.initBinding _) ⟨trivial, fun _ => rfl⟩ hd)
    obtain ⟨r₁, hacts₁, hrebound₁, hr₁, hsteps₁⟩ := hfirst
    obtain ⟨r₂, hacts₂, hrebound₂, hr₂, hsteps₂⟩ := ih hr₁
    refine ⟨r₂, .bind hacts₁ hacts₂, hrebound₁.trans hrebound₂, ?_, fun b declare hd => ?_⟩
    · simpa using hr₂
    · exact (hsteps₁ b declare fun hc => hd hc name (by simp)).trans
        (hsteps₂ b declare fun hc n hn => hd hc n (by simp [hn]))

/-- An arguments object that is not mapped and whose properties are open to every change. -/
structure Object.Pristine (obj : Object) : Prop where
  kind : obj.kind = .arguments none
  extensible : obj.extensible = true
  plain : ∀ key d, obj.properties.get? key = some d → ∃ v e, d = .data v true e true

section

variable {o : ObjectId} {obj : Object} {key : Key}

theorem Object.Pristine.insert (h : obj.Pristine) (key : Key) (v : Value) (enumerable : Bool) :
    (obj.insert key (.data v true enumerable true)).Pristine where
  kind := h.kind
  extensible := h.extensible
  plain k d hd := by
    rw [Object.insert_get?] at hd
    split at hd
    · cases hd
      exact ⟨v, enumerable, rfl⟩
    · exact h.plain k d hd

theorem argumentsObject_pristine (prototype f : ObjectId) (arguments : List Value) :
    (argumentsObject prototype f arguments none).Pristine where
  kind := rfl
  extensible := rfl
  plain key d hd := by
    obtain ⟨e, he, rfl⟩ := PropertyTable.mem_of_get? hd
    rcases List.mem_append.mp he with helement | he
    · obtain ⟨v, -, hv⟩ := elementEntries_plain helement
      exact ⟨v, true, hv⟩
    · obtain rfl := List.mem_singleton.mp he
      exact ⟨_, false, rfl⟩

theorem argumentsObject_isSome (prototype f : ObjectId) {arguments : List Value} {i : Nat}
    (hi : i < arguments.length) :
    ((argumentsObject prototype f arguments none).properties.get? (.ofIndex i)).isSome = true := by
  have hmem := elementEntries_mem (List.getElem?_eq_getElem hi) 0
  rw [Nat.zero_add] at hmem
  rw [← PropertyTable.contains_eq]
  exact List.any_eq_true.mpr ⟨_, List.mem_append_left _ hmem, BEq.rfl⟩

theorem argumentsObject_ok {prototype : ObjectId} (hp : prototype.Within m.bounds) (f : ObjectId)
    {arguments : List Value} (harguments : ∀ v ∈ arguments, g.Stored m.bounds v) :
    g.ObjectOk m.bounds (argumentsObject prototype f arguments none) where
  prototype := by
    rintro _ ⟨rfl⟩
    exact hp
  properties e he := by
    rcases List.mem_append.mp he with helement | he
    · obtain ⟨v, hv, hplain⟩ := elementEntries_plain helement
      rw [hplain]
      exact harguments v hv
    · obtain rfl := List.mem_singleton.mp he
      exact ⟨trivial, fun _ => rfl⟩
  keys := argumentEntries_distinct f arguments false
  kind := trivial
  length _ ha := by cases ha

end

theorem defineElements_runs {o : ObjectId} {values : List Value} {index : Nat}
    (ho : o.Within m.bounds) (hvalues : ∀ v ∈ values, g.Stored m.bounds v) :
    g.Runs A m (defineElements o index values) fun _ _ => True := by
  induction values generalizing m index with
  | nil => exact .pure trivial
  | cons value rest ih =>
    refine .of_sound fun hm => ?_
    refine .bind (ObjectId.createPropertyOrThrow_runs ho (hvalues value (by simp)))
      fun _ m' _ hsteps _ _ => ?_
    have hb := hsteps.bounds hm
    exact ih (Nat.lt_of_lt_of_le ho hb.1) fun v hv => (hvalues v (by simp [hv])).mono hb

theorem newArrayOf_runs {values : List Value} (hvalues : ∀ v ∈ values, g.Stored m.bounds v) :
    g.Runs A m (newArrayOf values) fun m' o => o.Within m'.bounds := by
  refine .of_sound fun hm => .bind (newArray_runs 0) fun array m₁ _ hsteps hm₁ harray => ?_
  have hb := hsteps.bounds hm
  refine .bind (defineElements_runs harray fun v hv => (hvalues v hv).mono hb)
    fun _ m₂ _ hsteps₂ _ _ => ?_
  exact .pure (Nat.lt_of_lt_of_le harray (hsteps₂.bounds hm₁).1)

/-- An arguments object that is not mapped yet has all its elements and is known to nobody. -/
structure Machine.Unmapped (m m' : Machine) (o : ObjectId) (count : Nat) : Prop where
  fresh : ¬ o.Within m.bounds
  environments : m'.environments = m.environments
  contexts : m'.contexts = m.contexts
  object : ∃ obj, m'.object? o = some obj ∧ obj.Pristine ∧
    ∀ i < count, (obj.properties.get? (.ofIndex i)).isSome = true

theorem newUnmappedArguments_runs {arguments : List Value}
    (harguments : ∀ v ∈ arguments, g.Stored m.bounds v) :
    g.Runs A m (newUnmappedArguments arguments) fun m' o =>
      m.Unmapped m' o arguments.length ∧ o.Within m'.bounds := by
  refine .query intrinsics_asks fun i hintrinsics hi => ?_
  -- An object that is not mapped does not mention the function, so any will do.
  let f : ObjectId := i.objectPrototype
  let obj := argumentsObject i.objectPrototype f arguments none
  have hrun := (bind_ok (lift_ok hintrinsics)).symm.trans (newUnmappedArguments_eq hintrinsics f arguments)
  have hstep : g.Step A m (m.pushObject obj) :=
    .object (argumentsObject_ok hi.objectPrototype f harguments) rfl (.of_isArray rfl)
  refine .of_ok hrun (.single hstep) ⟨⟨Nat.lt_irrefl _, rfl, rfl, obj, m.object?_pushObject_self obj, ?_, ?_⟩,
    m.within_pushObject_self obj⟩
  · exact argumentsObject_pristine _ f arguments
  · exact fun i hi => argumentsObject_isSome _ f hi

/-- A pristine object may be mapped to variables. -/
theorem Object.Pristine.aliases {obj : Object} {count : Nat} {names : List String} (h : obj.Pristine)
    (helements : ∀ i < count, (obj.properties.get? (.ofIndex i)).isSome = true)
    (hvariables : ∀ n ∈ names, m.IsVariable env n) :
    Object.Aliases m
      { obj with kind := .arguments (some { env, names := mappedNames count 0 names }) } := by
  intro map key name hmap hname
  cases hmap
  obtain ⟨i, hkey, hi, hlast⟩ := mappedNames_get?_iff.mp hname
  refine ⟨hvariables name (List.mem_of_getElem? hlast.1), ?_⟩
  obtain ⟨d, hd⟩ := Option.isSome_iff_exists.mp (helements i hi)
  obtain ⟨v, e, rfl⟩ := h.plain _ d hd
  exact ⟨v, e, true, by rw [← PropertyTable.get?_congr _ hkey]; exact hd⟩

theorem newArguments_runs {f : ObjectId} {arguments : List Value}
    {mapping : Option (List String × EnvId)} (hf : f.Within m.bounds)
    (harguments : ∀ v ∈ arguments, g.Stored m.bounds v)
    (hmapping : ∀ names env, mapping = some (names, env) →
      env.Within m.bounds ∧ ∀ n ∈ names, m.IsVariable env n) :
    g.Runs A m (newArguments f arguments mapping) fun m' o => o.Within m'.bounds := by
  refine .of_sound fun hm => .of_covers fun hA => ?_
  refine .bind (newUnmappedArguments_runs harguments) fun o m₁ _ hsteps hm₁ ⟨hunmapped, ho⟩ => ?_
  have hb := hsteps.bounds hm
  cases mapping with
  | none => exact .pure ho
  | some mapping =>
    obtain ⟨names, env⟩ := mapping
    obtain ⟨henv, hvariables⟩ := hmapping names env rfl
    obtain ⟨obj, hobj, hpristine, helements⟩ := hunmapped.object
    have hvariables₁ (n : String) (hn : n ∈ names) : m₁.IsVariable env n := by
      unfold Machine.IsVariable Machine.env?
      rw [hunmapped.environments]
      exact hvariables n hn
    have hdeclarative : ParameterMap.Declarative m₁
        { env, names := mappedNames arguments.length 0 names } := fun key name hname => by
      obtain ⟨i, -, -, hlast⟩ := mappedNames_get?_iff.mp hname
      obtain ⟨r, -, he, -⟩ := hvariables₁ name (List.mem_of_getElem? hlast.1)
      exact ⟨r, he⟩
    have hattach : g.Step A m₁ _ := .attach hobj hpristine.kind (Nat.lt_of_lt_of_le henv hb.2.1)
      (mappedNames_distinct env _ names) hdeclarative (fun _ => hA.2 _ hunmapped.fresh)
      fun _ => hpristine.aliases helements hvariables₁
    refine .seq (fun _ => ObjectId.modify_yields ho (.single hattach)) fun _ m₂ _ hsteps₂ hm₂ _ => ?_
    have hb₂ := hsteps₂.bounds hm₁
    have ho₂ := Nat.lt_of_lt_of_le ho hb₂.1
    have hf₂ := Nat.lt_of_lt_of_le hf (Bounds.le_trans hb hb₂).1
    refine .bind (ObjectId.defineOrThrow_runs ho₂ (.object hf₂)) fun _ m₃ _ hsteps₃ _ _ => ?_
    exact .pure (Nat.lt_of_lt_of_le ho₂ (hsteps₃.bounds hm₂).1)

end EcmaEval
