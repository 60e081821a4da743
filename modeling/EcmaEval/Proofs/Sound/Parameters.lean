import EcmaEval.Proofs.Scan
import EcmaEval.Proofs.Sound.Arguments

/-!
# Binding the parameters of a call

The parameters are created, then the arguments object is made and bound, then the parameters get their
values. Only where the object is mapped and the parameters are not yet initialized does the order
matter: there nothing but identifiers is bound, and the whole is seen as one change of a record.
-/
namespace EcmaEval

variable {g : Contract} {A : Grant} {m : Machine} {env : EnvId} {r r' : DeclarativeRecord}

theorem DeclarativeRecord.HasVariable.isVariable {name : String} (h : r.HasVariable name true)
    (he : m.env? env = some (.declarative r)) : m.IsVariable env name := by
  obtain ⟨value, hx, hvalue⟩ := h
  exact ⟨r, _, he, hx, rfl, rfl, hvalue⟩

theorem DeclarativeRecord.HasVariable.bound {name : String} {initialized : Bool}
    (h : r.HasVariable name initialized) (he : m.env? env = some (.declarative r)) :
    m.Bound env name := by
  obtain ⟨x, hx, -⟩ := h
  exact ⟨r, Machine.record?_eq he, by simp [DeclarativeRecord.has, hx]⟩

theorem DeclarativeRecord.HasVariable.waiting {name : String} (h : r.HasVariable name false)
    (he : m.env? env = some (.declarative r)) : m.Waiting env name := by
  obtain ⟨value, hx, hvalue⟩ := h
  exact ⟨r, _, Machine.record?_eq he, hx, by simpa using hvalue⟩

/-- Gives names values by position; past the values it is undefined. -/
def DeclarativeRecord.putAll (r : DeclarativeRecord) : List String → List Value → DeclarativeRecord
  | [], _ => r
  | name :: rest, values => (r.put name (values.headD .undefined)).putAll rest values.tail

theorem DeclarativeRecord.HasVariable.putAll {n : String} {initialized : Bool}
    (h : r.HasVariable n initialized) (names : List String) (values : List Value) :
    (r.putAll names values).HasVariable n (decide (n ∈ names) || initialized) := by
  induction names generalizing r initialized values with
  | nil => simpa [DeclarativeRecord.putAll] using h
  | cons name rest ih =>
    have hrest := ih (h.put name (values.headD .undefined)) values.tail
    rw [← Bool.or_assoc] at hrest
    simpa [DeclarativeRecord.putAll, Bool.or_comm] using hrest

theorem Contract.Binds.left {env : Option EnvId} {ns ms : List String}
    (h : g.Binds A m env (ns ++ ms)) : g.Binds A m env ns where
  within := h.within
  nodup hc he := (List.nodup_append.mp (h.nodup hc he)).1
  waiting hc e he n hn := h.waiting hc e he n (List.mem_append_left _ hn)
  declare hc e he n hn := h.declare hc e he n (List.mem_append_left _ hn)

namespace Evaluator

variable {ev : Evaluator} {parameters : List Pattern} {arguments : List Value}

theorem Parameters.isSimple_cons {p : Pattern} (h : Parameters.isSimple (p :: parameters) = true) :
    ∃ name, p = .identifier name ∧ Parameters.isSimple parameters = true ∧
      Parameters.names (p :: parameters) = name :: Parameters.names parameters := by
  rw [Parameters.isSimple, List.all_cons, Bool.and_eq_true] at h
  cases p with
  | identifier name => exact ⟨name, rfl, h.2, by simp [Parameters.names, Pattern.boundNames]⟩
  | _ => simp [Pattern.isIdentifier] at h

/-- Binding identifiers changes one record only. -/
theorem bindParameters_acts (ev : Evaluator) (env : EnvId) (r : DeclarativeRecord)
    (arguments : List Value) (hsimple : Parameters.isSimple parameters = true)
    (hnodup : (Parameters.names parameters).Nodup)
    (hvariables : ∀ n ∈ Parameters.names parameters, r.HasVariable n false) :
    (ev.bindParameters (some env) parameters arguments).ActsOn env r
        (r.putAll (Parameters.names parameters) arguments) ∧
      ∀ b declare, (∀ v ∈ arguments, g.Stored b v) →
        (g.checked → ∀ n ∈ Parameters.names parameters, declare n) →
        Relation.ReflTransGen (g.RecordStep b declare) r
          (r.putAll (Parameters.names parameters) arguments) := by
  induction parameters generalizing r arguments with
  | nil => exact ⟨.pure env r, fun _ _ _ _ => .refl⟩
  | cons p rest ih =>
    obtain ⟨name, rfl, hsimple, hnames⟩ := Parameters.isSimple_cons hsimple
    rw [hnames] at hnodup hvariables ⊢
    obtain ⟨hname, hnodup⟩ := List.nodup_cons.mp hnodup
    let v := arguments.headD .undefined
    have hinit := (hvariables name (by simp)).initBinding v
    obtain ⟨hacts, hsteps⟩ := ih (r.put name v) arguments.tail hsimple hnodup fun n hn => by
      have hne : n ≠ name := fun h => hname (h ▸ hn)
      simpa [hne] using (hvariables n (by simp [hn])).put name v
    refine ⟨.bind (EnvId.initBinding_acts hinit) hacts, fun b declare hargs hd => ?_⟩
    have hv : g.Stored b v := by
      cases arguments with
      | nil => exact ⟨trivial, fun _ => rfl⟩
      | cons v rest => exact hargs _ List.mem_cons_self
    exact .head (.init hinit hv fun hc => hd hc name (by simp))
      (hsteps b declare (fun w hw => hargs w (List.mem_of_mem_tail hw))
        fun hc n hn => hd hc n (by simp [hn]))

section

variable {o : ObjectId} {obj : Object} {names : List String}

/-- The callee becomes a property of an object that is mapped. -/
theorem defineCallee_eq (ho : m.object? o = some obj) (hpristine : obj.Pristine) (count : Nat)
    (names : List String) (env : EnvId) (v : Value) :
    let map : ParameterMap := { env, names := mappedNames count 0 names }
    o.defineOrThrow (.name "callee") (.hidden v)
        (m.updateObject o ({ · with kind := .arguments (some map) })) =
      .ok () ((m.updateObject o (·.insert (.name "callee") (.hidden v))).updateObject o
        ({ · with kind := .arguments (some map) })) := by
  intro map
  let mapped : Object := { obj with kind := .arguments (some map) }
  have hmapped : (m.updateObject o ({ · with kind := .arguments (some map) })).object? o =
      some mapped := Machine.object?_updateObject_self ho _
  have hfree : mapped.parameter? (.name "callee") = none := by
    have hnone : map.get? (.name "callee") = none := mappedNames_get?_eq_none Key.ofIndex_ne_callee
    simp [Object.parameter?, Object.parameterMap?, mapped, hnone]
  have hmay : Descriptor.mayBecome (mapped.properties.get? (.name "callee")) mapped.extensible
      (.hidden v) = true := by
    change Descriptor.mayBecome (obj.properties.get? (.name "callee")) obj.extensible _ = true
    cases hget : obj.properties.get? (.name "callee") with
    | none => exact hpristine.extensible
    | some d =>
      obtain ⟨w, e, rfl⟩ := hpristine.plain _ d hget
      rfl
  have hdefine := ObjectId.define_eq hmapped hfree rfl (.hidden v)
  rw [if_pos hmay] at hdefine
  refine (bind_ok hdefine).trans ?_
  rw [Machine.updateObject_updateObject, Machine.updateObject_updateObject]
  rfl

/-- Once its parameters are variables, an arguments object can be mapped. -/
theorem Contract.Steps.mapped (ho : m.object? o = some obj) (hpristine : obj.Pristine)
    (helements : ∀ i < count, (obj.properties.get? (.ofIndex i)).isSome = true)
    {v : Value} (hv : g.Stored m.bounds v) (hrebuild : g.guarded → A.rebuild o)
    (he : m.env? env = some (.declarative r))
    (hrecord : Relation.ReflTransGen (g.RecordStep m.bounds (A.declare env)) r r')
    (hvariables : ∀ n ∈ names, r'.HasVariable n true) :
    g.Steps A m (((m.updateObject o (·.insert (.name "callee") (.hidden v))).storeEnv env
      (.declarative r')).updateObject o
        ({ · with kind := .arguments (some { env, names := mappedNames count 0 names }) })) := by
  let m₁ := m.updateObject o (·.insert (.name "callee") (.hidden v))
  have hinsert : g.Step A m m₁ := .insert ho hv fun hg => ⟨hrebuild hg, by
    simp [Object.isArray, Object.parameterMap?, hpristine.kind]⟩
  have hbounds : m₁.bounds = m.bounds := Machine.bounds_updateObject ..
  have hrecord₁ : g.Steps A m₁ (m₁.storeEnv env (.declarative r')) :=
    .of_record he (by rwa [hbounds])
  have ho₂ : (m₁.storeEnv env (.declarative r')).object? o =
      some (obj.insert (.name "callee") (.hidden v)) := Machine.object?_updateObject_self ho _
  have he₂ : (m₁.storeEnv env (.declarative r')).env? env = some (.declarative r') := by
    rw [Machine.env?_storeEnv _ _ _ _ (show m₁.env? env = _ from he), if_pos rfl]
  have hpristine₂ := hpristine.insert (.name "callee") v false
  refine .tail (.head hinsert hrecord₁) (.attach ho₂ hpristine₂.kind (Machine.within_of_env? he₂)
    (mappedNames_distinct env count names) (fun _ _ _ => ⟨r', he₂⟩) hrebuild fun _ =>
      hpristine₂.aliases (fun i hi => ?_) fun n hn => (hvariables n hn).isVariable he₂)
  rw [Object.insert_get?]
  split
  · rfl
  · exact helements i hi

end

/-- Mapping the arguments object and then binding the parameters it is mapped to. -/
theorem bindMapped_runs {f : ObjectId} (hf : f.Within m.bounds)
    (harguments : ∀ v ∈ arguments, g.Stored m.bounds v)
    (hsimple : Parameters.isSimple parameters = true) (hnodup : (Parameters.names parameters).Nodup)
    (hname : "arguments" ∉ Parameters.names parameters) (he : m.env? env = some (.declarative r))
    (hvariables : ∀ n ∈ Parameters.names parameters, r.HasVariable n false)
    (hfree : r.get? "arguments" = none)
    (hdeclare : g.checked → ∀ n ∈ Parameters.names parameters ++ ["arguments"], A.declare env n) :
    g.Runs A m (do
      let o ← newArguments f arguments (some (Parameters.names parameters, env))
      env.createMutable "arguments" false
      env.initBinding "arguments" (.object o)
      ev.bindParameters (some env) parameters arguments)
      fun m' _ => ∀ n ∈ Parameters.names parameters ++ ["arguments"], m'.Bound env n := by
  refine .of_sound fun hm => .of_covers fun hA => ?_
  unfold newArguments
  rw [bind_assoc]
  -- The map names the parameters before they have values, and it is sound only when all have them:
  -- from here on everything happens to the record `r`, so it is taken as one step to `r'`.
  refine .bind (newUnmappedArguments_runs harguments) fun o m₁ _ hsteps hm₁ ⟨hunmapped, ho⟩ => ?_
  have hb := hsteps.bounds hm
  obtain ⟨obj, hobj, hpristine, helements⟩ := hunmapped.object
  let r₁ : DeclarativeRecord :=
    { r with bindings := ("arguments", ⟨true, false, false, none⟩) :: r.bindings }
  have hcreate : r.create "arguments" true false false = .ok r₁ := by
    simp [DeclarativeRecord.create, DeclarativeRecord.has, hfree, r₁]
  have hwaiting : r₁.HasVariable "arguments" false := r.hasVariable_create "arguments"
  have hinit := hwaiting.initBinding (.object o)
  have hother (n : String) (hn : n ∈ Parameters.names parameters) : n ≠ "arguments" :=
    fun h => hname (h ▸ hn)
  have hnames (n : String) (hn : n ∈ Parameters.names parameters) :
      (r₁.put "arguments" (.object o)).HasVariable n false := by
    simpa [hother n hn] using ((hvariables n hn).create (hother n hn) _).put "arguments" (.object o)
  obtain ⟨hacts, hrecord⟩ := bindParameters_acts (g := g) ev env _ arguments hsimple hnodup hnames
  let r' := (r₁.put "arguments" (.object o)).putAll (Parameters.names parameters) arguments
  have hinitialized (n : String) (hn : n ∈ Parameters.names parameters) : r'.HasVariable n true := by
    simpa [hn] using (hnames n hn).putAll (Parameters.names parameters) arguments
  have hacts' : Eval.ActsOn (do
      env.createMutable "arguments" false
      env.initBinding "arguments" (.object o)
      ev.bindParameters (some env) parameters arguments) env r r' :=
    .bind (EnvId.createMutable_acts hfree) (.bind (EnvId.initBinding_acts hinit) hacts)
  -- the steps that this one step is made of
  have hpath : Relation.ReflTransGen (g.RecordStep m₁.bounds (A.declare env)) r r' := by
    refine .head (.create hcreate (fun _ => rfl) fun hc => hdeclare hc _ (by simp)) ?_
    refine .head (.init hinit (.object ho) fun hc => hdeclare hc _ (by simp)) ?_
    exact hrecord _ _ (fun v hv => (harguments v hv).mono hb) fun hc n hn => hdeclare hc n (by simp [hn])
  have he₁ : m₁.env? env = some (.declarative r) := by
    unfold Machine.env?
    rw [hunmapped.environments]
    exact he
  have hmap := bind_ok (f := fun _ => pure o)
    (defineCallee_eq hobj hpristine arguments.length (Parameters.names parameters) env (.object f))
  have hrun := bind_ok (f := fun _ => _) (ObjectId.modify_eq ho _) |>.trans hmap
  refine .of_ok (a := ()) ((bind_ok hrun).trans (hacts' _ he₁)) (Contract.Steps.mapped hobj hpristine
    helements (.object (Nat.lt_of_lt_of_le hf hb.1)) (fun _ => hA.2 _ hunmapped.fresh) he₁ hpath
    hinitialized) fun n hn => ?_
  have hbound : r'.HasVariable n true := by
    rcases List.mem_append.mp hn with hn | hn
    · exact hinitialized n hn
    · obtain rfl := List.mem_singleton.mp hn
      have hput : (r₁.put "arguments" (.object o)).HasVariable "arguments" true := by
        simpa using hwaiting.put "arguments" (.object o)
      simpa using hput.putAll (Parameters.names parameters) arguments
  exact hbound.bound (Machine.env?_storeEnv_self he₁ _)

/-- The arguments object is bound before the parameters get their values. -/
theorem bindArguments_runs {f : ObjectId} {slots : FunctionSlots} (hf : f.Within m.bounds)
    (harguments : ∀ v ∈ arguments, g.Stored m.bounds v) (henv : env.Within m.bounds)
    (hvariables : slots.strict = false → Parameters.isSimple slots.code.parameters = true →
      ∀ n ∈ Parameters.names slots.code.parameters, m.IsVariable env n)
    (hfree : g.checked → m.Unbound env "arguments")
    (hdeclare : g.checked → A.declare env "arguments") :
    g.Runs A m (bindArguments f slots env arguments)
      fun m' _ => g.checked → m'.Bound env "arguments" := by
  refine .of_sound fun hm => .bind (newArguments_runs hf harguments ?_) fun o m₁ _ hsteps hm₁ ho => ?_
  · intro names env' hmapping
    split at hmapping
    · rename_i hcond
      rw [Bool.and_eq_true, Bool.not_eq_true'] at hcond
      cases hmapping
      exact ⟨henv, hvariables hcond.1 hcond.2⟩
    · cases hmapping
  have henv₁ := Nat.lt_of_lt_of_le henv (hsteps.bounds hm).2.1
  have hfree₁ (hc : g.checked) : m₁.Free env "arguments" :=
    .inl (hsteps.unbound hm hc (Machine.not_grant_declare henv _) (hfree hc))
  have hinit (x : Eval Unit)
      (hx : g.Runs A m₁ x fun m' _ => g.checked → m'.Waiting env "arguments") :
      g.Runs A m₁ (x >>= fun _ => env.initBinding "arguments" (.object o))
        fun m' _ => g.checked → m'.Bound env "arguments" := by
    refine .seq hx fun _ m₂ _ hsteps₂ hm₂ hwaiting => ?_
    have hb₂ := hsteps₂.bounds hm₁
    refine (EnvId.initBinding_runs (Nat.lt_of_lt_of_le henv₁ hb₂.2.1)
      (.object (Nat.lt_of_lt_of_le ho hb₂.1)) hdeclare hwaiting).imp fun m₃ _ _ hsteps₃ _ hc => ?_
    exact hsteps₃.bound hm₂ hc (hwaiting hc).bound
  dsimp only
  split
  · exact hinit _ (EnvId.createImmutable_runs henv₁ hdeclare hfree₁)
  · exact hinit _ (EnvId.createMutable_runs henv₁ (fun _ => rfl) hdeclare hfree₁)

section

variable (hev : ev.Keeps g)

include hev

theorem bindParameters_runs {env : Option EnvId}
    (hparameters : g.checked → ∀ p ∈ parameters, p.ValidParameter)
    (hnames : g.Binds A m env (Parameters.names parameters))
    (harguments : ∀ v ∈ arguments, g.Stored m.bounds v) :
    g.Runs A m (ev.bindParameters env parameters arguments) fun _ _ => True := by
  induction parameters generalizing m arguments with
  | nil => exact .pure trivial
  | cons p rest ih =>
    have hp (hc : g.checked) : p.ValidParameter := hparameters hc p (by simp)
    have hnames' : g.Binds A m env (p.boundNames ++ Parameters.names rest) := hnames
    -- Any parameter but a rest parameter takes the first argument.
    have hpositional (hp : g.checked → p.Valid) : g.Runs A m (do
        ev.bindPattern env p (arguments.headD .undefined)
        ev.bindParameters env rest arguments.tail) fun _ _ => True := by
      have hv : g.Stored m.bounds (arguments.headD .undefined) := by
        cases arguments with
        | nil => exact ⟨trivial, fun _ => rfl⟩
        | cons v rest => exact harguments v (by simp)
      refine .bindNames hnames' (fun B hB => bindPattern_runs hev B m env p _ hp hB hv) ?_
      intro _ m₁ _ _ hb _ hnames₁
      exact ih (fun hc p hp => hparameters hc p (by simp [hp])) hnames₁
        fun v hv => (harguments v (List.mem_of_mem_tail hv)).mono hb
    cases p with
    | rest target =>
      have htarget (hc : g.checked) : target.Valid := by
        cases hp hc with
        | pattern h => cases h
        | rest h => exact h
      refine .of_sound fun hm => .bind (newArrayOf_runs harguments) fun array m₁ _ hsteps _ harray => ?_
      have hleft := hnames'.left.steps hm hsteps
      unfold Pattern.boundNames at hleft
      exact bindPattern_runs hev A m₁ env target _ htarget hleft (.object harray)
    | _ =>
      refine hpositional fun hc => ?_
      cases hp hc
      assumption

omit hev in
theorem needsArguments_names {slots : FunctionSlots} (h : needsArguments slots = true) :
    "arguments" ∉ Parameters.names slots.code.parameters := by
  simp only [needsArguments, Bool.and_eq_true, Bool.not_eq_true'] at h
  simpa using h.1.2

omit hev in
theorem repeatsParameter_nodup {slots : FunctionSlots} (h : repeatsParameter slots = false) :
    (Parameters.names slots.code.parameters).Nodup :=
  length_eraseDups_iff.mp (by simpa [repeatsParameter] using h)

/-- Declared parameters get their values, also after other names of their record have come. -/
theorem bindParameters_runs_later {slots : FunctionSlots} {others : List String}
    (hparameters : g.checked → ∀ p ∈ slots.code.parameters, p.ValidParameter)
    (harguments : ∀ v ∈ arguments, g.Stored m.bounds v) (hm : g.Sound m)
    (he : m.env? env = some (.declarative r))
    (hvariables : ∀ n ∈ Parameters.names slots.code.parameters, r.HasVariable n (repeatsParameter slots))
    (hdeclare : g.checked → ∀ n ∈ Parameters.names slots.code.parameters, A.declare env n)
    (hothers : ∀ n ∈ Parameters.names slots.code.parameters, n ∉ others)
    (hsteps : g.Steps (m.grant.declaring env others) m m') (hm' : g.Sound m')
    (hbound : g.checked → ∀ n ∈ others, m'.Bound env n) :
    g.Runs A m'
      (ev.bindParameters (if repeatsParameter slots then none else some env) slots.code.parameters arguments)
      fun m'' _ => g.checked → ∀ n ∈ Parameters.names slots.code.parameters ++ others, m''.Bound env n := by
  have henv := Machine.within_of_env? he
  have hb := hsteps.bounds hm
  have hbinds : g.Binds A m' (if repeatsParameter slots then none else some env)
      (Parameters.names slots.code.parameters) := by
    cases hrepeated : repeatsParameter slots with
    | true => exact .none g A m' _
    | false =>
      rw [hrepeated] at hvariables
      refine ⟨fun e he => ?_, fun _ _ => repeatsParameter_nodup hrepeated, fun hc e he n hn => ?_,
        fun hc e he n hn => ?_⟩ <;> cases he
      · exact Nat.lt_of_lt_of_le henv hb.2.1
      · refine hsteps.waiting hm hc ?_ ((hvariables n hn).waiting he)
        rintro (hgrant | ⟨-, hmem⟩)
        · exact Machine.not_grant_declare henv n hgrant
        · exact hothers n hn hmem
      · exact hdeclare hc n hn
  refine (bindParameters_runs hev hparameters hbinds fun v hv => (harguments v hv).mono hb).imp ?_
  intro m₃ _ _ hsteps₃ _ hc n hn
  rcases List.mem_append.mp hn with hn | hn
  · exact hsteps₃.bound hm' hc (hsteps.bound hm hc ((hvariables n hn).bound he))
  · exact hsteps₃.bound hm' hc (hbound hc n hn)

/-- The parameters and the arguments object of a call are bound in a record without bindings. -/
theorem bindCall_runs {f : ObjectId} {slots : FunctionSlots} (hf : f.Within m.bounds)
    (hparameters : g.checked → ∀ p ∈ slots.code.parameters, p.ValidParameter)
    (harguments : ∀ v ∈ arguments, g.Stored m.bounds v) (he : m.env? env = some (.declarative r))
    (hr : r.bindings = []) (hdeclare : g.checked → ∀ n ∈ callNames slots, A.declare env n) :
    g.Runs A m (ev.bindCall f slots env arguments)
      fun m' _ => g.checked → ∀ n ∈ callNames slots, m'.Bound env n := by
  let names := Parameters.names slots.code.parameters
  let repeated := repeatsParameter slots
  have hempty : r.Declares [] repeated :=
    ⟨by simp, fun n _ => by simp [DeclarativeRecord.get?, hr]⟩
  obtain ⟨r₁, hacts, -, hr₁, hrecord⟩ :=
    declareParameters_acts (g := g) env repeated names hempty
  rw [List.append_nil] at hr₁
  have hmem (hc : g.checked) (n : String) (hn : n ∈ names) : A.declare env n := by
    refine hdeclare hc n ?_
    unfold callNames
    split
    · exact List.mem_append_left _ hn
    · exact hn
  let m₁ := m.storeEnv env (.declarative r₁)
  have he₁ : m₁.env? env = some (.declarative r₁) := Machine.env?_storeEnv_self he _
  have henv₁ := Machine.within_of_env? he₁
  have hvariables (n : String) (hn : n ∈ names) : r₁.HasVariable n repeated :=
    hr₁.bound n (List.mem_reverse.mpr hn)
  have hsteps₁ : g.Steps A m m₁ := .of_record he (hrecord _ _ hmem)
  refine .of_sound fun hm => .seq (P := fun m' _ => m' = m₁) (.of_ok (hacts m he) hsteps₁ rfl) ?_
  rintro _ m' - - hm₁ rfl
  have hb₁ := hsteps₁.bounds hm
  have harguments₁ (v : Value) (hv : v ∈ arguments) : g.Stored m₁.bounds v :=
    (harguments v hv).mono hb₁
  -- The arguments object may take its name before the parameters get their values.
  have hbind (others : List String) (hothers : ∀ n ∈ names, n ∉ others) (m₂ : Machine)
      (hsteps₂ : g.Steps (m₁.grant.declaring env others) m₁ m₂) (hm₂ : g.Sound m₂)
      (hbound₂ : g.checked → ∀ n ∈ others, m₂.Bound env n) :=
    bindParameters_runs_later hev hparameters harguments₁ hm₁ he₁ hvariables hmem hothers hsteps₂ hm₂ hbound₂
  cases hneeds : needsArguments slots with
  | false =>
    have hcall : callNames slots = names ++ [] := by simp [callNames, hneeds, names]
    rw [hcall]
    simp only [Bool.false_eq_true, if_false]
    exact hbind [] (by simp) m₁ .refl hm₁ (by simp)
  | true =>
    have hcall : callNames slots = names ++ ["arguments"] := by simp [callNames, hneeds, names]
    have hname := needsArguments_names hneeds
    have hfree : r₁.get? "arguments" = none := hr₁.unbound _ (by simpa using hname)
    have hf₁ := Nat.lt_of_lt_of_le hf hb₁.1
    rw [hcall] at hdeclare ⊢
    simp only [if_true]
    by_cases hwindow : repeated = false ∧ slots.strict = false ∧
        Parameters.isSimple slots.code.parameters = true
    · obtain ⟨hrepeated, hstrict, hsimple⟩ := hwindow
      have hnodup := repeatsParameter_nodup hrepeated
      have hrepeats : repeatsParameter slots = false := hrepeated
      rw [hrepeated] at hvariables
      simp only [bindArguments, hstrict, hsimple, hrepeats, Bool.not_false, Bool.and_self, if_true,
        bind_assoc, Bool.false_eq_true, if_false]
      exact (bindMapped_runs hf₁ harguments₁ hsimple hnodup hname he₁ hvariables hfree hdeclare).imp
        fun _ _ _ _ h _ => h
    · have hinitialized (hstrict : slots.strict = false)
          (hsimple : Parameters.isSimple slots.code.parameters = true) (n : String) (hn : n ∈ names) :
          m₁.IsVariable env n := by
        have hrepeated : repeated = true := by
          by_contra hnot
          exact hwindow ⟨by simpa using hnot, hstrict, hsimple⟩
        exact (hrepeated ▸ hvariables n hn).isVariable he₁
      refine .bindDeclaring ["arguments"] (fun hc n hn => hdeclare hc n (List.mem_append_right _ hn))
        (bindArguments_runs hf₁ harguments₁ henv₁ hinitialized
          (fun _ => ⟨r₁, Machine.record?_eq he₁, hfree⟩) fun _ => .inr ⟨rfl, by simp⟩) ?_
      intro _ m₂ _ hsteps₂ hm₂ hbound₂
      refine hbind ["arguments"] (fun n hn h => hname (List.mem_singleton.mp h ▸ hn)) m₂ hsteps₂ hm₂ fun hc n hn => ?_
      obtain rfl := List.mem_singleton.mp hn
      exact hbound₂ hc

end

end Evaluator

end EcmaEval
