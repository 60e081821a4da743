import EcmaEval.Proofs.Heap.Object

/-!
# Operations on environments

Each operation on a binding is a run. Checked code creates a binding where there is none, initializes
one that waits for its value, and reads, writes or deletes one that is there; so none of them fails
but by a complaint.
-/
namespace EcmaEval

/-- A global environment. -/
def Machine.IsGlobal (m : Machine) (env : EnvId) : Prop := ∃ r, m.env? env = some (.global r)

/-- A name that an environment may bind: a global environment complains itself about a name that is
taken. -/
def Machine.Free (m : Machine) (env : EnvId) (name : String) : Prop :=
  m.Unbound env name ∨ m.IsGlobal env

/-- An environment with a `this` of its own. -/
def Machine.HasThis (m : Machine) (env : EnvId) : Prop :=
  m.IsGlobal env ∨ ∃ r, m.env? env = some (.declarative r) ∧ r.hasThis = true

variable {g : Contract} {A : Grant} {m m' : Machine} {env : EnvId} {name : String} {value : Value}
  {strict : Bool}

theorem Contract.Steps.isGlobal (h : g.Steps A m m') (hm : g.Sound m) (hg : m.IsGlobal env) :
    m'.IsGlobal env := by
  obtain ⟨r, hr⟩ := hg
  obtain ⟨e', he', hevolves⟩ := Contract.Steps.environments h hm hr
  obtain ⟨r', rfl, -⟩ := hevolves.global r rfl
  exact ⟨r', he'⟩

theorem Machine.IsGlobal.within (h : m.IsGlobal env) : env.Within m.bounds :=
  have ⟨_, hr⟩ := h
  Machine.within_of_env? hr

theorem Machine.Free.declarative (h : m.Free env name) {r : DeclarativeRecord}
    (he : m.env? env = some (.declarative r)) : r.get? name = none := by
  obtain ⟨r', hr', hname⟩ | ⟨r', hr'⟩ := h
  · rw [Machine.record?_eq he] at hr'
    cases hr'
    exact hname
  · rw [he] at hr'
    cases hr'

theorem Machine.Free.not_object (h : m.Free env name) (s : ObjectScope) :
    m.env? env ≠ some (.object s) := by
  intro he
  obtain ⟨r', hr', -⟩ | ⟨r', hr'⟩ := h
  · rw [Machine.record?_eq he] at hr'
    cases hr'
  · rw [he] at hr'
    cases hr'

theorem allocateEnvironment_runs {e : Environment}
    (hok : g.EnvironmentOk m.bounds ⟨m.environments.size⟩ e) :
    g.Runs A m (allocateEnvironment e) fun m' env =>
      m' = m.pushEnv e ∧ env = ⟨m.environments.size⟩ :=
  .of_ok rfl (.single (.environment hok)) ⟨rfl, rfl⟩

theorem newDeclarativeEnvironment_runs {outer : Option EnvId}
    (houter : ∀ env, outer = some env → env.Within m.bounds) (hroot : g.checked → outer.isSome = true) :
    g.Runs A m (newDeclarativeEnvironment outer) fun m' env =>
      m' = m.pushEnv (.declarative { outer }) ∧ env = ⟨m.environments.size⟩ :=
  allocateEnvironment_runs (.declarative houter hroot
    ⟨fun _ he => by simp at he, fun _ _ he => by simp at he, fun _ h => by cases h⟩)

theorem newObjectEnvironment_runs {o : ObjectId} {isWith : Bool} {outer : Option EnvId}
    (ho : o.Within m.bounds) (houter : ∀ env, outer = some env → env.Within m.bounds)
    (hroot : g.checked → outer.isSome = true) :
    g.Runs A m (newObjectEnvironment o isWith outer) fun m' env =>
      m' = m.pushEnv (.object { object := o, isWith, outer }) ∧ env = ⟨m.environments.size⟩ :=
  allocateEnvironment_runs (.object houter hroot ho)

namespace ObjectScope

variable {s : ObjectScope}

theorem hasBinding_asks (hs : s.object.Within m.bounds) : g.Asks m (s.hasBinding name) fun _ => True :=
  ObjectId.hasProperty_asks hs

theorem createMutable_runs {deletable : Bool} (hs : s.object.Within m.bounds) :
    g.Runs A m (s.createMutable name deletable) fun _ _ => True :=
  ObjectId.defineOrThrow_runs hs ⟨trivial, fun _ => rfl⟩

theorem assign_runs (hs : s.object.Within m.bounds) (hv : g.Stored m.bounds value) :
    g.Runs A m (s.assign name value strict) fun _ _ => True := by
  have hset : g.Runs A m (do
      let succeeded ← s.object.set (.name name) value (.object s.object)
      if !succeeded && strict then complain (.readOnlyBinding name)) fun _ _ => True := by
    refine .bind (ObjectId.set_runs hs hv hs) fun succeeded _ _ _ _ _ => ?_
    split
    · exact .complain _
    · exact .pure trivial
  refine .query (hasBinding_asks hs) fun exists? _ _ => ?_
  split
  · exact .bind (P := fun _ _ => False) (.complain _) fun _ _ _ _ _ h => h.elim
  · exact hset

theorem read_runs (hs : s.object.Within m.bounds) :
    g.Runs A m (s.read name strict) fun m' v => g.Stored m'.bounds v := by
  refine .query (hasBinding_asks hs) fun exists? _ _ => ?_
  split
  · split
    · exact .complain _
    · exact .pure ⟨trivial, fun _ => rfl⟩
  · exact .ask (ObjectId.get_asks hs) fun _ _ hv => hv

end ObjectScope

namespace DeclarativeRecord

variable {r r' : DeclarativeRecord}

theorem create_ne_fault {isMutable deletable : Bool} (h : r.get? name = none) (f : Fault) :
    r.create name isMutable deletable strict ≠ .error (.fault f) := by
  simp [create, has, h]

theorem initBinding_ne_fault {x : Binding} (h : r.get? name = some x) (hx : x.value = none)
    (f : Fault) : r.initBinding name value ≠ .error (.fault f) := by
  simp [initBinding, h, hx]

theorem read_ne_fault (h : r.has name = true) (f : Fault) : r.read name ≠ .error (.fault f) := by
  obtain ⟨x, hx⟩ := Option.isSome_iff_exists.mp h
  unfold read
  rw [hx]
  dsimp only
  split <;> simp

theorem delete_ne_fault (h : r.has name = true) (f : Fault) : r.delete name ≠ .error (.fault f) := by
  obtain ⟨x, hx⟩ := Option.isSome_iff_exists.mp h
  unfold delete
  rw [hx]
  dsimp only
  split <;> simp

theorem read_ok (h : r.read name = .ok value) : ∃ x, r.get? name = some x ∧ x.value = some value := by
  unfold read at h
  split at h
  · cases h
  · rename_i x hx
    split at h
    · cases h
      exact ⟨x, hx, ‹_›⟩
    · cases h

end DeclarativeRecord

namespace EnvId

/-- The record of an environment is replaced. -/
theorem store_runs {e : Environment} {r r' : DeclarativeRecord} (he : m.env? env = some e)
    (hr : e.record? = some r) (hstep : g.RecordStep m.bounds (A.declare env) r r') :
    g.Runs A m (env.store (e.withRecord r')) fun m' _ => m' = m.storeEnv env (e.withRecord r') :=
  .of_ok (store_eq (Machine.within_of_env? he) _) (.single (.record he (.record hr hstep))) rfl

theorem record?_storeEnv {e : Environment} {r : DeclarativeRecord} (he : m.env? env = some e)
    (hr : e.record? = some r) (r' : DeclarativeRecord) :
    (m.storeEnv env (e.withRecord r')).record? env = some r' := by
  rw [Machine.record?_eq (Machine.env?_storeEnv_self he _), Environment.record?_withRecord hr]

/-- A change of a record that succeeds or complains. -/
theorem update_runs {e : Environment} {r : DeclarativeRecord} {step : Except Failure DeclarativeRecord}
    (he : m.env? env = some e) (hr : e.record? = some r)
    (hstep : ∀ r', step = .ok r' → g.RecordStep m.bounds (A.declare env) r r')
    (hfault : g.checked → ∀ f, step ≠ .error (.fault f)) :
    g.Runs A m (do env.store (e.withRecord (← settle step))) fun m' _ =>
      ∃ r', step = .ok r' ∧ m' = m.storeEnv env (e.withRecord r') := by
  refine .bind (P := fun m' r' => m' = m ∧ step = .ok r') (.settle (fun r' hr' => ⟨rfl, hr'⟩) hfault) ?_
  rintro r' _ - - - ⟨rfl, hr'⟩
  exact (store_runs he hr (hstep r' hr')).imp fun m' _ _ _ h => ⟨r', hr', h⟩

theorem hasBinding_asks (henv : env.Within m.bounds) :
    g.Asks m (env.hasBinding name) fun b => ∃ e, m.env? env = some e ∧
      (∀ r, e = .declarative r → b = r.has name) ∧
      (∀ r, e.record? = some r → r.has name = true → b = true) := by
  refine .of_sound fun hm => .bind (load_asks henv) fun e _ he => ?_
  cases hm.environments env e he with
  | declarative houter hroot hrecord =>
    exact .pure ⟨_, he, fun r hr => by cases hr; rfl, fun r hr h => by cases hr; exact h⟩
  | object houter hroot hobject =>
    refine (ObjectScope.hasBinding_asks hobject).imp fun b _ => ⟨_, he, ?_, ?_⟩
    · intro r hr
      cases hr
    · intro r hr
      cases hr
  | @global r hscope houter hthis hrecord hrecordOuter =>
    dsimp only
    split
    · exact .pure ⟨_, he, fun r hr => (by cases hr), fun _ _ _ => rfl⟩
    · rename_i hnot
      refine (ObjectScope.hasBinding_asks hscope).imp fun b _ => ⟨_, he, ?_, ?_⟩
      · intro r hr
        cases hr
      · intro r hr h
        cases hr
        exact absurd h hnot

theorem hasBinding_resolves (henv : env.Within m.bounds) :
    g.Asks m (env.hasBinding name) fun b => b = true → env.Within m.bounds ∧ m.Resolves env name :=
  (hasBinding_asks henv).imp fun _ ⟨e, he, hdeclarative, _⟩ hb =>
    ⟨henv, e, he, fun r hr => (hdeclarative r hr).symm.trans hb⟩

/-- A new binding waits for its value. In the global environment the name may be taken, which is a
complaint. -/
theorem create_runs {isMutable deletable : Bool} {e : Environment} {r : DeclarativeRecord}
    (he : m.env? env = some e) (hr : e.record? = some r)
    (hfixed : g.checked → deletable = false) (hdeclare : g.checked → A.declare env name)
    (hfree : g.checked → r.get? name = none) :
    g.Runs A m (do env.store (e.withRecord (← settle (r.create name isMutable deletable strict))))
      fun m' _ => m'.Waiting env name := by
  refine (update_runs he hr (fun r' h => .create h hfixed hdeclare)
    fun hc f => DeclarativeRecord.create_ne_fault (hfree hc) f).imp ?_
  rintro m' - - - ⟨r', hr', rfl⟩
  obtain ⟨-, rfl⟩ := DeclarativeRecord.create_ok hr'
  exact ⟨_, _, record?_storeEnv he hr _, by rw [DeclarativeRecord.get?_cons, if_pos rfl], rfl⟩

theorem createMutable_runs {deletable : Bool} (henv : env.Within m.bounds)
    (hfixed : g.checked → deletable = false) (hdeclare : g.checked → A.declare env name)
    (hfree : g.checked → m.Free env name) :
    g.Runs A m (env.createMutable name deletable) fun m' _ => g.checked → m'.Waiting env name := by
  refine .of_sound fun hm => .query (load_asks henv) fun e _ he => ?_
  cases hm.environments env e he with
  | @declarative r houter hroot hrecord =>
    refine (create_runs he rfl hfixed hdeclare fun hc => ?_).imp fun _ _ _ _ h _ => h
    exact (hfree hc).declarative he
  | object houter hroot hobject =>
    exact (ObjectScope.createMutable_runs hobject).imp fun _ _ _ _ _ hc =>
      absurd he ((hfree hc).not_object _)
  | @global r hscope houter hthis hrecord hrecordOuter =>
    dsimp only
    split
    · exact .complain _
    · rename_i hnot
      refine (create_runs he rfl hfixed hdeclare fun _ => ?_).imp fun _ _ _ _ h _ => h
      exact Option.not_isSome_iff_eq_none.mp hnot

theorem createImmutable_runs (henv : env.Within m.bounds) (hdeclare : g.checked → A.declare env name)
    (hfree : g.checked → m.Free env name) :
    g.Runs A m (env.createImmutable name strict) fun m' _ => g.checked → m'.Waiting env name := by
  refine .of_sound fun hm => .query (load_asks henv) fun e _ he => ?_
  cases hm.environments env e he with
  | @declarative r houter hroot hrecord =>
    refine (create_runs he rfl (fun _ => rfl) hdeclare fun hc => ?_).imp fun _ _ _ _ h _ => h
    exact (hfree hc).declarative he
  | object houter hroot hobject =>
    exact .breach _ fun hc => (hfree hc).not_object _ he
  | @global r hscope houter hthis hrecord hrecordOuter =>
    dsimp only
    split
    · exact .complain _
    · rename_i hnot
      refine (create_runs he rfl (fun _ => rfl) hdeclare fun _ => ?_).imp fun _ _ _ _ h _ => h
      exact Option.not_isSome_iff_eq_none.mp hnot

theorem createLexical_runs (constant : Bool) (henv : env.Within m.bounds)
    (hdeclare : g.checked → A.declare env name)
    (hfree : g.checked → m.Free env name) :
    g.Runs A m (env.createLexical constant name) fun m' _ => g.checked → m'.Waiting env name := by
  unfold createLexical
  split
  · exact createImmutable_runs henv hdeclare hfree
  · exact createMutable_runs henv (fun _ => rfl) hdeclare hfree

/-- A binding that waits for its value gets it. -/
theorem initBinding_runs (henv : env.Within m.bounds) (hv : g.Stored m.bounds value)
    (hdeclare : g.checked → A.declare env name) (hwaiting : g.checked → m.Waiting env name) :
    g.Runs A m (env.initBinding name value) fun _ _ => True := by
  have hrecord {e : Environment} {r : DeclarativeRecord} (he : m.env? env = some e)
      (hr : e.record? = some r) : g.Runs A m
        (do env.store (e.withRecord (← settle (r.initBinding name value)))) fun _ _ => True := by
    refine (update_runs he hr (fun r' h => .init h hv hdeclare) fun hc f => ?_).imp
      fun _ _ _ _ _ => trivial
    obtain ⟨r', x, hr', hx, hvalue⟩ := hwaiting hc
    rw [Machine.record?_eq he, hr] at hr'
    cases hr'
    exact DeclarativeRecord.initBinding_ne_fault hx hvalue f
  refine .of_sound fun hm => .query (load_asks henv) fun e _ he => ?_
  cases hm.environments env e he with
  | declarative houter hroot _ => exact hrecord he rfl
  | object houter hroot hobject => exact ObjectScope.assign_runs hobject hv
  | global hscope houter hthis _ hrecordOuter =>
    dsimp only
    split
    · exact hrecord he rfl
    · exact ObjectScope.assign_runs hscope hv

theorem assign_runs (henv : env.Within m.bounds) (hv : g.Stored m.bounds value)
    (hresolves : g.checked → m.Resolves env name) :
    g.Runs A m (env.assign name value strict) fun _ _ => True := by
  have hrecord {e : Environment} {r : DeclarativeRecord} (he : m.env? env = some e)
      (hr : e.record? = some r) (hbound : g.checked → r.has name = true) : g.Runs A m
        (do env.store (e.withRecord (← settle (r.assign name value strict)))) fun _ _ => True :=
    (update_runs he hr (fun r' h => .assign h hv hbound)
      fun _ f => r.assign_ne_fault name value strict f).imp fun _ _ _ _ _ => trivial
  refine .of_sound fun hm => .query (load_asks henv) fun e _ he => ?_
  cases hm.environments env e he with
  | declarative houter hroot _ => exact hrecord he rfl fun hc => (hresolves hc).has he
  | object houter hroot hobject => exact ObjectScope.assign_runs hobject hv
  | global hscope houter hthis _ hrecordOuter =>
    dsimp only
    split
    · exact hrecord he rfl fun _ => ‹_›
    · exact ObjectScope.assign_runs hscope hv

theorem read_runs (henv : env.Within m.bounds) (hresolves : g.checked → m.Resolves env name) :
    g.Runs A m (env.read name strict) fun m' v => g.Stored m'.bounds v := by
  have hrecord {r : DeclarativeRecord} (hok : g.RecordOk m.bounds r)
      (hbound : g.checked → r.has name = true) :
      g.Runs A m (settle (r.read name)) fun m' v => g.Stored m'.bounds v := by
    refine .settle (fun v hv => ?_) fun hc f => DeclarativeRecord.read_ne_fault (hbound hc) f
    obtain ⟨x, hx, hvalue⟩ := DeclarativeRecord.read_ok hv
    exact hok.get? hx hvalue
  refine .of_sound fun hm => .query (load_asks henv) fun e _ he => ?_
  cases hm.environments env e he with
  | declarative houter hroot hok => exact hrecord hok fun hc => (hresolves hc).has he
  | object houter hroot hobject => exact ObjectScope.read_runs hobject
  | global hscope houter hthis hok hrecordOuter =>
    dsimp only
    split
    · exact hrecord hok fun _ => ‹_›
    · exact ObjectScope.read_runs hscope

theorem delete_runs (henv : env.Within m.bounds) (hresolves : g.checked → m.Resolves env name) :
    g.Runs A m (env.delete name) fun _ _ => True := by
  have hrecord {e : Environment} {r : DeclarativeRecord} (he : m.env? env = some e)
      (hr : e.record? = some r) (hbound : g.checked → r.has name = true) : g.Runs A m (do
        let p ← settle (r.delete name)
        env.store (e.withRecord p.2)
        return p.1) fun _ _ => True := by
    refine .bind (P := fun m' p => m' = m ∧ r.delete name = .ok p)
      (.settle (fun p hp => ⟨rfl, hp⟩) fun hc f => DeclarativeRecord.delete_ne_fault (hbound hc) f) ?_
    rintro ⟨deleted, r'⟩ _ - - - ⟨rfl, hp⟩
    exact .bind (store_runs he hr (.delete hp)) fun _ _ _ _ _ _ => .pure trivial
  refine .of_sound fun hm => .query (load_asks henv) fun e _ he => ?_
  cases hm.environments env e he with
  | declarative houter hroot _ => exact hrecord he rfl fun hc => (hresolves hc).has he
  | object houter hroot hobject => exact ObjectId.delete_runs hobject
  | @global r hscope houter hthis _ hrecordOuter =>
    dsimp only
    split
    · exact hrecord he rfl fun _ => ‹_›
    refine .query (ObjectId.hasOwnProperty_asks hscope) fun own _ _ => ?_
    split
    · exact .pure trivial
    refine .bind (ObjectId.delete_runs hscope) fun deleted m' hrun _ _ _ => ?_
    have he' : m'.env? env = some (.global r) := by
      have hfixes := (ObjectId.delete_fixes_environments _ _).of_ok hrun
      unfold Machine.env?
      rw [hfixes]
      exact he
    split
    · refine .bind (P := fun _ _ => True) (.of_ok (store_eq (Machine.within_of_env? he') _)
        (.single (.record he' (.varNames _ rfl))) trivial) fun _ _ _ _ _ _ => .pure trivial
    · exact .pure trivial

theorem hasThis_asks (henv : env.Within m.bounds) :
    g.Asks m env.hasThis fun b => (b = true → m.HasThis env) ∧ (m.IsGlobal env → b = true) := by
  refine .bind (load_asks henv) fun e _ he => ?_
  cases e with
  | declarative r =>
    refine .pure ⟨fun h => .inr ⟨r, he, h⟩, fun ⟨r', hr'⟩ => ?_⟩
    rw [he] at hr'
    cases hr'
  | object s =>
    refine .pure ⟨by simp, fun ⟨r', hr'⟩ => ?_⟩
    rw [he] at hr'
    cases hr'
  | global r => exact .pure ⟨fun _ => .inl ⟨r, he⟩, fun _ => rfl⟩

theorem withObject?_asks (henv : env.Within m.bounds) :
    g.Asks m env.withObject? fun o => ∀ p, o = some p → p.Within m.bounds := by
  refine .of_sound fun hm => .bind (load_asks henv) fun e _ he => ?_
  cases hm.environments env e he with
  | declarative houter hroot hrecord => exact .pure (by simp)
  | object houter hroot hobject =>
    refine .pure fun p hp => ?_
    split at hp
    · cases hp
      exact hobject
    · cases hp
  | global hscope houter hthis hrecord hrecordOuter => exact .pure (by simp)

theorem getThis_runs (henv : env.Within m.bounds) (hthis : g.checked → m.HasThis env) :
    g.Runs A m env.getThis fun m' v => m' = m ∧ g.Stored m.bounds v := by
  refine .of_sound fun hm => .query (load_asks henv) fun e _ he => ?_
  have hdeclarative (hc : g.checked) (r : DeclarativeRecord) (h : e = .declarative r) :
      r.hasThis = true := by
    subst h
    obtain ⟨r', hr'⟩ | ⟨r', hr', hr⟩ := hthis hc
    · rw [he] at hr'
      cases hr'
    · rw [he] at hr'
      cases hr'
      exact hr
  cases hm.environments env e he with
  | @declarative r houter hroot hrecord =>
    obtain ⟨outer, bindings, call⟩ := r
    cases call with
    | none => exact .breach _ fun hc => by simpa [DeclarativeRecord.hasThis] using hdeclarative hc _ rfl
    | some slots =>
      dsimp only
      split
      · exact .pure ⟨rfl, (hrecord.call slots rfl).1⟩
      · exact .complain _
      · rename_i hstatus
        refine .breach _ fun hc => ?_
        simpa [DeclarativeRecord.hasThis, hstatus] using hdeclarative hc _ rfl
  | @object s houter hroot hobject =>
    refine .breach _ fun hc => ?_
    obtain ⟨r', hr'⟩ | ⟨r', hr', -⟩ := hthis hc
    · rw [he] at hr'
      cases hr'
    · rw [he] at hr'
      cases hr'
  | global hscope houter hglobal hrecord hrecordOuter => exact .pure ⟨rfl, hglobal, fun _ => rfl⟩

/-- The `this` of a call is set in a record whose bindings stay. -/
theorem bindThis_runs (henv : env.Within m.bounds) (hv : g.Stored m.bounds value)
    (hthis : g.checked → ∃ r, m.env? env = some (.declarative r) ∧ r.hasThis = true) :
    g.Runs A m (env.bindThis value) fun m' _ => ∃ r r', m.env? env = some (.declarative r) ∧
      m'.env? env = some (.declarative r') ∧ r'.bindings = r.bindings := by
  refine .of_sound fun hm => .query (load_asks henv) fun e _ he => ?_
  have hother (h : ∀ r, e = .declarative r → r.hasThis = false) (hc : g.checked) : False := by
    obtain ⟨r, hr, hhas⟩ := hthis hc
    rw [he] at hr
    cases hr
    simp [h r rfl] at hhas
  cases e with
  | declarative r =>
    obtain ⟨outer, bindings, call⟩ := r
    cases call with
    | none => exact .breach _ (hother fun r hr => by cases hr; rfl)
    | some slots =>
      dsimp only
      split
      · rename_i hstatus
        refine .breach _ (hother fun r hr => ?_)
        cases hr
        simp [DeclarativeRecord.hasThis, hstatus]
      · exact .complain _
      · let r' : DeclarativeRecord :=
          ⟨outer, bindings, some { slots with thisValue := value, thisStatus := .initialized }⟩
        have hrecord : (Environment.declarative ⟨outer, bindings, some slots⟩).record? = some _ := rfl
        have hstep : g.RecordStep m.bounds (A.declare env) ⟨outer, bindings, some slots⟩ r' :=
          .bindThis rfl hv
        refine (store_runs he hrecord hstep).imp fun m' _ _ _ hm' => ⟨_, r', he, ?_, rfl⟩
        rw [hm', Machine.env?_storeEnv_self he]
        rfl
  | object s => exact .breach _ (hother fun r hr => by cases hr)
  | global r => exact .breach _ (hother fun r hr => by cases hr)

theorem loadGlobal_asks (henv : env.Within m.bounds) (hglobal : g.checked → m.IsGlobal env) :
    g.Asks m env.loadGlobal fun r => m.env? env = some (.global r) := by
  refine .bind (load_asks henv) fun e _ he => ?_
  cases e with
  | global r => exact .pure he
  | _ =>
    refine .breach _ fun hc => ?_
    obtain ⟨r, hr⟩ := hglobal hc
    rw [he] at hr
    cases hr

theorem hasVarDeclaration_asks (henv : env.Within m.bounds) (hglobal : g.checked → m.IsGlobal env) :
    g.Asks m (env.hasVarDeclaration name) fun _ => True :=
  .bind (loadGlobal_asks henv hglobal) fun _ _ _ => .pure trivial

theorem hasLexicalDeclaration_asks (henv : env.Within m.bounds)
    (hglobal : g.checked → m.IsGlobal env) :
    g.Asks m (env.hasLexicalDeclaration name) fun _ => True :=
  .bind (loadGlobal_asks henv hglobal) fun _ _ _ => .pure trivial

/-- The object behind a global environment is in range. -/
theorem global_scope (hm : g.Sound m) {r : GlobalRecord} (hr : m.env? env = some (.global r)) :
    r.scope.object.Within m.bounds := by
  cases hm.environments env _ hr with
  | global hscope _ _ _ _ => exact hscope

theorem hasRestrictedProperty_asks (henv : env.Within m.bounds)
    (hglobal : g.checked → m.IsGlobal env) :
    g.Asks m (env.hasRestrictedProperty name) fun _ => True := by
  refine .of_sound fun hm => .bind (loadGlobal_asks henv hglobal) fun r _ hr => ?_
  refine .bind (ObjectId.getOwnProperty_asks (global_scope hm hr)) fun d _ _ => ?_
  cases d <;> exact .pure trivial

theorem canDeclareVar_asks (henv : env.Within m.bounds) (hglobal : g.checked → m.IsGlobal env) :
    g.Asks m (env.canDeclareVar name) fun _ => True := by
  refine .of_sound fun hm => .bind (loadGlobal_asks henv hglobal) fun r _ hr => ?_
  refine .bind (ObjectId.hasOwnProperty_asks (global_scope hm hr)) fun own _ _ => ?_
  split
  · exact .pure trivial
  · exact ObjectId.isExtensible_asks (global_scope hm hr)

theorem canDeclareFunction_asks (henv : env.Within m.bounds)
    (hglobal : g.checked → m.IsGlobal env) :
    g.Asks m (env.canDeclareFunction name) fun _ => True := by
  refine .of_sound fun hm => .bind (loadGlobal_asks henv hglobal) fun r _ hr => ?_
  refine .bind (ObjectId.getOwnProperty_asks (global_scope hm hr)) fun d _ _ => ?_
  split
  · exact ObjectId.isExtensible_asks (global_scope hm hr)
  · exact .pure trivial
  · exact .pure trivial

theorem declareVarName_runs (henv : env.Within m.bounds) (hglobal : g.checked → m.IsGlobal env) :
    g.Runs A m (env.declareVarName name) fun _ _ => True := by
  refine .query (loadGlobal_asks henv hglobal) fun r _ hr => ?_
  exact .of_ok (store_eq henv _) (.single (.record hr (.varNames _ rfl))) trivial

theorem createGlobalVar_runs {deletable : Bool} (henv : env.Within m.bounds)
    (hglobal : g.checked → m.IsGlobal env) :
    g.Runs A m (env.createGlobalVar name deletable) fun _ _ => True := by
  refine .of_sound fun hm => .query (loadGlobal_asks henv hglobal) fun r _ hr => ?_
  have hscope := global_scope hm hr
  refine .query (ObjectId.hasOwnProperty_asks hscope) fun own _ _ => ?_
  refine .query (ObjectId.isExtensible_asks hscope) fun extensible _ _ => ?_
  dsimp only
  split
  · refine .bind (ObjectScope.createMutable_runs hscope) fun _ m₁ _ hsteps₁ hm₁ _ => ?_
    have hb₁ := hsteps₁.bounds hm
    refine .bind (ObjectScope.assign_runs (Nat.lt_of_lt_of_le hscope hb₁.1) ⟨trivial, fun _ => rfl⟩)
      fun _ m₂ _ hsteps₂ _ _ => ?_
    have hsteps := hsteps₂.bounds hm₁
    exact declareVarName_runs (Nat.lt_of_lt_of_le henv (Bounds.le_trans hb₁ hsteps).2.1)
      fun hc => hsteps₂.isGlobal hm₁ (hsteps₁.isGlobal hm (hglobal hc))
  · exact declareVarName_runs henv hglobal

theorem createGlobalFunction_runs {deletable : Bool} (henv : env.Within m.bounds)
    (hv : g.Stored m.bounds value) (hglobal : g.checked → m.IsGlobal env) :
    g.Runs A m (env.createGlobalFunction name value deletable) fun _ _ => True := by
  refine .of_sound fun hm => .query (loadGlobal_asks henv hglobal) fun r _ hr => ?_
  have hscope := global_scope hm hr
  refine .query (ObjectId.getOwnProperty_asks hscope) fun own _ _ => ?_
  have hdefine (d : Descriptor) (hd : d.All (g.Stored m.bounds)) : g.Runs A m (do
      r.scope.object.defineOrThrow (.name name) d
      if !(← r.scope.object.set (.name name) value (.object r.scope.object)) then
        complain (.readOnlyBinding name)
      env.declareVarName name) fun _ _ => True := by
    refine .bind (ObjectId.defineOrThrow_runs hscope hd) fun _ m₁ _ hsteps₁ hm₁ _ => ?_
    have hb₁ := hsteps₁.bounds hm
    have hscope₁ := Nat.lt_of_lt_of_le hscope hb₁.1
    refine .bind (ObjectId.set_runs hscope₁ (hv.mono hb₁) hscope₁) fun succeeded m₂ _ hsteps₂ _ _ => ?_
    split
    · exact .bind (P := fun _ _ => False) (.complain _) fun _ _ _ _ _ h => h.elim
    · exact declareVarName_runs (Nat.lt_of_lt_of_le henv (Bounds.le_trans hb₁ (hsteps₂.bounds hm₁)).2.1)
        fun hc => hsteps₂.isGlobal hm₁ (hsteps₁.isGlobal hm (hglobal hc))
  cases own with
  | none => exact hdefine _ hv
  | some old =>
    refine hdefine (if old.configurable then _ else old.withValue value) ?_
    split <;> exact hv

end EnvId

end EcmaEval
