import EcmaEval.Proofs.Host.Write

/-!
# Strict references as a host sees them

What is written through a strict reference is read back through it, and a write that fails leaves everything
that existed as it was. The routes of the two meet: a declarative record keeps its names, an object that has
taken a value has a property of its own, and the global environment looks in the same half again.
-/
namespace EcmaEval

/-- A run that succeeds leaves a machine with a property, and one that fails adds objects at most. -/
def Machine.Commits (m : Machine) (P : Machine → Prop) : EStateM.Result Abrupt Machine Unit → Prop
  | .ok _ m' => P m'
  | .error _ m' => m.Allocates m'

/-- The property that a reference names: of an object, of an object scope or of the global object. -/
inductive Reference.NamesProperty (m : Machine) : Reference → ObjectId → Key → Prop
  | property (hkey : name.toKey m = .ok key m) :
      Reference.NamesProperty m (.property (.object o) name thisValue strict) o key
  | scope (he : m.env? env = some (.object s)) :
      Reference.NamesProperty m (.binding env name strict) s.object (.name name)
  | global (he : m.env? env = some (.global r)) (hname : r.declarative.has name = false) :
      Reference.NamesProperty m (.binding env name strict) r.scope.object (.name name)

variable {m m' : Machine} {o : ObjectId} {env : EnvId} {key : Key} {v : Value}

theorem Machine.Commits.imp {P Q : Machine → Prop} {result : EStateM.Result Abrupt Machine Unit}
    (h : m.Commits P result) (hPQ : ∀ m', P m' → Q m') : m.Commits Q result := by
  cases result with
  | ok u m' => exact hPQ m' h
  | error e m' => exact h

theorem Machine.Commits.complain (m : Machine) (P : Machine → Prop) (c : Complaint) :
    m.Commits P ((EcmaEval.complain c : Eval Unit) m) := by
  obtain ⟨e, m', hrun, hcomplains⟩ := complain_cases (α := Unit) c m
  rw [hrun]
  exact hcomplains.allocates

/-- An operation on a record that fails adds an error object at most. -/
theorem settle_allocates {result : Except Failure α} {e : Abrupt} (h : settle result m = .error e m') :
    m.Allocates m' := by
  cases result with
  | ok a => cases h
  | error failure =>
    cases failure with
    | complaint c =>
      obtain ⟨e', m₁, hrun, hcomplains⟩ := complain_cases (α := α) c m
      cases hrun.symm.trans h
      exact hcomplains.allocates
    | fault f =>
      cases h
      exact .refl m

/-- A strict assignment to a record gives the binding its value, or it is none. -/
theorem DeclarativeRecord.assign_strict {r r' : DeclarativeRecord} {name : String}
    (h : r.assign name v true = .ok r') : r'.has name = r.has name ∧ r'.read name = .ok v := by
  unfold assign at h
  cases hb : r.get? name with
  | none =>
    rw [hb] at h
    cases h
  | some b =>
    rw [hb] at h
    dsimp only at h
    split at h
    · cases h
    · split at h
      · cases h
        refine ⟨has_put r name name v, ?_⟩
        unfold read
        rw [get?_put_self hb v]
      · cases h

/-- A strict assignment to the bindings of an environment is stored or fails. -/
theorem EnvId.commits_record {e : Environment} {r : DeclarativeRecord} {name : String}
    (he : m.env? env = some e) (wrap : DeclarativeRecord → Environment) {P : Machine → Prop}
    (hP : ∀ r', r'.has name = r.has name → r'.read name = .ok v →
      ∀ m', m'.env? env = some (wrap r') → P m') :
    m.Commits P ((settle (r.assign name v true) >>= fun r' => env.store (wrap r')) m) := by
  cases hrun : settle (r.assign name v true) m with
  | error e' m' =>
    rw [bind_error hrun]
    exact settle_allocates hrun
  | ok r' m' =>
    obtain ⟨hassign, rfl⟩ := settle_eq_ok hrun
    obtain ⟨hhas, hread⟩ := DeclarativeRecord.assign_strict hassign
    rw [bind_ok hrun, EnvId.store_eq (Machine.within_of_env? he)]
    exact hP r' hhas hread _ (Machine.env?_storeEnv_self he _)

/-- What is left after each answer to a write of a property of the object itself. -/
def Machine.AfterWrite (m : Machine) (o : ObjectId) (key : Key) (v : Value) :
    EStateM.Result Abrupt Machine Bool → Prop
  | .ok true m' => (o.hasProperty key m' = .ok true ∧ o.get key m' = .ok v) ∧ m.ChangesOnly m' o key v
  | .ok false m' => m' = m
  | .error _ m' => m.Allocates m'

theorem ObjectId.set_eq_error (ho : m.object? o = none) (key : Key) (v : Value) :
    ∃ e, o.set key v (.object o) m = .error e m := by
  unfold set
  rw [if_pos (show (Value.object o).same (.object o) = true from Value.same_refl rfl)]
  exact ⟨_, bind_error (bind_error (lift_error (Query.bind_error (load_eq_error ho))))⟩

theorem Contract.Reachable.set_afterWrite (h : Contract.checks.Reachable m)
    (hlength : ¬(m.IsArray o ∧ (key == .length) = true)) (v : Value) :
    m.AfterWrite o key v (o.set key v (.object o) m) := by
  cases ho : m.object? o with
  | none =>
    obtain ⟨e, hrun⟩ := ObjectId.set_eq_error ho key v
    rw [hrun]
    exact Machine.Allocates.refl m
  | some obj =>
    have hin := Machine.within_of_object? ho
    obtain ⟨l, found, own, -, -, -, hend⟩ := h.set_ends hin hin key v
    have hchanges := hend.changesOnly ho (h.define_ends ho key)
    obtain ⟨enumerable, configurable, hafter⟩ :=
      hend.afterDefine ho (h.define_ends ho key) (h.distinct Contract.checks_open)
    cases hrun : o.set key v (.object o) m with
    | error e m' =>
      rw [hrun] at hafter
      exact hafter
    | ok done m' =>
      rw [hrun] at hafter
      rw [Eval.after_ok hrun] at hchanges
      cases done with
      | true =>
        obtain ⟨w, enumerable', configurable', hown, hw, -⟩ := hafter.takes
        cases hw hlength
        exact ⟨ObjectId.reads_of_data hown, hchanges⟩
      | false =>
        refine hafter fun n hlowers => hlength ?_
        obtain ⟨hkey, length, writable, w, ⟨obj', ho', hkind, -⟩, -⟩ := hlowers
        exact ⟨⟨obj', ho', hkind⟩, hkey⟩

/-- A write of a property whose refusal is a complaint. -/
theorem Machine.AfterWrite.commits {P : Machine → Prop} {c : Complaint}
    (h : m.AfterWrite o key v (o.set key v (.object o) m))
    (hP : ∀ m', (o.hasProperty key m' = .ok true ∧ o.get key m' = .ok v) → m.ChangesOnly m' o key v →
      P m') :
    m.Commits P ((o.set key v (.object o) >>= fun succeeded =>
      if !succeeded && true then EcmaEval.complain c else pure ()) m) := by
  cases hrun : o.set key v (.object o) m with
  | error e m' =>
    rw [hrun] at h
    rw [bind_error hrun]
    exact h
  | ok succeeded m' =>
    rw [hrun] at h
    rw [bind_ok hrun]
    cases succeeded with
    | true => exact hP m' h.1 h.2
    | false =>
      obtain rfl : m' = m := h
      exact .complain m' P c

/-- Only a declarative environment can hold a parameter. -/
theorem Machine.ChangesOnly.env? (h : m.ChangesOnly m' o key v) {e : Environment}
    (he : m.env? env = some e) (hother : ∀ r, e ≠ .declarative r) : m'.env? env = some e := by
  refine ((h.environments env).resolve_right ?_).trans he
  rintro ⟨name, r, -, he', -⟩
  rw [he] at he'
  exact hother r (Option.some.inj he')

/-- A strict assignment to a name of an object scope is read back. -/
theorem ObjectScope.assign_commits (h : Contract.checks.Reachable m) (s : ObjectScope) (name : String)
    (hlength : ¬(m.IsArray s.object ∧ (Key.name name == .length) = true)) (v : Value) :
    m.Commits (fun m' => s.read name true m' = .ok v m' ∧
      m.ChangesOnly m' s.object (.name name) v) (s.assign name v true m) := by
  unfold assign
  cases hhas : s.hasBinding name m with
  | error e =>
    rw [bind_error (lift_error hhas)]
    exact Machine.Allocates.refl m
  | ok found =>
    rw [bind_ok (lift_ok hhas)]
    cases found with
    | false =>
      obtain ⟨e, m', hrun, hcomplains⟩ := complain_cases (α := PUnit) (.notDefined name) m
      have hfail : ∀ f : PUnit → Eval Unit, (complain (.notDefined name) >>= f) m = .error e m' :=
        fun f => bind_error hrun
      exact (congrArg (m.Commits _) (hfail _)).mpr hcomplains.allocates
    | true =>
      refine (h.set_afterWrite hlength v).commits fun m' ⟨hfound, hget⟩ hchanges => ⟨?_, hchanges⟩
      have hhas' : s.hasBinding name m' = .ok true := hfound
      unfold read
      rw [bind_ok (lift_ok hhas')]
      exact lift_ok hget

theorem EnvId.assign_commits (h : Contract.checks.Reachable m) (env : EnvId) (name : String)
    (hlength : ∀ o key, (Reference.binding env name true).NamesProperty m o key →
      ¬(m.IsArray o ∧ (key == .length) = true)) (v : Value) :
    m.Commits (fun m' => env.read name true m' = .ok v m') (env.assign name v true m) := by
  unfold assign
  cases he : m.env? env with
  | none =>
    rw [bind_error (lift_error (load_eq_error he))]
    exact Machine.Allocates.refl m
  | some e =>
    rw [bind_ok (lift_ok (load_eq he))]
    have hread {m' : Machine} {e' : Environment} (he' : m'.env? env = some e') :
        env.read name true m' = _ := bind_ok (lift_ok (load_eq he'))
    cases e with
    | declarative r =>
      refine commits_record he .declarative fun r' _ hv m' he' => (hread he').trans ?_
      dsimp only
      rw [hv]
      rfl
    | object s =>
      exact (s.assign_commits h name (hlength _ _ (.scope he)) v).imp fun m' ⟨hv, hchanges⟩ =>
        (hread (hchanges.env? he nofun)).trans hv
    | global r =>
      dsimp only
      cases hname : r.declarative.has name with
      | true =>
        refine commits_record he (fun declarative => .global { r with declarative })
          fun r' hhas hv m' he' => (hread he').trans ?_
        dsimp only
        rw [if_pos (hhas.trans hname), hv]
        rfl
      | false =>
        -- the declarative half does not get the name either
        refine (r.scope.assign_commits h name (hlength _ _ (.global he hname)) v).imp
          fun m' ⟨hv, hchanges⟩ => (hread (hchanges.env? he nofun)).trans ?_
        dsimp only
        rw [hname]
        exact hv

/-- A property key is made of a value without a look at the machine, or it is not made. -/
theorem Value.toKey_cases (v : Value) (m : Machine) :
    (∃ key, ∀ m', v.toKey m' = .ok key m') ∨ ∃ e m', v.toKey m = .error e m' ∧ m.Allocates m' := by
  cases v with
  | object o => exact .inr ⟨_, m, rfl, .refl m⟩
  | reference r => exact .inr ⟨_, m, rfl, .refl m⟩
  | _ => exact .inl ⟨_, fun _ => rfl⟩

theorem Value.toObject_cases (v : Value) (m : Machine) :
    (∃ o, v = .object o) ∨ ∃ e m', v.toObject m = .error e m' ∧ m.Allocates m' := by
  cases v with
  | object o => exact .inl ⟨o, rfl⟩
  | undefined =>
    obtain ⟨e, m', hrun, hcomplains⟩ := complain_cases (α := ObjectId) (.notObject "undefined") m
    exact .inr ⟨e, m', hrun, hcomplains.allocates⟩
  | null =>
    obtain ⟨e, m', hrun, hcomplains⟩ := complain_cases (α := ObjectId) (.notObject "null") m
    exact .inr ⟨e, m', hrun, hcomplains.allocates⟩
  | _ => exact .inr ⟨_, m, rfl, .refl m⟩

theorem Value.putProperty_commits (h : Contract.checks.Reachable m) (base name : Value)
    (hlength : ∀ o key, (Reference.property base name none true).NamesProperty m o key →
      ¬(m.IsArray o ∧ (key == .length) = true)) (v : Value) :
    m.Commits (fun m' => (Value.reference (.property base name none true)).getValue m' = .ok v m')
      ((Value.reference (.property base name none true)).putValue v m) := by
  change m.Commits _ ((base.toObject >>= fun object => name.toKey >>= fun key =>
    object.set key v base >>= fun succeeded =>
      if !succeeded && true then complain (.readOnlyProperty key.display) else pure ()) m)
  rcases base.toObject_cases m with ⟨o, rfl⟩ | ⟨e, m', hrun, hm'⟩
  · have hobject (m' : Machine) : (Value.object o).toObject m' = .ok o m' := rfl
    rw [bind_ok (hobject m)]
    rcases name.toKey_cases m with ⟨key, hkey⟩ | ⟨e, m', hrun, hm'⟩
    · rw [bind_ok (hkey m)]
      refine (h.set_afterWrite (hlength o key (.property (hkey m))) v).commits fun m' ⟨_, hget⟩ _ => ?_
      exact (bind_ok (hobject m')).trans ((bind_ok (hkey m')).trans (lift_ok hget))
    · rw [bind_error hrun]
      exact hm'
  · rw [bind_error hrun]
    exact hm'

/-- **Strict references.** For a reference of strict code without a this value of its own, other than to the
length of an array: if a value is written through it, that value is read through it right afterwards, and
if the write fails, all objects and environments that existed are as they were. -/
theorem reachable_strict_references (h : Contract.checks.Reachable m) {r : Reference}
    (hstrict : r.isStrict = true) (hthis : ∀ base name t strict, r ≠ .property base name (some t) strict)
    (hlength : ∀ o key, r.NamesProperty m o key → ¬(m.IsArray o ∧ (key == .length) = true)) (v : Value) :
    (∀ m', (Value.reference r).putValue v m = .ok () m' → (Value.reference r).getValue m' = .ok v m') ∧
    ∀ e m', (Value.reference r).putValue v m = .error e m' → m.Allocates m' := by
  have hcommits : m.Commits (fun m' => (Value.reference r).getValue m' = .ok v m')
      ((Value.reference r).putValue v m) := by
    cases r with
    | unresolvable name strict =>
      obtain rfl : strict = true := hstrict
      exact .complain m _ (.notDefined name)
    | binding env name strict =>
      obtain rfl : strict = true := hstrict
      exact env.assign_commits h name hlength v
    | property base name thisValue strict =>
      obtain rfl : strict = true := hstrict
      cases thisValue with
      | none => exact Value.putProperty_commits h base name hlength v
      | some t => exact absurd rfl (hthis base name t true)
  refine ⟨fun m' hrun => ?_, fun e m' hrun => ?_⟩
  · rw [hrun] at hcommits
    exact hcommits
  · rw [hrun] at hcommits
    exact hcommits

/-- The argument of a call is written through a strict reference to the arguments object. -/
theorem reachable_strict_references_argument :
    let f : FunctionCode := ⟨some "f", .normal, [.identifier "a"], .block [], false, false⟩
    let m₁ := Operation.newRealm.run.after {}
    let m₂ := (Operation.pushScriptContext ⟨0⟩ false).run.after m₁
    let m₃ := (Operation.evaluate 4 (.script [.function f])).run.after m₂
    let m₄ := (Operation.call 4 (.object ⟨14⟩) .undefined [.null]).run.after m₃
    let r : Value := .reference (.property (.object ⟨16⟩) (.string (.ofString "0")) none true)
    ∃ m₅, r.putValue (.boolean true) m₄ = .ok () m₅ ∧ r.getValue m₅ = .ok (.boolean true) m₅ := by
  intro f m₁ m₂ m₃ m₄ r
  have h₄ : Contract.checks.Reachable m₄ := Contract.reachable_call.1
  obtain ⟨u, m₅, hrun⟩ := Eval.exists_ok (x := r.putValue (.boolean true)) (m := m₄) (by decide +kernel)
  have hkind : (m₄.object? ⟨16⟩).all (fun obj => !obj.isArray) = true := by decide +kernel
  clear_value m₄
  obtain ⟨hreads, -⟩ := reachable_strict_references h₄
    (r := .property (.object ⟨16⟩) (.string (.ofString "0")) none true) rfl (fun _ _ _ _ h => by cases h)
    (fun o key hnames hlength => by
      cases hnames
      obtain ⟨obj, ho, harray⟩ := hlength.1
      rw [ho] at hkind
      simp [Object.isArray, harray] at hkind) (.boolean true)
  exact ⟨m₅, hrun, hreads m₅ hrun⟩

end EcmaEval
