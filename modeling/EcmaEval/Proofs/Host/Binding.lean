import EcmaEval.Proofs.Host.Remit
import EcmaEval.Proofs.Host.Operation

/-!
# Bindings under the operations of a host

Whatever a host does to a machine, with whatever arguments, each binding runs through its states in
one direction: it is created without a value, gets one, and keeps its flags, and its value if it is
immutable, for as long as it exists. Reading a binding tells the two states apart.
-/
namespace EcmaEval

namespace Operation

theorem run_changes (op : Operation) (m : Machine) : m.Changes (op.run.after m) :=
  (run_touches Remit.whole_isOpen (fun _ => trivial) trivial (.inl trivial) (.inl trivial)
    m.closedIn_of_isFree).changes

/-- Performs operations one after the other. -/
def runAll (ops : List Operation) (m : Machine) : Machine := ops.foldl (fun m op => op.run.after m) m

theorem runAll_changes (ops : List Operation) (m : Machine) : m.Changes (runAll ops m) := by
  induction ops generalizing m with
  | nil => exact .refl
  | cons op ops ih => exact (op.run_changes m).trans (ih (op.run.after m))

end Operation

/-- The error object for a complaint in a realm. -/
def Realm.errorFor (realm : Realm) (c : Complaint) : Object :=
  ({ prototype := some (realm.intrinsics.errorPrototype c.kind), kind := .error } : Object).insert
    (.name "message") (.data (.ofString c.message) true false true)

/-- What reading a binding gives: its value, once it has one. Until then reading throws a reference
error of the running realm, and fails where no realm is running. -/
structure Binding.Reads (b : Binding) (m : Machine) (env : EnvId) (name : String) : Prop where
  value : ∀ v strict, b.value = some v → env.read name strict m = .ok v m
  early : ∀ c cs realm strict, b.value = none → m.contexts = c :: cs → m.realm? c.realm = some realm →
    env.read name strict m = .error (.thrown (.object ⟨m.objects.size⟩))
      (m.pushObject (realm.errorFor (.beforeInitialization name)))
  idle : ∀ strict, b.value = none → m.contexts = [] →
    env.read name strict m = .error (.fault .noRunningContext) m
  lost : ∀ c cs strict, b.value = none → m.contexts = c :: cs → m.realm? c.realm = none →
    env.read name strict m = .error (.fault (.assertion (.unknownRealm c.realm))) m

section Reading

variable {m : Machine} {c : Context} {cs : List Context} {realm : Realm} {env : EnvId}
  {r : DeclarativeRecord} {name : String} {b : Binding}

theorem currentRealm_cons (hm : m.contexts = c :: cs) : currentRealm m = .ok c.realm :=
  Query.bind_ok (by simp [runningContext, hm])

theorem currentRealm_nil (hm : m.contexts = []) : currentRealm m = .error (.fault .noRunningContext) :=
  Query.bind_error (by simp [runningContext, hm])

theorem RealmId.load_eq {id : RealmId} (h : m.realm? id = some realm) : id.load m = .ok realm := by
  unfold Machine.realm? at h
  simp [RealmId.load, h]

theorem RealmId.load_eq_error {id : RealmId} (h : m.realm? id = none) :
    id.load m = .error (.fault (.assertion (.unknownRealm id))) := by
  unfold Machine.realm? at h
  simp [RealmId.load, h]

theorem complain_eq_error (h : intrinsics m = .error e) (c : Complaint) :
    (complain c : Eval α) m = .error e m :=
  bind_error (bind_error (lift_error h))

/-- A complaint throws a new error object of the running realm. -/
theorem complain_eq (hm : m.contexts = c :: cs) (hrealm : m.realm? c.realm = some realm)
    (complaint : Complaint) :
    (complain complaint : Eval α) m =
      .error (.thrown (.object ⟨m.objects.size⟩)) (m.pushObject (realm.errorFor complaint)) := by
  have hintrinsics : intrinsics m = .ok realm.intrinsics :=
    (Query.bind_ok (currentRealm_cons hm)).trans (Query.bind_ok (RealmId.load_eq hrealm))
  have herror : newError complaint.kind (some complaint.message) m =
      .ok ⟨m.objects.size⟩ (m.pushObject (realm.errorFor complaint)) :=
    bind_ok (lift_ok hintrinsics)
  exact bind_ok herror

/-- An environment reads a binding of its record from the record. -/
theorem EnvId.read_eq (hr : m.record? env = some r) (hb : r.get? name = some b) (strict : Bool) :
    env.read name strict m = settle (r.read name) m := by
  obtain ⟨e, he, her⟩ := Option.bind_eq_some_iff.mp hr
  unfold EnvId.read
  rw [bind_ok (lift_ok (load_eq he))]
  cases e with
  | declarative r' =>
    cases her
    rfl
  | object s => cases her
  | global g =>
    cases her
    have hhas : g.declarative.has name = true := by simp [DeclarativeRecord.has, hb]
    simp only [hhas, if_true]

theorem DeclarativeRecord.reads (hr : m.record? env = some r) (hb : r.get? name = some b) :
    b.Reads m env name := by
  have hearly (hvalue : b.value = none) (strict : Bool) :
      env.read name strict m = complain (.beforeInitialization name) m := by
    rw [EnvId.read_eq hr hb]
    simp [DeclarativeRecord.read, hb, hvalue, settle]
  refine ⟨fun v strict hvalue => ?_, fun c cs realm strict hvalue hm hrealm => ?_,
    fun strict hvalue hm => ?_, fun c cs strict hvalue hm hrealm => ?_⟩
  · rw [EnvId.read_eq hr hb]
    simp only [DeclarativeRecord.read, hb, hvalue]
    rfl
  · rw [hearly hvalue]
    exact complain_eq hm hrealm _
  · rw [hearly hvalue]
    exact complain_eq_error (Query.bind_error (currentRealm_nil hm)) _
  · rw [hearly hvalue]
    exact complain_eq_error ((Query.bind_ok (currentRealm_cons hm)).trans
      (Query.bind_error (RealmId.load_eq_error hrealm))) _

end Reading

/-- **Binding state machine.** Let a host perform any operations on any machine. A record that was
there is there afterwards, changed by its own operations only. Each of its bindings is there too, with
the same flags, initialized if it was, and with the same value if it is immutable and had one; only a
deletable binding may have been removed in between. What reading a binding gives tells whether it is
initialized. -/
theorem runAll_keeps_bindings {m : Machine} {env : EnvId} {r : DeclarativeRecord}
    (hr : m.record? env = some r) (ops : List Operation) :
    ∃ r', (Operation.runAll ops m).record? env = some r' ∧ r.Evolves r' ∧
      (∀ name b, r.get? name = some b →
        (∃ b', r'.get? name = some b' ∧ b.Later b') ∨
          b.deletable = true ∧ ∃ r₁, r.Evolves r₁ ∧ r₁.get? name = none ∧ r₁.Evolves r') ∧
      ∀ name b', r'.get? name = some b' → b'.Reads (Operation.runAll ops m) env name := by
  obtain ⟨r', hr', hevolves⟩ := (Operation.runAll_changes ops m).record? hr
  exact ⟨r', hr', hevolves, fun name b hb => hevolves.binding hb,
    fun name b' hb' => DeclarativeRecord.reads hr' hb'⟩

/-- A constant, after an assignment in sloppy code and a deletion. -/
theorem runAll_keeps_bindings_constant :
    let x := "x"
    let m := Operation.runAll [.newDeclarativeEnvironment none, .createImmutable ⟨0⟩ x false,
      .initBinding ⟨0⟩ x .null] {}
    let m' := Operation.runAll [.assign ⟨0⟩ x .undefined false, .deleteBinding ⟨0⟩ x] m
    ∃ r b, m'.record? ⟨0⟩ = some r ∧ r.get? x = some b ∧ b.isMutable = false ∧ b.value = some .null ∧
      EnvId.read ⟨0⟩ x true m' = .ok .null m' := by
  intro x m m'
  have hr : m.record? ⟨0⟩ = some { outer := none, bindings := [(x, ⟨false, false, false, some .null⟩)] } := by
    rfl
  obtain ⟨r, hr', -, hbindings, hreads⟩ :=
    runAll_keeps_bindings hr [.assign ⟨0⟩ x .undefined false, .deleteBinding ⟨0⟩ x]
  obtain ⟨b, hb, hlater⟩ | ⟨hdeletable, -⟩ := hbindings x ⟨false, false, false, some .null⟩ rfl
  · have hvalue := hlater.constant rfl .null rfl
    exact ⟨r, b, hr', hb, hlater.isMutable, hvalue, (hreads x b hb).value .null true hvalue⟩
  · cases hdeletable

/-- Where no context is running, reading an uninitialized binding does not throw. -/
theorem readBinding_idle_does_not_throw :
    let m := Operation.runAll [.newRealm, .newDeclarativeEnvironment none,
      .createMutable ⟨1⟩ "x" false] {}
    (∃ r b, m.record? ⟨1⟩ = some r ∧ r.get? "x" = some b ∧ b.value = none) ∧
      ∀ strict v m', EnvId.read ⟨1⟩ "x" strict m ≠ .error (.thrown v) m' := by
  intro m
  have hidle : m.contexts = [] := List.isEmpty_iff.mp (by decide +kernel)
  have hbinding : ((m.record? ⟨1⟩).bind (·.get? "x")).any (·.value.isNone) = true := by decide +kernel
  obtain ⟨b, hb, hvalue⟩ := (Option.any_eq_true _ _).mp hbinding
  obtain ⟨r, hr, hb⟩ := Option.bind_eq_some_iff.mp hb
  have hvalue := Option.isNone_iff_eq_none.mp hvalue
  refine ⟨⟨r, b, hr, hb, hvalue⟩, fun strict v m' hthrown => ?_⟩
  rw [(DeclarativeRecord.reads hr hb).idle strict hvalue hidle] at hthrown
  cases hthrown

end EcmaEval
