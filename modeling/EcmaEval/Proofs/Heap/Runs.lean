import EcmaEval.Proofs.Heap.Step

/-!
# Runs under a grant

An evaluation runs under a grant if it moves the machine by steps that the grant covers. One rule for
each way to build evaluations composes such runs; what a run does not touch is still there for what
follows it. The facts about bindings that checked code relies on persist this way.
-/
namespace EcmaEval

namespace Machine

variable (m : Machine) (env : EnvId) (name : String)

/-- The environment holds a binding of the name. -/
def Bound : Prop := ∃ r, m.record? env = some r ∧ r.has name = true

/-- The environment could hold a binding of the name but does not. -/
def Unbound : Prop := ∃ r, m.record? env = some r ∧ r.get? name = none

/-- The environment holds a binding of the name that has no value yet. -/
def Waiting : Prop := ∃ r x, m.record? env = some r ∧ r.get? name = some x ∧ x.value = none

/-- A declarative environment holds a binding of the name. -/
def Resolves : Prop :=
  ∃ e, m.env? env = some e ∧ ∀ r, e = .declarative r → r.has name = true

variable {m env name}

theorem record?_eq {e : Environment} (h : m.env? env = some e) : m.record? env = e.record? := by
  simp [record?, h]

theorem record?_some {r : DeclarativeRecord} (h : m.record? env = some r) :
    ∃ e, m.env? env = some e ∧ e.record? = some r := Option.bind_eq_some_iff.mp h

theorem within_of_record? {r : DeclarativeRecord} (h : m.record? env = some r) :
    env.Within m.bounds :=
  have ⟨_, he, _⟩ := record?_some h
  within_of_env? he

theorem Waiting.bound (h : m.Waiting env name) : m.Bound env name :=
  have ⟨r, _, hr, hx, _⟩ := h
  ⟨r, hr, by simp [DeclarativeRecord.has, hx]⟩

theorem Bound.resolves (h : m.Bound env name) : m.Resolves env name := by
  obtain ⟨r, hr, hname⟩ := h
  obtain ⟨e, he, hrecord⟩ := record?_some hr
  refine ⟨e, he, fun r' he' => ?_⟩
  subst he'
  cases hrecord
  exact hname

theorem Bound.within (h : m.Bound env name) : env.Within m.bounds :=
  have ⟨_, hr, _⟩ := h
  within_of_record? hr

theorem Resolves.has (h : m.Resolves env name) {r : DeclarativeRecord}
    (he : m.env? env = some (.declarative r)) : r.has name = true := by
  obtain ⟨e, he', hname⟩ := h
  rw [he] at he'
  cases he'
  exact hname r rfl

end Machine

namespace Contract

variable {g : Contract} {A B : Grant} {m m' : Machine} {env : EnvId} {name : String}

theorem Evolves.record? {declare : String → Prop} {e e' : Environment} {r : DeclarativeRecord}
    (h : g.Evolves declare e e') (hr : e.record? = some r) : ∃ r', e'.record? = some r' := by
  cases e with
  | declarative r₀ =>
    obtain ⟨r', rfl⟩ := h.declarative r₀ rfl
    exact ⟨r', rfl⟩
  | object s => cases hr
  | global r₀ =>
    obtain ⟨r', rfl, -⟩ := h.global r₀ rfl
    exact ⟨r'.declarative, rfl⟩

namespace Steps

theorem bound (h : g.Steps A m m') (hm : g.Sound m) (hc : g.checked) (hb : m.Bound env name) :
    m'.Bound env name := by
  obtain ⟨r, hr, hname⟩ := hb
  obtain ⟨e, he, hrecord⟩ := Machine.record?_some hr
  obtain ⟨e', he', hevolves⟩ := Steps.environments h hm he
  obtain ⟨x, hx⟩ := Option.isSome_iff_exists.mp hname
  obtain ⟨r', x', hr', hx', -⟩ := hevolves.bound hc name r x hrecord hx
  exact ⟨r', (Machine.record?_eq he').trans hr', by simp [DeclarativeRecord.has, hx']⟩

theorem unbound (h : g.Steps A m m') (hm : g.Sound m) (hc : g.checked) (hA : ¬ A.declare env name)
    (hu : m.Unbound env name) : m'.Unbound env name := by
  obtain ⟨r, hr, hname⟩ := hu
  obtain ⟨e, he, hrecord⟩ := Machine.record?_some hr
  obtain ⟨e', he', hevolves⟩ := Steps.environments h hm he
  obtain ⟨r', hr'⟩ := hevolves.record? hrecord
  obtain hn | hn := hevolves.unbound hc name r r' hrecord hr' hname
  · exact ⟨r', (Machine.record?_eq he').trans hr', hn⟩
  · exact absurd hn hA

theorem waiting (h : g.Steps A m m') (hm : g.Sound m) (hc : g.checked) (hA : ¬ A.declare env name)
    (hw : m.Waiting env name) : m'.Waiting env name := by
  obtain ⟨r, x, hr, hx, hvalue⟩ := hw
  obtain ⟨e, he, hrecord⟩ := Machine.record?_some hr
  obtain ⟨e', he', hevolves⟩ := Steps.environments h hm he
  obtain ⟨r', x', hr', hx', hstep⟩ := hevolves.bound hc name r x hrecord hx
  obtain hn | hn := hstep.waiting hvalue
  · exact ⟨r', x', (Machine.record?_eq he').trans hr', hx', hn⟩
  · exact absurd (hn hc) hA

theorem resolves (h : g.Steps A m m') (hm : g.Sound m) (hc : g.checked) (hr : m.Resolves env name) :
    m'.Resolves env name := by
  obtain ⟨e, he, hname⟩ := hr
  obtain ⟨e', he', hevolves⟩ := Steps.environments h hm he
  refine ⟨e', he', fun r' hr' => ?_⟩
  cases e with
  | declarative r =>
    obtain ⟨x, hx⟩ := Option.isSome_iff_exists.mp (hname r rfl)
    obtain ⟨r'', x', hr'', hx', -⟩ := hevolves.bound hc name r x rfl hx
    subst hr'
    cases hr''
    simp [DeclarativeRecord.has, hx']
  | object s => exact absurd (hevolves.object s rfl) (by simp [hr'])
  | global r =>
    obtain ⟨r'', hr'', -⟩ := hevolves.global r rfl
    exact absurd hr'' (by simp [hr'])

end Steps

variable (g) in
/-- Under the grant, whatever it covers besides new parts, the evaluation gives a result with property
`Q` or fails as it may. -/
def Runs (A : Grant) (m : Machine) (x : Eval α) (Q : Machine → α → Prop) : Prop :=
  g.Covers A m.grant → g.Yields (g.Steps A) m x Q

namespace Runs

variable {x : Eval α} {f : α → Eval β} {P Q : Machine → α → Prop} {Q' : Machine → β → Prop}

theorem of_sound (h : g.Sound m → g.Runs A m x Q) : g.Runs A m x Q :=
  fun hA hm => h hm hA hm

/-- What a run may assume of its grant. -/
theorem of_covers (h : g.Covers A m.grant → g.Runs A m x Q) : g.Runs A m x Q := fun hA => h hA hA

theorem of_ok {a : α} (hrun : x m = .ok a m') (hsteps : g.Steps A m m') (hQ : Q m' a) :
    g.Runs A m x Q := fun _ => .of_ok hrun hsteps hQ

theorem pure {a : α} (h : Q m a) : g.Runs A m (pure a) Q := fun _ => .pure (g.steps_motion A) h

theorem throw {e : Abrupt} (h : g.Fails m e) : g.Runs A m (throw e : Eval α) Q :=
  fun _ => .throw (g.steps_motion A) h

theorem unsupported (feature : Feature) : g.Runs A m (unsupported feature : Eval α) Q :=
  fun _ => .unsupported (g.steps_motion A) feature

theorem breach (b : Breach) (h : ¬ g.checked) : g.Runs A m (breach b : Eval α) Q :=
  fun _ => .breach (g.steps_motion A) b h

theorem complain (c : Complaint) : g.Runs A m (complain c : Eval α) Q :=
  fun _ => complain_yields (g.steps_motion A) c

theorem settle {r : Except Failure α} (hok : ∀ a, r = .ok a → Q m a)
    (hfault : g.checked → ∀ f, r ≠ .error (.fault f)) : g.Runs A m (settle r) Q :=
  fun _ => settle_yields (g.steps_motion A) hok hfault

theorem imp (hx : g.Runs A m x P)
    (h : ∀ m' a, x m = .ok a m' → g.Steps A m m' → P m' a → Q m' a) : g.Runs A m x Q :=
  fun hA => (hx hA).imp h

/-- Two runs under one grant. -/
theorem seq (hx : g.Runs A m x P)
    (hf : ∀ a m', x m = .ok a m' → g.Steps A m m' → g.Sound m' → P m' a → g.Runs A m' (f a) Q') :
    g.Runs A m (x >>= f) Q' := by
  intro hA
  refine .of_sound fun hm => .bind (g.steps_motion A) (hx hA) ?_
  intro a m' hrun hsteps hm' hP
  exact hf a m' hrun hsteps hm' hP (Steps.covers hsteps hm hA)

/-- A run under the grant for new parts only. -/
theorem own (hx : g.Runs m.grant m x P)
    (h : ∀ m' a, x m = .ok a m' → g.Steps m.grant m m' → P m' a → Q m' a) : g.Runs A m x Q := by
  intro hA
  have hown : g.Yields (g.Steps m.grant) m x Q := (hx (.refl _)).imp h
  exact hown.mono fun m' hsteps => Steps.mono hA hsteps

/-- A run under the grant for new parts only, followed by another. -/
theorem bind (hx : g.Runs m.grant m x P)
    (hf : ∀ a m', x m = .ok a m' → g.Steps m.grant m m' → g.Sound m' → P m' a →
      g.Runs A m' (f a) Q') : g.Runs A m (x >>= f) Q' :=
  .seq (.own hx fun _ _ _ hsteps hP => And.intro hsteps hP)
    fun a m' hrun _ hm' ⟨hsteps, hP⟩ => hf a m' hrun hsteps hm' hP

/-- A run that declares only some names of an environment. -/
theorem declaring (names : List String) (hnames : g.checked → ∀ n ∈ names, A.declare env n)
    (hx : g.Runs (m.grant.declaring env names) m x P)
    (h : ∀ m' a, x m = .ok a m' → g.Steps (m.grant.declaring env names) m m' → P m' a → Q m' a) :
    g.Runs A m x Q := by
  intro hA
  have hown : g.Yields (g.Steps (m.grant.declaring env names)) m x Q :=
    (hx (.declaring_self ..)).imp h
  exact hown.mono fun m' hsteps => Steps.mono (hA.declaring hnames) hsteps

/-- A run that declares names of an environment, followed by another. -/
theorem bindDeclaring (names : List String) (hnames : g.checked → ∀ n ∈ names, A.declare env n)
    (hx : g.Runs (m.grant.declaring env names) m x P)
    (hf : ∀ a m', x m = .ok a m' → g.Steps (m.grant.declaring env names) m m' → g.Sound m' →
      P m' a → g.Runs A m' (f a) Q') : g.Runs A m (x >>= f) Q' :=
  .seq (.declaring names hnames hx fun _ _ _ hsteps hP => And.intro hsteps hP)
    fun a m' hrun _ hm' ⟨hsteps, hP⟩ => hf a m' hrun hsteps hm' hP

/-- What follows a query starts from the same machine. -/
theorem query {q : Query α} {P : α → Prop} (hq : g.Asks m q P)
    (hf : ∀ a, q m = .ok a → P a → g.Runs A m (f a) Q') :
    g.Runs A m ((liftM q : Eval α) >>= f) Q' :=
  fun hA => .query (g.steps_motion A) hq fun a hrun hP => hf a hrun hP hA

theorem ask {q : Query α} {P : α → Prop} (hq : g.Asks m q P) (hQ : ∀ a, q m = .ok a → P a → Q m a) :
    g.Runs A m (liftM q : Eval α) Q := by
  intro _ hm
  have hq := hq hm
  cases hr : q m with
  | ok a =>
    rw [hr] at hq
    rw [lift_ok hr]
    exact ⟨.refl, hQ a hr hq⟩
  | error e =>
    rw [hr] at hq
    rw [lift_error hr]
    exact ⟨.refl, hq⟩

theorem discard {P : Machine → Prop} (hx : g.Runs A m x fun m' _ => P m') :
    g.Runs A m (discard x) fun m' _ => P m' := by
  rw [discard_eq]
  exact fun hA => .bind (g.steps_motion A) (hx hA) fun _ _ _ _ _ hP => .pure (g.steps_motion A) hP

/-- A finalizer that keeps what it finds. -/
theorem tryFinally {y : Eval β} (hx : g.Runs A m x Q)
    (hy : ∀ m', g.Steps A m m' → g.Runs A m' y fun m'' _ =>
      (∀ a, Q m' a → Q m'' a) ∧ ∀ e, g.Fails m' e → g.Fails m'' e) :
    g.Runs A m (tryFinally x y) Q := by
  intro hA hm
  have hx := hx hA hm
  rw [tryFinally_eq]
  cases hr : x m with
  | ok a m' =>
    rw [hr] at hx
    have hy := hy m' hx.1 (Steps.covers hx.1 hm hA) (Steps.sound hx.1 hm)
    dsimp only
    cases hr' : y m' with
    | ok b m'' =>
      rw [hr'] at hy
      exact ⟨hx.1.trans hy.1, hy.2.1 a hx.2⟩
    | error e m'' =>
      rw [hr'] at hy
      exact ⟨hx.1.trans hy.1, hy.2⟩
  | error e m' =>
    rw [hr] at hx
    have hy := hy m' hx.1 (Steps.covers hx.1 hm hA) (Steps.sound hx.1 hm)
    dsimp only
    cases hr' : y m' with
    | ok b m'' =>
      rw [hr'] at hy
      exact ⟨hx.1.trans hy.1, hy.2.2 e hx.2⟩
    | error e' m'' =>
      rw [hr'] at hy
      exact ⟨hx.1.trans hy.1, hy.2⟩

/-- A throw becomes a completion. -/
theorem completing {x : Eval Completion} {Q : Machine → Completion → Prop} (hx : g.Runs A m x Q)
    (hthrown : ∀ m' v, g.Stored m'.bounds v → Q m' (.thrown v)) : g.Runs A m (completing x) Q := by
  intro hA hm
  have hx := hx hA hm
  unfold EcmaEval.completing
  cases hr : x m with
  | ok c m' =>
    rw [hr] at hx
    exact hx
  | error e m' =>
    rw [hr] at hx
    cases e with
    | thrown v => exact ⟨hx.1, hthrown m' v hx.2⟩
    | fault f => exact hx
    | exhausted => exact hx

/-- A loop over a list keeps what each round hands to the next. -/
theorem forM {f : α → Eval PUnit} (I : List α → Machine → Prop)
    (hstep : ∀ a rest m, g.Covers A m.grant → I (a :: rest) m → g.Runs A m (f a) fun m' _ => I rest m')
    {l : List α} (hl : I l m) : g.Runs A m (l.forM f) fun m' _ => I [] m' := by
  intro hA
  induction l generalizing m with
  | nil => exact .pure (g.steps_motion A) hl
  | cons a rest ih =>
    refine .of_sound fun hm => .bind (g.steps_motion A) (hstep a rest m hA hl hA) ?_
    intro _ m' _ hsteps _ hI
    exact ih hI (Steps.covers hsteps hm hA)

/-- What a run that succeeds has done. -/
theorem ok (hx : g.Runs A m x Q) (hA : g.Covers A m.grant) (hm : g.Sound m) {a : α}
    (hrun : x m = .ok a m') : g.Steps A m m' ∧ Q m' a := by
  have hx := hx hA hm
  rw [hrun] at hx
  exact hx

/-- How a run that does not succeed may fail. -/
theorem error (hx : g.Runs A m x Q) (hA : g.Covers A m.grant) (hm : g.Sound m) {e : Abrupt}
    (hrun : x m = .error e m') : g.Steps A m m' ∧ g.Fails m' e := by
  have hx := hx hA hm
  rw [hrun] at hx
  exact hx

/-- The machine a run leaves behind. -/
theorem after (hx : g.Runs A m x Q) (hA : g.Covers A m.grant) (hm : g.Sound m) :
    g.Steps A m (x.after m) := (hx hA).after hm

end Runs

end Contract

end EcmaEval
