import EcmaEval.Proofs.Remit.Statement
import EcmaEval.Proofs.Sound.Branch

/-!
# Names looked up inside an environment

An environment lies inside another if the other is on its chain of outer environments. No run changes what
lies inside what, and none removes a binding that is not deletable. So a name that an environment retains
resolves, from anywhere inside it, to that environment or to one on the way there; the search can only fail
where an object scope on the way does not answer, and on a sound machine all of them do.
-/
namespace EcmaEval

variable {m m' : Machine} {name : String}

theorem DeclarativeRecord.Change.outer {r r' : DeclarativeRecord} (h : r.Change r') : r'.outer = r.outer := by
  cases h with
  | create h =>
    obtain ⟨-, rfl⟩ := create_ok h
    rfl
  | initBinding h =>
    obtain ⟨_, -, -, rfl⟩ := initBinding_ok h
    rfl
  | assign h => obtain ⟨-, rfl⟩ | ⟨_, -, -, ⟨-, rfl⟩ | ⟨-, rfl⟩⟩ := assign_ok h <;> rfl
  | delete h => obtain ⟨_, -, ⟨-, rfl⟩ | ⟨-, rfl⟩⟩ := delete_ok h <;> rfl
  | bindThis call => rfl

theorem Environment.outer?_withRecord {e : Environment} {r r' : DeclarativeRecord} (hr : e.record? = some r)
    (h : r'.outer = r.outer) : (e.withRecord r').outer? = e.outer? := by
  cases e with
  | declarative r₀ =>
    cases hr
    exact h
  | object s => cases hr
  | global g => rfl

variable {env outer : EnvId}

namespace Machine

/-- The first environment is nested in the second, which comes before it. -/
def IsInner (m : Machine) (env outer : EnvId) : Prop :=
  ∃ e, m.env? env = some e ∧ e.outer? = some outer ∧ outer.index < env.index

/-- The second environment is on the scope chain of the first. -/
abbrev Inside (m : Machine) : EnvId → EnvId → Prop := Relation.ReflTransGen m.IsInner

theorem Change.outer? {e : Environment} (h : m.Change m') (he : m.env? env = some e) :
    ∃ e', m'.env? env = some e' ∧ e'.outer? = e.outer? := by
  cases h with
  | environment new => exact ⟨e, (env?_pushEnv_of_within (within_of_env? he)).trans he, rfl⟩
  | record hold hr hchange =>
    rw [env?_storeEnv _ _ _ _ hold]
    split
    · subst env
      cases hold.symm.trans he
      exact ⟨_, rfl, Environment.outer?_withRecord hr hchange.outer⟩
    · exact ⟨e, he, rfl⟩
  | varNames hold names =>
    rw [env?_storeEnv _ _ _ _ hold]
    split
    · subst env
      cases hold.symm.trans he
      exact ⟨_, rfl, rfl⟩
    · exact ⟨e, he, rfl⟩
  | _ => exact ⟨e, he, rfl⟩

/-- An environment outlives every run with the same outer environment. -/
theorem Changes.outer? {e : Environment} (h : m.Changes m') (he : m.env? env = some e) :
    ∃ e', m'.env? env = some e' ∧ e'.outer? = e.outer? := by
  induction h with
  | refl => exact ⟨e, he, rfl⟩
  | tail _ hlast ih =>
    obtain ⟨e₁, he₁, hfirst⟩ := ih
    obtain ⟨e₂, he₂, hsecond⟩ := hlast.outer? he₁
    exact ⟨e₂, he₂, hsecond.trans hfirst⟩

/-- An environment that is new later was not there before. -/
theorem Changes.env?_eq_none (h : m.Changes m') (hnone : m'.env? env = none) : m.env? env = none := by
  by_contra hsome
  obtain ⟨e, he⟩ := Option.ne_none_iff_exists'.mp hsome
  obtain ⟨e', he', -⟩ := h.outer? he
  cases hnone.symm.trans he'

theorem Changes.within (h : m.Changes m') (henv : env.Within m.bounds) : env.Within m'.bounds := by
  obtain ⟨e, he⟩ := exists_env henv
  obtain ⟨e', he', -⟩ := h.outer? he
  exact within_of_env? he'

theorem Changes.inside (h : m.Changes m') (hinside : m.Inside env outer) : m'.Inside env outer := by
  refine hinside.lift id fun env outer hinner => ?_
  obtain ⟨e, he, houter, hlt⟩ := hinner
  obtain ⟨e', he', hsame⟩ := h.outer? he
  exact ⟨e', he', hsame.trans houter, hlt⟩

theorem Inside.index_le (h : m.Inside env outer) : outer.index ≤ env.index := by
  induction h with
  | refl => exact Nat.le_refl _
  | tail _ hlast ih =>
    obtain ⟨_, _, _, hlt⟩ := hlast
    exact Nat.le_trans (Nat.le_of_lt hlt) ih

/-- An environment nested in one inside another is not that other one. -/
theorem IsInner.ne {root : EnvId} (h : m.IsInner env outer) (houter : m.Inside outer root) : env ≠ root := by
  obtain ⟨_, _, _, hlt⟩ := h
  rintro rfl
  exact absurd hlt (Nat.not_lt_of_le houter.index_le)

/-- A new environment is nested in its outer one. -/
theorem pushEnv_isInner {e : Environment} (houter : e.outer? = some outer) (hwithin : outer.Within m.bounds) :
    (m.pushEnv e).IsInner ⟨m.environments.size⟩ outer :=
  ⟨e, by simp [env?_pushEnv], houter, hwithin⟩

/-- The environment has a binding of the name that no run removes. -/
def Retains (m : Machine) (env : EnvId) (name : String) : Prop :=
  ∃ r b, m.record? env = some r ∧ r.get? name = some b ∧ b.deletable = false

theorem Changes.retains (h : m.Changes m') (hretains : m.Retains env name) : m'.Retains env name := by
  obtain ⟨r, b, hr, hb, hfixed⟩ := hretains
  obtain ⟨r', hr', hevolves⟩ := h.record? hr
  obtain ⟨b', hb', hlater⟩ | ⟨hdeletable, -⟩ := hevolves.binding hb
  · exact ⟨r', b', hr', hb', hlater.deletable.trans hfixed⟩
  · cases hfixed.symm.trans hdeletable

theorem Retains.bound (h : m.Retains env name) : m.Bound env name := by
  obtain ⟨r, b, hr, hb, -⟩ := h
  exact ⟨r, hr, by simp [DeclarativeRecord.has, hb]⟩

end Machine

/-- With suitable contexts the machine is sound: its objects and environments are in order. -/
def Machine.IsIntact (m : Machine) : Prop := ∃ (g : Contract) (cs : List Context), g.Sound (m.withContexts cs)

theorem Contract.Sound.isIntact {g : Contract} (h : g.Sound m) : m.IsIntact := ⟨g, m.contexts, h⟩

/-- The failure is no throw of running code. -/
def Abrupt.IsFatal : Abrupt → Prop
  | .thrown _ => False
  | .fault _ | .exhausted => True

/-- A search along a prototype chain gives an answer if every probe does. -/
theorem findOnChain_ok {probe : ObjectId → Query (Option β)} {cs : List Context} {start : Option ObjectId}
    {l : List ObjectId} {steps : Nat} (hchain : (m.withContexts cs).Chain start l) (hsteps : l.length ≤ steps)
    (hprobe : ∀ o ∈ l, ∃ b, probe o m = .ok b) : ∃ b, findOnChain probe steps start m = .ok b := by
  induction hchain generalizing steps with
  | nil => exact ⟨none, by unfold findOnChain; rfl⟩
  | @cons o obj l hobj _ ih =>
    cases steps with
    | zero => cases hsteps
    | succ steps =>
      obtain ⟨b, hb⟩ := hprobe o List.mem_cons_self
      unfold findOnChain
      rw [Query.bind_ok hb]
      cases b with
      | some b => exact ⟨some b, rfl⟩
      | none =>
        dsimp only
        rw [Query.bind_ok (ObjectId.load_eq (m := m) hobj)]
        exact ih (Nat.le_of_succ_le_succ hsteps) fun p hp => hprobe p (List.mem_cons_of_mem o hp)

theorem ObjectId.hasProperty_ok (h : m.IsIntact) {o : ObjectId} (ho : o.Within m.bounds) (key : Key) :
    ∃ b, o.hasProperty key m = .ok b := by
  obtain ⟨g, cs, hm⟩ := h
  obtain ⟨l, hchain⟩ := hm.chain (some o) fun p hp => Option.some.inj hp ▸ ho
  have hprobe (p : ObjectId) (hp : p ∈ l) : ∃ b, (do
      return if (← p.load).properties.contains key then some () else none : Query (Option Unit)) m = .ok b := by
    obtain ⟨obj, hobj⟩ := Machine.exists_object (m := m) (hchain.within p hp)
    exact ⟨_, Query.bind_ok (ObjectId.load_eq hobj)⟩
  obtain ⟨b, hb⟩ := findOnChain_ok hchain (Nat.le_succ_of_le hchain.length_le) hprobe
  exact ⟨b.isSome, Query.bind_ok hb⟩

/-- On an intact machine every environment answers whether it has a name. -/
theorem EnvId.hasBinding_ok (h : m.IsIntact) (henv : env.Within m.bounds) (name : String) :
    ∃ b, env.hasBinding name m = .ok b := by
  obtain ⟨e, he⟩ := Machine.exists_env henv
  have hok : ∃ g : Contract, g.EnvironmentOk m.bounds env e := by
    obtain ⟨g, cs, hm⟩ := h
    exact ⟨g, hm.environments env e he⟩
  obtain ⟨g, hok⟩ := hok
  unfold hasBinding
  rw [Query.bind_ok (EnvId.load_eq he)]
  cases hok with
  | declarative => exact ⟨_, rfl⟩
  | object _ _ hobject => exact ObjectId.hasProperty_ok h hobject _
  | global hscope =>
    dsimp only
    split
    · exact ⟨true, rfl⟩
    · exact ObjectId.hasProperty_ok h hscope _

/-- The query throws nothing at running code. -/
def Query.FailsFatally (q : Query α) : Prop := ∀ m e, q m = .error e → e.IsFatal

namespace Query.FailsFatally

@[grind ←] theorem pure (a : α) : Query.FailsFatally (pure a : Query α) := fun _ _ h => nomatch h

@[grind ←] theorem bind {q : Query α} {f : α → Query β} (hq : q.FailsFatally) (hf : ∀ a, (f a).FailsFatally) :
    Query.FailsFatally (q >>= f) := by
  intro m e h
  cases hrun : q m with
  | ok a =>
    rw [Query.bind_ok hrun] at h
    exact hf a m e h
  | error e' =>
    rw [Query.bind_error hrun] at h
    cases h
    exact hq m e hrun

@[grind ←] theorem objectLoad (o : ObjectId) : o.load.FailsFatally := by
  intro m e h
  unfold ObjectId.load at h
  split at h <;> cases h
  trivial

@[grind ←] theorem envLoad (env : EnvId) : env.load.FailsFatally := by
  intro m e h
  unfold EnvId.load at h
  split at h <;> cases h
  trivial

theorem findOnChain {probe : ObjectId → Query (Option β)} (hprobe : ∀ o, (probe o).FailsFatally) (steps : Nat)
    (start : Option ObjectId) : (findOnChain probe steps start).FailsFatally := by
  fun_induction EcmaEval.findOnChain probe steps start with
  | case1 => exact .pure _
  | case2 =>
    intro m e h
    cases h
    trivial
  | case3 steps o ih => grind

@[grind ←] theorem hasProperty (o : ObjectId) (key : Key) : (o.hasProperty key).FailsFatally := by
  have hprobe (p : ObjectId) : Query.FailsFatally (do
      return if (← p.load).properties.contains key then some () else none) := by grind
  exact .bind (fun m => findOnChain hprobe _ _ m) fun _ => .pure _

@[grind ←] theorem hasBinding (env : EnvId) (name : String) : (env.hasBinding name).FailsFatally := by
  unfold EnvId.hasBinding ObjectScope.hasBinding
  grind

end Query.FailsFatally

/-- A search that reaches an environment with the name ends there or before, unless a scope on the way does
not answer. -/
theorem findOnScopeChain_inside {start root : EnvId} (h : m.Inside start root) (hroot : m.Bound root name)
    {steps : Nat} (hsteps : start.index < steps) :
    (∃ found, findOnScopeChain (·.hasBinding name) steps (some start) m = .ok (some found) ∧
      m.Inside start found ∧ m.Inside found root) ∨
    ∃ e, findOnScopeChain (·.hasBinding name) steps (some start) m = .error e ∧ e.IsFatal ∧ ¬ m.IsIntact := by
  induction h using Relation.ReflTransGen.head_induction_on generalizing steps with
  | refl =>
    obtain ⟨steps, rfl⟩ := Nat.exists_eq_succ_of_ne_zero (Nat.ne_zero_of_lt hsteps)
    refine .inl ⟨root, ?_, .refl, .refl⟩
    unfold findOnScopeChain
    rw [Query.bind_ok (EnvId.hasBinding_of_bound hroot)]
    rfl
  | @head env outer hinner hrest ih =>
    obtain ⟨steps, rfl⟩ := Nat.exists_eq_succ_of_ne_zero (Nat.ne_zero_of_lt hsteps)
    have hwhole := hrest.head hinner
    obtain ⟨e, he, houter, hlt⟩ := hinner
    unfold findOnScopeChain
    cases hanswer : env.hasBinding name m with
    | error err =>
      refine .inr ⟨err, Query.bind_error hanswer, Query.FailsFatally.hasBinding env name m err hanswer, fun hm => ?_⟩
      obtain ⟨b, hb⟩ := EnvId.hasBinding_ok hm (Machine.within_of_env? he) name
      cases hanswer.symm.trans hb
    | ok answer =>
      rw [Query.bind_ok hanswer]
      cases answer with
      | true => exact .inl ⟨env, rfl, .refl, hwhole⟩
      | false =>
        have hload : (do findOnScopeChain (·.hasBinding name) steps (← env.load).outer? : Query _) m =
            findOnScopeChain (·.hasBinding name) steps (some outer) m := by
          rw [Query.bind_ok (EnvId.load_eq he), houter]
        obtain ⟨found, hfound, hstart, hroot⟩ | herror := ih (Nat.lt_of_lt_of_le hlt (Nat.le_of_lt_succ hsteps))
        · exact .inl ⟨found, hload.trans hfound, hstart.head ⟨e, he, houter, hlt⟩, hroot⟩
        · obtain ⟨err, hrun, hrest⟩ := herror
          exact .inr ⟨err, hload.trans hrun, hrest⟩

/-- In running code inside an environment, a name that this environment retains resolves to it or to one on
the way there, unless the machine is not intact. -/
theorem resolveBinding_inside {c : Context} {cs : List Context} {root : EnvId} (hc : m.contexts = c :: cs)
    (h : m.Inside c.lexicalEnv root) (hroot : m.Retains root name) :
    (∃ env, resolveBinding name none m = .ok (.reference (.binding env name c.strict)) ∧
      m.Inside c.lexicalEnv env ∧ m.Inside env root) ∨
    ∃ e, resolveBinding name none m = .error e ∧ e.IsFatal ∧ ¬ m.IsIntact := by
  have hwithin : c.lexicalEnv.Within m.bounds := by
    rcases Relation.ReflTransGen.cases_head h with rfl | ⟨_, ⟨e, he, -⟩, -⟩
    · exact hroot.bound.within
    · exact Machine.within_of_env? he
  have hrunning : runningContext m = .ok c := by simp [runningContext, hc]
  have hrun : resolveBinding name none m = (do
      return .reference (← identifierReference (some c.lexicalEnv) name c.strict) : Query Value) m := by
    unfold resolveBinding
    dsimp only
    rw [Query.bind_ok (lexicalEnv_cons hc), Query.bind_ok (Query.bind_ok hrunning)]
  rw [hrun]
  obtain ⟨found, hfound, hstart, hroot⟩ | ⟨e, he, hfatal, hm⟩ :=
    findOnScopeChain_inside h hroot.bound (Nat.lt_succ_of_lt hwithin)
  · exact .inl ⟨found, Query.bind_ok (Query.bind_ok hfound), hstart, hroot⟩
  · exact .inr ⟨e, Query.bind_error (Query.bind_error he), hfatal, hm⟩

end EcmaEval
