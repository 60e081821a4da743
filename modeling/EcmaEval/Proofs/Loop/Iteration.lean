import EcmaEval.Proofs.Host.Binding
import EcmaEval.Proofs.Loop.Initialize

/-!
# Environments of the iterations of a loop

Each iteration of a `let` loop runs in an environment of its own. It is made when the body of the iteration
before has ended, from the values that the names of the loop have then, and the update and the next test run in
it already. Nothing that was there before changes.
-/
namespace EcmaEval

/-- The machine whose running code is in another scope. -/
def Machine.withScope (m : Machine) (env : EnvId) : Machine :=
  m.withContexts (m.contexts.modifyHead ({ · with lexicalEnv := env }))

/-- The run starts in the scope and comes to the end. -/
def Eval.RunsIn (x : Eval α) (env : EnvId) (m : Machine) (result : EStateM.Result Abrupt Machine α) : Prop :=
  lexicalEnv m = .ok env ∧ x m = result

/-- What a `let` loop repeats, with its names and the scope that it was started in. -/
structure LetLoop where
  names : List String
  outer : EnvId
  test : Option Expression
  update : Option Expression
  body : Statement
  labels : List String

namespace LetLoop

/-- A record binds just the names of the loop, as variables with the values they have in another record. -/
structure Copies (loop : LetLoop) (r r' : DeclarativeRecord) : Prop where
  outer : r'.outer = some loop.outer
  call : r'.call = none
  bound : ∀ n ∈ loop.names, ∃ b v, r.get? n = some b ∧ b.value = some v ∧
    r'.get? n = some ⟨true, false, false, some v⟩
  unbound : ∀ n, n ∉ loop.names → r'.get? n = none

/-- An iteration begins: the running code, which was in the scope of the iteration before, is in a new
environment with a copy of that scope's record. All environments that were there are as they were, and so is the
rest of the machine. -/
structure Opens (loop : LetLoop) (last : EnvId) (m : Machine) (env : EnvId) (m' : Machine) : Prop where
  running : lexicalEnv m = .ok last
  fresh : env.index = m.environments.size
  scope : lexicalEnv m' = .ok env
  copy : ∃ r r', m.env? last = some (.declarative r) ∧ m'.env? env = some (.declarative r') ∧ loop.Copies r r'
  existing : ∀ e, e.Within m.bounds → m'.env? e = m.env? e
  rest : ∃ e, m' = (m.pushEnv e).withScope env

/-- The test holds and the body is run, both in the environment. -/
def RunsBody (loop : LetLoop) (ev : Evaluator) (env : EnvId) (m : Machine)
    (result : EStateM.Result Abrupt Machine Completion) : Prop :=
  ∃ m₁, (ev.holds loop.test).RunsIn env m (.ok true m₁) ∧ (ev.statement loop.body).RunsIn env m₁ result

/-- The update that is made between two iterations. -/
def updates (loop : LetLoop) (ev : Evaluator) : Eval Unit :=
  match loop.update with
  | some e => discard (ev.value e)
  | none => pure ()

/-- The loop from a test on, within a number of steps and with the value so far. -/
def iterations (loop : LetLoop) (ev : Evaluator) (steps : Nat) (v : Value) : Eval Completion :=
  ev.forIterations loop.test loop.update loop.body loop.names loop.labels steps v

open EStateM.Result in
/-- The iterations from a test on, within a number of steps and with the value so far: the environment of the first,
the machine that its test starts from, the environments of those that follow, and the end of the loop. -/
inductive Iterates (loop : LetLoop) (ev : Evaluator) :
    Nat → Value → EnvId → Machine → List EnvId → EStateM.Result Abrupt Machine Completion → Prop
  | exhausted : Iterates loop ev 0 v env m [] (error .exhausted m)
  | testFails (htest : (ev.holds loop.test).RunsIn env m (error e m₁)) :
    Iterates loop ev (steps + 1) v env m [] (error e m₁)
  | ends (htest : (ev.holds loop.test).RunsIn env m (ok false m₁)) :
    Iterates loop ev (steps + 1) v env m [] (ok (.normal (some v)) m₁)
  | bodyFails (hbody : loop.RunsBody ev env m (error e m₁)) :
    Iterates loop ev (steps + 1) v env m [] (error e m₁)
  | leaves (hbody : loop.RunsBody ev env m (ok c m₁)) (hleaves : c.loopContinues loop.labels = false) :
    Iterates loop ev (steps + 1) v env m [] (ok (c.updateEmpty (some v)) m₁)
  | updateFails (hbody : loop.RunsBody ev env m (ok c m₁)) (hgoes : c.loopContinues loop.labels = true)
    (hopens : loop.Opens env m₁ next m₂) (hupdate : (loop.updates ev).RunsIn next m₂ (error e m₃)) :
    Iterates loop ev (steps + 1) v env m [next] (error e m₃)
  | next (hbody : loop.RunsBody ev env m (ok c m₁)) (hgoes : c.loopContinues loop.labels = true)
    (hopens : loop.Opens env m₁ next m₂) (hupdate : (loop.updates ev).RunsIn next m₂ (ok () m₃))
    (hrest : Iterates loop ev steps (c.value?.getD v) next m₃ rest result) :
    Iterates loop ev (steps + 1) v env m (next :: rest) result

/-- The loop from the end of its head on: it opens the environment of the first iteration from that of the head,
and all environments differ, since each is newer than those before it. -/
def Runs (loop : LetLoop) (ev : Evaluator) (steps : Nat) (head : EnvId) (m : Machine)
    (result : EStateM.Result Abrupt Machine Completion) : Prop :=
  ∃ first m₁ rest, loop.Opens head m first m₁ ∧ loop.Iterates ev steps .undefined first m₁ rest result ∧
    (head :: first :: rest).Pairwise (·.index < ·.index)

end LetLoop

variable {m m' : Machine} {env last outer : EnvId} {r r' : DeclarativeRecord} {names : List String}

namespace Machine

theorem setLexicalEnv_eq (h : lexicalEnv m = .ok last) (env : EnvId) :
    setLexicalEnv env m = .ok () (m.withScope env) := by
  obtain ⟨c, cs, hc, -⟩ := lexicalEnv_ok h
  rw [setLexicalEnv, modifyContext_cons hc]
  simp [withScope, withContexts, hc]

theorem lexicalEnv_withScope (h : lexicalEnv m = .ok last) (env : EnvId) : lexicalEnv (m.withScope env) = .ok env := by
  obtain ⟨c, cs, hc, -⟩ := lexicalEnv_ok h
  have hcontexts : (m.withScope env).contexts = { c with lexicalEnv := env } :: cs := by
    simp [withScope, withContexts, hc]
  exact lexicalEnv_cons hcontexts

/-- A new environment that is stored over is as if it had been made so. -/
theorem storeEnv_pushEnv (m : Machine) (e e' : Environment) :
    (m.pushEnv e).storeEnv ⟨m.environments.size⟩ e' = m.pushEnv e' := by
  have henvironments : (m.environments.push e).setIfInBounds m.environments.size e' = m.environments.push e' := by
    refine Array.ext_getElem? fun i => ?_
    rw [Array.getElem?_setIfInBounds, Array.getElem?_push, Array.getElem?_push]
    by_cases h : m.environments.size = i
    · simp [h]
    · simp [h, Ne.symm h]
  simp [storeEnv, pushEnv, henvironments]

end Machine

/-- The end of a run with the running code back in a scope. -/
def putScopeBack (env : EnvId) : EStateM.Result Abrupt Machine α → EStateM.Result Abrupt Machine α
  | .ok a m => .ok a (m.withScope env)
  | .error e m => .error e (m.withScope env)

theorem withLexicalEnv_eq_putScopeBack {x : Eval α} (hx : x.Fixes Machine.outerFrame)
    (h : lexicalEnv m = .ok outer) (env : EnvId) :
    withLexicalEnv env x m = putScopeBack outer (x (m.withScope env)) := by
  obtain ⟨c, cs, hc, rfl⟩ := lexicalEnv_ok h
  have hscope : ({ m with contexts := { c with lexicalEnv := env } :: cs } : Machine) = m.withScope env := by
    simp [Machine.withScope, Machine.withContexts, hc]
  have hcontexts : (m.withScope env).contexts = { c with lexicalEnv := env } :: cs := by
    simp [Machine.withScope, Machine.withContexts, hc]
  obtain ⟨d, hd, -⟩ := outerFrame_cons (hx (m.withScope env)) hcontexts
  have hset : setLexicalEnv c.lexicalEnv (x.after (m.withScope env)) = .ok () _ :=
    Machine.setLexicalEnv_eq (lexicalEnv_cons hd) c.lexicalEnv
  rw [withLexicalEnv_eq hc, hscope, tryFinally_eq]
  cases hrun : x (m.withScope env) with
  | ok a m' =>
    rw [Eval.after_ok hrun] at hset
    simp [hset, putScopeBack]
  | error e m' =>
    rw [Eval.after_error hrun] at hset
    simp [hset, putScopeBack]

theorem EnvId.createMutable_isNew {name : String} {deletable : Bool} (he : m.env? env = some (.declarative r))
    (h : env.createMutable name deletable m = .ok () m') : r.get? name = none := by
  unfold createMutable at h
  rw [bind_ok (lift_ok (load_eq he))] at h
  obtain ⟨_, _, hsettle, -⟩ := bind_eq_ok h
  exact (DeclarativeRecord.create_ok (settle_eq_ok hsettle).1).1

/-- Names that were all created are distinct. -/
theorem createMutable_all (he : m.env? env = some (.declarative r))
    (h : names.forM (env.createMutable · false) m = .ok () m') :
    names.Nodup ∧ (∀ n ∈ names, r.get? n = none) ∧
      m' = m.storeEnv env (.declarative (r.addAll (names.map (·, ⟨true, false, false, none⟩)))) := by
  induction names generalizing m r with
  | nil =>
    cases h
    exact ⟨.nil, nofun, (Machine.storeEnv_self he).symm⟩
  | cons name rest ih =>
    obtain ⟨⟨⟩, m₁, hfirst, hrest⟩ := bind_eq_ok h
    have hnew : r.get? name = none := EnvId.createMutable_isNew he hfirst
    cases (EnvId.createMutable_acts hnew m he).symm.trans hfirst
    obtain ⟨hnodup, hothers, rfl⟩ := ih (Machine.env?_storeEnv_self he _) hrest
    have hother (n : String) (hn : n ∈ rest) : n ≠ name ∧ r.get? n = none := by
      have hnone := hothers n hn
      rw [DeclarativeRecord.get?_cons] at hnone
      split at hnone
      · cases hnone
      · exact ⟨‹_›, hnone⟩
    refine ⟨List.nodup_cons.mpr ⟨fun hn => (hother name hn).1 rfl, hnodup⟩, fun n hn => ?_, ?_⟩
    · rcases List.mem_cons.mp hn with rfl | hn
      · exact hnew
      · exact (hother n hn).2
    · rw [Machine.storeEnv_storeEnv, List.map_cons, DeclarativeRecord.addAll_cons]
      rfl

/-- The binding of a name in the next iteration: a variable with the value that it has in the record. -/
def DeclarativeRecord.copied (r : DeclarativeRecord) (name : String) : Binding :=
  ⟨true, false, false, (r.get? name).bind (·.value)⟩

theorem EnvId.read_ok {name : String} {b : Binding} {v : Value} (he : m.env? env = some (.declarative r))
    (hb : r.get? name = some b) (hv : b.value = some v) (strict : Bool) : env.read name strict m = .ok v m := by
  have hr : m.record? env = some r := by simp [Machine.record?, he, Environment.record?]
  exact (DeclarativeRecord.reads hr hb).value v strict hv

/-- The names are created in an environment with the values they have in another. -/
theorem declareInitialized_copies (hne : last ≠ env) (hlast : m.env? last = some (.declarative r))
    (he : m.env? env = some (.declarative r')) (hnew : ∀ n ∈ names, r'.get? n = none) (hnodup : names.Nodup)
    (hvalues : ∀ n ∈ names, ∃ b v, r.get? n = some b ∧ b.value = some v) :
    declareInitialized env (last.read · true) names m =
      .ok () (m.storeEnv env (.declarative (r'.addAll (names.map fun n => (n, r.copied n))))) := by
  induction names generalizing m r' with
  | nil =>
    rw [List.map_nil, DeclarativeRecord.addAll, List.reverse_nil, List.nil_append, Machine.storeEnv_self he]
    rfl
  | cons name rest ih =>
    obtain ⟨hfirst, hrest⟩ := List.nodup_cons.mp hnodup
    obtain ⟨b, v, hb, hv⟩ := hvalues name List.mem_cons_self
    have hnone : r'.get? name = none := hnew name List.mem_cons_self
    have hcopied : r.copied name = ⟨true, false, false, some v⟩ := by simp [DeclarativeRecord.copied, hb, hv]
    let m₁ := m.storeEnv env (.declarative (r'.addAll [(name, ⟨true, false, false, none⟩)]))
    let m₂ := m.storeEnv env (.declarative (r'.addAll [(name, r.copied name)]))
    have hlast₁ : m₁.env? last = some (.declarative r) := by
      rw [Machine.env?_storeEnv _ _ _ _ he, if_neg hne, hlast]
    have hlast₂ : m₂.env? last = some (.declarative r) := by
      rw [Machine.env?_storeEnv _ _ _ _ he, if_neg hne, hlast]
    have hcreate : env.createMutable name false m = .ok () m₁ := EnvId.createMutable_acts hnone m he
    have hread : last.read name true m₁ = .ok v m₁ := EnvId.read_ok hlast₁ hb hv true
    have hinit : env.initBinding name v m₁ = .ok () m₂ := by
      have hacts : (env.initBinding name v).ActsOn env _ _ :=
        EnvId.initBinding_acts (r'.initBinding_addAll hnone true false false v)
      have hrun := hacts m₁ (Machine.env?_storeEnv_self he _)
      rwa [Machine.storeEnv_storeEnv, ← hcopied] at hrun
    have hothers : ∀ n ∈ rest, (r'.addAll [(name, r.copied name)]).get? n = none := by
      intro n hn
      have hother : n ≠ name := fun h => hfirst (h ▸ hn)
      rw [DeclarativeRecord.get?_addAll_singleton, if_neg hother, hnew n (List.mem_cons_of_mem name hn)]
    have hrun := ih hlast₂ (Machine.env?_storeEnv_self he _) hothers hrest
      fun n hn => hvalues n (List.mem_cons_of_mem name hn)
    rw [Machine.storeEnv_storeEnv, ← DeclarativeRecord.addAll_cons] at hrun
    exact (bind_ok ((bind_ok hcreate).trans ((bind_ok hread).trans hinit))).trans hrun

namespace LetLoop

variable {loop : LetLoop}

/-- The running code is in an environment of the loop, where all its names have values. -/
structure Ready (loop : LetLoop) (m : Machine) (env : EnvId) : Prop where
  scope : lexicalEnv m = .ok env
  record : ∃ r, m.env? env = some (.declarative r) ∧ r.outer = some loop.outer
  names : ∀ n ∈ loop.names, m.HoldsName env true n

theorem Ready.changes (h : loop.Ready m env) (hm : m.Changes m') (hscope : lexicalEnv m' = lexicalEnv m) :
    loop.Ready m' env where
  scope := hscope.trans h.scope
  record := by
    obtain ⟨r, he, houter⟩ := h.record
    obtain ⟨r', he', -, hsame⟩ := hm.declarative he
    exact ⟨r', he', hsame.trans houter⟩
  names n hn := hm.holdsName (h.names n hn)

theorem Opens.ready (h : loop.Opens last m env m') : loop.Ready m' env := by
  obtain ⟨r, r', -, he, hcopies⟩ := h.copy
  refine ⟨h.scope, ⟨r', he, hcopies.outer⟩, fun n hn => ?_⟩
  obtain ⟨_, v, -, -, hb⟩ := hcopies.bound n hn
  exact ⟨r', _, he, hb, rfl, fun _ => rfl⟩

theorem Opens.index_lt (h : loop.Opens last m env m') : last.index < env.index := by
  obtain ⟨r, _, he, -⟩ := h.copy
  rw [h.fresh]
  exact Machine.within_of_env? he

theorem Ready.values (h : loop.Ready m env) (he : m.env? env = some (.declarative r)) :
    ∀ n ∈ loop.names, ∃ b v, r.get? n = some b ∧ b.value = some v := by
  intro n hn
  obtain ⟨r₁, b, he₁, hb, -, hvalue⟩ := h.names n hn
  cases he.symm.trans he₁
  obtain ⟨v, hv⟩ := Option.isSome_iff_exists.mp (hvalue rfl)
  exact ⟨b, v, hb, hv⟩

/-- The record of an iteration from the one before. -/
def nextRecord (loop : LetLoop) (r : DeclarativeRecord) : DeclarativeRecord :=
  DeclarativeRecord.addAll { outer := some loop.outer } (loop.names.map fun n => (n, r.copied n))

theorem nextRecord_copies (hnodup : loop.names.Nodup)
    (hvalues : ∀ n ∈ loop.names, ∃ b v, r.get? n = some b ∧ b.value = some v) :
    loop.Copies r (loop.nextRecord r) where
  outer := rfl
  call := rfl
  bound n hn := by
    obtain ⟨b, v, hb, hv⟩ := hvalues n hn
    refine ⟨b, v, hb, hv, ?_⟩
    have hcopied : r.copied n = ⟨true, false, false, some v⟩ := by simp [DeclarativeRecord.copied, hb, hv]
    rw [← hcopied]
    refine DeclarativeRecord.get?_addAll ?_ (List.mem_map.mpr ⟨n, hn, rfl⟩)
    simpa [List.map_map, Function.comp_def] using hnodup
  unbound n hn := by
    refine DeclarativeRecord.get?_addAll_of_notMem ?_
    simpa [List.map_map, Function.comp_def] using hn

/-- The environment of the next iteration can always be made. -/
theorem copyIterationEnv_opens (hnames : loop.names ≠ []) (hnodup : loop.names.Nodup) (h : loop.Ready m last) :
    ∃ env m', copyIterationEnv loop.names m = .ok () m' ∧ loop.Opens last m env m' := by
  obtain ⟨r, he, houter⟩ := h.record
  let env : EnvId := ⟨m.environments.size⟩
  let empty : DeclarativeRecord := { outer := some loop.outer }
  let m₁ := m.pushEnv (.declarative empty)
  let m₂ := m.pushEnv (.declarative (loop.nextRecord r))
  have hwithin : last.Within m.bounds := Machine.within_of_env? he
  have hne : last ≠ env := fun heq => Nat.lt_irrefl _ (heq ▸ hwithin)
  have hcopy : declareInitialized env (last.read · true) loop.names m₁ = .ok () m₂ := by
    have hlast : m₁.env? last = some (.declarative r) := (Machine.env?_pushEnv_of_within hwithin).trans he
    have henv : m₁.env? env = some (.declarative empty) := by simp [m₁, env, Machine.env?_pushEnv]
    have hrun := declareInitialized_copies hne hlast henv (fun _ _ => rfl) hnodup (h.values he)
    rwa [Machine.storeEnv_pushEnv] at hrun
  have hscope : lexicalEnv m₂ = .ok last := (lexicalEnv_congr rfl).trans h.scope
  refine ⟨env, m₂.withScope env, ?_, h.scope, rfl, Machine.lexicalEnv_withScope hscope env, ?_, fun e hwithin => ?_,
    _, rfl⟩
  · have hload : last.load m = .ok (.declarative r) := EnvId.load_eq he
    have hnew : newDeclarativeEnvironment (some loop.outer) m = .ok env m₁ := rfl
    have hempty : loop.names.isEmpty = false := by simpa using hnames
    unfold copyIterationEnv
    simp only [hempty, Bool.false_eq_true, if_false]
    rw [bind_ok (lift_ok h.scope), bind_ok (lift_ok hload)]
    simp only [Environment.outer?, houter]
    rw [bind_ok hnew, bind_ok hcopy]
    exact Machine.setLexicalEnv_eq hscope env
  · have henv : m₂.env? env = some (.declarative (loop.nextRecord r)) := by simp [m₂, env, Machine.env?_pushEnv]
    exact ⟨r, _, he, henv, nextRecord_copies hnodup (h.values he)⟩
  · exact Machine.env?_pushEnv_of_within hwithin

end LetLoop

namespace LetLoop

variable {loop : LetLoop} {ev : Evaluator} (hev : ev.StaysIn .whole) (hrestores : ev.Restores)

include hev hrestores

theorem Ready.test (h : loop.Ready m env) (hrun : ev.holds loop.test m = .ok b m') : loop.Ready m' env := by
  have hproceeds : (ev.holds loop.test).Proceeds := by
    unfold Evaluator.holds
    grind
  have hkeeps : (ev.holds loop.test).KeepsStack := by
    unfold Evaluator.holds
    grind
  exact h.changes (hproceeds.changes_ok hrun) (hkeeps.lexicalEnv hrun)

theorem Ready.body (h : loop.Ready m env) (hrun : ev.statement loop.body m = .ok c m') : loop.Ready m' env :=
  h.changes ((Eval.Proceeds.of_whole (hev.statement loop.body)).changes_ok hrun)
    (lexicalEnv_of_frame ((hrestores.statement loop.body).of_ok hrun))

theorem Ready.updates (h : loop.Ready m env) (hrun : loop.updates ev m = .ok () m') : loop.Ready m' env := by
  have hproceeds : (loop.updates ev).Proceeds := by
    unfold LetLoop.updates
    grind
  have hkeeps : (loop.updates ev).KeepsStack := by
    unfold LetLoop.updates
    grind
  exact h.changes (hproceeds.changes_ok hrun) (hkeeps.lexicalEnv hrun)

omit hev hrestores in
theorem iterations_succ (loop : LetLoop) (ev : Evaluator) (steps : Nat) (v : Value) :
    loop.iterations ev (steps + 1) v = (do
      if !(← ev.holds loop.test) then return .normal (some v)
      else
        let c ← ev.statement loop.body
        if !c.loopContinues loop.labels then return c.updateEmpty (some v)
        else
          copyIterationEnv loop.names
          loop.updates ev
          loop.iterations ev steps (c.value?.getD v)) := by
  rw [iterations, Evaluator.forIterations]
  unfold updates iterations
  cases loop.update with
  | none => simp only [pure_bind]
  | some e => rfl

variable {steps : Nat} {v : Value}

/-- After a body that lets the loop go on, the rest of the loop is in newer environments. -/
theorem Ready.goesOn (hnames : loop.names ≠ []) (hnodup : loop.names.Nodup) {c : Completion}
    (hbody : loop.RunsBody ev env m (.ok c m')) (hgoes : c.loopContinues loop.labels = true) (h : loop.Ready m' env)
    (hrest : ∀ next m, loop.Ready m next → ∃ rest,
      loop.Iterates ev steps (c.value?.getD v) next m rest (loop.iterations ev steps (c.value?.getD v) m) ∧
        (next :: rest).Pairwise (·.index < ·.index)) :
    ∃ rest, loop.Iterates ev (steps + 1) v env m rest ((do
        copyIterationEnv loop.names
        loop.updates ev
        loop.iterations ev steps (c.value?.getD v) : Eval Completion) m') ∧
      (env :: rest).Pairwise (·.index < ·.index) := by
  obtain ⟨next, m₁, hcopy, hopens⟩ := copyIterationEnv_opens hnames hnodup h
  rw [bind_ok hcopy]
  cases hupdate : loop.updates ev m₁ with
  | error e m₂ =>
    rw [bind_error hupdate]
    refine ⟨[next], .updateFails hbody hgoes hopens ⟨hopens.scope, hupdate⟩, ?_⟩
    simpa using hopens.index_lt
  | ok u m₂ =>
    obtain ⟨rest, hiterates, hpairwise⟩ := hrest next m₂ (hopens.ready.updates hev hrestores hupdate)
    rw [bind_ok hupdate]
    refine ⟨next :: rest, .next hbody hgoes hopens ⟨hopens.scope, hupdate⟩ hiterates, ?_⟩
    refine List.pairwise_cons.mpr ⟨fun later hlater => ?_, hpairwise⟩
    rcases List.mem_cons.mp hlater with rfl | hlater
    · exact hopens.index_lt
    · exact Nat.lt_trans hopens.index_lt (List.rel_of_pairwise_cons hpairwise hlater)

/-- The loop goes through its iterations, each in an environment that is newer than those before it. -/
theorem Ready.iterates (hnames : loop.names ≠ []) (hnodup : loop.names.Nodup) (h : loop.Ready m env) (steps : Nat)
    (v : Value) :
    ∃ rest, loop.Iterates ev steps v env m rest (loop.iterations ev steps v m) ∧
      (env :: rest).Pairwise (·.index < ·.index) := by
  induction steps generalizing m env v with
  | zero => exact ⟨[], .exhausted, List.pairwise_singleton _ _⟩
  | succ steps ih =>
    rw [iterations_succ]
    cases htest : ev.holds loop.test m with
    | error e m₁ =>
      rw [bind_error htest]
      exact ⟨[], .testFails ⟨h.scope, htest⟩, List.pairwise_singleton _ _⟩
    | ok holds m₁ =>
      rw [bind_ok htest]
      cases holds with
      | false => exact ⟨[], .ends ⟨h.scope, htest⟩, List.pairwise_singleton _ _⟩
      | true =>
        have h₁ := h.test hev hrestores htest
        have hruns {result} (hbody : ev.statement loop.body m₁ = result) : loop.RunsBody ev env m result :=
          ⟨m₁, ⟨h.scope, htest⟩, h₁.scope, hbody⟩
        simp only [Bool.not_true, Bool.false_eq_true, if_false]
        cases hbody : ev.statement loop.body m₁ with
        | error e m₂ =>
          rw [bind_error hbody]
          exact ⟨[], .bodyFails (hruns hbody), List.pairwise_singleton _ _⟩
        | ok c m₂ =>
          rw [bind_ok hbody]
          cases hgoes : c.loopContinues loop.labels with
          | false => exact ⟨[], .leaves (hruns hbody) hgoes, List.pairwise_singleton _ _⟩
          | true =>
            exact (h₁.body hev hrestores hbody).goesOn hev hrestores hnames hnodup (hruns hbody) hgoes
              fun next m hnext => ih hnext _

end LetLoop

namespace Evaluator

/-- The head of a `let` loop: its names are created in a new environment and given their values there. -/
def letHead (ev : Evaluator) (declarators : List Declarator) : Eval Unit := do
  let env ← newDeclarativeEnvironment (some (← lexicalEnv))
  (declarators.flatMap (·.pattern.boundNames)).forM (env.createMutable · false)
  setLexicalEnv env
  ev.declare (.lexical false) declarators

variable {ev : Evaluator} (hev : ev.StaysIn .whole) (hrestores : ev.Restores) {loop : LetLoop} {m₀ : Machine}
  {declarators : List Declarator}

include hev hrestores

/-- The head of a loop succeeds from a scope and with distinct names, and the loop goes on from there. -/
theorem letHead_ok (steps : Nat) (test update : Option Expression) (body : Statement) (labels : List String)
    (hhead : ev.letHead declarators m = .ok () m₀) :
    let loop (outer : EnvId) : LetLoop :=
      ⟨declarators.flatMap (·.pattern.boundNames), outer, test, update, body, labels⟩
    ∃ outer, lexicalEnv m = .ok outer ∧ (loop outer).names.Nodup ∧
      (loop outer).Ready m₀ ⟨m.environments.size⟩ ∧
      ev.forLoop steps (some (.declare (.lexical false) declarators)) test update body labels m =
        putScopeBack outer ((do
          copyIterationEnv (loop outer).names
          (loop outer).iterations ev steps .undefined : Eval Completion) m₀) := by
  intro loop
  let env : EnvId := ⟨m.environments.size⟩
  obtain ⟨outer, _, hlift, h⟩ := bind_eq_ok hhead
  obtain ⟨hm, houter⟩ := lift_eq_ok hlift
  rw [hm] at h
  let m₁ := m.pushEnv (.declarative { outer := some outer })
  have hnew : newDeclarativeEnvironment (some outer) m = .ok env m₁ := rfl
  have he : m₁.env? env = some (.declarative { outer := some outer }) := by simp [m₁, env, Machine.env?_pushEnv]
  rw [bind_ok hnew] at h
  obtain ⟨⟨⟩, m₂, hcreate, h⟩ := bind_eq_ok h
  obtain ⟨hnodup, -, hm₂⟩ := createMutable_all he hcreate
  have hscope : lexicalEnv m₂ = .ok outer := by
    rw [hm₂]
    exact (lexicalEnv_congr rfl).trans houter
  rw [bind_ok (Machine.setLexicalEnv_eq hscope env)] at h
  have he₂ := Machine.env?_storeEnv_self he (.declarative (DeclarativeRecord.addAll { outer := some outer }
    ((loop outer).names.map (·, ⟨true, false, false, none⟩))))
  rw [← hm₂] at he₂
  -- the names are waiting in the new environment, so the head initializes them there
  have hheld : ∀ n ∈ (loop outer).names, (m₂.withScope env).HoldsName env false n := by
    intro n hn
    refine ⟨_, ⟨true, false, false, none⟩, he₂, ?_, rfl, nofun⟩
    refine DeclarativeRecord.get?_addAll ?_ (List.mem_map.mpr ⟨n, hn, rfl⟩)
    simpa [List.map_map, Function.comp_def] using hnodup
  have hscope' := Machine.lexicalEnv_withScope hscope env
  have hready : (loop outer).Ready m₀ env := by
    have hproceeds := Eval.Proceeds.of_whole (declare_stays hev (.lexical false) declarators)
    obtain ⟨r, hr, -, hsame⟩ := (hproceeds.changes_ok h).declarative he₂
    exact ⟨((declare_keepsStack hrestores _ declarators).lexicalEnv h).trans hscope', ⟨r, hr, hsame⟩,
      declare_initializes hev hrestores hscope' hheld h⟩
  refine ⟨outer, houter, hnodup, hready, ?_⟩
  have hlexical : env.createLexical false = (env.createMutable · false) := rfl
  -- whatever the rest does, the scope is put back afterwards
  have hsettles : Eval.Settles Machine.outerFrame (do
      ev.declare (.lexical false) declarators
      ev.forBody steps test update body (loop outer).names labels) :=
    .bind (.outerFrame (.keeps (declare_keepsStack hrestores _ declarators))) fun _ =>
      forBody_settles_outerFrame hrestores _ _ _ _ _ _
  change ev.forLexical steps false declarators test update body labels m = _
  unfold forLexical
  rw [bind_ok (lift_ok houter), bind_ok hnew, hlexical, bind_ok hcreate]
  simp only [Bool.false_eq_true, if_false]
  rw [withLexicalEnv_eq_putScopeBack hsettles.fixes hscope, bind_ok h]
  rfl

end Evaluator

/-- **Each iteration of a `let` loop has an environment of its own.** Let the head of the loop, which binds some
name, end normally. Then the loop opens a first environment from that of the head and goes through iterations: each
runs its test and its body in its environment, and when the body has ended and the loop goes on, the next
environment is opened, in which the update runs before the test of the next iteration. So it is for any number of
steps and however the loop ends, and the environments all differ. -/
theorem forLoop_runs_apart (level steps : Nat) (declarators : List Declarator) (test update : Option Expression)
    (body : Statement) (labels : List String) (m m₀ : Machine)
    (hnames : declarators.flatMap (·.pattern.boundNames) ≠ [])
    (hhead : (Evaluator.level level).letHead declarators m = .ok () m₀) :
    ∃ outer result, lexicalEnv m = .ok outer ∧
      LetLoop.Runs ⟨declarators.flatMap (·.pattern.boundNames), outer, test, update, body, labels⟩ (.level level)
        steps ⟨m.environments.size⟩ m₀ result ∧
      (Evaluator.level level).forLoop steps (some (.declare (.lexical false) declarators)) test update body labels m =
        putScopeBack outer result := by
  have hev := Evaluator.level_stays Remit.whole_isOpen level
  have hrestores := Evaluator.level_restores level
  obtain ⟨outer, houter, hnodup, hready, hrun⟩ :=
    Evaluator.letHead_ok hev hrestores steps test update body labels hhead
  obtain ⟨first, m₁, hcopy, hopens⟩ := LetLoop.copyIterationEnv_opens hnames hnodup hready
  obtain ⟨rest, hiterates, hpairwise⟩ :=
    hopens.ready.iterates hev hrestores hnames hnodup steps .undefined
  rw [bind_ok hcopy] at hrun
  refine ⟨outer, _, houter, ⟨first, m₁, rest, hopens, hiterates, ?_⟩, hrun⟩
  refine List.pairwise_cons.mpr ⟨fun later hlater => ?_, hpairwise⟩
  rcases List.mem_cons.mp hlater with rfl | hlater
  · exact hopens.index_lt
  · exact Nat.lt_trans hopens.index_lt (List.rel_of_pairwise_cons hpairwise hlater)

/-- A loop over two names, one of them without an initializer, that its update ends after one iteration. -/
theorem forLoop_runs_apart_pair :
    let c : Context :=
      { realm := ⟨0⟩, function := none, lexicalEnv := ⟨0⟩, variableEnv := ⟨0⟩, privateEnv := none,
        labels := [], strict := true }
    let m : Machine := { environments := #[.declarative { outer := none }], contexts := [c] }
    let declarators : List Declarator :=
      [⟨.identifier "i", some (.literal (.boolean true))⟩, ⟨.identifier "j", none⟩]
    let test : Expression := .identifier "i"
    let update : Expression := .assign .plain (.identifier "i") (.identifier "j")
    ∃ m₀ result, declarators.flatMap (·.pattern.boundNames) ≠ [] ∧
      (Evaluator.level 4).letHead declarators m = .ok () m₀ ∧
      LetLoop.Runs ⟨["i", "j"], ⟨0⟩, some test, some update, .empty, []⟩ (.level 4) 3 ⟨1⟩ m₀ result ∧
      (Evaluator.level 4).forLoop 3 (some (.declare (.lexical false) declarators)) (some test) (some update)
        .empty [] m = putScopeBack ⟨0⟩ result := by
  intro c m declarators test update
  have hnames : declarators.flatMap (·.pattern.boundNames) ≠ [] := by decide
  obtain ⟨⟨⟩, m₀, hhead⟩ : ∃ u m₀, (Evaluator.level 4).letHead declarators m = .ok u m₀ :=
    Eval.exists_ok (by decide +kernel)
  obtain ⟨outer, result, houter, hruns⟩ :=
    forLoop_runs_apart 4 3 declarators (some test) (some update) .empty [] m m₀ hnames hhead
  cases houter
  exact ⟨m₀, result, hnames, hhead, hruns⟩

end EcmaEval
