import EcmaEval.Proofs.Heap.Environment
import EcmaEval.Proofs.Scope.Quiet

/-!
# Scopes with a `this`

An environment without a `this` of its own leaves it to its outer one. A machine is *scoped* if this
search ends at a value wherever code may start it: in every context, in every function and in every
outer environment. In the context of an arrow it passes through the environment that the arrow closes
over. Later machines extend earlier ones: what `this` is for an environment, and what a function closes
over, stays; and a global environment declares nothing more, apart from the names it may gain.

Two runs *agree* from a machine on, under way to a final one, if from every later scoped machine they do
the same, provided that what they leave goes on to the final machine, and leave a later scoped machine. This
composes along `bind`, and what was found out about an earlier machine may be used: the machine between two
runs is later than the first one and goes on to the final one.
-/
namespace EcmaEval

/-- The names that each global environment may gain. -/
structure Growth where
  lexical : EnvId → String → Prop
  var : EnvId → String → Prop

/-- No names. -/
def Growth.none : Growth := ⟨fun _ _ => False, fun _ _ => False⟩

/-- Any names. -/
def Growth.all : Growth := ⟨fun _ _ => True, fun _ _ => True⟩

/-- Whether the search for `this` ends at the environment. -/
def Environment.hasThis : Environment → Bool
  | .declarative r => r.hasThis
  | .object _ => false
  | .global _ => true

/-- The `this` of the record is still to be set. -/
def DeclarativeRecord.IsPending (r : DeclarativeRecord) : Prop :=
  ∃ slots, r.call = some slots ∧ slots.thisStatus = .uninitialized

/-- The environment at a later time. -/
inductive Environment.Later (gains : Growth) (env : EnvId) : Environment → Environment → Prop
  | declarative {r r' : DeclarativeRecord} (outer : r'.outer = r.outer)
      (call : r'.call = r.call ∨ r.IsPending) : Later gains env (.declarative r) (.declarative r')
  | object (s : ObjectScope) : Later gains env (.object s) (.object s)
  | global {g g' : GlobalRecord} (globalThis : g'.globalThis = g.globalThis)
      (lexical : ∀ name, g'.declarative.has name = true → g.declarative.has name = true ∨
        gains.lexical env name)
      (var : ∀ name ∈ g'.varNames, name ∈ g.varNames ∨ gains.var env name) :
      Later gains env (.global g) (.global g')

namespace Machine

/-- The environment leaves `this` to an outer one. -/
def Passes (m : Machine) (env outer : EnvId) : Prop :=
  ∃ e, m.env? env = some e ∧ e.hasThis = false ∧ e.outer? = some outer

/-- What `this` is for code in an environment. -/
inductive ThisAt (m : Machine) : EnvId → Value → Prop
  | global {env : EnvId} {g : GlobalRecord} (he : m.env? env = some (.global g)) :
      ThisAt m env (.object g.globalThis)
  | call {env : EnvId} {r : DeclarativeRecord} {slots : CallSlots}
      (he : m.env? env = some (.declarative r)) (hcall : r.call = some slots)
      (hstatus : slots.thisStatus = .initialized) : ThisAt m env slots.thisValue
  | outer {env outer : EnvId} {v : Value} (h : m.Passes env outer) (hthis : ThisAt m outer v) :
      ThisAt m env v

/-- The environment is one for the code of a context with the given function: it has a `this`, and in
a call it is not global. In the call of an arrow its `this` is left to where the arrow was made. -/
structure Hosts (m : Machine) (f : Option ObjectId) (env : EnvId) : Prop where
  this : ∃ v, m.ThisAt env v
  callee : ∀ o, f = some o → ¬ m.IsGlobal env ∧ ∃ slots, m.closure? o = some slots ∧
    (slots.thisMode = .lexical → Relation.TransGen m.Passes env slots.environment)

/-- The environment is one to nest the environments of such a context in. -/
structure Nests (m : Machine) (f : Option ObjectId) (env : EnvId) : Prop where
  this : ∃ v, m.ThisAt env v
  callee : ∀ o, f = some o → ∃ slots, m.closure? o = some slots ∧
    (slots.thisMode = .lexical → Relation.ReflTransGen m.Passes env slots.environment)

/-- Wherever code may ask for `this`, there is one. -/
structure IsScoped (m : Machine) : Prop where
  contexts : ∀ c ∈ m.contexts, m.Hosts c.function c.lexicalEnv
  closures : ∀ o slots, m.closure? o = some slots → ∃ v, m.ThisAt slots.environment v
  outers : ∀ env e outer, m.env? env = some e → e.outer? = some outer →
    outer.index < env.index ∧ ∃ v, m.ThisAt outer v
  realms : ∀ id r, m.realm? id = some r → m.IsGlobal r.globalEnv

/-- Functions keep what they close over, and environments go on. -/
structure Persists (gains : Growth) (m m' : Machine) : Prop where
  closures : ∀ o slots, m.closure? o = some slots → m'.closure? o = some slots
  environments : ∀ env e, m.env? env = some e → ∃ e', m'.env? env = some e' ∧ e.Later gains env e'

/-- The machine at a later time of the same code: the same calls are in progress in the same realms. -/
structure Extends (gains : Growth) (m m' : Machine) : Prop extends Persists gains m m' where
  functions : m'.contexts.map (·.function) = m.contexts.map (·.function)
  realms : m'.realms = m.realms
  globals : ∀ env, m'.IsGlobal env → m.IsGlobal env

/-- The function of the running context. -/
def function? (m : Machine) : Option ObjectId := m.contexts.head?.bind (·.function)

/-- Running code may be put into the environment. -/
def IsScope (m : Machine) (env : EnvId) : Prop := m.Hosts m.function? env

/-- An environment for running code may be nested in this one. -/
def IsOuter (m : Machine) (env : EnvId) : Prop := m.Nests m.function? env

/-- The environment is not global. -/
def IsLocal (m : Machine) (env : EnvId) : Prop := ¬ m.IsGlobal env

/-- Functions may be made in the environment. -/
def HasThisAt (m : Machine) (env : EnvId) : Prop := ∃ v, m.ThisAt env v

end Machine

variable {gains : Growth} {m m' m'' : Machine}

namespace Environment.Later

variable {env : EnvId} {e e' e'' : Environment}

theorem of_quiet (h : e.Quiet e') : e.Later gains env e' := by
  cases h with
  | declarative outer call => exact .declarative outer (.inl call)
  | object s => exact .object s
  | global this lexical var =>
    exact .global this (fun name h => .inl (lexical name h)) fun name h => .inl (var name h)

theorem refl (e : Environment) : e.Later gains env e := .of_quiet (.refl e)

theorem trans (h : e.Later gains env e') (h' : e'.Later gains env e'') : e.Later gains env e'' := by
  cases h with
  | declarative outer call =>
    cases h' with
    | declarative outer' call' =>
      refine .declarative (outer'.trans outer) ?_
      rcases call with hcall | hpending
      · rcases call' with hcall' | ⟨slots, hslots, hstatus⟩
        · exact .inl (hcall'.trans hcall)
        · exact .inr ⟨slots, hcall ▸ hslots, hstatus⟩
      · exact .inr hpending
  | object s => exact h'
  | global this lexical var =>
    cases h' with
    | global this' lexical' var' =>
      refine .global (this'.trans this) (fun name h => ?_) fun name h => ?_
      · exact (lexical' name h).elim (lexical name) .inr
      · exact (var' name h).elim (var name) .inr

theorem outer? (h : e.Later gains env e') : e'.outer? = e.outer? := by
  cases h with
  | declarative outer call => exact outer
  | object s => rfl
  | global => rfl

theorem hasThis (h : e.Later gains env e') (hthis : e.hasThis = false) : e'.hasThis = false := by
  cases h with
  | declarative outer call =>
    rcases call with hcall | ⟨slots, hslots, hstatus⟩
    · simpa [Environment.hasThis, DeclarativeRecord.hasThis, hcall] using hthis
    · simp [Environment.hasThis, DeclarativeRecord.hasThis, hslots, hstatus] at hthis
  | object s => rfl
  | global => cases hthis

end Environment.Later

namespace Machine

theorem ThisAt.within {env : EnvId} {v : Value} (h : m.ThisAt env v) : env.Within m.bounds := by
  cases h with
  | global he => exact within_of_env? he
  | call he => exact within_of_env? he
  | outer hpasses =>
    obtain ⟨e, he, -⟩ := hpasses
    exact within_of_env? he

namespace Persists

variable {f : Option ObjectId} {env outer : EnvId} {v : Value}

theorem withContexts (m : Machine) (cs : List Context) : m.Persists gains (m.withContexts cs) :=
  ⟨fun _ _ => id, fun _ e he => ⟨e, he, .refl e⟩⟩

theorem passes (h : m.Persists gains m') (hpasses : m.Passes env outer) : m'.Passes env outer := by
  obtain ⟨e, he, hthis, houter⟩ := hpasses
  obtain ⟨e', he', hlater⟩ := h.environments env e he
  exact ⟨e', he', hlater.hasThis hthis, hlater.outer?.trans houter⟩

/-- What `this` is for an environment stays. -/
theorem thisAt (h : m.Persists gains m') (hthis : m.ThisAt env v) : m'.ThisAt env v := by
  induction hthis with
  | global he =>
    obtain ⟨e', he', hlater⟩ := h.environments _ _ he
    cases hlater with
    | global this lexical var => exact this ▸ .global he'
  | call he hcall hstatus =>
    obtain ⟨e', he', hlater⟩ := h.environments _ _ he
    cases hlater with
    | declarative outer call =>
      rcases call with hsame | ⟨slots, hslots, hpending⟩
      · exact .call he' (hsame.trans hcall) hstatus
      · cases hcall.symm.trans hslots
        rw [hpending] at hstatus
        cases hstatus
  | outer hpasses _ ih => exact .outer (h.passes hpasses) ih

theorem isGlobal (h : m.Persists gains m') (hglobal : m.IsGlobal env) : m'.IsGlobal env := by
  obtain ⟨g, hg⟩ := hglobal
  obtain ⟨e', he', hlater⟩ := h.environments env _ hg
  cases hlater with
  | global => exact ⟨_, he'⟩

theorem isGlobal_of_within (h : m.Persists gains m') (henv : env.Within m.bounds)
    (hglobal : m'.IsGlobal env) : m.IsGlobal env := by
  obtain ⟨g', hg'⟩ := hglobal
  obtain ⟨e, he⟩ := exists_env henv
  obtain ⟨e', he', hlater⟩ := h.environments env e he
  cases hg'.symm.trans he'
  cases hlater with
  | global => exact ⟨_, he⟩

theorem hosts (h : m.Persists gains m') (hf : m.Hosts f env) : m'.Hosts f env where
  this := hf.this.imp fun _ => h.thisAt
  callee o ho := by
    obtain ⟨v, hv⟩ := hf.this
    obtain ⟨hlocal, slots, hslots, harrow⟩ := hf.callee o ho
    refine ⟨fun hglobal => hlocal (h.isGlobal_of_within hv.within hglobal), slots, ?_⟩
    exact ⟨h.closures o slots hslots, fun hlexical => (harrow hlexical).lift id fun _ _ => h.passes⟩

theorem nests (h : m.Persists gains m') (hf : m.Nests f env) : m'.Nests f env where
  this := hf.this.imp fun _ => h.thisAt
  callee o ho := by
    obtain ⟨slots, hslots, harrow⟩ := hf.callee o ho
    exact ⟨slots, h.closures o slots hslots, fun hlexical => (harrow hlexical).lift id fun _ _ => h.passes⟩

theorem trans (h : m.Persists gains m') (h' : m'.Persists gains m'') : m.Persists gains m'' where
  closures o slots ho := h'.closures o slots (h.closures o slots ho)
  environments env e he := by
    obtain ⟨e', he', hfirst⟩ := h.environments env e he
    obtain ⟨e'', he'', hsecond⟩ := h'.environments env e' he'
    exact ⟨e'', he'', hfirst.trans hsecond⟩

end Persists

namespace Extends

theorem of_quiet (h : m.Quiet m') : m.Extends gains m' := by
  have hpersists : m.Persists gains m' := by
    refine ⟨fun o slots ho => (h.closures o).trans ho, fun env e he => ?_⟩
    obtain ⟨e', he', hquiet⟩ := h.environments env e he
    exact ⟨e', he', .of_quiet hquiet⟩
  refine ⟨hpersists, by rw [h.contexts], h.realms, fun env hglobal => ?_⟩
  obtain ⟨g', hg'⟩ := hglobal
  have hwithin : env.index < m.environments.size := h.size ▸ within_of_env? hg'
  exact hpersists.isGlobal_of_within hwithin ⟨g', hg'⟩

@[refl] theorem refl (m : Machine) : m.Extends gains m := .of_quiet (.refl m)

theorem trans (h : m.Extends gains m') (h' : m'.Extends gains m'') : m.Extends gains m'' where
  toPersists := h.toPersists.trans h'.toPersists
  functions := h'.functions.trans h.functions
  realms := h'.realms.trans h.realms
  globals env hglobal := h.globals env (h'.globals env hglobal)

theorem function? (h : m.Extends gains m') : m'.function? = m.function? := by
  have hheads := congrArg List.head? h.functions
  unfold Machine.function?
  cases hm : m.contexts <;> cases hm' : m'.contexts <;> simp_all

theorem contexts_ne_nil (h : m.Extends gains m') (hm : m.contexts ≠ []) : m'.contexts ≠ [] := by
  intro hnil
  have hlength := congrArg List.length h.functions
  simp only [List.length_map, hnil, List.length_nil] at hlength
  exact hm (List.eq_nil_of_length_eq_zero hlength.symm)

end Extends

theorem Hosts.nests {f : Option ObjectId} {env : EnvId} (h : m.Hosts f env) : m.Nests f env where
  this := h.this
  callee o ho := by
    obtain ⟨-, slots, hslots, harrow⟩ := h.callee o ho
    exact ⟨slots, hslots, fun hlexical => (harrow hlexical).to_reflTransGen⟩

theorem Nests.hosts {f : Option ObjectId} {env outer : EnvId} (h : m.Nests f outer)
    (hpasses : m.Passes env outer) (hlocal : ¬ m.IsGlobal env) : m.Hosts f env where
  this := h.this.imp fun _ => .outer hpasses
  callee o ho := by
    obtain ⟨slots, hslots, harrow⟩ := h.callee o ho
    exact ⟨hlocal, slots, hslots, fun hlexical => .head' hpasses (harrow hlexical)⟩

variable {env outer : EnvId}

@[grind →] theorem IsScope.later (h : m.IsScope env) (hm : m.Extends gains m') : m'.IsScope env := by
  unfold IsScope
  rw [hm.function?]
  exact hm.hosts h

@[grind →] theorem IsOuter.later (h : m.IsOuter env) (hm : m.Extends gains m') : m'.IsOuter env := by
  unfold IsOuter
  rw [hm.function?]
  exact hm.nests h

@[grind →] theorem IsLocal.later (h : m.IsLocal env) (hm : m.Extends gains m') : m'.IsLocal env :=
  fun hglobal => h (hm.globals env hglobal)

@[grind →] theorem HasThisAt.later (h : m.HasThisAt env) (hm : m.Extends gains m') :
    m'.HasThisAt env := h.imp fun _ => hm.thisAt

@[grind →] theorem IsScope.isOuter (h : m.IsScope env) : m.IsOuter env := Hosts.nests h

/-- The code of a call is never in a global environment. -/
theorem IsScope.isLocal {o : ObjectId} (h : m.IsScope env) (ho : m.function? = some o) : m.IsLocal env :=
  (h.callee o ho).1

@[grind →] theorem IsScope.hasThisAt (h : m.IsScope env) : m.HasThisAt env := h.this

end Machine

namespace Machine.IsScoped

/-- A later machine is scoped if what is new in it is. -/
theorem later (hm : m.IsScoped) (h : m.Persists gains m') (hrealms : m'.realms = m.realms)
    (hcontexts : ∀ c ∈ m'.contexts, m'.Hosts c.function c.lexicalEnv)
    (hclosures : ∀ o slots, m'.closure? o = some slots → m.closure? o = some slots ∨
      ∃ v, m.ThisAt slots.environment v)
    (houters : ∀ env e' outer, m'.env? env = some e' → e'.outer? = some outer →
      (∃ e, m.env? env = some e ∧ e.outer? = some outer) ∨
        outer.index < env.index ∧ ∃ v, m.ThisAt outer v) : m'.IsScoped where
  contexts := hcontexts
  closures o slots ho := by
    have hthis := (hclosures o slots ho).elim (hm.closures o slots) id
    exact hthis.imp fun _ => h.thisAt
  outers env e' outer he' houter := by
    have hold := (houters env e' outer he' houter).elim
      (fun ⟨e, he, houter⟩ => hm.outers env e outer he houter) id
    exact ⟨hold.1, hold.2.imp fun _ => h.thisAt⟩
  realms id r hr := by
    have hold : m.realm? id = some r := by
      unfold realm? at *
      rwa [hrealms] at hr
    exact h.isGlobal (hm.realms id r hold)

theorem quiet (hm : m.IsScoped) (h : m.Quiet m') : m'.IsScoped := by
  have hlater : m.Extends Growth.none m' := .of_quiet h
  refine hm.later hlater.toPersists hlater.realms (fun c hc => ?_) (fun o slots ho => ?_)
    fun env e' outer he' houter => ?_
  · exact hlater.hosts (hm.contexts c (h.contexts ▸ hc))
  · exact .inl ((h.closures o).symm.trans ho)
  · have hwithin : env.index < m.environments.size := h.size ▸ within_of_env? he'
    obtain ⟨e, he⟩ := exists_env (m := m) hwithin
    obtain ⟨e'', he'', hquiet⟩ := h.environments env e he
    cases he'.symm.trans he''
    have hafter : e.Later Growth.none env e' := .of_quiet hquiet
    exact .inl ⟨e, he, hafter.outer?.symm.trans houter⟩

/-- A new environment. -/
theorem pushEnv_persists (m : Machine) (e : Environment) : m.Persists gains (m.pushEnv e) where
  closures _ _ ho := ho
  environments _ old hold := ⟨old, (env?_pushEnv_of_within (within_of_env? hold)).trans hold, .refl old⟩

theorem pushEnv_extends (m : Machine) {e : Environment} (he : ∀ g, e ≠ .global g) :
    m.Extends gains (m.pushEnv e) where
  toPersists := pushEnv_persists m e
  functions := rfl
  realms := rfl
  globals env hglobal := by
    obtain ⟨g, hg⟩ := hglobal
    rw [env?_pushEnv] at hg
    split at hg
    · exact absurd (Option.some.inj hg) (he g)
    · exact ⟨g, hg⟩

theorem pushEnv (hm : m.IsScoped) {e : Environment}
    (houter : ∀ outer, e.outer? = some outer → ∃ v, m.ThisAt outer v) : (m.pushEnv e).IsScoped := by
  have hlater : m.Persists Growth.none (m.pushEnv e) := pushEnv_persists m e
  refine hm.later hlater rfl (fun c hc => hlater.hosts (hm.contexts c hc)) (fun _ _ => .inl) ?_
  intro env e' outer he' houter'
  rw [env?_pushEnv] at he'
  split at he'
  · rename_i hnew
    cases he'
    obtain ⟨v, hv⟩ := houter outer houter'
    exact .inr ⟨hnew ▸ hv.within, v, hv⟩
  · exact .inl ⟨e', he', houter'⟩

/-- A new function that closes over an environment with a `this`. -/
theorem pushObject_extends (m : Machine) (obj : Object) : m.Extends gains (m.pushObject obj) where
  functions := rfl
  realms := rfl
  closures o slots ho := by
    obtain ⟨old, hold, hslots⟩ := Option.bind_eq_some_iff.mp ho
    rw [closure?, object?_pushObject_of_within obj (within_of_object? hold), hold]
    exact hslots
  environments _ e he := ⟨e, he, .refl e⟩
  globals _ hglobal := hglobal

theorem pushObject (hm : m.IsScoped) {obj : Object}
    (hobj : ∀ slots, obj.closure? = some slots → ∃ v, m.ThisAt slots.environment v) :
    (m.pushObject obj).IsScoped := by
  have hlater : m.Extends Growth.none (m.pushObject obj) := pushObject_extends m obj
  refine hm.later hlater.toPersists hlater.realms (fun c hc => hlater.hosts (hm.contexts c hc)) (fun o slots ho => ?_)
    fun env e outer he houter => .inl ⟨e, he, houter⟩
  unfold closure? at ho
  rw [object?_pushObject] at ho
  split at ho
  · exact .inr (hobj slots ho)
  · exact .inl ho

/-- Other contexts, each with an environment for its code. -/
theorem withContexts (hm : m.IsScoped) {cs : List Context}
    (hcs : ∀ c ∈ cs, m.Hosts c.function c.lexicalEnv) : (m.withContexts cs).IsScoped := by
  have hlater : m.Persists Growth.none (m.withContexts cs) := .withContexts m cs
  exact hm.later hlater rfl (fun c hc => hlater.hosts (hcs c hc)) (fun _ _ => .inl)
    fun env e outer he houter => .inl ⟨e, he, houter⟩

theorem storeEnv_extends {env : EnvId} {e e' : Environment} (he : m.env? env = some e)
    (h : e.Later gains env e') : m.Extends gains (m.storeEnv env e') where
  functions := rfl
  realms := rfl
  closures _ _ ho := ho
  environments env' old hold := by
    rw [env?_storeEnv _ _ _ _ he]
    split
    · subst env'
      cases he.symm.trans hold
      exact ⟨e', rfl, h⟩
    · exact ⟨old, hold, .refl old⟩
  globals env' hglobal := by
    obtain ⟨g, hg⟩ := hglobal
    rw [env?_storeEnv _ _ _ _ he] at hg
    split at hg
    · subst env'
      cases hg
      cases h with
      | global => exact ⟨_, he⟩
    · exact ⟨g, hg⟩

theorem storeEnv (hm : m.IsScoped) {env : EnvId} {e e' : Environment} (he : m.env? env = some e)
    (h : e.Later gains env e') : (m.storeEnv env e').IsScoped := by
  have hlater := storeEnv_extends he h
  refine hm.later hlater.toPersists hlater.realms (fun c hc => hlater.hosts (hm.contexts c hc)) (fun _ _ => .inl) ?_
  intro env' old outer hold houter
  rw [env?_storeEnv _ _ _ _ he] at hold
  split at hold
  · subst env'
    cases hold
    exact .inl ⟨e, he, h.outer?.symm.trans houter⟩
  · exact .inl ⟨old, hold, houter⟩

end Machine.IsScoped

/-- The run leaves a later scoped machine. -/
def Machine.Advances (gains : Growth) (m : Machine) (x : Eval α) : Prop :=
  m.Extends gains (x.after m) ∧ (x.after m).IsScoped

/-- From every later scoped machine the runs do the same, once there is a running context and if what is
left goes on to the final machine, and leave a later scoped machine. -/
def Agree (gains : Growth) (final m₀ : Machine) (x y : Eval α) : Prop :=
  ∀ m, m₀.Extends gains m → m.IsScoped →
    (m.contexts ≠ [] → (x.after m).Persists gains final → y m = x m) ∧ m.Advances gains x

namespace Machine.Advances

variable {x : Eval α} {f : α → Eval β} {env : EnvId}

theorem quiet (hm : m.IsScoped) (h : m.Rests x) : m.Advances gains x := ⟨.of_quiet h, hm.quiet h⟩

theorem of_ok {a : α} (h : x m = .ok a m') (hlater : m.Extends gains m') (hm' : m'.IsScoped) :
    m.Advances gains x := by
  unfold Advances
  rw [Eval.after_ok h]
  exact ⟨hlater, hm'⟩

theorem of_error {e : Abrupt} (h : x m = .error e m') (hlater : m.Extends gains m')
    (hm' : m'.IsScoped) : m.Advances gains x := by
  unfold Advances
  rw [Eval.after_error h]
  exact ⟨hlater, hm'⟩

theorem ok {a : α} (hx : m.Advances gains x) (h : x m = .ok a m') :
    m.Extends gains m' ∧ m'.IsScoped := Eval.after_ok h ▸ hx

theorem error {e : Abrupt} (hx : m.Advances gains x) (h : x m = .error e m') :
    m.Extends gains m' ∧ m'.IsScoped := Eval.after_error h ▸ hx

theorem bind (hx : m.Advances gains x)
    (hf : ∀ a m', x m = .ok a m' → m'.IsScoped → m'.Advances gains (f a)) :
    m.Advances gains (x >>= f) := by
  cases h : x m with
  | error e m' =>
    obtain ⟨hlater, hm'⟩ := hx.error h
    exact .of_error (bind_error h) hlater hm'
  | ok a m' =>
    obtain ⟨hlater, hm'⟩ := hx.ok h
    obtain ⟨hlater', hm''⟩ := hf a m' h hm'
    unfold Advances
    rw [Eval.after_bind_ok h]
    exact ⟨hlater.trans hlater', hm''⟩

/-- What follows the reading of an environment may rely on what was read. -/
theorem load_bind {f : Environment → Eval β} (hm : m.IsScoped)
    (h : ∀ e, m.env? env = some e → m.Advances gains (f e)) :
    m.Advances gains (liftM env.load >>= f) := by
  refine .bind (.quiet hm (Eval.Quiet.lift _ m)) fun e m' hload _ => ?_
  obtain ⟨rfl, hload⟩ := lift_eq_ok hload
  exact h e (EnvId.load_ok hload)

/-- What follows the result of an operation on a record may rely on its success. -/
theorem settle_bind {result : Except Failure α} (hm : m.IsScoped)
    (h : ∀ a, result = .ok a → m.Advances gains (f a)) : m.Advances gains (settle result >>= f) := by
  refine .bind (.quiet hm (Eval.Quiet.settle result m)) fun a m' hrun _ => ?_
  obtain ⟨hok, rfl⟩ := settle_eq_ok hrun
  exact h a hok

theorem store {e e' : Environment} (hm : m.IsScoped) (he : m.env? env = some e)
    (h : e.Later gains env e') : m.Advances gains (env.store e') :=
  .of_ok (EnvId.store_eq (within_of_env? he) e') (IsScoped.storeEnv_extends he h) (hm.storeEnv he h)

end Machine.Advances

namespace Agree

variable {final m₀ : Machine} {x x' : Eval α} {f f' : α → Eval β}

theorem of_advances (h : ∀ m, m₀.Extends gains m → m.IsScoped → m.Advances gains x) :
    Agree gains final m₀ x x := fun m hm hscoped => ⟨fun _ _ => rfl, h m hm hscoped⟩

@[grind ←] theorem quiet (h : x.Quiet) : Agree gains final m₀ x x := .of_advances fun m _ hm => .quiet hm (h m)

@[grind ←] theorem pure (a : α) : Agree gains final m₀ (pure a) (pure a) := .quiet (.pure a)

/-- What follows a run may rely on what it gave on some later machine. -/
theorem bind_of (hx : Agree gains final m₀ x x')
    (hf : ∀ a m m₁, m₀.Extends gains m → m.IsScoped → x m = .ok a m₁ → m₁.IsScoped →
      Agree gains final m₁ (f a) (f' a)) : Agree gains final m₀ (x >>= f) (x' >>= f') := by
  intro m h hm
  obtain ⟨hsame, hadvances⟩ := hx m h hm
  refine ⟨fun hc hfinal => ?_, hadvances.bind fun a m₁ hrun hm₁ => ?_⟩
  · cases hrun : x m with
    | error e m₁ =>
      rw [Eval.after_error (bind_error hrun), ← Eval.after_error hrun] at hfinal
      rw [bind_error hrun, bind_error ((hsame hc hfinal).trans hrun)]
    | ok a m₁ =>
      rw [Eval.after_bind_ok hrun] at hfinal
      obtain ⟨hlater, hm₁⟩ := hadvances.ok hrun
      obtain ⟨hrest, hlater₁, -⟩ := hf a m m₁ h hm hrun hm₁ m₁ (.refl m₁) hm₁
      -- by way of the second run the machine between the two goes on to the final one
      have hfirst : (x.after m).Persists gains final := Eval.after_ok hrun ▸ hlater₁.toPersists.trans hfinal
      rw [bind_ok hrun, bind_ok ((hsame hc hfirst).trans hrun)]
      exact hrest (hlater.contexts_ne_nil hc) hfinal
  · exact (hf a m m₁ h hm hrun hm₁ m₁ (.refl m₁) hm₁).2

@[grind ←] theorem bind (hx : Agree gains final m₀ x x')
    (hf : ∀ m₁ a, m₀.Extends gains m₁ → Agree gains final m₁ (f a) (f' a)) :
    Agree gains final m₀ (x >>= f) (x' >>= f') := by
  refine bind_of hx fun a m m₁ h hm hrun _ => hf m₁ a (h.trans ?_)
  exact ((hx m h hm).2.ok hrun).1

@[grind ←] theorem discard (hx : Agree gains final m₀ x x') :
    Agree gains final m₀ (discard x) (discard x') := by
  rw [discard_eq, discard_eq]
  exact .bind hx fun _ _ _ => .pure _

theorem forM {g g' : γ → Eval PUnit} {l : List γ}
    (h : ∀ a ∈ l, ∀ m₁, m₀.Extends gains m₁ → Agree gains final m₁ (g a) (g' a)) :
    Agree gains final m₀ (l.forM g) (l.forM g') := by
  induction l generalizing m₀ with
  | nil => exact .pure _
  | cons a l ih =>
    refine .bind (h a List.mem_cons_self m₀ (.refl m₀)) fun m₁ _ h₁ => ih fun b hb m₂ h₂ => ?_
    exact h b (List.mem_cons_of_mem a hb) m₂ (h₁.trans h₂)

@[grind ←] theorem completing {x x' : Eval Completion} (hx : Agree gains final m₀ x x') :
    Agree gains final m₀ (completing x) (completing x') := by
  intro m h hm
  obtain ⟨hsame, hadvances⟩ := hx m h hm
  unfold Machine.Advances
  rw [completing_after]
  refine ⟨fun hc hfinal => ?_, hadvances⟩
  unfold EcmaEval.completing
  rw [hsame hc hfinal]

theorem tryFinally {y y' : Eval β} (hx : Agree gains final m₀ x x')
    (hy : ∀ m₁, m₀.Extends gains m₁ → Agree gains final m₁ y y') :
    Agree gains final m₀ (tryFinally x y) (tryFinally x' y') := by
  intro m h hm
  obtain ⟨hsame, hlater, hscoped⟩ := hx m h hm
  obtain ⟨hsame₁, hlater₁, hscoped₁⟩ := hy _ (h.trans hlater) _ (.refl _) hscoped
  unfold Machine.Advances
  rw [Eval.after_tryFinally]
  refine ⟨fun hc hfinal => ?_, hlater.trans hlater₁, hscoped₁⟩
  rw [tryFinally_eq, tryFinally_eq, hsame hc (hlater₁.toPersists.trans hfinal)]
  have hsame₁ := hsame₁ (hlater.contexts_ne_nil hc) hfinal
  unfold Eval.after at hsame₁
  cases hrun : x m with
  | ok a m' =>
    rw [hrun] at hsame₁
    simp only [hsame₁]
  | error e m' =>
    rw [hrun] at hsame₁
    simp only [hsame₁]

@[grind ←] theorem lexicalEnv_bind {f f' : EnvId → Eval β}
    (hf : ∀ m₁ env, m₀.Extends gains m₁ → m₁.IsScope env → Agree gains final m₁ (f env) (f' env)) :
    Agree gains final m₀ (liftM lexicalEnv >>= f) (liftM lexicalEnv >>= f') := by
  refine .bind_of (.quiet (.lift _)) fun env m m₁ h hm hrun _ => ?_
  obtain ⟨rfl, hlexical⟩ := lift_eq_ok hrun
  cases hc : m₁.contexts with
  | nil =>
    rw [lexicalEnv_nil hc] at hlexical
    cases hlexical
  | cons c cs =>
    rw [lexicalEnv_cons hc] at hlexical
    cases hlexical
    refine hf m₁ _ h ?_
    have hfunction : m₁.function? = c.function := by simp [Machine.function?, hc]
    unfold Machine.IsScope
    rw [hfunction]
    exact hm.contexts c (hc ▸ List.mem_cons_self)

/-- A new environment in an outer one. -/
theorem allocateEnvironment_bind {e : Environment} {outer : EnvId} {f f' : EnvId → Eval β}
    (hthis : e.hasThis = false) (houter : e.outer? = some outer) (ho : m₀.IsOuter outer)
    (hf : ∀ m₁ env, m₀.Extends gains m₁ → m₁.IsScope env → m₁.IsLocal env →
      Agree gains final m₁ (f env) (f' env)) :
    Agree gains final m₀ (allocateEnvironment e >>= f) (allocateEnvironment e >>= f') := by
  have he (g : GlobalRecord) : e ≠ .global g := by
    rintro rfl
    cases hthis
  have hnew : Agree gains final m₀ (allocateEnvironment e) (allocateEnvironment e) := by
    refine .of_advances fun m h hm => .of_ok rfl (Machine.IsScoped.pushEnv_extends m he) ?_
    refine hm.pushEnv fun outer' houter' => ?_
    cases houter.symm.trans houter'
    exact (ho.later h).this
  refine .bind_of hnew fun env m m₁ h hm hrun _ => ?_
  cases hrun
  have hlater : m.Extends gains (m.pushEnv e) := Machine.IsScoped.pushEnv_extends m he
  have ho' : (m.pushEnv e).IsOuter outer := (ho.later h).later hlater
  have hself : (m.pushEnv e).env? ⟨m.environments.size⟩ = some e := by simp [Machine.env?_pushEnv]
  have hlocal : (m.pushEnv e).IsLocal ⟨m.environments.size⟩ := by
    rintro ⟨g, hg⟩
    exact he g (Option.some.inj (hself.symm.trans hg))
  exact hf _ _ (h.trans hlater) (Machine.Nests.hosts ho' ⟨e, hself, hthis, houter⟩ hlocal) hlocal

@[grind ←] theorem newDeclarativeEnvironment_bind {outer : EnvId} {f f' : EnvId → Eval β} (ho : m₀.IsOuter outer)
    (hf : ∀ m₁ env, m₀.Extends gains m₁ → m₁.IsScope env → m₁.IsLocal env →
      Agree gains final m₁ (f env) (f' env)) :
    Agree gains final m₀ (newDeclarativeEnvironment (some outer) >>= f)
      (newDeclarativeEnvironment (some outer) >>= f') :=
  allocateEnvironment_bind rfl rfl ho hf

@[grind ←] theorem newObjectEnvironment_bind {outer : EnvId} {f f' : EnvId → Eval β} (ho : m₀.IsOuter outer)
    (o : ObjectId) (isWith : Bool)
    (hf : ∀ m₁ env, m₀.Extends gains m₁ → m₁.IsScope env → m₁.IsLocal env →
      Agree gains final m₁ (f env) (f' env)) :
    Agree gains final m₀ (newObjectEnvironment o isWith (some outer) >>= f)
      (newObjectEnvironment o isWith (some outer) >>= f') :=
  allocateEnvironment_bind rfl rfl ho hf

/-- A change of the running context that leaves it in an environment for its code. -/
theorem modifyContext {g : Context → Context} (hfunction : ∀ c, (g c).function = c.function)
    (henv : ∀ (m : Machine) c, m₀.Extends gains m → m.Hosts m.function? c.lexicalEnv →
      m.Hosts m.function? (g c).lexicalEnv) :
    Agree gains final m₀ (modifyContext g) (modifyContext g) := by
  refine .of_advances fun m h hm => ?_
  cases hc : m.contexts with
  | nil => exact .of_error (modifyContext_nil hc g) (.refl m) hm
  | cons c cs =>
    have hrunning : m.function? = c.function := by simp [Machine.function?, hc]
    refine .of_ok (modifyContext_cons hc g) ?_ ?_
    · exact ⟨.withContexts m (g c :: cs), by simp [hc, hfunction], rfl, fun _ => id⟩
    · have hcs : ∀ d ∈ g c :: cs, m.Hosts d.function d.lexicalEnv := by
        intro d hd
        rcases List.mem_cons.mp hd with rfl | hd
        · rw [hfunction, ← hrunning]
          exact henv m c h (hrunning ▸ hm.contexts c (hc ▸ List.mem_cons_self))
        · exact hm.contexts d (hc ▸ List.mem_cons_of_mem c hd)
      exact hm.withContexts hcs

@[grind ←] theorem setLexicalEnv {env : EnvId} (henv : m₀.IsScope env) :
    Agree gains final m₀ (setLexicalEnv env) (setLexicalEnv env) :=
  .modifyContext (fun _ => rfl) fun _ _ h _ => henv.later h

@[grind ←] theorem withLexicalEnv {env : EnvId} (henv : m₀.IsScope env)
    (hx : ∀ m₁, m₀.Extends gains m₁ → Agree gains final m₁ x x') :
    Agree gains final m₀ (withLexicalEnv env x) (withLexicalEnv env x') := by
  refine .lexicalEnv_bind fun m₁ old h₁ hold => ?_
  refine .bind (.setLexicalEnv (henv.later h₁)) fun m₂ _ h₂ => ?_
  exact .tryFinally (hx m₂ (h₁.trans h₂)) fun m₃ h₃ => .setLexicalEnv ((hold.later h₂).later h₃)

end Agree

end EcmaEval
