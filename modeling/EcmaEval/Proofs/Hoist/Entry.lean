import EcmaEval.Proofs.Hoist.Frame
import EcmaEval.Proofs.Scope.Entry

/-!
# Entering a function with any parameters

Before the body of a function runs, its variable environment has a binding of every name that the body
declares with `var` or as a function, whatever the parameters are. Without expressions among them the names
that the call takes for itself, those of the parameters and of the arguments object, are bound first and the
others after them in the same environment. With expressions all of them are bound in an environment of their
own. The scope in which the body starts is the variable environment or nested in it.
-/
namespace EcmaEval

variable {m m' : Machine} {env : EnvId} {name : String} {c : Context} {cs : List Context}

/-- The environment holds declarative bindings. -/
def Machine.HasRecord (m : Machine) (env : EnvId) : Prop := ∃ r, m.record? env = some r

theorem Machine.HasRecord.later (h : m.HasRecord env) (hm : m.Changes m') : m'.HasRecord env := by
  obtain ⟨r, hr⟩ := h
  obtain ⟨r', hr', -⟩ := hm.record? hr
  exact ⟨r', hr'⟩

/-- A run that succeeds leaves the name bound in the environment, to stay. -/
def Eval.Secures (x : Eval α) (env : EnvId) (name : String) : Prop :=
  ∀ m a m', m.HasRecord env → x m = .ok a m' → m'.Retains env name

namespace Eval.Secures

variable {x : Eval α} {f : α → Eval β}

theorem first (hx : x.Secures env name) (hf : ∀ a, (f a).Proceeds) : Eval.Secures (x >>= f) env name := by
  intro m b m' henv h
  obtain ⟨a, m₁, hfirst, hrest⟩ := bind_eq_ok h
  exact ((hf a).changes_ok hrest).retains (hx m a m₁ henv hfirst)

theorem second (hx : x.Proceeds) (hf : ∀ a, (f a).Secures env name) : Eval.Secures (x >>= f) env name := by
  intro m b m' henv h
  obtain ⟨a, m₁, hfirst, hrest⟩ := bind_eq_ok h
  exact hf a m₁ b m' (henv.later (hx.changes_ok hfirst)) hrest

theorem forM {g : γ → Eval PUnit} {l : List γ} {a : γ} (ha : a ∈ l) (hg : (g a).Secures env name)
    (hproceeds : ∀ b, (g b).Proceeds) : Eval.Secures (l.forM g) env name := by
  induction l with
  | nil => cases ha
  | cons b l ih =>
    rcases List.mem_cons.mp ha with rfl | ha
    · exact .first hg fun _ => .forM hproceeds l
    · exact .second (hproceeds b) fun _ => ih ha

end Eval.Secures

/-- A new binding that is not deletable stays. -/
theorem Machine.retains_create {e : Environment} {r r' : DeclarativeRecord} {isMutable strict : Bool}
    (he : m.env? env = some e) (hr : e.record? = some r) (h : r.create name isMutable false strict = .ok r') :
    (m.storeEnv env (e.withRecord r')).Retains env name := by
  obtain ⟨-, rfl⟩ := DeclarativeRecord.create_ok h
  exact ⟨_, _, EnvId.record?_storeEnv he hr _, by rw [DeclarativeRecord.get?_cons, if_pos rfl], rfl⟩

namespace EnvId

/-- Mutable or not, a new binding of an environment with a record stays. -/
theorem create_secures (env : EnvId) (name : String) (isMutable strict : Bool) (inObject : ObjectScope → Eval Unit) :
    Eval.Secures (do
      match ← env.load with
      | .declarative r => env.store (.declarative (← settle (r.create name isMutable false strict)))
      | .object s => inObject s
      | .global g =>
        if g.declarative.has name then complain (.alreadyDeclared name)
        else
          let declarative ← settle (g.declarative.create name isMutable false strict)
          env.store (.global { g with declarative })) env name := by
  intro m _ m' ⟨r, hr⟩ h
  obtain ⟨e, he, hr⟩ := Machine.record?_some hr
  rw [bind_ok (lift_ok (load_eq he))] at h
  cases e with
  | object s => cases hr
  | declarative r =>
    obtain ⟨r', m₁, hsettle, hstore⟩ := bind_eq_ok h
    obtain ⟨hcreate, rfl⟩ := settle_eq_ok hsettle
    cases (store_eq (Machine.within_of_env? he) _).symm.trans hstore
    exact Machine.retains_create he rfl hcreate
  | global g =>
    dsimp only at h
    split at h
    · exact absurd h complain_ne_ok
    · obtain ⟨r', m₁, hsettle, hstore⟩ := bind_eq_ok h
      obtain ⟨hcreate, rfl⟩ := settle_eq_ok hsettle
      cases (store_eq (Machine.within_of_env? he) _).symm.trans hstore
      exact Machine.retains_create he rfl hcreate

theorem createMutable_secures (env : EnvId) (name : String) : (env.createMutable name false).Secures env name :=
  create_secures env name true false (·.createMutable name false)

theorem createImmutable_secures (env : EnvId) (name : String) (strict : Bool) :
    (env.createImmutable name strict).Secures env name :=
  create_secures env name false strict fun _ => breach .immutableInObject

end EnvId

/-- Each of the variables stays. -/
theorem declareInitialized_secures {initial : String → Eval Value} (hinitial : ∀ n, (initial n).Proceeds)
    {names : List String} (hname : name ∈ names) :
    (declareInitialized env initial names).Secures env name := by
  have hvalue (n : String) : (do env.initBinding n (← initial n) : Eval Unit).Proceeds :=
    .bind (hinitial n) fun v => by grind
  refine .forM hname ?_ fun n => .bind (by grind) fun _ => hvalue n
  exact .first (env.createMutable_secures name) fun _ => hvalue name

namespace Evaluator

variable {ev : Evaluator} {f : ObjectId} {slots : FunctionSlots} {arguments : List Value} {varEnv : EnvId}

theorem bindArguments_secures : (bindArguments f slots env arguments).Secures env "arguments" := by
  have hinit (o : ObjectId) : (env.initBinding "arguments" (.object o)).Proceeds := by grind
  refine .second (by grind) fun o => ?_
  split
  · exact .first (env.createImmutable_secures _ _) fun _ => hinit o
  · exact .first (env.createMutable_secures _) fun _ => hinit o

/-- The names that the call takes for itself are bound in its environment. -/
theorem bindCall_retains {r : DeclarativeRecord} (hev : ev.StaysIn .whole) (he : m.env? env = some (.declarative r))
    (hempty : r.bindings = []) (h : ev.bindCall f slots env arguments m = .ok () m')
    (hname : name ∈ callNames slots) : m'.Retains env name := by
  have hdeclares : r.Declares [] (repeatsParameter slots) :=
    ⟨nofun, fun n _ => by simp [DeclarativeRecord.get?, hempty]⟩
  obtain ⟨r₁, hacts, -, hdeclares₁, -⟩ := declareParameters_acts (g := Contract.handles) env
    (repeatsParameter slots) (Parameters.names slots.code.parameters) hdeclares
  have he₁ := Machine.env?_storeEnv_self he (.declarative r₁)
  let rest : Eval Unit := do
    if needsArguments slots then bindArguments f slots env arguments
    ev.bindParameters (if repeatsParameter slots then none else some env) slots.code.parameters arguments
  have hparameters (env : Option EnvId) :=
    bindParameters_stays hev (holds_of_isFree env) slots.code.parameters (holds_of_isFree arguments)
  have hrest : rest (m.storeEnv env (.declarative r₁)) = .ok () m' := (bind_ok (hacts m he)).symm.trans h
  rcases mem_callNames.mp hname with hparameter | ⟨hneeds, rfl⟩
  · have hproceeds : rest.Proceeds := by grind
    obtain ⟨v, hv, -⟩ := hdeclares₁.bound name (by simpa using hparameter)
    exact (hproceeds.changes_ok hrest).retains ⟨r₁, _, Machine.record?_eq he₁, hv, rfl⟩
  · have hsecures : rest.Secures env "arguments" := by
      change Eval.Secures (if needsArguments slots then _ else _) env "arguments"
      rw [if_pos hneeds]
      exact .first bindArguments_secures fun _ => .of_whole (hparameters _)
    exact hsecures _ _ _ ⟨r₁, Machine.record?_eq he₁⟩ hrest

/-- The variables of the body are bound in the environment that becomes that of the running context. -/
theorem bindVariables_ok (hm : m.contexts = c :: cs) (henv : env.Within m.bounds)
    (hplain : Parameters.containsExpression slots.code.parameters = false →
      c.variableEnv = env ∧ m.HasRecord env ∧ ∀ name ∈ callNames slots, m.Retains env name)
    (h : bindVariables slots env (callNames slots) m = .ok varEnv m') :
    m'.contexts = { c with variableEnv := varEnv } :: cs ∧ varEnv.Within m'.bounds ∧
      (varEnv = env ∨ m.env? varEnv = none) ∧
      ∀ name ∈ Body.varNames slots.code.statements, m'.Retains varEnv name := by
  have hproceeds : (bindVariables slots env (callNames slots)).Proceeds := by grind
  have hchanges := hproceeds.changes_ok h
  unfold bindVariables at h
  dsimp only at h
  -- Without expressions among the parameters the variables are those of the call itself; with one they
  -- get an environment of their own, whose variables start with the values of the parameters.
  cases hexpression : Parameters.containsExpression slots.code.parameters with
  | false =>
    obtain ⟨rfl, hrecord, hcalled⟩ := hplain hexpression
    rw [hexpression] at h
    obtain ⟨u, m₁, hdeclare, hreturn⟩ := bind_eq_ok h
    cases hreturn
    have hkeeps (names : List String) := (declareInitialized_stays (R := .inFrame) trivial
      (holds_of_isFree c.variableEnv) (fun _ => .pure (holds_of_isFree Value.undefined)) names).keepsStack
    refine ⟨((hkeeps _).of_ok hdeclare).trans hm, hchanges.within henv, .inl rfl, fun name hname => ?_⟩
    by_cases hcall : name ∈ callNames slots
    · exact hchanges.retains (hcalled name hcall)
    · have hrest : name ∈ ((Body.varNames slots.code.statements).filter
          (!(callNames slots).contains ·)).eraseDups :=
        List.mem_eraseDups.mpr (List.mem_filter.mpr ⟨hname, by simpa using hcall⟩)
      exact declareInitialized_secures (fun _ => .pure _) hrest m _ _ hrecord hdeclare
  | true =>
    rw [hexpression] at h
    let e : Environment := .declarative { outer := some env }
    let inner : EnvId := ⟨m.environments.size⟩
    have hself : (m.pushEnv e).env? inner = some e := by simp [Machine.env?_pushEnv, inner]
    obtain ⟨_, m₁, hnew, h₁⟩ := bind_eq_ok h
    cases hnew
    obtain ⟨_, m₂, hmodify, h₂⟩ := bind_eq_ok h₁
    cases (modifyContext_cons (m := m.pushEnv e) hm _).symm.trans hmodify
    obtain ⟨_, m₃, hdeclare, hreturn⟩ := bind_eq_ok h₂
    cases hreturn
    have hrecord : Machine.HasRecord ((m.pushEnv e).withContexts ({ c with variableEnv := inner } :: cs)) inner :=
      ⟨_, Machine.record?_eq hself⟩
    have hshadow (name : String) := shadowedValue_stays (R := .inFrame) (holds_of_isFree env)
      (callNames slots) ((Body.functions slots.code.statements).map (·.bindingName)) name
    have hdeclares (names : List String) := declareInitialized_stays trivial (holds_of_isFree inner) hshadow names
    have hproceeds (names : List String) := Eval.Proceeds.of_stays (hdeclares names)
    refine ⟨(hdeclares _).keepsStack.of_ok hdeclare, ?_, .inr ?_, fun name hname => ?_⟩
    · exact ((hproceeds _).changes_ok hdeclare).within (Machine.within_of_env? hself)
    · exact Array.getElem?_eq_none (Nat.le_refl _)
    · exact declareInitialized_secures (fun n => .of_stays (hshadow n))
        (List.mem_eraseDups.mpr hname) _ _ _ hrecord hdeclare

/-- The body starts in the variable environment or in a scope nested in it. -/
theorem enterBody_ok (hm : m.contexts = c :: cs) (hwithin : varEnv.Within m.bounds)
    (h : enterBody slots varEnv m = .ok () m') :
    ∃ lexEnv, m'.contexts = { c with lexicalEnv := lexEnv } :: cs ∧ m'.Inside lexEnv varEnv := by
  have henter {m : Machine} (hm : m.contexts = c :: cs) {lexEnv : EnvId} (hinside : m.Inside lexEnv varEnv)
      (h : (do
        setLexicalEnv lexEnv
        declareLexical lexEnv (Body.lexicallyScoped slots.code.statements true)
        bindFunctions slots lexEnv varEnv : Eval Unit) m = .ok () m') :
      ∃ lexEnv, m'.contexts = { c with lexicalEnv := lexEnv } :: cs ∧ m'.Inside lexEnv varEnv := by
    obtain ⟨_, m₁, hset, hrest⟩ := bind_eq_ok h
    cases (modifyContext_cons hm _).symm.trans hset
    have hstays : Eval.StaysIn .inFrame (do
        declareLexical lexEnv (Body.lexicallyScoped slots.code.statements true)
        bindFunctions slots lexEnv varEnv) Remit.inFrame.Holds := by grind
    have hproceeds := Eval.Proceeds.of_stays hstays
    exact ⟨lexEnv, hstays.keepsStack.of_ok hrest, (hproceeds.changes_ok hrest).inside hinside⟩
  unfold enterBody at h
  cases hstrict : slots.strict with
  | true =>
    rw [hstrict] at h
    exact henter hm .refl h
  | false =>
    rw [hstrict] at h
    let e : Environment := .declarative { outer := some varEnv }
    have hinner : (m.pushEnv e).IsInner ⟨m.environments.size⟩ varEnv := Machine.pushEnv_isInner rfl hwithin
    exact henter (m := m.pushEnv e) hm (.single hinner) h

/-- The environment of the parameters is that of the call, or with expressions it may be a new one. -/
theorem parameterEnv_ok (hm : m.contexts = c :: cs) (hwithin : c.lexicalEnv.Within m.bounds)
    (h : parameterEnv slots m = .ok env m') :
    m'.contexts = { c with lexicalEnv := env } :: cs ∧ env.Within m'.bounds ∧
      (env = c.lexicalEnv ∧ m' = m ∨
        Parameters.containsExpression slots.code.parameters = true ∧ m.env? env = none) := by
  unfold parameterEnv at h
  rw [bind_ok (lift_ok (lexicalEnv_cons hm))] at h
  split at h
  · cases h
    exact ⟨hm, hwithin, .inl ⟨rfl, rfl⟩⟩
  · rename_i hcondition
    let e : Environment := .declarative { outer := some c.lexicalEnv }
    have hself : (m.pushEnv e).env? ⟨m.environments.size⟩ = some e := by simp [Machine.env?_pushEnv]
    obtain ⟨_, m₁, hnew, h₁⟩ := bind_eq_ok h
    cases hnew
    obtain ⟨_, m₂, hset, h₂⟩ := bind_eq_ok h₁
    cases (modifyContext_cons (m := m.pushEnv e) hm _).symm.trans hset
    cases h₂
    have hexpression : Parameters.containsExpression slots.code.parameters = true := by
      simp only [Bool.or_eq_true, not_or, Bool.not_eq_true'] at hcondition
      simpa using hcondition.2
    exact ⟨rfl, Machine.within_of_env? hself, .inr ⟨hexpression, Array.getElem?_eq_none (Nat.le_refl _)⟩⟩

/-- **The variables of a function are in place when its body starts.** Entering a function in an environment
without bindings leaves a frame with its names, whose variable environment is that of the call or a new one. -/
theorem instantiateFunction_holds {r : DeclarativeRecord} (hrestores : ev.Restores) (hev : ev.StaysIn .whole)
    (hm : m.contexts = c :: cs) (hvariable : c.variableEnv = c.lexicalEnv)
    (he : m.env? c.lexicalEnv = some (.declarative r)) (hempty : r.bindings = [])
    (h : ev.instantiateFunction f slots arguments m = .ok () m') :
    ∃ varEnv c', Frame.Runs ⟨cs, varEnv, Body.varNames slots.code.statements⟩ m' c' ∧
      Frame.Holds ⟨cs, varEnv, Body.varNames slots.code.statements⟩ False m' ∧
      (varEnv = c.lexicalEnv ∨ m.env? varEnv = none) := by
  obtain ⟨env, m₁, hparameters, h₁⟩ := bind_eq_ok h
  obtain ⟨u, m₂, hcall, h₂⟩ := bind_eq_ok h₁
  obtain ⟨varEnv, m₃, hvariables, henter⟩ := bind_eq_ok h₂
  obtain ⟨hm₁, henv, hcases⟩ := parameterEnv_ok hm (Machine.within_of_env? he) hparameters
  have hm₂ := ((bindCall_keepsStack hrestores f slots env arguments).of_ok hcall).trans hm₁
  have hproceeds₁ : (parameterEnv slots).Proceeds := by grind
  have hproceeds₂ : (ev.bindCall f slots env arguments).Proceeds :=
    .of_whole (bindCall_stays hev (by grind) slots (by grind) (by grind))
  have hproceeds₃ : (enterBody slots varEnv).Proceeds := by grind
  have hchanges₁ : m.Changes m₁ := hproceeds₁.changes_ok hparameters
  have hchanges₂ : m₁.Changes m₂ := hproceeds₂.changes_ok hcall
  have hchanges₃ := hproceeds₃.changes_ok henter
  obtain ⟨hm₃, hwithin, hnew, hretains⟩ := bindVariables_ok hm₂ (hchanges₂.within henv) (fun hplain => by
    obtain ⟨rfl, rfl⟩ | ⟨hexpression, -⟩ := hcases
    · refine ⟨hvariable, ?_, fun name hname => bindCall_retains hev he hempty hcall hname⟩
      exact Machine.HasRecord.later ⟨r, Machine.record?_eq he⟩ hchanges₂
    · exact absurd hexpression (by simp [hplain])) hvariables
  obtain ⟨lexEnv, hm', hinside⟩ := enterBody_ok hm₃ hwithin henter
  have hruns : Frame.Runs ⟨cs, varEnv, Body.varNames slots.code.statements⟩ m' _ := ⟨hm', rfl, hinside⟩
  refine ⟨varEnv, _, hruns, hruns.holds (hchanges₃.within hwithin) fun name hname =>
    hchanges₃.retains (hretains name hname), ?_⟩
  obtain rfl | hfresh := hnew
  · exact hcases.imp And.left And.right
  · exact .inr (hchanges₁.env?_eq_none (hchanges₂.env?_eq_none hfresh))

end Evaluator

end EcmaEval
