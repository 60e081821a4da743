import EcmaEval.Proofs.Host.Declare
import EcmaEval.Proofs.Scope.Body

/-!
# The names a call starts with

Before its body runs, a call of a function whose parameters are identifiers binds what its code declares.
That never fails and evaluates no expression. Parameters have their arguments, of repeated names the last;
functions are made and hide parameters; other variables are undefined; block-scoped names wait.
-/
namespace EcmaEval

variable {m m' n n' : Machine} {c : Context} {cs : List Context} {r : DeclarativeRecord} {name : String}
  {slots : FunctionSlots} {arguments : List Value} {f : ObjectId} {thisValue newTarget : Value}

/-- The context in which a function runs. -/
def FunctionSlots.callContext (slots : FunctionSlots) (f : ObjectId) (env : EnvId) : Context where
  realm := slots.realm
  function := some f
  lexicalEnv := env
  variableEnv := env
  privateEnv := slots.privateEnv
  labels := []
  strict := slots.strict

/-- Makes everything ready for the body of a function. -/
def prepareCall (f : ObjectId) (slots : FunctionSlots) (thisValue newTarget : Value) : Eval Unit := do
  let env ← newFunctionEnvironment f newTarget
  pushContext (slots.callContext f env)
  bindCallThis slots thisValue

/-- A function runs its body on the machine that is ready for it, and its context is gone afterwards. -/
theorem Evaluator.runFunction_eq (ev : Evaluator) (arguments : List Value)
    (h : prepareCall f slots thisValue newTarget m = .ok () n) :
    ev.runFunction f slots thisValue arguments newTarget m =
      match ev.functionBody f slots arguments n with
      | .ok a m' => .ok a m'.popped
      | .error e m' => .error e m'.popped := by
  obtain ⟨env, m₁, henv, h⟩ := bind_eq_ok h
  obtain ⟨u, m₂, hpush, hthis⟩ := bind_eq_ok h
  obtain ⟨hroom, rfl⟩ := pushContext_eq_ok hpush
  refine (bind_ok henv).trans ((withContext_eq _ _ hroom).trans ?_)
  unfold FunctionSlots.callContext at hthis
  rw [bind_ok hthis]
  cases ev.functionBody f slots arguments n <;> rfl

theorem EnvId.getThis_ok {env : EnvId} {v : Value} (h : env.getThis m = .ok v m') : m' = m := by
  obtain ⟨e, m₁, hload, h⟩ := bind_eq_ok h
  obtain ⟨rfl, -⟩ := lift_eq_ok hload
  cases e with
  | object s => cases h
  | global g =>
    cases h
    rfl
  | declarative r =>
    obtain ⟨outer, bindings, call⟩ := r
    cases call with
    | none => cases h
    | some call =>
      cases hstatus : call.thisStatus with
      | initialized =>
        simp only [hstatus] at h
        cases h
        rfl
      | uninitialized =>
        simp only [hstatus] at h
        exact absurd h complain_ne_ok
      | lexical =>
        simp only [hstatus] at h
        cases h

theorem Value.toObject_ok {v : Value} {o : ObjectId} (h : v.toObject m = .ok o m') : m' = m := by
  cases v with
  | object o =>
    cases h
    rfl
  | undefined | null => exact absurd h complain_ne_ok
  | _ => cases h

theorem EnvId.bindThis_ok {env : EnvId} {value : Value} (he : m.env? env = some (.declarative r))
    (h : env.bindThis value m = .ok () m') :
    ∃ call, m' = m.storeEnv env (.declarative { r with call }) := by
  unfold bindThis at h
  rw [bind_ok (lift_ok (EnvId.load_eq he))] at h
  obtain ⟨outer, bindings, call⟩ := r
  cases call with
  | none => cases h
  | some call =>
    cases hstatus : call.thisStatus with
    | lexical =>
      simp only [hstatus] at h
      cases h
    | initialized =>
      simp only [hstatus] at h
      exact absurd h complain_ne_ok
    | uninitialized =>
      simp only [hstatus] at h
      cases (EnvId.store_eq (Machine.within_of_env? he) _).symm.trans h
      exact ⟨_, rfl⟩

/-- Setting `this` changes nothing but the call that an environment belongs to. -/
theorem bindCallThis_ok (hm : m.contexts = c :: cs) (he : m.env? c.lexicalEnv = some (.declarative r))
    (h : bindCallThis slots thisValue m = .ok () m') :
    ∃ call, m' = m.storeEnv c.lexicalEnv (.declarative { r with call }) := by
  have hbind {value : Value} (h : (do (← lexicalEnv).bindThis value : Eval Unit) m = .ok () m') :
      ∃ call, m' = m.storeEnv c.lexicalEnv (.declarative { r with call }) := by
    rw [bind_ok (lift_ok (lexicalEnv_cons hm))] at h
    exact EnvId.bindThis_ok he h
  unfold bindCallThis at h
  cases hmode : slots.thisMode with
  | lexical =>
    rw [hmode] at h
    cases h
    exact ⟨r.call, (Machine.storeEnv_self he).symm⟩
  | strict =>
    rw [hmode] at h
    exact hbind h
  | global =>
    rw [hmode] at h
    dsimp only at h
    split at h
    · obtain ⟨realm, m₁, hload, h₁⟩ := bind_eq_ok h
      obtain ⟨rfl, -⟩ := lift_eq_ok hload
      obtain ⟨value, m₂, hvalue, h₂⟩ := bind_eq_ok h₁
      obtain rfl := EnvId.getThis_ok hvalue
      exact hbind h₂
    · obtain ⟨o, m₁, hobject, h₁⟩ := bind_eq_ok h
      obtain rfl := Value.toObject_ok hobject
      exact hbind h₁

/-- A machine that is ready for the body of a function has its context on the stack and an environment
without bindings for it. -/
structure FunctionSlots.Ready (slots : FunctionSlots) (f : ObjectId) (m n : Machine) (env : EnvId)
    (r : DeclarativeRecord) : Prop where
  contexts : n.contexts = slots.callContext f env :: m.contexts
  fresh : m.env? env = none
  record : n.env? env = some (.declarative r)
  empty : r.bindings = []
  outer : r.outer = some slots.environment
  realms : n.realms = m.realms

theorem prepareCall_ready {obj : Object} (hobj : m.object? f = some obj) (hkind : obj.kind = .function slots)
    (h : prepareCall f slots thisValue newTarget m = .ok () n) : ∃ env r, slots.Ready f m n env r := by
  have hcloses : m.Closes f slots := by
    simp [Machine.Closes, Machine.closure?, hobj, Object.closure?, hkind]
  let env : EnvId := ⟨m.environments.size⟩
  let r := slots.callEnvironment f newTarget
  let m₁ := m.pushEnv (.declarative r)
  have hself : m₁.env? env = some (.declarative r) :=
    (m.env?_pushEnv env (.declarative r)).trans (if_pos rfl)
  unfold prepareCall at h
  rw [bind_ok (newFunctionEnvironment_eq hcloses newTarget)] at h
  obtain ⟨u, m₂, hpush, hthis⟩ := bind_eq_ok h
  obtain ⟨-, rfl⟩ := pushContext_eq_ok hpush
  obtain ⟨call, rfl⟩ := bindCallThis_ok (m := m₁.withContexts _) (c := slots.callContext f env) rfl hself hthis
  exact ⟨env, { r with call }, rfl, Array.getElem?_eq_none (Nat.le_refl _),
    Machine.env?_storeEnv_self (m := m₁.withContexts _) hself _, rfl, rfl, rfl⟩

/-- All parameters are identifiers, all functions declared have names, and the block-scoped names differ
from each other, from the parameters and from the names of the function scope. -/
structure FunctionCode.IsPlain (code : FunctionCode) : Prop where
  simple : Parameters.isSimple code.parameters = true
  named : Body.NamesFunctions code.statements
  nodup : (Body.lexicalNames code.statements true).Nodup
  parameters : ∀ name ∈ Body.lexicalNames code.statements true, name ∉ Parameters.names code.parameters
  varNames : ∀ name ∈ Body.lexicalNames code.statements true, name ∉ Body.varNames code.statements

/-- The function is no arrow, and nothing of its code takes the name of the arguments object. -/
def FunctionSlots.HasArguments (slots : FunctionSlots) : Prop :=
  slots.thisMode ≠ .lexical ∧ "arguments" ∉ Parameters.names slots.code.parameters ∧
    ¬ Body.DeclaresFunction slots.code.statements "arguments" ∧
    ∀ constant, ¬ Body.DeclaresLexical slots.code.statements constant "arguments"

theorem Parameters.containsExpression_of_isSimple {parameters : List Pattern}
    (h : Parameters.isSimple parameters = true) : Parameters.containsExpression parameters = false := by
  refine List.any_eq_false.mpr fun p hp => ?_
  have hidentifier := List.all_eq_true.mp h p hp
  cases p with
  | identifier name => simp [Pattern.containsExpression]
  | _ => simp [Pattern.isIdentifier] at hidentifier

theorem Evaluator.needsArguments_iff (hsimple : Parameters.isSimple slots.code.parameters = true) :
    needsArguments slots = true ↔ slots.HasArguments := by
  have hlexical : "arguments" ∉ Body.lexicalNames slots.code.statements true ↔
      ∀ constant, ¬ Body.DeclaresLexical slots.code.statements constant "arguments" := by
    rw [Body.mem_lexicalNames, not_exists]
  have hfunction : "arguments" ∉ (Body.functions slots.code.statements).map (·.bindingName) ↔
      ¬ Body.DeclaresFunction slots.code.statements "arguments" := not_congr Body.mem_functionNames
  unfold needsArguments FunctionSlots.HasArguments
  dsimp only
  rw [← hlexical, ← hfunction, Parameters.containsExpression_of_isSimple hsimple]
  simp only [Bool.false_or, Bool.and_eq_true, Bool.not_eq_true', Bool.or_eq_false_iff, bne_iff_ne,
    List.contains_eq_mem, decide_eq_false_iff_not, and_assoc]

/-- Each of the names has a last position. -/
theorem exists_last {names : List String} (h : name ∈ names) :
    ∃ i, names[i]? = some name ∧ name ∉ names.drop (i + 1) := by
  induction names with
  | nil => cases h
  | cons first rest ih =>
    by_cases hrest : name ∈ rest
    · obtain ⟨i, hi, hlast⟩ := ih hrest
      exact ⟨i + 1, hi, hlast⟩
    · obtain rfl : name = first := (List.mem_cons.mp h).resolve_right hrest
      exact ⟨0, rfl, hrest⟩

theorem Machine.GetsArguments.later {a : ObjectId} (h : m.GetsArguments m' a)
    (hm' : ∀ o, o.Within m'.bounds → n.object? o = m'.object? o) : m.GetsArguments n a := by
  obtain ⟨hnew, obj, map, ha, hkind⟩ := h
  exact ⟨hnew, obj, map, (hm' a (Machine.within_of_object? ha)).trans ha, hkind⟩

/-- What a body binds may be seen from before the rounds that came first. -/
theorem FunctionSlots.EntersBody.earlier {scope : EnvId} {s : DeclarativeRecord}
    (h : slots.EntersBody c cs scope r s n m') (hn : m.AltersEnv c.variableEnv n) :
    slots.EntersBody c cs scope r s m m' where
  contexts := h.contexts
  alters := hn.trans h.alters
  record := h.record
  body := h.body
  strict := h.strict
  sloppy hstrict := by
    obtain ⟨hnew, hrest⟩ := h.sloppy hstrict
    exact ⟨Array.getElem?_eq_none (Nat.le_trans hn.le.2.1 (Array.getElem?_eq_none_iff.mp hnew)), hrest⟩
  functions name hname := by
    obtain ⟨code, f, hlast, hcode, hnew, hf⟩ := h.functions name hname
    exact ⟨code, f, hlast, hcode, hn.object?_eq_none hnew, hf⟩
  lexical := h.lexical

/-- The names of a call are bound: `r` is the record of the call, and `s` is that of the scope of the
body, which in strict code is the same. -/
structure FunctionSlots.Entered (slots : FunctionSlots) (arguments : List Value) (c : Context)
    (cs : List Context) (scope : EnvId) (r s : DeclarativeRecord) (m m' : Machine) : Prop
    extends slots.EntersBody c cs scope r s m m' where
  /-- A parameter that no function hides has the argument at its last position. -/
  parameters : ∀ i name, (Parameters.names slots.code.parameters)[i]? = some name →
    name ∉ (Parameters.names slots.code.parameters).drop (i + 1) →
    ¬ Body.DeclaresFunction slots.code.statements name →
    r.get? name = some ⟨true, false, false, some (arguments[i]?.getD .undefined)⟩
  arguments : slots.HasArguments ↔ ∃ a, m.GetsArguments m' a ∧
    r.get? "arguments" = some ⟨!slots.strict, false, false, some (.object a)⟩
  vars : ∀ name, Body.DeclaresVar slots.code.statements name →
    ¬ Body.DeclaresFunction slots.code.statements name →
    name ∉ Parameters.names slots.code.parameters → ¬ (slots.HasArguments ∧ name = "arguments") →
    r.get? name = some ⟨true, false, false, some .undefined⟩
  unbound : ∀ name, ¬ Body.DeclaresVar slots.code.statements name →
    ¬ Body.DeclaresFunction slots.code.statements name →
    name ∉ Parameters.names slots.code.parameters → ¬ (slots.HasArguments ∧ name = "arguments") →
    (slots.strict = true → ∀ constant, ¬ Body.DeclaresLexical slots.code.statements constant name) →
    r.get? name = none

/-- The variables that neither a parameter nor the arguments object takes the name of. -/
def FunctionSlots.varNames (slots : FunctionSlots) : List String :=
  ((Body.varNames slots.code.statements).filter (!(Evaluator.callNames slots).contains ·)).eraseDups

theorem FunctionSlots.mem_varNames (hplain : slots.code.IsPlain) : name ∈ slots.varNames ↔
    (Body.DeclaresVar slots.code.statements name ∨ Body.DeclaresFunction slots.code.statements name) ∧
      name ∉ Evaluator.callNames slots := by
  rw [varNames, List.mem_eraseDups, List.mem_filter, Body.mem_varNames hplain.named]
  simp

/-- The record of a call before its functions and block-scoped names are bound. -/
structure FunctionSlots.BindsVars (slots : FunctionSlots) (arguments : List Value) (m m' : Machine)
    (r : DeclarativeRecord) : Prop where
  parameters : ∀ i name, (Parameters.names slots.code.parameters)[i]? = some name →
    name ∉ (Parameters.names slots.code.parameters).drop (i + 1) →
    r.get? name = some ⟨true, false, false, some (arguments[i]?.getD .undefined)⟩
  object : slots.HasArguments → ∃ a, m.GetsArguments m' a ∧
    r.get? "arguments" = some ⟨!slots.strict, false, false, some (.object a)⟩
  noObject : ¬ slots.HasArguments → m.GetsNoArguments m'
  vars : ∀ name ∈ slots.varNames, r.get? name = some ⟨true, false, false, some .undefined⟩
  unbound : ∀ name, name ∉ slots.varNames → name ∉ Evaluator.callNames slots → r.get? name = none

section Entry

variable {env : EnvId} {realm : Realm}

/-- Parameters, arguments object and variables are bound in a record without bindings. -/
theorem FunctionSlots.Ready.bindsVars (h : slots.Ready f m n env r)
    (hr : n.realm? slots.realm = some realm) (hplain : slots.code.IsPlain) (arguments : List Value) :
    ∃ n' r', (∀ ev : Evaluator, (do
        ev.bindCall f slots env arguments
        Evaluator.bindVariables slots env (Evaluator.callNames slots)) n = .ok env n') ∧
      n.AltersEnv env n' ∧ n'.contexts = n.contexts ∧ n'.env? env = some (.declarative r') ∧ r.Rebound r' ∧
      slots.BindsVars arguments n n' r' := by
  obtain ⟨n₁, r₁, hbind, hallocates, hrebound, htakes⟩ :=
    Evaluator.bindCall_eq (c := slots.callContext f env) h.contexts hr f arguments h.record h.empty hplain.simple
  have he₁ : n₁.env? env = some (.declarative r₁) := by
    rw [hallocates.env?]
    exact Machine.env?_storeEnv_self h.record _
  let added := slots.varNames.map fun name => (name, (⟨true, false, false, some .undefined⟩ : Binding))
  let r₂ := r₁.addAll added
  let n₂ := n₁.storeEnv env (.declarative r₂)
  have hfst : added.map Prod.fst = slots.varNames := by simp [added, Function.comp_def]
  have hother {name : String} (hname : name ∉ slots.varNames) : r₂.get? name = r₁.get? name :=
    DeclarativeRecord.get?_addAll_of_notMem (hfst ▸ hname)
  have hcall {name : String} (hname : name ∈ Evaluator.callNames slots) : name ∉ slots.varNames :=
    fun hmem => ((FunctionSlots.mem_varNames hplain).mp hmem).2 hname
  have hneeds := Evaluator.needsArguments_iff hplain.simple
  have hvariables : Evaluator.bindVariables slots env (Evaluator.callNames slots) n₁ = .ok env n₂ := by
    have hacts : (declareInitialized env (fun _ => pure .undefined) slots.varNames).ActsOn env r₁ r₂ :=
      declareInitialized_acts (fun name hname => htakes.unbound name
        ((FunctionSlots.mem_varNames hplain).mp hname).2) (nodup_eraseDups _)
    unfold Evaluator.bindVariables
    dsimp only
    rw [Parameters.containsExpression_of_isSimple hplain.simple]
    exact bind_ok (hacts n₁ he₁)
  refine ⟨n₂, r₂, fun ev => (bind_ok (hbind ev)).trans hvariables,
    (Machine.AltersEnv.of_record h.record hallocates).trans (.storeEnv he₁ _), hallocates.contexts,
    Machine.env?_storeEnv_self he₁ _, hrebound.trans (.addAll r₁ added), ?_, fun hhas => ?_, fun hnot => ?_,
    fun name hname => ?_, fun name hname hcalled => ?_⟩
  · intro i name hi hlast
    rw [hother (hcall (Evaluator.mem_callNames.mpr (.inl (List.mem_of_getElem? hi))))]
    exact htakes.parameters i name hi hlast
  · obtain ⟨a, hgets, ha⟩ := htakes.object (hneeds.mpr hhas)
    rw [hother (hcall (Evaluator.mem_callNames.mpr (.inr ⟨hneeds.mpr hhas, rfl⟩)))]
    exact ⟨a, hgets, ha⟩
  · exact htakes.noObject (Bool.eq_false_iff.mpr fun h => hnot (hneeds.mp h))
  · exact DeclarativeRecord.get?_addAll (hfst ▸ nodup_eraseDups _) (List.mem_map_of_mem hname)
  · exact (hother hname).trans (htakes.unbound name hcalled)

/-- On a machine that is ready for it, a function binds its names. -/
theorem FunctionSlots.Ready.enters (h : slots.Ready f m n env r)
    (hr : m.realm? slots.realm = some realm) (hplain : slots.code.IsPlain) (arguments : List Value) :
    ∃ scope r' s m', (∀ ev : Evaluator, ev.instantiateFunction f slots arguments n = .ok () m') ∧
      slots.Entered arguments (slots.callContext f env) m.contexts scope r' s n m' ∧ r.Rebound r' := by
  let body := slots.code.statements
  let params := Parameters.names slots.code.parameters
  have hr' : n.realm? slots.realm = some realm := by
    unfold Machine.realm?
    rw [h.realms]
    exact hr
  obtain ⟨n₁, r₁, hbind, halters, hcontexts, he₁, hrebound, hbinds⟩ := h.bindsVars hr' hplain arguments
  have hcall {name : String} : name ∈ Evaluator.callNames slots ↔
      name ∈ params ∨ slots.HasArguments ∧ name = "arguments" := by
    rw [Evaluator.mem_callNames, Evaluator.needsArguments_iff hplain.simple]
  have hlexical {name : String} (hname : name ∈ Body.lexicalNames body true) :
      ¬ Body.DeclaresVar body name ∧ ¬ Body.DeclaresFunction body name := by
    have hnot := hplain.varNames name hname
    rwa [Body.mem_varNames hplain.named, not_or] at hnot
  -- Block-scoped names are new, and functions take the place of variables or parameters.
  have hnew (name : String) (hname : name ∈ Body.lexicalNames body true) : r₁.get? name = none := by
    refine hbinds.unbound name (fun hmem => ?_) fun hmem => ?_
    · exact ((FunctionSlots.mem_varNames hplain).mp hmem).1.elim (hlexical hname).1 (hlexical hname).2
    · rcases hcall.mp hmem with hparam | ⟨⟨-, -, -, hfree⟩, rfl⟩
      · exact hplain.parameters name hname hparam
      · obtain ⟨constant, hdeclares⟩ := Body.mem_lexicalNames.mp hname
        exact hfree constant hdeclares
  have hfunction (inner : FunctionCode) (hinner : inner ∈ Body.functions body) :
      r₁.HasVariable inner.bindingName true := by
    have hdeclares := Body.mem_functionNames.mp (List.mem_map_of_mem hinner)
    by_cases hmem : inner.bindingName ∈ Evaluator.callNames slots
    · rcases hcall.mp hmem with hparam | ⟨⟨-, -, hfree, -⟩, hname⟩
      · obtain ⟨i, hi, hlast⟩ := exists_last hparam
        exact ⟨_, hbinds.parameters i _ hi hlast, rfl⟩
      · exact absurd (hname ▸ hdeclares) hfree
    · exact ⟨_, hbinds.vars _ ((FunctionSlots.mem_varNames hplain).mpr ⟨.inr hdeclares, hmem⟩), rfl⟩
  obtain ⟨m', r', s, scope, henter, henters, hnone, hrebound', hothers⟩ :=
    Evaluator.canEnterBody (m := n₁) (c := slots.callContext f env) (hcontexts.trans h.contexts)
      ((halters.realm? _).trans hr') he₁ hnew hplain.nodup
      (fun name hname => (hlexical hname).2) hfunction
  refine ⟨scope, r', s, m', fun ev => ?_, ⟨henters.earlier halters, ?_, ?_, ?_, ?_⟩, hrebound.trans hrebound'⟩
  · have henv : Evaluator.parameterEnv slots n = .ok env n := by
      unfold Evaluator.parameterEnv
      rw [bind_ok (lift_ok (lexicalEnv_cons h.contexts)),
        Parameters.containsExpression_of_isSimple hplain.simple, if_pos (by simp)]
      rfl
    unfold Evaluator.instantiateFunction
    rw [bind_ok henv, ← bind_assoc, bind_ok (hbind ev)]
    exact henter
  · intro i name hi hlast hfree
    have hparam : name ∈ params := List.mem_of_getElem? hi
    rw [hothers name hfree fun _ constant hdeclares =>
      hplain.parameters name (Body.mem_lexicalNames.mpr ⟨constant, hdeclares⟩) hparam]
    exact hbinds.parameters i name hi hlast
  · refine ⟨fun hhas => ?_, fun ⟨a, hgets, _⟩ => ?_⟩
    · obtain ⟨a, hgets, ha⟩ := hbinds.object hhas
      refine ⟨a, hgets.later henters.alters.objects, ?_⟩
      rw [hothers "arguments" hhas.2.2.1 fun _ => hhas.2.2.2, ha]
    · by_contra hnot
      exact (hbinds.noObject hnot).trans hnone henters.alters.objects a hgets
  · intro name hvar hfree hparam harguments
    have hmem : name ∈ slots.varNames := (FunctionSlots.mem_varNames hplain).mpr
      ⟨.inl hvar, fun hcalled => (hcall.mp hcalled).elim hparam harguments⟩
    rw [hothers name hfree fun _ constant hdeclares =>
      (hlexical (Body.mem_lexicalNames.mpr ⟨constant, hdeclares⟩)).1 hvar]
    exact hbinds.vars name hmem
  · intro name hvar hfree hparam harguments hnotLexical
    rw [hothers name hfree hnotLexical]
    refine hbinds.unbound name (fun hmem => ?_) fun hcalled => (hcall.mp hcalled).elim hparam harguments
    exact ((FunctionSlots.mem_varNames hplain).mp hmem).1.elim hvar hfree

end Entry

/-- **What a call binds.** On a well-formed machine, let everything be ready for the body of a function
whose parameters are identifiers, repeated or not, whose functions have names and whose block-scoped names
clash with nothing. Then for all arguments its names are bound, whatever the evaluator does: no expression
is evaluated. The environment of the call, which is new, and the scope of the body bind exactly what the
code declares, and no other environment and no object that was there has changed. -/
theorem instantiateFunction_binds {obj : Object} (hm : Contract.handles.Sound m)
    (hobj : m.object? f = some obj) (hkind : obj.kind = .function slots) (hplain : slots.code.IsPlain)
    (hready : prepareCall f slots thisValue newTarget m = .ok () n) (arguments : List Value) :
    ∃ env scope r s m', m.env? env = none ∧ n.contexts = slots.callContext f env :: m.contexts ∧
      (∀ ev : Evaluator, ev.instantiateFunction f slots arguments n = .ok () m') ∧
      r.outer = some slots.environment ∧
      slots.Entered arguments (slots.callContext f env) m.contexts scope r s n m' := by
  have hslots : Contract.handles.KindOk m.bounds (.function slots) := hkind ▸ (hm.objects f obj hobj).kind
  obtain ⟨realm, hrealm⟩ := Machine.exists_realm hslots.2.2.1
  obtain ⟨env, r₀, h⟩ := prepareCall_ready hobj hkind hready
  obtain ⟨scope, r, s, m', hrun, hentered, hrebound⟩ := h.enters hrealm hplain arguments
  have houter : r.outer = some slots.environment := by
    obtain ⟨_, rfl⟩ := hrebound
    exact h.outer
  exact ⟨env, scope, r, s, m', h.fresh, h.contexts, hrun, houter, hentered⟩

/-- A function that the code of a first script makes, on the machine with it. -/
theorem instantiateDeclaration_starts (code : FunctionCode)
    (hn : n = (pushScriptContext ⟨0⟩ false).after (newRealm.after {}))
    (hm : m = (instantiateDeclaration code ⟨0⟩ none).after n) :
    Contract.handles.Sound m ∧ ∃ obj slots, m.object? ⟨n.objects.size⟩ = some obj ∧
      obj.kind = .function slots ∧ slots.code = code := by
  obtain ⟨realm, m₀, n₀, -, hreach, hr, henv, hpush, hn₀⟩ := newRealm_starts_script
  obtain rfl : n₀ = n := hn₀.trans hn.symm
  obtain ⟨c, globals, hcontexts, -, hrealm, hglobals⟩ := hreach.pushScriptContext hr hpush
  have hsound : Contract.handles.Sound n₀ := by
    have hlast := hreach.perform (.pushScriptContext ⟨0⟩ false) (Machine.within_of_realm? hr)
    exact Eval.after_ok hpush ▸ hlast.sound Contract.handles_open
  have hglobal : EnvId.Within n₀.bounds ⟨0⟩ := henv ▸ Machine.within_of_env? hglobals.env
  have hprivate : ∀ e, (none : Option EnvId) = some e → e.Within n₀.bounds := nofun
  have hruns : Contract.handles.Runs n₀.grant n₀ (instantiateDeclaration code ⟨0⟩ none)
      fun m' f => f.Within m'.bounds :=
    instantiateDeclaration_runs hglobal hprivate fun hc => absurd hc Contract.handles_open.unchecked
  have hmade : Contract.handles.Sound m := hm ▸ (hruns.after (.refl _) hsound).sound hsound
  obtain ⟨m₁, hmake, -, ⟨obj, slots, hobj, hkind, hcode, -⟩, -⟩ :=
    instantiateDeclaration_eq hcontexts hrealm code ⟨0⟩ none
  obtain rfl : m₁ = m := (Eval.after_ok hmake).symm.trans hm.symm
  exact ⟨hmade, obj, slots, hobj, hkind, hcode⟩

/-- Whether the object is a function whose call, without a `this` and with no new target, can be prepared so
that a run then succeeds. -/
def Machine.allowsCall (m : Machine) (f : ObjectId) (x : FunctionSlots → Eval Unit) : Bool :=
  match m.object? f with
  | some { kind := .function slots, .. } =>
    match (prepareCall f slots .undefined .undefined >>= fun _ => x slots) m with
    | .ok _ _ => true
    | .error _ _ => false
  | _ => false

theorem Machine.exists_of_allowsCall {f : ObjectId} {obj : Object} {slots : FunctionSlots}
    {x : FunctionSlots → Eval Unit} (h : m.allowsCall f x = true) (hobj : m.object? f = some obj)
    (hkind : obj.kind = .function slots) :
    ∃ n' m', prepareCall f slots .undefined .undefined m = .ok () n' ∧ x slots n' = .ok () m' := by
  obtain ⟨prototype, kind, extensible, properties⟩ := obj
  cases hkind
  unfold allowsCall at h
  rw [hobj] at h
  cases hrun : (prepareCall f slots .undefined .undefined >>= fun _ => x slots) m with
  | ok u m' =>
    obtain ⟨u, n', hprepare, hx⟩ := bind_eq_ok hrun
    exact ⟨n', m', hprepare, hx⟩
  | error e m' => simp [hrun] at h

/-- A sloppy function with a repeated parameter, a parameter that a function hides, variables, constants
and too few arguments. -/
theorem instantiateFunction_binds_repeated :
    let inner : FunctionCode := ⟨some "y", .normal, [], .block [], false, false⟩
    let code : FunctionCode := ⟨some "f", .normal,
      [.identifier "x", .identifier "y", .identifier "x", .identifier "z"], .block [.function inner,
        .block [.declare .var [⟨.identifier "v", none⟩]], .declare (.lexical true) [⟨.identifier "k", none⟩],
        .labelled "l" (.function inner)], false, false⟩
    let n := (pushScriptContext ⟨0⟩ false).after (newRealm.after {})
    let m := (instantiateDeclaration code ⟨0⟩ none).after n
    let f : ObjectId := ⟨n.objects.size⟩
    ∃ slots n' env scope r s m', slots.code = code ∧ prepareCall f slots .undefined .undefined m = .ok () n' ∧
      (∀ ev : Evaluator, ev.instantiateFunction f slots [.null, .null, .boolean true] n' = .ok () m') ∧
      slots.Entered [.null, .null, .boolean true] (slots.callContext f env) m.contexts scope r s n' m' := by
  intro inner code n m f
  have hplain : code.IsPlain := by
    refine ⟨by decide, ?_, by decide, by decide, by decide⟩
    intro s hs function hfunction
    simp only [code, FunctionCode.statements, List.mem_cons, List.not_mem_nil, or_false] at hs
    rcases hs with rfl | rfl | rfl | rfl <;> cases hfunction <;> rfl
  have hready : m.allowsCall f (fun _ => pure ()) = true := by decide +kernel
  have hn : n = (pushScriptContext ⟨0⟩ false).after (newRealm.after {}) := rfl
  have hm : m = (instantiateDeclaration code ⟨0⟩ none).after n := rfl
  clear_value m n
  obtain ⟨hmade, obj, slots, hobj, hkind, hcode⟩ := instantiateDeclaration_starts code hn hm
  obtain ⟨n', -, hprepare, -⟩ := Machine.exists_of_allowsCall hready hobj hkind
  obtain ⟨env, scope, r, s, m', -, -, hrun, -, hentered⟩ := instantiateFunction_binds hmade hobj hkind
    (hcode ▸ hplain) hprepare [.null, .null, .boolean true]
  exact ⟨slots, n', env, scope, r, s, m', hcode, hprepare, hrun, hentered⟩

end EcmaEval
