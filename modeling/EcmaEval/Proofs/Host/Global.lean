import EcmaEval.Proofs.Host.This

/-!
# Global names under the operations of a host

A global environment keeps two stores of names: the bindings of its block scope, and the names that were
declared for its function scope. Only scripts add to them, and a script that passes its checks adds no
name to one store that is in the other. The checks know nothing of a function without a name, which is
declared under the empty one.
-/
namespace EcmaEval

variable {gains : Growth} {m m' : Machine} {P : String → Prop}

/-- In every global environment only these names are in both stores. -/
def Machine.Separates (m : Machine) (P : String → Prop) : Prop :=
  ∀ env g, m.env? env = some (.global g) → ∀ name, g.declarative.has name = true →
    name ∈ g.varNames → P name

namespace Machine.Separates

/-- The stores stay apart if no store gains what is in the other or what the other one gains. -/
theorem gain (h : m.Separates P) (hm : m.Extends gains m')
    (hlexical : ∀ env g name, m.env? env = some (.global g) → gains.lexical env name →
      name ∈ g.varNames ∨ gains.var env name → P name)
    (hvar : ∀ env g name, m.env? env = some (.global g) → gains.var env name →
      g.declarative.has name = true → P name) : m'.Separates P := by
  intro env g' hg' name hhas hmem
  obtain ⟨g, hg⟩ := hm.globals env ⟨g', hg'⟩
  obtain ⟨e', he', hlater⟩ := hm.environments env _ hg
  cases hg'.symm.trans he'
  cases hlater with
  | global _ hold hold' =>
    rcases hold name hhas with hhas | hnew
    · rcases hold' name hmem with hmem | hnew'
      · exact h env g hg name hhas hmem
      · exact hvar env g name hg hnew' hhas
    · exact hlexical env g name hg hnew (hold' name hmem)

theorem later (h : m.Separates P) (hm : m.Extends .none m') : m'.Separates P :=
  h.gain hm (fun _ _ _ _ => False.elim) fun _ _ _ _ => False.elim

theorem quiet (h : m.Separates P) (hm : m.Quiet m') : m'.Separates P := h.later (.of_quiet hm)

/-- A new realm starts without names. -/
theorem founds (h : m.Separates P) {x : Eval α} (hx : m.Founds x) : (x.after m).Separates P := by
  obtain ⟨m₁, global, r, hquiet, -, hafter⟩ := hx
  refine quiet ?_ hafter
  intro env g hg name hhas hmem
  change (m₁.pushEnv _).env? env = _ at hg
  rw [env?_pushEnv] at hg
  split at hg
  · cases hg
    cases hmem
  · exact h.quiet hquiet env g hg name hhas hmem

end Machine.Separates

/-- Checks that were passed changed nothing. -/
theorem checks_ok {p : String → Query Bool} {f : Bool → Bool} {c : String → Complaint} {names : List String}
    (h : (names.forM fun name => liftM (p name) >>= fun b => if f b then complain (c name) else pure ()) m =
      .ok () m') : m' = m ∧ ∀ name ∈ names, ∃ b, p name m = .ok b ∧ f b = false := by
  induction names with
  | nil =>
    cases h
    exact ⟨rfl, nofun⟩
  | cons name names ih =>
    obtain ⟨u, m₁, hfirst, hrest⟩ := bind_eq_ok h
    obtain ⟨b, m₂, hquery, hcheck⟩ := bind_eq_ok hfirst
    obtain ⟨rfl, hquery⟩ := lift_eq_ok hquery
    split at hcheck
    · exact absurd hcheck complain_ne_ok
    · rename_i hpassed
      cases hcheck
      obtain ⟨rfl, hnames⟩ := ih hrest
      exact ⟨rfl, List.forall_mem_cons.mpr ⟨⟨b, hquery, Bool.eq_false_iff.mpr hpassed⟩, hnames⟩⟩

theorem checkGlobal_ok {body : List Statement} {env : EnvId} (h : checkGlobal body env m = .ok () m') :
    m' = m ∧ (∀ name ∈ Body.lexicalNames body true, env.isTaken name m = .ok false) ∧
      ∀ name ∈ Body.varNames body, env.hasLexicalDeclaration name m = .ok false := by
  obtain ⟨u₁, m₁, hlexical, h₁⟩ := bind_eq_ok h
  obtain ⟨rfl, hlexical⟩ := checks_ok (f := id) hlexical
  obtain ⟨u₂, m₂, hvar, h₂⟩ := bind_eq_ok h₁
  obtain ⟨rfl, hvar⟩ := checks_ok (f := id) hvar
  obtain ⟨u₃, m₃, hfunctions, h₃⟩ := bind_eq_ok h₂
  obtain ⟨rfl, -⟩ := checks_ok (f := not) hfunctions
  obtain ⟨rfl, -⟩ := checks_ok (f := not) h₃
  refine ⟨rfl, fun name hname => ?_, fun name hname => ?_⟩
  · obtain ⟨b, hquery, rfl⟩ := hlexical name hname
    exact hquery
  · obtain ⟨b, hquery, rfl⟩ := hvar name hname
    exact hquery

theorem EnvId.loadGlobal_eq {env : EnvId} {g : GlobalRecord} (hg : m.env? env = some (.global g)) :
    env.loadGlobal m = .ok g := Query.bind_ok (EnvId.load_eq hg)

theorem EnvId.isTaken_eq_false {env : EnvId} {g : GlobalRecord} {name : String}
    (hg : m.env? env = some (.global g)) (h : env.isTaken name m = .ok false) : name ∉ g.varNames := by
  intro hmem
  have hvar : env.hasVarDeclaration name m = .ok true := by
    rw [show env.hasVarDeclaration name m = _ from Query.bind_ok (loadGlobal_eq hg)]
    exact congrArg Except.ok (by simpa using hmem)
  rw [show env.isTaken name m = .ok true from Query.bind_ok hvar] at h
  cases h

theorem EnvId.hasLexicalDeclaration_eq {env : EnvId} {g : GlobalRecord} {name : String}
    (hg : m.env? env = some (.global g)) :
    env.hasLexicalDeclaration name m = .ok (g.declarative.has name) := Query.bind_ok (loadGlobal_eq hg)

theorem Eval.after_bind_pure {x : Eval α} {f : α → Eval β} (hf : ∀ a, ∃ b, f a = pure b) :
    (x >>= f).after m = x.after m := by
  cases hx : x m with
  | error e m' => rw [after_error hx, after_error (bind_error hx)]
  | ok a m' =>
    obtain ⟨b, hb⟩ := hf a
    rw [after_bind_ok hx, after_ok hx, hb]
    rfl

/-- A function without a name stands at the top level of the script. -/
def Body.HasUnnamed (body : List Statement) : Prop :=
  ∃ code, .function code ∈ Body.varScoped body ∧ code.name = none

/-- The functions of a script are declared under names of the script, or under the empty name. -/
theorem Body.bindingName_mem {body : List Statement} {code : FunctionCode}
    (hcode : code ∈ Body.functions body) :
    code.bindingName ∈ Body.varNames body ∨ code.bindingName = "" ∧ Body.HasUnnamed body := by
  obtain ⟨d, hd, hcode⟩ := List.mem_filterMap.mp (mem_lastOfEachName hcode)
  cases d with
  | binding pattern => cases hcode
  | function code' =>
    cases hcode
    cases hname : code.name with
    | none => exact .inr ⟨by simp [FunctionCode.bindingName, hname], code, hd, hname⟩
    | some name =>
      refine .inl (List.mem_flatMap.mpr ⟨_, hd, ?_⟩)
      simp [VarDeclaration.boundNames, FunctionCode.bindingName, hname]

/-- What a script that passed its checks on a machine adds to its global environment. -/
def Body.growth (body : List Statement) (env : EnvId) : Growth where
  lexical env' name := env' = env ∧ name ∈ Body.lexicalNames body true
  var env' name := env' = env ∧ (name ∈ Body.varNames body ∨ name = "" ∧ Body.HasUnnamed body)

theorem Body.growth_covers (body : List Statement) (env : EnvId) : (Body.growth body env).Covers env body :=
  ⟨fun _ hname => ⟨rfl, hname⟩, fun _ hname => ⟨rfl, .inl hname⟩, fun _ hcode => ⟨rfl, bindingName_mem hcode⟩⟩

namespace Evaluator

variable {ev : Evaluator} {body : List Statement}

/-- What a script does in its context keeps the stores of names apart. -/
theorem withContext_separates (hev : ∀ gains, ev.Agrees gains m ev) (hm : m.IsScoped) {context : Context}
    (hcontext : m.Hosts context.function context.lexicalEnv) {env : EnvId} {g : GlobalRecord}
    (hg : m.env? env = some (.global g)) (hbody : ∀ name ∈ Body.lexicalNames body true, name ∉ Body.varNames body)
    (hempty : Body.HasUnnamed body → P "") (h : m.Separates P) :
    Machine.Separates
      (Eval.after (withContext context do instantiateGlobal body env; ev.statements body none) m) P := by
  let n := m.withContexts (context :: m.contexts)
  have hopens (gains : Growth) : m.Opens gains context n := ⟨rfl, .refl m, hm⟩
  rw [instantiateGlobal_eq, bind_assoc]
  -- either the checks fail and nothing is declared, or they tell that the names are free
  cases hcheck : checkGlobal body env n with
  | error e n₁ =>
    have hfailed := (hopens .none).quiet ((checkGlobal_quiet body env n).error hcheck)
    have hrun : m.Advances .none (withContext context
        (checkGlobal body env >>= fun _ => declareGlobal body env >>= fun _ => ev.statements body none)) := by
      refine withContext_advances hm context ?_
      rw [Eval.after_error (bind_error hcheck)]
      exact ⟨hfailed.later, hfailed.isScoped⟩
    exact h.later hrun.1
  | ok u n₁ =>
    obtain ⟨rfl, hlexical, hvar⟩ := checkGlobal_ok hcheck
    have hn : n.env? env = some (.global g) := hg
    have hthis : n.HasThisAt env := ⟨_, .global hn⟩
    have hrest : Agree (Body.growth body env) m n (declareGlobal body env >>= fun _ => ev.statements body none)
        (declareGlobal body env >>= fun _ => ev.statements body none) :=
      .bind (declareGlobal_agree (Body.growth_covers body env) hthis) fun _ _ _ => statements_agree (hev _) body none
    have hrun : m.Advances (Body.growth body env) (withContext context
        (checkGlobal body env >>= fun _ => declareGlobal body env >>= fun _ => ev.statements body none)) := by
      refine withContext_advances hm context ?_
      rw [Eval.after_bind_ok hcheck]
      exact ((hopens _).run ((hopens (Body.growth body env)).close hcontext) hrest).2
    refine h.gain hrun.1 ?_ ?_
    · rintro env' g' name hg' ⟨rfl, hname⟩ hother
      cases hg.symm.trans hg'
      rcases hother with hmem | ⟨-, hmem | ⟨rfl, hunnamed⟩⟩
      · exact absurd hmem (EnvId.isTaken_eq_false hn (hlexical name hname))
      · exact absurd hmem (hbody name hname)
      · exact hempty hunnamed
    · rintro env' g' name hg' ⟨rfl, hname | ⟨rfl, hunnamed⟩⟩ hhas
      · cases hg.symm.trans hg'
        have hfree := hvar name hname
        rw [EnvId.hasLexicalDeclaration_eq hn, hhas] at hfree
        cases hfree
      · exact hempty hunnamed

theorem script_separates (hev : ∀ gains, ev.Agrees gains m ev) (hm : m.IsScoped)
    (hbody : ∀ name ∈ Body.lexicalNames body true, name ∉ Body.varNames body)
    (hempty : Body.HasUnnamed body → P "") (h : m.Separates P) :
    ((ev.script body).after m).Separates P := by
  rw [script_eq]
  cases hrealm : currentRealm m with
  | error e => rwa [Eval.after_error (bind_error (lift_error hrealm))]
  | ok id =>
    rw [Eval.after_bind_ok (lift_ok hrealm)]
    cases hload : id.load m with
    | error e => rwa [Eval.after_error (bind_error (lift_error hload))]
    | ok r =>
      rw [Eval.after_bind_ok (lift_ok hload)]
      obtain ⟨g, hg⟩ := hm.realms id r (RealmId.load_ok hload)
      unfold scriptIn
      rw [Eval.after_bind_pure, completing_after]
      · cases hcontext : scriptContext id (Body.hasStrictDirective body) m with
        | error e => rwa [Eval.after_error (bind_error (lift_error hcontext))]
        | ok context =>
          rw [Eval.after_bind_ok (lift_ok hcontext)]
          exact withContext_separates hev hm (hm.scriptContext hcontext) hg hbody hempty h
      · intro completion
        split <;> exact ⟨_, rfl⟩

end Evaluator

theorem pushScriptContext_separates (h : m.Separates P) (realm : RealmId) (strict : Bool) :
    ((pushScriptContext realm strict).after m).Separates P := by
  cases hcontext : scriptContext realm strict m with
  | error e =>
    rwa [show (pushScriptContext realm strict).after m = m from
      Eval.after_error (bind_error (lift_error hcontext))]
  | ok c =>
    rw [show (pushScriptContext realm strict).after m = (pushContext c).after m from
      Eval.after_bind_ok (lift_ok hcontext)]
    by_cases hfull : m.stackLimit ≤ m.contexts.length
    · have hquiet : m.Quiet ((complain .stackExceeded : Eval Unit).after m) := Eval.Quiet.complain .stackExceeded m
      unfold Eval.after at hquiet ⊢
      rw [pushContext_of_full c hfull]
      exact h.quiet hquiet
    · rw [Eval.after_ok (pushContext_of_room c hfull)]
      exact h

/-- If the operation runs a script, the script does not declare a name both ways, and it may have
functions without a name only if the empty name may be in both stores. -/
def Operation.Distinguishes (P : String → Prop) (op : Operation) : Prop :=
  ∀ level body, op = .evaluate level (.script body) →
    (∀ name ∈ Body.lexicalNames body true, name ∉ Body.varNames body) ∧ (Body.HasUnnamed body → P "")

theorem Agree.separates {x y : Eval α} (hx : Agree .none m m x y) (hm : m.IsScoped) (h : m.Separates P) :
    ((Functor.discard x).after m).Separates P := by
  rw [Eval.after_discard]
  exact h.later (hx m (.refl m) hm).2.1

namespace Operation

theorem run_separates {op : Operation} (hop : op.RunsCode) (hscript : op.Distinguishes P) (hm : m.IsScoped)
    (h : m.Separates P) : (op.run.after m).Separates P := by
  cases op with
  | newRealm =>
    change ((discard EcmaEval.newRealm).after m).Separates P
    rw [Eval.after_discard]
    exact h.founds (newRealm_founds m)
  | pushScriptContext realm strict => exact pushScriptContext_separates h realm strict
  | evaluate level node =>
    change ((discard (EcmaEval.evaluate level node)).after m).Separates P
    rw [evaluate_eq]
    have hev (gains : Growth) : (Evaluator.level level).Agrees gains m (.level level) := Evaluator.level_agrees level
    cases node with
    | script body =>
      obtain ⟨hbody, hempty⟩ := hscript level body rfl
      rw [Eval.after_discard]
      exact Evaluator.script_separates hev hm hbody hempty h
    | statement s =>
      have hgains : (Node.statement s).Gains .none := trivial
      exact (Node.evaluateBy_agree (hev .none) hgains).separates hm h
    | expression e =>
      have hgains : (Node.expression e).Gains .none := trivial
      exact (Node.evaluateBy_agree (hev .none) hgains).separates hm h
  | call level f thisValue arguments =>
    exact (Evaluator.call_agree (Evaluator.level_agrees level) _ _ _).separates hm h
  | construct level f arguments newTarget =>
    exact (Evaluator.construct_agree (Evaluator.level_agrees level) _ _ _).separates hm h
  | _ => cases hop

theorem runAll_separates {ops : List Operation} (hops : ∀ op ∈ ops, op.RunsCode)
    (hscripts : ∀ op ∈ ops, op.Distinguishes P) (hm : m.IsScoped) (h : m.Separates P) :
    (runAll ops m).Separates P := by
  induction ops generalizing m with
  | nil => exact h
  | cons op ops ih =>
    have hrun := hops op List.mem_cons_self
    refine ih (fun op hop => hops op (List.mem_cons_of_mem _ hop))
      (fun op hop => hscripts op (List.mem_cons_of_mem _ hop)) (run_continues hrun hm).isScoped ?_
    exact run_separates hrun (hscripts op List.mem_cons_self) hm h

end Operation

/-- **Global names are declared in one way.** Let a host make a realm, push a script context and then run
any code, in whatever way that ends, where no script declares a name of its own for its block scope and
for its function scope. In the global environment of each realm, then, no name is in both stores, unless
it is the empty one and a script had a function without a name. -/
theorem runAll_declares_once {limit : Nat} {realm : RealmId} {strict : Bool} {m₁ m₂ : Machine}
    (hrealm : newRealm { stackLimit := limit } = .ok realm m₁)
    (hcontext : pushScriptContext realm strict m₁ = .ok () m₂) {ops : List Operation}
    (hops : ∀ op ∈ ops, op.RunsCode)
    (hscripts : ∀ level body, .evaluate level (.script body) ∈ ops →
      ∀ name ∈ Body.lexicalNames body true, name ∉ Body.varNames body) :
    let m := Operation.runAll ops m₂
    ∀ id r, m.realm? id = some r → ∃ g, m.env? r.globalEnv = some (.global g) ∧
      ∀ name, g.declarative.has name = true → name ∈ g.varNames →
        name = "" ∧ ∃ level body, .evaluate level (.script body) ∈ ops ∧ Body.HasUnnamed body := by
  intro m id r hr
  let P (name : String) : Prop :=
    name = "" ∧ ∃ level body, Operation.evaluate level (.script body) ∈ ops ∧ Body.HasUnnamed body
  have hscoped : m₂.IsScoped := startScript_isScoped hrealm hcontext
  have hm : m₂.Continues .all m := Operation.runAll_continues hops hscoped
  have hnew : Machine.Separates { stackLimit := limit } P := fun _ _ hg => by cases hg
  have hm₁ : m₁.Separates P := Eval.after_ok hrealm ▸ hnew.founds (newRealm_founds _)
  have hm₂ : m₂.Separates P := Eval.after_ok hcontext ▸ pushScriptContext_separates hm₁ realm strict
  have hdistinct : ∀ op ∈ ops, op.Distinguishes P := by
    rintro op hop level body rfl
    exact ⟨hscripts level body hop, fun hunnamed => ⟨rfl, level, body, hop, hunnamed⟩⟩
  obtain ⟨g, hg⟩ := hm.isScoped.realms id r hr
  exact ⟨g, hg, Operation.runAll_separates hops hdistinct hscoped hm₂ r.globalEnv g hg⟩

/-- A variable and a block-scoped binding, and a script that would declare the latter as a variable. -/
theorem runAll_declares_once_rejected :
    let var (name : String) := Node.script [.declare .var [⟨.identifier name, none⟩]]
    let ops := [.evaluate 3 (var "x"), .evaluate 3 (.script [.declare (.lexical false) [⟨.identifier "y", none⟩]]),
      .evaluate 3 (var "y")]
    let m₁ := newRealm.after {}
    let m₂ := (pushScriptContext ⟨0⟩ false).after m₁
    let m := Operation.runAll ops m₂
    ∃ r g, m.realm? ⟨0⟩ = some r ∧ m.env? r.globalEnv = some (.global g) ∧
      ∀ name, g.declarative.has name = true → name ∉ g.varNames := by
  intro var ops m₁ m₂ m
  have hrealm : newRealm { stackLimit := 512 } = .ok ⟨0⟩ m₁ := Eval.eq_ok_after (by decide +kernel)
  have hcontext : pushScriptContext ⟨0⟩ false m₁ = .ok () m₂ := Eval.eq_ok_after (by decide +kernel)
  have hfirst : (m.realm? ⟨0⟩).isSome = true := by decide +kernel
  have hops : ∀ op ∈ ops, op.RunsCode := by simp [ops, Operation.RunsCode]
  have hscripts : ∀ level body, .evaluate level (.script body) ∈ ops →
      (∀ name ∈ Body.lexicalNames body true, name ∉ Body.varNames body) ∧
        ∀ d ∈ Body.varScoped body, ∀ code, d ≠ .function code := by
    intro level body h
    simp only [ops, var, List.mem_cons, List.not_mem_nil, or_false, Operation.evaluate.injEq,
      Node.script.injEq] at h
    obtain ⟨-, rfl⟩ | ⟨-, rfl⟩ | ⟨-, rfl⟩ := h <;>
      simp [Body.lexicalNames, Body.lexicallyScoped, Body.varNames, Body.varScoped, Statement.topVarScoped,
        Statement.varScoped, Statement.lexicallyScoped, DeclarationKind.varDeclarations]
  have hmain := runAll_declares_once hrealm hcontext hops fun level body h => (hscripts level body h).1
  obtain ⟨r, hr⟩ := Option.isSome_iff_exists.mp hfirst
  obtain ⟨g, hg, hnames⟩ := hmain ⟨0⟩ r hr
  refine ⟨r, g, hr, hg, fun name hhas hmem => ?_⟩
  obtain ⟨-, level, body, hop, code, hcode, -⟩ := hnames name hhas hmem
  exact (hscripts level body hop).2 _ hcode code rfl

/-- Whether a global environment has the name in its record and among its `var` names. -/
def Environment.declaresTwice (name : String) : Environment → Bool
  | .global g => g.declarative.has name && g.varNames.contains name
  | _ => false

/-- A block-scoped binding and a function, both without a name, are in both stores. -/
theorem runAll_declares_empty_twice :
    let ops := [Operation.evaluate 3 (.script [.declare (.lexical false) [⟨.identifier "", none⟩]]),
      .evaluate 3 (.script [.function ⟨none, .normal, [], .block [], false, false⟩])]
    let m₁ := newRealm.after {}
    let m₂ := (pushScriptContext ⟨0⟩ false).after m₁
    let m := Operation.runAll ops m₂
    (newRealm {} = .ok ⟨0⟩ m₁ ∧ pushScriptContext ⟨0⟩ false m₁ = .ok () m₂) ∧
      (∀ op ∈ ops, op.RunsCode) ∧
      (∀ level body, .evaluate level (.script body) ∈ ops →
        ∀ name ∈ Body.lexicalNames body true, name ∉ Body.varNames body) ∧
      ∃ r g, m.realm? ⟨0⟩ = some r ∧ m.env? r.globalEnv = some (.global g) ∧
        g.declarative.has "" = true ∧ "" ∈ g.varNames := by
  intro ops m₁ m₂ m
  have hstores : (m.realm? ⟨0⟩).any (fun r => (m.env? r.globalEnv).any (·.declaresTwice "")) = true := by
    decide +kernel
  have hrealm : newRealm { stackLimit := 512 } = .ok ⟨0⟩ m₁ := Eval.eq_ok_after (by decide +kernel)
  have hcontext : pushScriptContext ⟨0⟩ false m₁ = .ok () m₂ := Eval.eq_ok_after (by decide +kernel)
  refine ⟨⟨hrealm, hcontext⟩, by simp [ops, Operation.RunsCode], fun level body h => ?_, ?_⟩
  · simp only [ops, List.mem_cons, List.not_mem_nil, or_false, Operation.evaluate.injEq,
      Node.script.injEq] at h
    obtain ⟨-, rfl⟩ | ⟨-, rfl⟩ := h <;>
      simp [Body.lexicalNames, Body.lexicallyScoped, Body.varNames, Body.varScoped, Statement.topVarScoped,
        Statement.varScoped, Statement.lexicallyScoped, DeclarationKind.varDeclarations]
  · obtain ⟨r, hr, henv⟩ := (Option.any_eq_true _ _).mp hstores
    obtain ⟨e, he, hboth⟩ := (Option.any_eq_true _ _).mp henv
    cases e with
    | global g =>
      obtain ⟨hhas, hmem⟩ := Bool.and_eq_true_iff.mp hboth
      exact ⟨r, g, hr, he, hhas, by simpa using hmem⟩
    | _ => cases hboth

end EcmaEval
