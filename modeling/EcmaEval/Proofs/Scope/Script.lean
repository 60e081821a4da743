import EcmaEval.Proofs.Scope.Evaluate

/-!
# Scripts and levels in scoped machines

A script declares its names in the global environment of the running realm and then runs in a context of
its own. With it, evaluation at every level keeps machines scoped. Evaluation is taken up to the operation
that gives `this` its value: two such operations that agree make evaluations that agree.
-/
namespace EcmaEval

variable {gains : Growth} {final m m' m₀ : Machine}

namespace EnvId

variable {env : EnvId} {name : String}

@[grind ←] theorem declareVarName_agree (hname : gains.var env name) :
    Agree gains final m₀ (env.declareVarName name) (env.declareVarName name) := by
  refine .of_advances fun m _ hm => .bind (.quiet hm (Eval.Quiet.lift _ m)) fun g m₁ hrun hm₁ => ?_
  obtain ⟨rfl, hload⟩ := lift_eq_ok hrun
  refine .store hm₁ (loadGlobal_ok hload) (.global rfl (fun _ => .inl) fun key hkey => ?_)
  unfold GlobalRecord.addVarName at hkey
  dsimp only at hkey
  split at hkey
  · exact .inl hkey
  · rcases List.mem_cons.mp hkey with rfl | hold
    · exact .inr hname
    · exact .inl hold

@[grind ←] theorem createGlobalVar_agree (hname : gains.var env name) (deletable : Bool) :
    Agree gains final m₀ (env.createGlobalVar name deletable) (env.createGlobalVar name deletable) := by
  unfold createGlobalVar
  refine .bind (.quiet (.lift _)) fun m₁ g h₁ => .bind (.quiet (.lift _)) fun m₂ hasProperty h₂ => ?_
  refine .bind (.quiet (.lift _)) fun m₃ extensible h₃ => ?_
  grind

@[grind ←] theorem createGlobalFunction_agree (hname : gains.var env name) (value : Value)
    (deletable : Bool) :
    Agree gains final m₀ (env.createGlobalFunction name value deletable)
      (env.createGlobalFunction name value deletable) := by
  unfold createGlobalFunction
  refine .bind (.quiet (.lift _)) fun m₁ g h₁ => .bind (.quiet (.lift _)) fun m₂ old h₂ => ?_
  split
  all_goals
    refine .bind (.pure _) fun m₃ d h₃ => .bind (.quiet (by grind)) fun m₄ _ h₄ => ?_
    refine .bind (.quiet (by grind)) fun m₅ succeeded h₅ => ?_
    grind

end EnvId

/-- The environment may gain the names that a script declares. -/
structure Growth.Covers (gains : Growth) (env : EnvId) (body : List Statement) : Prop where
  lexical : ∀ name ∈ Body.lexicalNames body true, gains.lexical env name
  var : ∀ name ∈ Body.varNames body, gains.var env name
  functions : ∀ code ∈ Body.functions body, gains.var env code.bindingName

theorem checkGlobal_quiet (body : List Statement) (env : EnvId) : (checkGlobal body env).Quiet := by
  unfold checkGlobal checkLexicalNames checkVarNames checkFunctions checkVariables
  grind

/-- Variables are among the names that a body declares for its function scope. -/
theorem Body.mem_varNames_of_variableNames {body : List Statement} {name : String}
    (h : name ∈ Body.variableNames body) : name ∈ Body.varNames body := by
  obtain ⟨d, hd, hname⟩ := List.mem_flatMap.mp h
  cases d with
  | binding pattern => exact List.mem_flatMap.mpr ⟨_, hd, hname⟩
  | function code => cases hname

theorem declareGlobal_agree {body : List Statement} {env : EnvId} (hbody : gains.Covers env body)
    (henv : m₀.HasThisAt env) :
    Agree gains final m₀ (declareGlobal body env) (declareGlobal body env) := by
  have hlexical : Agree gains final m₀ (declareLexical env (Body.lexicallyScoped body true))
      (declareLexical env (Body.lexicallyScoped body true)) :=
    declareLexical_agree (.inr fun d hd name hname => hbody.lexical name (List.mem_flatMap.mpr ⟨d, hd, hname⟩))
  refine .bind hlexical fun m₁ _ h₁ => .bind (.forM fun code hcode m₂ h₂ => ?_) fun m₂ _ h₂ => ?_
  · refine .bind (instantiateDeclaration_agree code ((henv.later h₁).later h₂) none) fun m₃ f h₃ => ?_
    exact env.createGlobalFunction_agree (hbody.functions code hcode) _ _
  · refine .forM fun name hname m₃ h₃ => env.createGlobalVar_agree (hbody.var name ?_) false
    have hvariable := (List.mem_filter.mp (List.mem_eraseDups.mp hname)).1
    exact Body.mem_varNames_of_variableNames hvariable

theorem instantiateGlobal_agree {body : List Statement} {env : EnvId} (hbody : gains.Covers env body)
    (henv : m₀.HasThisAt env) :
    Agree gains final m₀ (instantiateGlobal body env) (instantiateGlobal body env) := by
  rw [instantiateGlobal_eq]
  exact .bind (.quiet (checkGlobal_quiet body env)) fun m₁ _ h₁ => declareGlobal_agree hbody (henv.later h₁)

theorem Machine.IsGlobal.hasThisAt {env : EnvId} (h : m.IsGlobal env) : m.HasThisAt env := by
  obtain ⟨g, hg⟩ := h
  exact ⟨_, .global hg⟩

theorem RealmId.load_ok {id : RealmId} {r : Realm} (h : id.load m = .ok r) : m.realm? id = some r := by
  unfold RealmId.load at h
  split at h
  · rename_i hr
    cases h
    exact hr
  · cases h

theorem scriptContext_ok {id : RealmId} {strict : Bool} {c : Context}
    (h : scriptContext id strict m = .ok c) :
    c.function = none ∧ ∃ r, m.realm? id = some r ∧ c.lexicalEnv = r.globalEnv := by
  unfold scriptContext at h
  obtain ⟨r, hload, hr⟩ := Query.bind_eq_ok h
  cases hr
  exact ⟨rfl, r, RealmId.load_ok hload, rfl⟩

/-- A script context is one for its code. -/
theorem Machine.IsScoped.scriptContext (hm : m.IsScoped) {id : RealmId} {strict : Bool} {c : Context}
    (h : scriptContext id strict m = .ok c) : m.Hosts c.function c.lexicalEnv := by
  obtain ⟨hfunction, r, hr, henv⟩ := scriptContext_ok h
  refine ⟨henv ▸ (hm.realms id r hr).hasThisAt, fun o ho => ?_⟩
  cases hfunction.symm.trans ho

namespace Evaluator

/-- Runs a script in a realm with the given global environment. -/
def scriptIn (ev : Evaluator) (id : RealmId) (env : EnvId) (body : List Statement) :
    Eval Completion := do
  let result ← completing do
    let context ← scriptContext id (Body.hasStrictDirective body)
    withContext context do
      instantiateGlobal body env
      ev.statements body none
  match result with
  | .normal none => return .normal (some .undefined)
  | other => return other

theorem script_eq (ev : Evaluator) (body : List Statement) :
    ev.script body = liftM currentRealm >>= fun id => liftM id.load >>= fun r =>
      ev.scriptIn id r.globalEnv body := rfl

variable {ev ev' : Evaluator} (hev : ev.Agrees gains final ev')

include hev

theorem scriptIn_agree {body : List Statement} {env : EnvId} (hbody : gains.Covers env body)
    (henv : m₀.HasThisAt env) (id : RealmId) :
    Agree gains final m₀ (ev.scriptIn id env body) (ev'.scriptIn id env body) := by
  have hrun : Agree gains final m₀
      (do let context ← scriptContext id (Body.hasStrictDirective body)
          withContext context do
            instantiateGlobal body env
            ev.statements body none)
      (do let context ← scriptContext id (Body.hasStrictDirective body)
          withContext context do
            instantiateGlobal body env
            ev'.statements body none) := by
    refine .bind_of (.quiet (.lift _)) fun context m m₁ hm₀ hm hrun _ => ?_
    obtain ⟨rfl, hcontext⟩ := lift_eq_ok hrun
    intro m₂ hm₂ hscoped
    have hhosts : m₂.Hosts context.function context.lexicalEnv := hm₂.hosts (hm.scriptContext hcontext)
    let n := m₂.withContexts (context :: m₂.contexts)
    have hopens : m₂.Opens gains context n := ⟨rfl, .refl m₂, hscoped⟩
    have hpushed : m₂.Persists gains n := .withContexts m₂ _
    have hthis : n.HasThisAt env := ((henv.later hm₀).later hm₂).imp fun _ => hpushed.thisAt
    have hrest : Agree gains final n (instantiateGlobal body env >>= fun _ => ev.statements body none)
        (instantiateGlobal body env >>= fun _ => ev'.statements body none) :=
      .bind (instantiateGlobal_agree hbody hthis) fun _ _ _ => statements_agree hev body none
    obtain ⟨hsame, hadvances⟩ :=
      withContext_agree hscoped context (hopens.run (hopens.close hhosts) hrest)
    exact ⟨fun _ => hsame, hadvances⟩
  refine .bind (.completing hrun) fun m₁ result h₁ => ?_
  split <;> exact .pure _

theorem script_agree {body : List Statement} (hbody : ∀ env, gains.Covers env body) :
    Agree gains final m₀ (ev.script body) (ev'.script body) := by
  rw [script_eq, script_eq]
  refine .bind (.quiet (.lift _)) fun m₁ id h₁ => ?_
  refine .bind_of (.quiet (.lift _)) fun r m m₂ h₂ hm hrun _ => ?_
  obtain ⟨rfl, hload⟩ := lift_eq_ok hrun
  have henv : m₂.HasThisAt r.globalEnv := (hm.realms id r (RealmId.load_ok hload)).hasThisAt
  exact scriptIn_agree hev (hbody _) henv id

end Evaluator

/-- The global environments may gain the names that a node declares. -/
def Node.Gains (gains : Growth) : Node → Prop
  | .script body => ∀ env, gains.Covers env body
  | .statement _ | .expression _ => True

theorem Node.evaluateBy_agree {ev ev' : Evaluator} (hev : ev.Agrees gains final ev') {node : Node}
    (hnode : node.Gains gains) : Agree gains final m₀ (node.evaluateBy ev) (node.evaluateBy ev') := by
  cases node with
  | script body => exact Evaluator.script_agree hev hnode
  | statement s => exact hev.statement m₀ s
  | expression e => exact .completing (.bind (Evaluator.value_agree hev e) fun _ _ _ => .pure _)

/-- A machine that running code may come to on its way to the final one. -/
structure Machine.IsOnWay (gains : Growth) (m final : Machine) : Prop where
  isScoped : m.IsScoped
  running : m.contexts ≠ []
  persists : m.Persists gains final

namespace Evaluator

/-- Takes a look before a run and, if it succeeds, after it. -/
def lookAround (watch : Eval Unit) (x : Eval α) : Eval α := do
  watch
  let a ← x
  watch
  return a

/-- The evaluator of a level that takes looks before and after each evaluation. -/
def watched (watch : Eval Unit) : Nat → Evaluator
  | 0 => { expression := fun _ => throw .exhausted, statement := fun _ => throw .exhausted }
  | n + 1 =>
    { expression := fun e => lookAround watch ((watched watch n).evaluate e)
      statement := fun s => lookAround watch ((watched watch n).execute n s) }

section Looks

variable {watch : Eval Unit} (hwatch : ∀ m : Machine, m.IsOnWay gains final → watch m = .ok () m)

include hwatch

/-- Looks make no difference if the machines on the way stand them. -/
theorem lookAround_agree {x y : Eval α} (h : Agree gains final m₀ x y) :
    Agree gains final m₀ x (lookAround watch y) := by
  intro m hm₀ hm
  obtain ⟨hsame, hadvances⟩ := h m hm₀ hm
  refine ⟨fun hcontexts hfinal => ?_, hadvances⟩
  have hbefore : watch m = .ok () m := hwatch m ⟨hm, hcontexts, hadvances.1.toPersists.trans hfinal⟩
  unfold lookAround
  rw [bind_ok hbefore]
  cases hrun : x m with
  | error e m₁ => rw [bind_error ((hsame hcontexts hfinal).trans hrun)]
  | ok a m₁ =>
    obtain ⟨hlater, hm₁⟩ := hadvances.ok hrun
    rw [Eval.after_ok hrun] at hfinal
    have hafter : watch m₁ = .ok () m₁ := hwatch m₁ ⟨hm₁, hlater.contexts_ne_nil hcontexts, hfinal⟩
    rw [← Eval.after_ok hrun] at hfinal
    rw [bind_ok ((hsame hcontexts hfinal).trans hrun)]
    exact bind_ok hafter

theorem watched_agrees (n : Nat) : (level n).Agrees gains final (watched watch n) := by
  induction n with
  | zero => exact ⟨fun _ _ => .quiet (.throw _), fun _ _ => .quiet (.throw _)⟩
  | succ n ih =>
    refine ⟨fun _ e => ?_, fun _ s => ?_⟩
    · exact lookAround_agree hwatch (evaluate_agree ih e)
    · exact lookAround_agree hwatch (execute_agree ih n s)

end Looks

theorem level_agrees (n : Nat) : (level n).Agrees gains final (level n) := by
  induction n with
  | zero => exact ⟨fun _ _ => .quiet (.throw _), fun _ _ => .quiet (.throw _)⟩
  | succ n ih => exact ⟨fun _ e => evaluate_agree ih e, fun _ s => execute_agree ih n s⟩

end Evaluator

end EcmaEval
