import EcmaEval.Expression.Evaluate
import EcmaEval.Statement.Loop

/-!
# Evaluation

Statements, scripts, and the evaluators by level. Labels collect in the running context; a loop takes
them, and any other statement but a labelled one drops them. Global code first declares its names, all
or none, and then runs its statements. An evaluator of level `n + 1` gives a construct its meaning by way
of the evaluator of level `n` for its parts, and bounds the iterations of a loop by `n`; at level zero
every evaluation is exhausted.
-/
namespace EcmaEval

/-- Takes the labels collected so far out of the running context, which a labelled statement leaves
where they are. -/
def takeLabels : Statement → Eval (List String)
  | .labelled _ _ => return []
  | _ => do
    let labels := (← runningContext).labels
    modifyContext ({ · with labels := [] })
    return labels

namespace Evaluator

/-- Runs a statement with the labels directly before it. -/
def executeWith (ev : Evaluator) (steps : Nat) (labels : List String) : Statement → Eval Completion
  | .empty | .debugger | .function _ => return .normal none
  | .expression e => return .normal (some (← ev.value e))
  | .block body => ev.block body
  | .declare kind declarators => do
    ev.declare kind declarators
    return .normal none
  | .conditional test consequent alternate => ev.ifStatement test consequent alternate
  | .whileLoop test body =>
    return (← ev.whileLoop test body labels steps .undefined).absorbBreak
  | .doWhileLoop body test =>
    return (← ev.doWhileLoop body test labels steps .undefined).absorbBreak
  | .forLoop init test update body =>
    return (← ev.forLoop steps init test update body labels).absorbBreak
  | .forIn target source body => return (← ev.forIn steps target source body labels).absorbBreak
  | .forOf _ _ _ => unsupported .forOf
  | .returns none => return .returned .undefined
  | .returns (some e) => return .returned (← ev.value e)
  | .breaks label => return .broke label none
  | .continues label => return .continued label none
  | .throws e => return .thrown (← ev.value e)
  | .tryCatch body handler finalizer => ev.tryStatement body handler finalizer
  | .switch discriminant clauses => return (← ev.switchStatement discriminant clauses).absorbBreak
  | .labelled label body => ev.labelledStatement label body
  | .withObject object body => ev.withStatement object body

def execute (ev : Evaluator) (steps : Nat) (s : Statement) : Eval Completion := completing do
  ev.executeWith steps (← takeLabels s) s

end Evaluator

/-- The names a body declares with `var`, functions aside. -/
def Body.variableNames (body : List Statement) : List String :=
  (Body.varScoped body).flatMap fun
    | .binding pattern => pattern.boundNames
    | .function _ => []

def EnvId.isTaken (env : EnvId) (name : String) : Query Bool := do
  if ← env.hasVarDeclaration name then return true
  else if ← env.hasLexicalDeclaration name then return true
  else env.hasRestrictedProperty name

def checkLexicalNames (env : EnvId) (names : List String) : Eval Unit :=
  names.forM fun name => do
    if ← env.isTaken name then complain (.redeclared name)

def checkVarNames (env : EnvId) (names : List String) : Eval Unit :=
  names.forM fun name => do
    if ← env.hasLexicalDeclaration name then complain (.redeclared name)

def checkFunctions (env : EnvId) (names : List String) : Eval Unit :=
  names.forM fun name => do
    if !(← env.canDeclareFunction name) then complain (.cannotDeclareFunction name)

def checkVariables (env : EnvId) (names : List String) : Eval Unit :=
  names.forM fun name => do
    if !(← env.canDeclareVar name) then complain (.cannotDeclareVariable name)

/-- Declares the names of global code. Every check comes before every change. -/
def instantiateGlobal (body : List Statement) (env : EnvId) : Eval Unit := do
  checkLexicalNames env (Body.lexicalNames body true)
  checkVarNames env (Body.varNames body)
  let functions := Body.functions body
  let functionNames := functions.map (·.bindingName)
  checkFunctions env functionNames.reverse
  let plainNames := (Body.variableNames body).filter (!functionNames.contains ·)
  checkVariables env plainNames
  declareLexical env (Body.lexicallyScoped body true)
  functions.forM fun code => do
    let f ← instantiateDeclaration code env none
    env.createGlobalFunction code.bindingName (.object f) false
  plainNames.eraseDups.forM (env.createGlobalVar · false)

def Evaluator.script (ev : Evaluator) (body : List Statement) : Eval Completion := do
  let realm ← currentRealm
  let env := (← realm.load).globalEnv
  let result ← completing do
    let context ← scriptContext realm (Body.hasStrictDirective body)
    withContext context do
      instantiateGlobal body env
      ev.statements body none
  match result with
  | .normal none => return .normal (some .undefined)
  | other => return other

def Evaluator.level : Nat → Evaluator
  | 0 => { expression := fun _ => throw .exhausted, statement := fun _ => throw .exhausted }
  | n + 1 =>
    { expression := fun e => (level n).evaluate e
      statement := fun s => (level n).execute n s }

inductive Node where
  | script (body : List Statement)
  | statement (s : Statement)
  | expression (e : Expression)

/-- Evaluates a node on the machine. A throw of running code is a completion; only faults and
exhaustion are failures. -/
def evaluate (level : Nat) (node : Node) : Eval Completion :=
  let ev := Evaluator.level level
  match node with
  | .script body => ev.script body
  | .statement s => ev.statement s
  | .expression e => completing do return .normal (some (← ev.value e))

end EcmaEval
