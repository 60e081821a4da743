import EcmaEval.Function.Call

/-!
# Blocks and branching statements

Blocks and declarations, and the if, switch, try, with and labelled statements. A block, and the case
block of a switch, runs in a new environment that binds what it declares.
-/
namespace EcmaEval

/-- Creates a function of a block and binds it. Of several with one name the later replaces the
earlier. -/
def bindBlockFunction (env : EnvId) (code : FunctionCode) (isFirst : Bool) : Eval Unit := do
  let privateEnv := (← runningContext).privateEnv
  let f ← instantiateDeclaration code env privateEnv
  if isFirst then env.initBinding code.bindingName (.object f)
  else env.assign code.bindingName (.object f) false

/-- Creates the binding of a block-scoped name. Only a constant insists on being new. -/
def declareBlockName (env : EnvId) (constant : Bool) (name : String) : Eval Unit := do
  if constant then env.createImmutable name true
  else if !(← env.hasBinding name) then env.createMutable name false

/-- Creates the bindings of a block and its functions. `bound` lists the function names that have a
value already. -/
def instantiateBlock (env : EnvId) : List LexicalDeclaration → List String → Eval Unit
  | [], _ => pure ()
  | d :: rest, bound => do
    d.boundNames.forM (declareBlockName env d.isConstant)
    match d with
    | .binding _ _ => instantiateBlock env rest bound
    | .function code =>
      bindBlockFunction env code (!bound.contains code.bindingName)
      instantiateBlock env rest (code.bindingName :: bound)

def withBlockScope (declarations : List LexicalDeclaration) (x : Eval Completion) :
    Eval Completion := do
  let outer ← lexicalEnv
  let env ← newDeclarativeEnvironment (some outer)
  instantiateBlock env declarations []
  withLexicalEnv env x

namespace Evaluator

def block (ev : Evaluator) (body : List Statement) : Eval Completion := completing do
  if body.isEmpty then return .normal none
  else withBlockScope (Body.lexicallyScoped body false) (ev.statements body none)

def declarator (ev : Evaluator) (kind : DeclarationKind) (d : Declarator) : Eval Unit := do
  match d.pattern, d.init, kind with
  | .identifier _, none, .var => pure ()
  | .identifier name, init, kind =>
    let target ← resolveBinding name none
    let value ←
      match init with
      | some e => ev.valueNamed e (.name name)
      | none => pure .undefined
    match kind with
    | .var => target.putValue value
    | .lexical _ => target.initReferenced value
  | pattern, some e, kind =>
    let value ← ev.value e
    let env ←
      match kind with
      | .var => pure none
      | .lexical _ => do pure (some (← lexicalEnv))
    ev.bindPattern env pattern value
  | _, none, _ => breach .patternWithoutInit

def declare (ev : Evaluator) (kind : DeclarationKind) (declarators : List Declarator) : Eval Unit :=
  declarators.forM (ev.declarator kind)


def ifStatement (ev : Evaluator) (test : Expression) (consequent : Statement)
    (alternate : Option Statement) : Eval Completion := do
  if (← ev.value test).toBoolean then
    return (← ev.statement consequent).updateEmpty (some .undefined)
  else
    match alternate with
    | some s => return (← ev.statement s).updateEmpty (some .undefined)
    | none => return .normal (some .undefined)

def matchingClauses (ev : Evaluator) (input : Value) :
    List SwitchClause → Eval (Option (List SwitchClause))
  | [] => return none
  | clause :: rest => do
    match clause.test with
    | none => ev.matchingClauses input rest
    | some test =>
      let value ← ev.value test
      if input.strictlyEqual value then return some (clause :: rest)
      else ev.matchingClauses input rest

def runClauses (ev : Evaluator) : List SwitchClause → Value → Eval Completion
  | [], last => return .normal (some last)
  | clause :: rest, last => do
    let result ← ev.statements clause.body none
    let last := result.value?.getD last
    if result.isAbrupt then return result.updateEmpty (some last)
    else ev.runClauses rest last

/-- Runs the clauses from the first that matches, or else from the default clause. -/
def caseBlock (ev : Evaluator) (clauses : List SwitchClause) (input : Value) : Eval Completion := do
  match ← ev.matchingClauses input clauses with
  | some selected => ev.runClauses selected .undefined
  | none => ev.runClauses (clauses.dropWhile (·.test.isSome)) .undefined

def switchStatement (ev : Evaluator) (discriminant : Expression) (clauses : List SwitchClause) :
    Eval Completion := do
  let input ← ev.value discriminant
  let declarations := clauses.flatMap fun clause => Body.lexicallyScoped clause.body false
  withBlockScope declarations (ev.caseBlock clauses input)

def catchClause (ev : Evaluator) (handler : CatchClause) (value : Value) : Eval Completion :=
  completing do
    match handler.parameter with
    | none => ev.block handler.body
    | some parameter =>
      let outer ← lexicalEnv
      let env ← newDeclarativeEnvironment (some outer)
      parameter.boundNames.forM (env.createMutable · false)
      withLexicalEnv env do
        ev.bindPattern (some env) parameter value
        ev.block handler.body

def guarded (ev : Evaluator) (body : List Statement) (handler : Option CatchClause) :
    Eval Completion := do
  match ← ev.block body, handler with
  | .thrown value, some handler => ev.catchClause handler value
  | completion, _ => return completion

/-- A try statement. The finalizer runs after every completion, and its own completion counts only if
it is abrupt. -/
def tryStatement (ev : Evaluator) (body : List Statement) (handler : Option CatchClause)
    (finalizer : Option (List Statement)) : Eval Completion := do
  let completion ← ev.guarded body handler
  let completion ←
    match finalizer with
    | none => pure completion
    | some last => do
      match ← ev.block last with
      | .normal _ => pure completion
      | abrupt => pure abrupt
  return completion.updateEmpty (some .undefined)

def withStatement (ev : Evaluator) (object : Expression) (body : Statement) : Eval Completion := do
  let value ← ev.value object
  let o ← value.toObject
  let outer ← lexicalEnv
  let env ← newObjectEnvironment o true (some outer)
  let result ← withLexicalEnv env (ev.statement body)
  return result.updateEmpty (some .undefined)

/-- Adds a label for the statement that follows, and consumes a break to it. -/
def labelledStatement (ev : Evaluator) (label : String) (body : Statement) : Eval Completion := do
  modifyContext fun c => { c with labels := c.labels ++ [label] }
  match ← ev.statement body with
  | .broke (some target) value =>
    if target == label then return .normal value else return .broke (some target) value
  | other => return other

end Evaluator

end EcmaEval
