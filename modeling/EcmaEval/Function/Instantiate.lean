import EcmaEval.Evaluator

/-!
# Entering a function

Before the body of a function runs, its parameters, its arguments object, its variables, its
block-scoped names and its inner functions are bound.
-/
namespace EcmaEval

def FunctionCode.bindingName (code : FunctionCode) : String := code.name.getD ""

/-- Of functions with one name the last. -/
def lastOfEachName : List FunctionCode → List FunctionCode
  | [] => []
  | f :: rest =>
    if rest.any (·.bindingName == f.bindingName) then lastOfEachName rest else f :: lastOfEachName rest

/-- The functions to create on entering a body, in the order of their last declarations. -/
def Body.functions (body : List Statement) : List FunctionCode :=
  lastOfEachName ((Body.varScoped body).filterMap fun
    | .function code => some code
    | .binding _ => none)

def declareLexical (env : EnvId) (declarations : List LexicalDeclaration) : Eval Unit :=
  declarations.forM fun d => d.boundNames.forM (env.createLexical d.isConstant)

/-- Creates the bindings of parameter names. With repeated names they start as undefined. -/
def declareParameters (env : EnvId) (repeated : Bool) (names : List String) : Eval Unit :=
  names.forM fun name => do
    if !(← env.hasBinding name) then
      env.createMutable name false
      if repeated then env.initBinding name .undefined

def declareInitialized (env : EnvId) (initial : String → Eval Value) (names : List String) :
    Eval Unit :=
  names.forM fun name => do
    env.createMutable name false
    env.initBinding name (← initial name)

/-- The initial value of a variable in an environment of its own: if it is named like a parameter, the
value of that parameter, unless a function takes the name. -/
def shadowedValue (env : EnvId) (parameters functions : List String) (name : String) : Eval Value :=
  if !parameters.contains name || functions.contains name then pure .undefined
  else env.read name false

namespace Evaluator

def bindParameters (ev : Evaluator) (env : Option EnvId) : List Pattern → List Value → Eval Unit
  | [], _ => pure ()
  | .rest target :: _, arguments => do
    let array ← newArrayOf arguments
    ev.bindPattern env target (.object array)
  | p :: rest, arguments => do
    ev.bindPattern env p (arguments.headD .undefined)
    ev.bindParameters env rest arguments.tail

/-- Whether a call needs an arguments object: not in an arrow, and not if the name is taken. -/
def needsArguments (slots : FunctionSlots) : Bool :=
  let code := slots.code
  let taken :=
    ((Body.functions code.statements).map (·.bindingName)).contains "arguments" ||
      (Body.lexicalNames code.statements true).contains "arguments"
  slots.thisMode != .lexical && !(Parameters.names code.parameters).contains "arguments" &&
    (Parameters.containsExpression code.parameters || !taken)

def bindArguments (f : ObjectId) (slots : FunctionSlots) (env : EnvId) (arguments : List Value) :
    Eval Unit := do
  let parameters := slots.code.parameters
  let mapping :=
    if !slots.strict && Parameters.isSimple parameters then some (Parameters.names parameters, env)
    else none
  let o ← newArguments f arguments mapping
  if slots.strict then env.createImmutable "arguments" false
  else env.createMutable "arguments" false
  env.initBinding "arguments" (.object o)

/-- Creates the variables of a body. If parameters contain expressions, variables get an environment
of their own, so that those expressions do not see them. -/
def bindVariables (slots : FunctionSlots) (env : EnvId) (parameterNames : List String) :
    Eval EnvId := do
  let code := slots.code
  let names := Body.varNames code.statements
  if !Parameters.containsExpression code.parameters then
    declareInitialized env (fun _ => pure .undefined)
      (names.filter (!parameterNames.contains ·)).eraseDups
    return env
  else
    let varEnv ← newDeclarativeEnvironment (some env)
    modifyContext ({ · with variableEnv := varEnv })
    let functions := (Body.functions code.statements).map (·.bindingName)
    declareInitialized varEnv (shadowedValue env parameterNames functions) names.eraseDups
    return varEnv

def bindFunctions (slots : FunctionSlots) (lexEnv varEnv : EnvId) : Eval Unit := do
  let privateEnv := (← runningContext).privateEnv
  (Body.functions slots.code.statements).forM fun code => do
    let f ← instantiateDeclaration code lexEnv privateEnv
    varEnv.assign code.bindingName (.object f) false

/-- The environment that binds the parameters of the running call. In sloppy code with parameter
expressions it is one of its own. -/
def parameterEnv (slots : FunctionSlots) : Eval EnvId := do
  let calleeEnv ← lexicalEnv
  if slots.strict || !Parameters.containsExpression slots.code.parameters then return calleeEnv
  else
    let env ← newDeclarativeEnvironment (some calleeEnv)
    setLexicalEnv env
    return env

def repeatsParameter (slots : FunctionSlots) : Bool :=
  let names := Parameters.names slots.code.parameters
  names.eraseDups.length != names.length

def bindCall (ev : Evaluator) (f : ObjectId) (slots : FunctionSlots) (env : EnvId)
    (arguments : List Value) : Eval Unit := do
  let repeated := repeatsParameter slots
  declareParameters env repeated (Parameters.names slots.code.parameters)
  if needsArguments slots then bindArguments f slots env arguments
  ev.bindParameters (if repeated then none else some env) slots.code.parameters arguments

def callNames (slots : FunctionSlots) : List String :=
  let names := Parameters.names slots.code.parameters
  if needsArguments slots then names ++ ["arguments"] else names

/-- Creates the block-scoped names and the functions of a body. In sloppy code the block-scoped names
get an environment of their own. -/
def enterBody (slots : FunctionSlots) (varEnv : EnvId) : Eval Unit := do
  let lexEnv ← if slots.strict then pure varEnv else newDeclarativeEnvironment (some varEnv)
  setLexicalEnv lexEnv
  declareLexical lexEnv (Body.lexicallyScoped slots.code.statements true)
  bindFunctions slots lexEnv varEnv

def instantiateFunction (ev : Evaluator) (f : ObjectId) (slots : FunctionSlots)
    (arguments : List Value) : Eval Unit := do
  let env ← parameterEnv slots
  ev.bindCall f slots env arguments
  let varEnv ← bindVariables slots env (callNames slots)
  enterBody slots varEnv

end Evaluator

end EcmaEval
