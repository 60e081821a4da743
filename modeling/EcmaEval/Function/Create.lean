import EcmaEval.Environment.Access
import EcmaEval.Scope

/-!
# Making functions and arguments objects

Function objects close over the running scope. They get a length and a name, and those that `new` may
be applied to also get a prototype object that points back to them. The arguments object of a sloppy
function with simple parameters is mapped: an index stands for the parameter at its position, unless a
later parameter has the same name.
-/
namespace EcmaEval

def newFunction (code : FunctionCode) (env : EnvId) (privateEnv : Option EnvId) : Eval ObjectId := do
  let realm ← currentRealm
  let prototype := (← realm.load).intrinsics.functionPrototype
  let strict := code.isStrict (← isStrict)
  let thisMode : ThisMode :=
    if code.kind == .arrow then .lexical else if strict then .strict else .global
  let slots : FunctionSlots :=
    { code, environment := env, privateEnv, realm, thisMode, strict, isConstructor := false }
  let f ← allocate { prototype := some prototype, kind := .function slots }
  f.defineOrThrow .length (.readOnly (.number (.ofNat (Parameters.expectedCount code.parameters))))
  return f

def Object.markConstructor (o : Object) : Object :=
  match o.kind with
  | .function slots => { o with kind := .function { slots with isConstructor := true } }
  | _ => o

/-- Lets `new` be applied to a function, whose instances inherit from a new prototype object. -/
def makeConstructor (f : ObjectId) : Eval Unit := do
  f.modify Object.markConstructor
  let prototype ← newObject (some (← intrinsics).objectPrototype)
  prototype.defineOrThrow (.name "constructor") (.hidden (.object f))
  f.defineOrThrow .prototype (.data (.object prototype) true false false)

/-- The text of a function name taken from a key; a symbol gives its description in brackets. -/
def Key.functionName : Key → String
  | .string t => t.toString
  | .symbol s =>
    match s.description with
    | some description => "[" ++ description.toString ++ "]"
    | none => ""

def setFunctionName (f : ObjectId) (name : String) : Eval Unit :=
  f.defineOrThrow (.name "name") (.readOnly (.ofString name))

def finishFunction (f : ObjectId) (code : FunctionCode) (name : String) : Eval Unit := do
  setFunctionName f name
  if code.isConstructor then makeConstructor f

/-- The function of a declaration. Without a name it is called `default`. -/
def instantiateDeclaration (code : FunctionCode) (env : EnvId) (privateEnv : Option EnvId) :
    Eval ObjectId := do
  let f ← newFunction code env privateEnv
  finishFunction f code (code.name.getD "default")
  return f

/-- The function of a function expression. One with a name of its own sees itself under that name;
any other takes the given name. -/
def instantiateExpression (code : FunctionCode) (name : Option Key) : Eval ObjectId := do
  let scope ← lexicalEnv
  let privateEnv := (← runningContext).privateEnv
  match code.ownName? with
  | none =>
    let f ← newFunction code scope privateEnv
    finishFunction f code ((name.map Key.functionName).getD "")
    return f
  | some ownName =>
    let env ← newDeclarativeEnvironment (some scope)
    env.createImmutable ownName false
    let f ← newFunction code env privateEnv
    finishFunction f code ownName
    env.initBinding ownName (.object f)
    return f

def instantiateMethod (code : FunctionCode) (name : String) : Eval ObjectId := do
  let scope ← lexicalEnv
  let privateEnv := (← runningContext).privateEnv
  let f ← newFunction code scope privateEnv
  setFunctionName f name
  return f

def instantiateArrow (code : FunctionCode) (name : Option Key) : Eval ObjectId :=
  instantiateMethod code ((name.map Key.functionName).getD "")

def defineElements (o : ObjectId) : Nat → List Value → Eval Unit
  | _, [] => pure ()
  | index, value :: rest => do
    o.createPropertyOrThrow (.ofIndex index) value
    defineElements o (index + 1) rest

def newArrayOf (elements : List Value) : Eval ObjectId := do
  let array ← newArray 0
  defineElements array 0 elements
  return array

/-- The parameter behind each index: of parameters with one name only the last counts, and only if
it has an argument. -/
def mappedNames (count : Nat) : Nat → List String → List (Key × String)
  | _, [] => []
  | index, name :: rest =>
    let later := mappedNames count (index + 1) rest
    if rest.contains name || count ≤ index then later else (.ofIndex index, name) :: later

def newUnmappedArguments (arguments : List Value) : Eval ObjectId := do
  let prototype := (← intrinsics).objectPrototype
  let o ← allocate { prototype := some prototype, kind := .arguments none }
  defineElements o 0 arguments
  o.defineOrThrow .length (.hidden (.number (.ofNat arguments.length)))
  return o

/-- The arguments object of a call. A mapping gives the parameter names and the environment that
binds them. -/
def newArguments (f : ObjectId) (arguments : List Value) (mapping : Option (List String × EnvId)) :
    Eval ObjectId := do
  let o ← newUnmappedArguments arguments
  match mapping with
  | none => return o
  | some (names, env) =>
    let map : ParameterMap := { env, names := mappedNames arguments.length 0 names }
    o.modify ({ · with kind := .arguments (some map) })
    o.defineOrThrow (.name "callee") (.hidden (.object f))
    return o

end EcmaEval
