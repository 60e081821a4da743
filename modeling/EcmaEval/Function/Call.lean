import EcmaEval.Function.Instantiate

/-!
# Calling functions

Calls and constructions of function objects, and the error constructors. A call runs in a context of
its own, which is gone afterwards however the call ends.
-/
namespace EcmaEval

def newFunctionEnvironment (f : ObjectId) (newTarget : Value) : Eval EnvId := do
  match (← f.load).kind with
  | .function slots =>
    let thisStatus : ThisStatus := if slots.thisMode == .lexical then .lexical else .uninitialized
    let call : CallSlots := { thisValue := .undefined, thisStatus, function := f, newTarget }
    allocateEnvironment (.declarative { outer := some slots.environment, call := some call })
  | _ => breach .notFunction

def prototypeProperty : Value → Query Value
  | .object c => c.get .prototype
  | _ => pure .undefined

/-- Makes a new error inherit from the prototype object of a new target, if there are both. -/
def ObjectId.inheritFrom (error : ObjectId) : Option Value → Eval Unit
  | some target => do
    match ← prototypeProperty target with
    | .object p => error.modify ({ · with prototype := some p })
    | _ => pure ()
  | none => pure ()

def ObjectId.setMessage (error : ObjectId) : Value → Eval Unit
  | .undefined => pure ()
  | message => do
    let text ← message.toText
    error.defineOrThrow (.name "message") (.hidden (.string text))

/-- An error object, as an error constructor makes it. A first argument is its message; a new target
with a prototype object decides its prototype. -/
def constructError (kind : ErrorKind) (arguments : List Value) (newTarget : Option Value) :
    Eval Value := do
  let error ← newError kind none
  error.inheritFrom newTarget
  error.setMessage (arguments.headD .undefined)
  return .object error

def prototypeFor (constructor : Value) : Query ObjectId := do
  match ← prototypeProperty constructor with
  | .object p => return p
  | _ => return (← intrinsics).objectPrototype

/-- Whether the prototype object of a function is on the prototype chain of a value. -/
def hasInstance (constructor value : Value) : Eval Bool := do
  if !(← constructor.isCallable) then return false
  else
    match constructor, value with
    | .object c, .object o =>
      match ← c.get .prototype with
      | .object prototype =>
        let found ← searchChain (← o.getPrototype) fun p =>
          pure (if p == prototype then some () else none)
        return found.isSome
      | _ => complain .instanceOfPrototype
    | _, _ => return false

def instanceOf (value target : Value) : Eval Bool := do
  if !target.isObject then complain .instanceOfNonObject
  else if !(← target.isCallable) then complain .instanceOfNonCallable
  else hasInstance target value

/-- Sets the `this` of the running call. Sloppy functions get the global object for a missing one. -/
def bindCallThis (slots : FunctionSlots) (thisValue : Value) : Eval Unit := do
  match slots.thisMode with
  | .lexical => pure ()
  | .strict => (← lexicalEnv).bindThis thisValue
  | .global =>
    let value ←
      if thisValue.isNullish then do (← slots.realm.load).globalEnv.getThis
      else do pure (.object (← thisValue.toObject))
    (← lexicalEnv).bindThis value

namespace Evaluator

def functionBody (ev : Evaluator) (f : ObjectId) (slots : FunctionSlots) (arguments : List Value) :
    Eval Completion := completing do
  ev.instantiateFunction f slots arguments
  match slots.code.body with
  | .block body => ev.statements body none
  | .concise e => return .returned (← ev.value e)

def runFunction (ev : Evaluator) (f : ObjectId) (slots : FunctionSlots) (thisValue : Value)
    (arguments : List Value) (newTarget : Value) : Eval Completion := do
  let env ← newFunctionEnvironment f newTarget
  let context : Context :=
    { realm := slots.realm, function := some f, lexicalEnv := env, variableEnv := env,
      privateEnv := slots.privateEnv, labels := [], strict := slots.strict }
  withContext context do
    bindCallThis slots thisValue
    ev.functionBody f slots arguments

def callFunction (ev : Evaluator) (f : ObjectId) (slots : FunctionSlots) (thisValue : Value)
    (arguments : List Value) : Eval Value := do
  if slots.code.isGenerator || slots.code.isAsync then unsupported .suspendedBodies
  else
    match ← ev.runFunction f slots thisValue arguments .undefined with
    | .returned value => return value
    | .normal _ => return .undefined
    | .thrown value => throw (.thrown value)
    | .broke _ _ | .continued _ _ => breach .escapedFunction

/-- A function returns an object it was told to, or else the object it was run on. -/
def constructFunction (ev : Evaluator) (f : ObjectId) (slots : FunctionSlots)
    (arguments : List Value) (newTarget : Value) : Eval Value := do
  let prototype ← prototypeFor newTarget
  let self ← newObject (some prototype)
  match ← ev.runFunction f slots (.object self) arguments newTarget with
  | .returned (.object o) => return .object o
  | .returned _ | .normal _ => return .object self
  | .thrown value => throw (.thrown value)
  | .broke _ _ | .continued _ _ => breach .escapedConstructor

def call (ev : Evaluator) (f thisValue : Value) (arguments : List Value) : Eval Value := do
  match f with
  | .object o =>
    match (← o.load).kind with
    | .errorConstructor kind => constructError kind arguments none
    | .function slots => ev.callFunction o slots thisValue arguments
    | _ => complain (.notFunction "value")
  | _ => complain (.notFunction "value")

/-- Applies `new` to a value; the new target is the value itself unless another one is given. -/
def construct (ev : Evaluator) (f : Value) (arguments : List Value) (newTarget : Option Value) :
    Eval Value := do
  match f with
  | .object o =>
    match (← o.load).kind with
    | .errorConstructor kind => constructError kind arguments (some (newTarget.getD f))
    | .function slots =>
      if slots.isConstructor then ev.constructFunction o slots arguments (newTarget.getD f)
      else complain (.notConstructor "value")
    | _ => complain (.notConstructor "value")
  | _ => complain (.notConstructor "value")

end Evaluator

end EcmaEval
