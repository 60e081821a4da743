import EcmaEval.Object.Access

/-!
# Access to environments

Creating, initializing, reading, writing and deleting bindings in any kind of environment, the `this`
of function calls, and the declarations of global code. A name resolves to a reference along the scope
chain, and a reference is read, written or initialized through what it names.
-/
namespace EcmaEval

def newDeclarativeEnvironment (outer : Option EnvId) : Eval EnvId :=
  allocateEnvironment (.declarative { outer })

def newObjectEnvironment (object : ObjectId) (isWith : Bool) (outer : Option EnvId) : Eval EnvId :=
  allocateEnvironment (.object { object, isWith, outer })

namespace ObjectScope

def hasBinding (s : ObjectScope) (name : String) : Query Bool := s.object.hasProperty (.name name)

def createMutable (s : ObjectScope) (name : String) (deletable : Bool) : Eval Unit :=
  s.object.defineOrThrow (.name name) (.data .undefined true true deletable)

/-- Assigns to a property. In strict code the property has to exist and to take the value. -/
def assign (s : ObjectScope) (name : String) (value : Value) (strict : Bool) : Eval Unit := do
  let exists? ← s.hasBinding name
  if !exists? && strict then complain (.notDefined name)
  let succeeded ← s.object.set (.name name) value (.object s.object)
  if !succeeded && strict then complain (.readOnlyBinding name)

/-- Reads a property; a missing one is an error in strict code only. -/
def read (s : ObjectScope) (name : String) (strict : Bool) : Eval Value := do
  if !(← s.hasBinding name) then
    if strict then complain (.notDefined name) else return .undefined
  else s.object.get (.name name)

end ObjectScope

namespace EnvId

def hasBinding (env : EnvId) (name : String) : Query Bool := do
  match ← env.load with
  | .declarative r => return r.has name
  | .object s => s.hasBinding name
  | .global g => if g.declarative.has name then return true else g.scope.hasBinding name

def createMutable (env : EnvId) (name : String) (deletable : Bool) : Eval Unit := do
  match ← env.load with
  | .declarative r => env.store (.declarative (← settle (r.createMutable name deletable)))
  | .object s => s.createMutable name deletable
  | .global g =>
    if g.declarative.has name then complain (.alreadyDeclared name)
    else
      let declarative ← settle (g.declarative.createMutable name deletable)
      env.store (.global { g with declarative })

def createImmutable (env : EnvId) (name : String) (strict : Bool) : Eval Unit := do
  match ← env.load with
  | .declarative r => env.store (.declarative (← settle (r.createImmutable name strict)))
  | .object _ => breach .immutableInObject
  | .global g =>
    if g.declarative.has name then complain (.alreadyDeclared name)
    else
      let declarative ← settle (g.declarative.createImmutable name strict)
      env.store (.global { g with declarative })

def createLexical (env : EnvId) (constant : Bool) (name : String) : Eval Unit :=
  if constant then env.createImmutable name true else env.createMutable name false

def initBinding (env : EnvId) (name : String) (value : Value) : Eval Unit := do
  match ← env.load with
  | .declarative r => env.store (.declarative (← settle (r.initBinding name value)))
  | .object s => s.assign name value false
  | .global g =>
    if g.declarative.has name then
      let declarative ← settle (g.declarative.initBinding name value)
      env.store (.global { g with declarative })
    else g.scope.assign name value false

def assign (env : EnvId) (name : String) (value : Value) (strict : Bool) : Eval Unit := do
  match ← env.load with
  | .declarative r => env.store (.declarative (← settle (r.assign name value strict)))
  | .object s => s.assign name value strict
  | .global g =>
    if g.declarative.has name then
      let declarative ← settle (g.declarative.assign name value strict)
      env.store (.global { g with declarative })
    else g.scope.assign name value strict

def read (env : EnvId) (name : String) (strict : Bool) : Eval Value := do
  match ← env.load with
  | .declarative r => settle (r.read name)
  | .object s => s.read name strict
  | .global g =>
    if g.declarative.has name then settle (g.declarative.read name) else g.scope.read name strict

/-- Removes a binding; the answer says whether it is gone. A property of the global object takes its
name out of the `var` names. -/
def delete (env : EnvId) (name : String) : Eval Bool := do
  match ← env.load with
  | .declarative r =>
    let (deleted, r) ← settle (r.delete name)
    env.store (.declarative r)
    return deleted
  | .object s => s.object.delete (.name name)
  | .global g =>
    if g.declarative.has name then
      let (deleted, declarative) ← settle (g.declarative.delete name)
      env.store (.global { g with declarative })
      return deleted
    else if !(← g.scope.object.hasOwnProperty (.name name)) then return true
    else
      let deleted ← g.scope.object.delete (.name name)
      if deleted then env.store (.global (g.removeVarName name))
      return deleted

def hasThis (env : EnvId) : Query Bool := do
  match ← env.load with
  | .declarative r => return r.hasThis
  | .object _ => return false
  | .global _ => return true

def withObject? (env : EnvId) : Query (Option ObjectId) := do
  match ← env.load with
  | .object s => return if s.isWith then some s.object else none
  | _ => return none

def getThis (env : EnvId) : Eval Value := do
  match ← env.load with
  | .global g => return .object g.globalThis
  | .declarative { call := some slots, .. } =>
    match slots.thisStatus with
    | .initialized => return slots.thisValue
    | .uninitialized => complain .thisBeforeSuper
    | .lexical => breach .lexicalThis
  | _ => breach .withoutThis

def bindThis (env : EnvId) (value : Value) : Eval Unit := do
  match ← env.load with
  | .object _ => breach .notDeclarative
  | .declarative r@{ call := some slots, .. } =>
    match slots.thisStatus with
    | .lexical => breach .bindLexicalThis
    | .initialized => complain .superTwice
    | .uninitialized =>
      let call := some { slots with thisValue := value, thisStatus := .initialized }
      env.store (.declarative { r with call })
  | _ => breach .bindThisOutsideFunction

def loadGlobal (env : EnvId) : Query GlobalRecord := do
  match ← env.load with
  | .global g => return g
  | _ => breach .notGlobal

def hasVarDeclaration (env : EnvId) (name : String) : Query Bool :=
  return (← env.loadGlobal).varNames.contains name

def hasLexicalDeclaration (env : EnvId) (name : String) : Query Bool :=
  return (← env.loadGlobal).declarative.has name

def hasRestrictedProperty (env : EnvId) (name : String) : Query Bool := do
  match ← (← env.loadGlobal).scope.object.getOwnProperty (.name name) with
  | none => return false
  | some d => return !d.configurable

def canDeclareVar (env : EnvId) (name : String) : Query Bool := do
  let global := (← env.loadGlobal).scope.object
  if ← global.hasOwnProperty (.name name) then return true else global.isExtensible

def canDeclareFunction (env : EnvId) (name : String) : Query Bool := do
  let global := (← env.loadGlobal).scope.object
  match ← global.getOwnProperty (.name name) with
  | none => global.isExtensible
  | some (.data _ writable enumerable configurable) =>
    return configurable || (writable && enumerable)
  | some (.accessor _ _ _ configurable) => return configurable

def declareVarName (env : EnvId) (name : String) : Eval Unit := do
  env.store (.global ((← env.loadGlobal).addVarName name))

/-- Declares a global variable: a property with the value undefined unless there is one. -/
def createGlobalVar (env : EnvId) (name : String) (deletable : Bool) : Eval Unit := do
  let scope := (← env.loadGlobal).scope
  let hasProperty ← scope.object.hasOwnProperty (.name name)
  let extensible ← scope.object.isExtensible
  if !hasProperty && extensible then
    scope.createMutable name deletable
    scope.assign name .undefined false
  env.declareVarName name

/-- Declares a global function. An existing property that is not configurable keeps its flags. -/
def createGlobalFunction (env : EnvId) (name : String) (value : Value) (deletable : Bool) :
    Eval Unit := do
  let global := (← env.loadGlobal).scope.object
  let fresh : Descriptor := .data value true true deletable
  let d ←
    match ← global.getOwnProperty (.name name) with
    | none => pure fresh
    | some old => pure (if old.configurable then fresh else old.withValue value)
  global.defineOrThrow (.name name) d
  if !(← global.set (.name name) value (.object global)) then complain (.readOnlyBinding name)
  env.declareVarName name

end EnvId

/-- Searches an environment and its outer environments, innermost first. More steps than there are
environments mean that the chain has no end. -/
def findOnScopeChain (probe : EnvId → Query Bool) : Nat → Option EnvId → Query (Option EnvId)
  | _, none => pure none
  | 0, some _ => throw .exhausted
  | steps + 1, some env => do
    if ← probe env then return some env
    else findOnScopeChain probe steps (← env.load).outer?

def searchScopeChain (start : Option EnvId) (probe : EnvId → Query Bool) : Query (Option EnvId) := do
  findOnScopeChain probe ((← read).environments.size + 1) start

def identifierReference (env : Option EnvId) (name : String) (strict : Bool) : Query Reference := do
  match ← searchScopeChain env (·.hasBinding name) with
  | some found => return .binding found name strict
  | none => return .unresolvable name strict

/-- The reference a name makes in running code, from the lexical environment unless another one is
given. -/
def resolveBinding (name : String) (env : Option EnvId) : Query Value := do
  let start ←
    match env with
    | some env => pure env
    | none => lexicalEnv
  let strict ← isStrict
  return .reference (← identifierReference (some start) name strict)

def thisEnvironment : Query EnvId := do
  match ← searchScopeChain (← lexicalEnv) (·.hasThis) with
  | some env => return env
  | none => breach .chainWithoutThis

def resolveThis : Eval Value := do (← thisEnvironment).getThis

namespace Value

/-- The value a reference names; any other value is itself. -/
def getValue : Value → Eval Value
  | .reference (.unresolvable name _) => complain (.notDefined name)
  | .reference (.binding env name strict) => env.read name strict
  | .reference (.property base name _ _) => do
    let object ← base.toObject
    let key ← name.toKey
    object.get key
  | v => pure v

/-- Writes what a reference names. In sloppy code an unresolvable name becomes a property of the
global object, and a property that refuses the value is left alone. -/
def putValue (target value : Value) : Eval Unit :=
  match target with
  | .reference (.unresolvable name strict) => do
    if strict then complain (.notDefined name)
    else
      let global := (← (← currentRealm).load).globalObject
      discard (global.set (.name name) value (.object global))
  | .reference (.binding env name strict) => env.assign name value strict
  | .reference (.property base name thisValue strict) => do
    let object ← base.toObject
    let key ← name.toKey
    let succeeded ← object.set key value (thisValue.getD base)
    if !succeeded && strict then complain (.readOnlyProperty key.display)
  | _ => complain .invalidTarget

def initReferenced (target value : Value) : Eval Unit :=
  match target with
  | .reference (.binding env name _) => env.initBinding name value
  | .reference _ => breach .initializeNonBinding
  | _ => breach .initializeNonReference

end Value

end EcmaEval
