import EcmaEval.Environment.Basic
import EcmaEval.Object.Basic

/-!
# The machine

All objects, environments and realms of a run, and the stack of execution contexts. *Queries* read
the machine and may fail; *evaluations* also change it. A failing evaluation keeps the changes made
so far, so that what a failed run leaves behind is part of its meaning. A realm is made with its
standard objects, a global object and a global environment, and with one constructor for each kind of
error.
-/
namespace EcmaEval

structure Intrinsics where
  objectPrototype : ObjectId
  functionPrototype : ObjectId
  arrayPrototype : ObjectId
  errorPrototype : ErrorKind → ObjectId

structure Realm where
  intrinsics : Intrinsics
  globalObject : ObjectId
  globalEnv : EnvId

/-- An execution context: one script or function call in progress. -/
structure Context where
  realm : RealmId
  function : Option ObjectId
  lexicalEnv : EnvId
  variableEnv : EnvId
  privateEnv : Option EnvId
  /-- The labels directly before the statement about to run. -/
  labels : List String
  strict : Bool

structure Machine where
  objects : Array Object := #[]
  environments : Array Environment := #[]
  realms : Array Realm := #[]
  /-- The running context comes first. -/
  contexts : List Context := []
  /-- Symbols made so far. -/
  symbols : Nat := 0
  /-- Contexts allowed on the stack. -/
  stackLimit : Nat := 512

/-- Why an operation does not produce its result. -/
inductive Abrupt where
  | thrown (value : Value)
  | fault (f : Fault)
  /-- The evaluation needs more levels than it was given. -/
  | exhausted

abbrev Query : Type → Type := ReaderT Machine (Except Abrupt)

abbrev Eval : Type → Type := EStateM Abrupt Machine

def Query.run (q : Query α) : Eval α := fun m =>
  match q m with
  | .ok a => .ok a m
  | .error e => .error e m

instance : MonadLift Query Eval := ⟨Query.run⟩

def fault [MonadExceptOf Abrupt μ] (f : Fault) : μ α := throw (.fault f)

def breach [MonadExceptOf Abrupt μ] (b : Breach) : μ α := throw (.fault (.assertion b))

def unsupported [MonadExceptOf Abrupt μ] (feature : Feature) : μ α :=
  throw (.fault (.notImplemented feature))

namespace ObjectId

def load (o : ObjectId) : Query Object := fun m =>
  match m.objects[o.index]? with
  | some object => .ok object
  | none => .error (.fault (.invalidObject o))

def modify (o : ObjectId) (f : Object → Object) : Eval Unit := fun m =>
  if o.index < m.objects.size then .ok () { m with objects := m.objects.modify o.index f }
  else .error (.fault (.invalidObject o)) m

def insert (o : ObjectId) (key : Key) (d : Descriptor) : Eval Unit := o.modify (·.insert key d)

end ObjectId

def allocate (object : Object) : Eval ObjectId := fun m =>
  .ok ⟨m.objects.size⟩ { m with objects := m.objects.push object }

namespace EnvId

def load (env : EnvId) : Query Environment := fun m =>
  match m.environments[env.index]? with
  | some environment => .ok environment
  | none => .error (.fault (.invalidEnvironment env))

def store (env : EnvId) (environment : Environment) : Eval Unit := fun m =>
  if env.index < m.environments.size then
    .ok () { m with environments := m.environments.setIfInBounds env.index environment }
  else .error (.fault (.invalidEnvironment env)) m

end EnvId

def allocateEnvironment (environment : Environment) : Eval EnvId := fun m =>
  .ok ⟨m.environments.size⟩ { m with environments := m.environments.push environment }

def RealmId.load (realm : RealmId) : Query Realm := fun m =>
  match m.realms[realm.index]? with
  | some r => .ok r
  | none => .error (.fault (.assertion (.unknownRealm realm)))

def newSymbol (description : Option String) : Eval Symbol := fun m =>
  .ok ⟨m.symbols + 1, description.map .ofString⟩ { m with symbols := m.symbols + 1 }

def runningContext : Query Context := fun m =>
  match m.contexts with
  | context :: _ => .ok context
  | [] => .error (.fault .noRunningContext)

def modifyContext (f : Context → Context) : Eval Unit := fun m =>
  match m.contexts with
  | context :: below => .ok () { m with contexts := f context :: below }
  | [] => .error (.fault .noRunningContext) m

def currentRealm : Query RealmId := return (← runningContext).realm

def intrinsics : Query Intrinsics := do return (← (← currentRealm).load).intrinsics

def isStrict : Query Bool := return (← runningContext).strict

def lexicalEnv : Query EnvId := return (← runningContext).lexicalEnv

def setLexicalEnv (env : EnvId) : Eval Unit := modifyContext ({ · with lexicalEnv := env })

/-- Runs with another lexical environment and puts the old one back, however the run ends. -/
def withLexicalEnv (env : EnvId) (x : Eval α) : Eval α := do
  let old ← lexicalEnv
  setLexicalEnv env
  try x finally setLexicalEnv old

/-- Turns a throw into a completion; a fault stays a failure. -/
def completing (x : Eval Completion) : Eval Completion := fun m =>
  match x m with
  | .error (.thrown value) m => .ok (.thrown value) m
  | result => result

def newError (kind : ErrorKind) (message : Option String) : Eval ObjectId := do
  let prototype := (← intrinsics).errorPrototype kind
  let object : Object := { prototype := some prototype, kind := .error }
  match message with
  | none => allocate object
  | some text => allocate (object.insert (.name "message") (.data (.ofString text) true false true))

def complain (c : Complaint) : Eval α := do
  let error ← newError c.kind (some c.message)
  throw (.thrown (.object error))

/-- The result of an operation that knows no machine. -/
def settle : Except Failure α → Eval α
  | .ok a => pure a
  | .error (.complaint c) => complain c
  | .error (.fault f) => fault f

/-- Puts a context on the stack unless the stack is full. -/
def pushContext (context : Context) : Eval Unit := do
  let m ← get
  if m.stackLimit ≤ m.contexts.length then complain .stackExceeded
  else set { m with contexts := context :: m.contexts }

def popContext : Eval (Option Context) := modifyGet fun m =>
  (m.contexts.head?, { m with contexts := m.contexts.tail })

/-- Runs with a context on the stack and takes it off, however the run ends. -/
def withContext (context : Context) (x : Eval α) : Eval α := do
  pushContext context
  try x finally discard popContext

def scriptContext (realm : RealmId) (strict : Bool) : Query Context := do
  let env := (← realm.load).globalEnv
  return { realm, function := none, lexicalEnv := env, variableEnv := env, privateEnv := none,
           labels := [], strict }

def pushScriptContext (realm : RealmId) (strict : Bool) : Eval Unit := do
  pushContext (← scriptContext realm strict)

/-- A property that the language may change but does not enumerate. -/
def Descriptor.hidden (value : Value) : Descriptor := .data value true false true

/-- A property that never changes. -/
def Descriptor.frozen (value : Value) : Descriptor := .data value false false false

/-- A property that only a redefinition changes. -/
def Descriptor.readOnly (value : Value) : Descriptor := .data value false false true

namespace Realm

def newErrorPrototype (parent : ObjectId) (kind : ErrorKind) : Eval ObjectId := do
  let object : Object := { prototype := some parent, kind := .ordinary }
  allocate ((object.insert (.name "name") (.hidden (.ofString kind.name))).insert
    (.name "message") (.hidden (.ofString "")))

/-- The constructor of the errors of a kind, tied to its prototype and to the global object. -/
def newErrorConstructor (intrinsics : Intrinsics) (global : ObjectId) (kind : ErrorKind) :
    Eval Unit := do
  let object : Object :=
    { prototype := some intrinsics.functionPrototype, kind := .errorConstructor kind }
  let prototype := intrinsics.errorPrototype kind
  let constructor ← allocate ((object.insert .length (.readOnly (.number .one))).insert
    (.name "name") (.readOnly (.ofString kind.name)))
  constructor.insert .prototype (.frozen (.object prototype))
  prototype.insert (.name "constructor") (.hidden (.object constructor))
  global.insert (.name kind.name) (.hidden (.object constructor))

end Realm

def newGlobalEnvironment (global thisObject : ObjectId) : Eval EnvId :=
  allocateEnvironment (.global
    { scope := { object := global, isWith := false, outer := none }
      declarative := { outer := none }
      globalThis := thisObject
      varNames := [] })

def newRealm : Eval RealmId := do
  let objectPrototype ← allocate { prototype := none, kind := .ordinary }
  let child : Object := { prototype := some objectPrototype, kind := .ordinary }
  let functionPrototype ← allocate child
  let arrayPrototype ← allocate child
  let error ← Realm.newErrorPrototype objectPrototype .error
  let typeError ← Realm.newErrorPrototype error .typeError
  let referenceError ← Realm.newErrorPrototype error .referenceError
  let syntaxError ← Realm.newErrorPrototype error .syntaxError
  let rangeError ← Realm.newErrorPrototype error .rangeError
  let errorPrototype : ErrorKind → ObjectId
    | .error => error
    | .typeError => typeError
    | .referenceError => referenceError
    | .syntaxError => syntaxError
    | .rangeError => rangeError
  let intrinsics : Intrinsics :=
    { objectPrototype, functionPrototype, arrayPrototype, errorPrototype }
  let global ← allocate child
  let globalEnv ← newGlobalEnvironment global global
  let realm : RealmId := ⟨(← get).realms.size⟩
  modify fun m =>
    { m with realms := m.realms.push { intrinsics, globalObject := global, globalEnv } }
  global.insert (.name "globalThis") (.hidden (.object global))
  global.insert (.name "undefined") (.frozen .undefined)
  global.insert (.name "NaN") (.frozen (.number .nan))
  global.insert (.name "Infinity") (.frozen (.number (.infinite false)))
  ErrorKind.all.forM (Realm.newErrorConstructor intrinsics global)
  return realm

end EcmaEval
