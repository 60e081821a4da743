import EcmaEval.Outcome

/-!
# Environments

The records that bind names. A declarative record holds its bindings itself; a declarative record of
a function call also holds `this`. An object scope looks names up among the properties of an object.
The global environment joins both and remembers which names were declared with `var`.
-/
namespace EcmaEval

/-- A binding; it is uninitialized while it has no value. -/
structure Binding where
  isMutable : Bool
  deletable : Bool
  /-- Writes to this immutable binding throw also in sloppy code. -/
  strict : Bool
  value : Option Value

/-- Whether the `this` of a function call is set, is still to be set, or belongs to an outer
environment. -/
inductive ThisStatus where
  | lexical | initialized | uninitialized
  deriving DecidableEq

structure CallSlots where
  thisValue : Value
  thisStatus : ThisStatus
  function : ObjectId
  newTarget : Value

structure DeclarativeRecord where
  outer : Option EnvId
  bindings : List (String × Binding) := []
  call : Option CallSlots := none

namespace DeclarativeRecord

def get? (r : DeclarativeRecord) (name : String) : Option Binding := r.bindings.lookup name

def has (r : DeclarativeRecord) (name : String) : Bool := (r.get? name).isSome

def put (r : DeclarativeRecord) (name : String) (value : Value) : DeclarativeRecord :=
  { r with
    bindings := r.bindings.map fun e =>
      if e.1 == name then (e.1, { e.2 with value := some value }) else e }

/-- Adds an uninitialized binding. -/
def create (r : DeclarativeRecord) (name : String) (isMutable deletable strict : Bool) :
    Except Failure DeclarativeRecord :=
  if r.has name then .error (.fault (.duplicateBinding name))
  else .ok { r with bindings := (name, ⟨isMutable, deletable, strict, none⟩) :: r.bindings }

def createMutable (r : DeclarativeRecord) (name : String) (deletable : Bool) :
    Except Failure DeclarativeRecord :=
  r.create name true deletable false

def createImmutable (r : DeclarativeRecord) (name : String) (strict : Bool) :
    Except Failure DeclarativeRecord :=
  r.create name false false strict

def initBinding (r : DeclarativeRecord) (name : String) (value : Value) :
    Except Failure DeclarativeRecord :=
  match r.get? name with
  | none => .error (.fault (.missingBinding name))
  | some b =>
    if b.value.isSome then .error (.fault (.assertion (.initializedTwice name)))
    else .ok (r.put name value)

/-- Assigns to a binding. A missing one is an error in strict code and is created otherwise. -/
def assign (r : DeclarativeRecord) (name : String) (value : Value) (strict : Bool) :
    Except Failure DeclarativeRecord :=
  match r.get? name with
  | none =>
    if strict then .error (.complaint (.notDefined name))
    else .ok { r with bindings := (name, ⟨true, true, false, some value⟩) :: r.bindings }
  | some b =>
    if b.value.isNone then .error (.complaint (.beforeInitialization name))
    else if b.isMutable then .ok (r.put name value)
    else if strict || b.strict then .error (.complaint .constantAssignment)
    else .ok r

def read (r : DeclarativeRecord) (name : String) : Except Failure Value :=
  match r.get? name with
  | none => .error (.fault (.missingBinding name))
  | some b =>
    match b.value with
    | some value => .ok value
    | none => .error (.complaint (.beforeInitialization name))

/-- Removes a deletable binding; the answer says whether it did. -/
def delete (r : DeclarativeRecord) (name : String) : Except Failure (Bool × DeclarativeRecord) :=
  match r.get? name with
  | none => .error (.fault (.missingBinding name))
  | some b =>
    if b.deletable then .ok (true, { r with bindings := r.bindings.filter (·.1 != name) })
    else .ok (false, r)

def hasThis (r : DeclarativeRecord) : Bool :=
  match r.call with
  | some slots => slots.thisStatus != .lexical
  | none => false

end DeclarativeRecord

structure ObjectScope where
  object : ObjectId
  isWith : Bool
  outer : Option EnvId

structure GlobalRecord where
  scope : ObjectScope
  declarative : DeclarativeRecord
  globalThis : ObjectId
  varNames : List String

namespace GlobalRecord

def addVarName (g : GlobalRecord) (name : String) : GlobalRecord :=
  { g with varNames := if g.varNames.contains name then g.varNames else name :: g.varNames }

def removeVarName (g : GlobalRecord) (name : String) : GlobalRecord :=
  { g with varNames := g.varNames.filter (· != name) }

end GlobalRecord

inductive Environment where
  | declarative (r : DeclarativeRecord)
  | object (s : ObjectScope)
  | global (g : GlobalRecord)

def Environment.outer? : Environment → Option EnvId
  | .declarative r => r.outer
  | .object s => s.outer
  | .global _ => none

end EcmaEval
