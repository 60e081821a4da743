import EcmaEval.Outcome
import EcmaEval.Syntax

/-!
# Objects

Property keys, complete property descriptors, and the insertion-ordered table of an object's own
properties. Enumeration order puts array indices first, in numeric order, then the other strings and
then the symbols, each in order of insertion. An object has a prototype, its own properties, a kind,
and may refuse new properties.
-/
namespace EcmaEval

inductive Key where
  | string (t : Text)
  | symbol (s : Symbol)
  deriving Inhabited

namespace Key

/-- Keys are equal as texts, or as symbols by identity. -/
def same : Key → Key → Bool
  | .string a, .string b => a == b
  | .symbol a, .symbol b => a == b
  | _, _ => false

instance : BEq Key := ⟨same⟩

def name (s : String) : Key := .string (.ofString s)

def ofIndex (n : Nat) : Key := .name n.repr

def length : Key := .name "length"

def prototype : Key := .name "prototype"

def isString : Key → Bool
  | .string _ => true
  | .symbol _ => false

def arrayIndex? : Key → Option Nat
  | .string t => t.arrayIndex?
  | .symbol _ => none

def toValue : Key → Value
  | .string t => .string t
  | .symbol s => .symbol s

def display : Key → String
  | .string t => t.toString
  | .symbol s => s.display

end Key

inductive Descriptor where
  | data (value : Value) (writable enumerable configurable : Bool)
  | accessor (get set : Value) (enumerable configurable : Bool)

namespace Descriptor

/-- A data property with every flag on. -/
def plain (value : Value) : Descriptor := .data value true true true

def isData : Descriptor → Bool
  | .data _ _ _ _ => true
  | .accessor _ _ _ _ => false

def enumerable : Descriptor → Bool
  | .data _ _ e _ => e
  | .accessor _ _ e _ => e

def configurable : Descriptor → Bool
  | .data _ _ _ c => c
  | .accessor _ _ _ c => c

def value? : Descriptor → Option Value
  | .data v _ _ _ => some v
  | .accessor _ _ _ _ => none

def writable? : Descriptor → Option Bool
  | .data _ w _ _ => some w
  | .accessor _ _ _ _ => none

/-- The data property that giving this property a value makes of it; an accessor becomes read
only. -/
def withValue (d : Descriptor) (value : Value) : Descriptor :=
  .data value (d.writable?.getD false) d.enumerable d.configurable

end Descriptor

structure PropertyTable where
  entries : List (Key × Descriptor) := []
  deriving Inhabited

namespace PropertyTable

def get? (t : PropertyTable) (key : Key) : Option Descriptor :=
  (t.entries.find? (·.1 == key)).map (·.2)

def contains (t : PropertyTable) (key : Key) : Bool := t.entries.any (·.1 == key)

/-- Replaces the descriptor of a key in place, or appends it. -/
def insertEntry (key : Key) (d : Descriptor) : List (Key × Descriptor) → List (Key × Descriptor)
  | [] => [(key, d)]
  | e :: rest => if e.1 == key then (e.1, d) :: rest else e :: insertEntry key d rest

def insert (t : PropertyTable) (key : Key) (d : Descriptor) : PropertyTable :=
  ⟨insertEntry key d t.entries⟩

def erase (t : PropertyTable) (key : Key) : PropertyTable :=
  ⟨t.entries.filter fun e => !(e.1 == key)⟩

def keys (t : PropertyTable) : List Key := t.entries.map (·.1)

def indices (t : PropertyTable) : List Nat := t.keys.filterMap Key.arrayIndex?

def orderedKeys (t : PropertyTable) : List Key :=
  let indexed := t.keys.filterMap fun k => k.arrayIndex?.map fun i => (i, k)
  (indexed.mergeSort fun a b => a.1 ≤ b.1).map (·.2) ++
    t.keys.filter (fun k => k.isString && k.arrayIndex?.isNone) ++
    t.keys.filter (fun k => !k.isString)

end PropertyTable

inductive ThisMode where
  | lexical | strict | global
  deriving DecidableEq

structure FunctionSlots where
  code : FunctionCode
  environment : EnvId
  privateEnv : Option EnvId
  realm : RealmId
  thisMode : ThisMode
  strict : Bool
  isConstructor : Bool

/-- The keys of an arguments object that stand for parameters, each with its parameter's name in
`env`. -/
structure ParameterMap where
  env : EnvId
  names : List (Key × String)

namespace ParameterMap

def get? (map : ParameterMap) (key : Key) : Option String :=
  (map.names.find? (·.1 == key)).map (·.2)

def erase (map : ParameterMap) (key : Key) : ParameterMap :=
  { map with names := map.names.filter fun e => !(e.1 == key) }

end ParameterMap

inductive ObjectKind where
  | ordinary
  | array
  | error
  | arguments (map : Option ParameterMap)
  | function (slots : FunctionSlots)
  | errorConstructor (kind : ErrorKind)

structure Object where
  prototype : Option ObjectId
  kind : ObjectKind
  extensible : Bool := true
  properties : PropertyTable := {}

namespace Object

def isCallable (o : Object) : Bool :=
  match o.kind with
  | .function _ | .errorConstructor _ => true
  | _ => false

def isConstructor (o : Object) : Bool :=
  match o.kind with
  | .function slots => slots.isConstructor
  | .errorConstructor _ => true
  | _ => false

def isArray (o : Object) : Bool :=
  match o.kind with
  | .array => true
  | _ => false

def parameterMap? (o : Object) : Option ParameterMap :=
  match o.kind with
  | .arguments map => map
  | _ => none

/-- Stores a property without any check. -/
def insert (o : Object) (key : Key) (d : Descriptor) : Object :=
  { o with properties := o.properties.insert key d }

/-- Cuts the tie between a key of an arguments object and its parameter. -/
def unmap (o : Object) (key : Key) : Object :=
  match o.kind with
  | .arguments (some map) => { o with kind := .arguments (some (map.erase key)) }
  | _ => o

/-- Removes a property, and with it its tie to a parameter. -/
def erase (o : Object) (key : Key) : Object :=
  ({ o with properties := o.properties.erase key }).unmap key

end Object

end EcmaEval
