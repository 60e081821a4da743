import EcmaEval.Text

/-!
# Values and references

Language values, and the references that identifiers and property accesses evaluate to before they
are read or written. Objects, environments and realms are named by handles into the machine.
-/
namespace EcmaEval

structure ObjectId where
  index : Nat
  deriving DecidableEq, Inhabited

structure EnvId where
  index : Nat
  deriving DecidableEq, Inhabited

structure RealmId where
  index : Nat
  deriving DecidableEq, Inhabited

structure Symbol where
  id : Nat
  description : Option Text
  deriving Inhabited

/-- Symbols are compared by identity; the description plays no part. -/
instance : BEq Symbol := ⟨fun a b => a.id == b.id⟩

def Symbol.display (s : Symbol) : String :=
  match s.description with
  | some description => "Symbol(" ++ description.toString ++ ")"
  | none => "Symbol()"

mutual

/-- A language value, or a reference on its way to being read or written. -/
inductive Value where
  | undefined
  | null
  | boolean (b : Bool)
  | number (n : Number)
  | string (t : Text)
  | symbol (s : Symbol)
  | bigint (n : Int)
  | object (o : ObjectId)
  | reference (r : Reference)

/-- The name of a binding or of a property, resolved as far as evaluation has got. -/
inductive Reference where
  | unresolvable (name : String) (strict : Bool)
  | binding (env : EnvId) (name : String) (strict : Bool)
  | property (base name : Value) (thisValue : Option Value) (strict : Bool)

end

instance : Inhabited Value := ⟨.undefined⟩

namespace Value

def ofString (s : String) : Value := .string (.ofString s)

def isUndefined : Value → Bool
  | .undefined => true
  | _ => false

def isNullish : Value → Bool
  | .undefined | .null => true
  | _ => false

def isString : Value → Bool
  | .string _ => true
  | _ => false

def isObject : Value → Bool
  | .object _ => true
  | _ => false

def isReference : Value → Bool
  | .reference _ => true
  | _ => false

def toNumber? : Value → Option Number
  | .number n => some n
  | _ => none

def typeName : Value → String
  | .undefined => "Undefined"
  | .null => "Null"
  | .boolean _ => "Boolean"
  | .number _ => "Number"
  | .string _ => "String"
  | .symbol _ => "Symbol"
  | .bigint _ => "BigInt"
  | .object _ => "Object"
  | .reference _ => "Reference"

def display : Value → String
  | .undefined => "undefined"
  | .null => "null"
  | .boolean b => if b then "true" else "false"
  | .number n => n.toText
  | .string t => t.toString
  | .symbol s => s.display
  | .bigint n => n.repr ++ "n"
  | .object _ => "[object Object]"
  | .reference _ => "[reference]"

/-- Truth of a value: falsy are undefined, null, false, the zeros, NaN and the empty string. -/
def toBoolean : Value → Bool
  | .undefined | .null => false
  | .boolean b => b
  | .number n => !(n.isNaN || n.isZero)
  | .string t => !t.isEmpty
  | .bigint n => n != 0
  | .symbol _ | .object _ | .reference _ => true

end Value

namespace Reference

def isStrict : Reference → Bool
  | .unresolvable _ strict | .binding _ _ strict | .property _ _ _ strict => strict

def isUnresolvable : Reference → Bool
  | .unresolvable _ _ => true
  | _ => false

def isProperty : Reference → Bool
  | .property _ _ _ _ => true
  | _ => false

/-- The receiver of a property reference: its own this value, or else its base. -/
def thisValue? : Reference → Option Value
  | .property base _ thisValue _ => some (thisValue.getD base)
  | _ => none

def bindingName? : Reference → Option String
  | .unresolvable name _ | .binding _ name _ => some name
  | .property _ _ _ _ => none

end Reference

end EcmaEval
