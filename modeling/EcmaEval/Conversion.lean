import EcmaEval.Machine

/-!
# Conversion and comparison of values

Objects convert to no primitive value, and primitive values to no object; both are faults. Symbols
and large integers refuse conversion with a complaint. Three strict equalities differ only on numbers;
loose equality and the order behind the relational operators convert their operands first.
-/
namespace EcmaEval

inductive Numeric where
  | number (n : Number)
  | bigint (n : Int)

def Numeric.toValue : Numeric → Value
  | .number n => .number n
  | .bigint n => .bigint n

namespace Value

def toPrimitive : Value → Query Value
  | .object _ => unsupported .objectToPrimitive
  | .reference _ => breach .referenceToPrimitive
  | v => pure v

def toNumber : Value → Eval Number
  | .undefined => pure .nan
  | .null => pure .zero
  | .boolean b => pure (if b then .one else .zero)
  | .number n => pure n
  | .string t => pure t.toNumber
  | .symbol _ => complain .symbolToNumber
  | .bigint _ => complain .bigintToNumber
  | .object _ => unsupported .objectToPrimitive
  | .reference _ => breach .referenceToPrimitive

def toNumeric : Value → Eval Numeric
  | .bigint n => pure (.bigint n)
  | v => return .number (← v.toNumber)

def toText : Value → Eval Text
  | .undefined => pure (.ofString "undefined")
  | .null => pure (.ofString "null")
  | .boolean b => pure (.ofString (if b then "true" else "false"))
  | .number n => pure (.ofString n.toText)
  | .string t => pure t
  | .bigint n => pure (.ofString n.repr)
  | .symbol _ => complain .symbolToString
  | .object _ => unsupported .objectToPrimitive
  | .reference _ => breach .referenceToPrimitive

def toObject : Value → Eval ObjectId
  | .object o => pure o
  | .undefined => complain (.notObject "undefined")
  | .null => complain (.notObject "null")
  | _ => unsupported .primitiveToObject

def toKey : Value → Eval Key
  | .symbol s => pure (.symbol s)
  | v => return .string (← v.toText)

def isCallable : Value → Query Bool
  | .object o => return (← o.load).isCallable
  | _ => pure false

def isConstructor : Value → Query Bool
  | .object o => return (← o.load).isConstructor
  | _ => pure false

def typeOf : Value → Query String
  | .undefined => pure "undefined"
  | .null => pure "object"
  | .boolean _ => pure "boolean"
  | .number _ => pure "number"
  | .string _ => pure "string"
  | .symbol _ => pure "symbol"
  | .bigint _ => pure "bigint"
  | .object o => return if (← o.load).isCallable then "function" else "object"
  | .reference _ => breach .typeOfReference


/-- Equality of values that are not numbers. References are equal to nothing. -/
def sameNonNumber : Value → Value → Bool
  | .undefined, .undefined => true
  | .null, .null => true
  | .boolean a, .boolean b => a == b
  | .string a, .string b => a == b
  | .symbol a, .symbol b => a == b
  | .bigint a, .bigint b => a == b
  | .object a, .object b => a == b
  | _, _ => false

/-- Equality that tells the two zeros apart and identifies NaN with itself. -/
def same : Value → Value → Bool
  | .number a, .number b => a == b
  | x, y => sameNonNumber x y

/-- Equality that identifies the two zeros, and NaN with itself. -/
def sameZero : Value → Value → Bool
  | .number a, .number b => a.sameValueZero b
  | x, y => sameNonNumber x y

/-- The `===` operator: equality for which NaN differs from itself. -/
def strictlyEqual : Value → Value → Bool
  | .number a, .number b => a.equal b
  | x, y => sameNonNumber x y

def booleanToNumber : Value → Value
  | .boolean b => .number (if b then .one else .zero)
  | v => v

def looselyEqualNonBoolean : Value → Value → Except Fault Bool
  | .undefined, .null => .ok true
  | .null, .undefined => .ok true
  | .number a, .string b => .ok (a.equal b.toNumber)
  | .string a, .number b => .ok (a.toNumber.equal b)
  | .bigint a, .string b => .ok (b.toInt? == some a)
  | .string a, .bigint b => .ok (a.toInt? == some b)
  | .bigint a, .number b => .ok (b.toInt? == some a)
  | .number a, .bigint b => .ok (a.toInt? == some b)
  | .object _, .string _ | .object _, .number _ | .object _, .bigint _ | .object _, .symbol _ =>
    .error (.notImplemented .objectToPrimitive)
  | .string _, .object _ | .number _, .object _ | .bigint _, .object _ | .symbol _, .object _ =>
    .error (.notImplemented .objectToPrimitive)
  | x, y => .ok (strictlyEqual x y)

/-- The `==` operator. A boolean compared with another type counts as a number. -/
def looselyEqual : Value → Value → Except Fault Bool
  | .boolean a, .boolean b => .ok (a == b)
  | x, y => looselyEqualNonBoolean x.booleanToNumber y.booleanToNumber

/-- Order of two values, undefined if one is not a number. `leftFirst` says which operand is
converted first. -/
def less? (x y : Value) (leftFirst : Bool) : Eval (Option Bool) := do
  let (px, py) ←
    if leftFirst then do
      let px ← x.toPrimitive
      let py ← y.toPrimitive
      pure (px, py)
    else do
      let py ← y.toPrimitive
      let px ← x.toPrimitive
      pure (px, py)
  match px, py with
  | .string _, .string _ => unsupported .stringOrder
  | .bigint _, _ => unsupported .bigintOrder
  | _, .bigint _ => unsupported .bigintOrder
  | _, _ => do
    let nx ← px.toNumber
    let ny ← py.toNumber
    return nx.less? ny

end Value

end EcmaEval
