import EcmaEval.Expression.Operator

/-!
# Expressions

Literals, calls and property accesses, and one step of expression evaluation: each form in terms of an
evaluator for its parts.
-/
namespace EcmaEval

/-- The numeral of a large integer, without the mark at its end. -/
def bigintNumeral (digits : String) : String :=
  String.ofList (digits.toList.reverse.dropWhile (· == 'n')).reverse

def Literal.evaluate : Literal → Eval Value
  | .null => pure .null
  | .boolean b => pure (.boolean b)
  | .number n => pure (.number n)
  | .string s => pure (.ofString s)
  | .bigint digits =>
    match (Text.ofString (bigintNumeral digits)).toInt? with
    | some n => pure (.bigint n)
    | none => breach (.malformedBigint (bigintNumeral digits))

namespace Evaluator

/-- Appends the texts of expressions, each followed by the next string of a template. -/
def templateParts (ev : Evaluator) : List Expression → List String → Text → Eval Text
  | [], _, text => return text
  | e :: rest, strings, text => do
    let part ← (← ev.value e).toText
    ev.templateParts rest strings.tail (text ++ part ++ Text.ofString (strings.headD ""))

def template (ev : Evaluator) (strings : List String) (expressions : List Expression) :
    Eval Value := do
  let text ← ev.templateParts expressions strings.tail (.ofString (strings.headD ""))
  return .string text

/-- Defines the elements of an array literal under consecutive indices; a hole takes an index and
defines nothing. -/
def arrayElements (ev : Evaluator) (array : ObjectId) :
    Nat → List (Option Expression) → Eval Unit
  | _, [] => pure ()
  | index, none :: rest => ev.arrayElements array (index + 1) rest
  | index, some e :: rest => do
    let value ← ev.value e
    array.createPropertyOrThrow (.ofIndex index) value
    ev.arrayElements array (index + 1) rest

def array (ev : Evaluator) (elements : List (Option Expression)) : Eval Value := do
  let array ← newArray 0
  ev.arrayElements array 0 elements
  let length : Value := .number (.ofNat elements.length)
  if !(← array.set .length length (.object array)) then complain .cannotSetLength
  else return .object array

def accessorPair (o : ObjectId) (key : Key) : Query (Value × Value) := do
  match ← o.getOwnProperty key with
  | some (.accessor get set _ _) => return (get, set)
  | _ => return (.undefined, .undefined)

def member (ev : Evaluator) (o : ObjectId) (entry : Member) : Eval Unit := do
  let key ← ev.memberKey entry.name
  match entry.kind, entry.value with
  | .value, e =>
    let value ← ev.valueNamed e key
    o.createPropertyOrThrow key value
  | .getter, .function code =>
    let f ← instantiateMethod code ("get " ++ key.functionName)
    let (_, set) ← accessorPair o key
    o.defineOrThrow key (.accessor (.object f) set true true)
  | .setter, .function code =>
    let f ← instantiateMethod code ("set " ++ key.functionName)
    let (get, _) ← accessorPair o key
    o.defineOrThrow key (.accessor get (.object f) true true)
  | _, _ => breach .accessorWithoutFunction

def object (ev : Evaluator) (members : List Member) : Eval Value := do
  let o ← newObject (some (← intrinsics).objectPrototype)
  members.forM (ev.member o)
  return .object o

end Evaluator

def Expression.describe : Expression → String
  | .identifier name => name
  | .member base name => base.describe ++ "." ++ name
  | .thisValue => "this"
  | _ => "expression"

/-- The `this` of a call: the base of a property, or the object of a `with` scope. -/
def callReceiver : Value → Query Value
  | .reference (.property base _ thisValue _) => pure (thisValue.getD base)
  | .reference (.binding env _ _) => do
    match ← env.withObject? with
    | some o => return .object o
    | none => return .undefined
  | _ => pure .undefined

namespace Evaluator

def memberAccess (ev : Evaluator) (object : Expression) (name : String) : Eval Value := do
  let base ← ev.value object
  return .reference (.property base (.ofString name) none (← isStrict))

/-- A property access by a computed key. The key is converted only when the reference is used. -/
def indexAccess (ev : Evaluator) (object key : Expression) : Eval Value := do
  let base ← ev.value object
  let name ← ev.value key
  return .reference (.property base name none (← isStrict))

def callExpression (ev : Evaluator) (callee : Expression) (arguments : List Expression) :
    Eval Value := do
  let reference ← ev.expression callee
  let receiver ← callReceiver reference
  let f ← reference.getValue
  let values ← ev.values arguments
  if !(← f.isCallable) then complain (.notFunction callee.describe)
  else ev.call f receiver values

def newExpression (ev : Evaluator) (callee : Expression) (arguments : List Expression) :
    Eval Value := do
  let constructor ← ev.value callee
  let values ← ev.values arguments
  if !(← constructor.isConstructor) then complain (.notConstructor callee.describe)
  else ev.construct constructor values none


def evaluate (ev : Evaluator) : Expression → Eval Value
  | .literal l => l.evaluate
  | .identifier name => resolveBinding name none
  | .thisValue => resolveThis
  | .array elements => ev.array elements
  | .object members => ev.object members
  | .function code => return .object (← instantiateExpression code none)
  | .arrow code => return .object (← instantiateArrow code none)
  | .unary op operand => ev.unary op operand
  | .binary op left right => ev.binary op left right
  | .logical op left right => ev.logical op left right
  | .update op returnsNew target => ev.update op returnsNew target
  | .assign op target value => ev.assign op target value
  | .conditional test consequent alternate => ev.conditional test consequent alternate
  | .call callee arguments => ev.callExpression callee arguments
  | .new callee arguments => ev.newExpression callee arguments
  | .member object name => ev.memberAccess object name
  | .index object key => ev.indexAccess object key
  | .spread _ => unsupported .spread
  | .yield _ _ => unsupported .yield
  | .await _ => unsupported .await
  | .template strings expressions => ev.template strings expressions
  | .typeOf operand => ev.typeOf operand
  | .void operand => do
    let _ ← ev.value operand
    return .undefined
  | .delete operand => ev.delete operand
  | .sequence expressions => ev.sequence expressions .undefined

end Evaluator

end EcmaEval
