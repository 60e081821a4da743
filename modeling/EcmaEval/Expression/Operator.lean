import EcmaEval.Function.Call

/-!
# Operators and assignments

Operators on evaluated operands, those that evaluate their operands themselves, and plain, compound and
logical assignments.
-/
namespace EcmaEval

def NumericOp.apply : NumericOp → Number → Number → Number
  | .add => .add
  | .sub => .sub
  | .mul => .mul
  | .div => .div
  | .mod => .rem
  | .exp => .pow
  | .shiftLeft => .shiftLeft
  | .shiftRight => .shiftRight
  | .shiftRightZero => .shiftRightZero
  | .bitAnd => .bitAnd
  | .bitOr => .bitOr
  | .bitXor => .bitXor

def applyToNumbers (op : NumericOp) (left right : Value) : Eval Value := do
  let x ← left.toNumeric
  let y ← right.toNumeric
  match x, y with
  | .number x, .number y => return .number (op.apply x y)
  | .bigint _, .bigint _ => unsupported .bigintArithmetic
  | _, _ => complain .mixedBigint

/-- The operators that a compound assignment may use. `+` joins texts if an operand is a string. -/
def applyNumeric (op : NumericOp) (left right : Value) : Eval Value := do
  if op = .add then
    let l ← left.toPrimitive
    let r ← right.toPrimitive
    if l.isString || r.isString then
      let s ← l.toText
      let t ← r.toText
      return .string (s ++ t)
    else applyToNumbers op l r
  else applyToNumbers op left right

def applyLooselyEqual (left right : Value) : Query Bool :=
  match left.looselyEqual right with
  | .ok b => pure b
  | .error f => fault f

def applyBinary (op : BinaryOp) (left right : Value) : Eval Value := do
  match op with
  | .numeric op => applyNumeric op left right
  | .looselyEqual => return .boolean (← applyLooselyEqual left right)
  | .looselyDifferent => return .boolean !(← applyLooselyEqual left right)
  | .strictlyEqual => return .boolean (left.strictlyEqual right)
  | .strictlyDifferent => return .boolean !(left.strictlyEqual right)
  | .less => return .boolean ((← left.less? right true) == some true)
  | .greater => return .boolean ((← right.less? left false) == some true)
  | .lessOrEqual => return .boolean ((← right.less? left false) == some false)
  | .greaterOrEqual => return .boolean ((← left.less? right true) == some false)
  | .keyIn =>
    match right with
    | .object o => do
      let key ← left.toKey
      return .boolean (← o.hasProperty key)
    | _ => complain .keyInNonObject
  | .instanceOf => return .boolean (← instanceOf left right)

def applyUnary (op : UnaryOp) (v : Value) : Eval Value := do
  match op with
  | .plus => return .number (← v.toNumber)
  | .not => return .boolean !v.toBoolean
  | .minus =>
    match ← v.toNumeric with
    | .number n => return .number n.neg
    | .bigint _ => unsupported .bigintArithmetic
  | .bitNot =>
    match ← v.toNumeric with
    | .number n => return .number n.bitNot
    | .bigint _ => unsupported .bigintArithmetic

/-- Whether the left operand of a logical operator is its result. -/
def LogicalOp.stopsAt (op : LogicalOp) (left : Value) : Bool :=
  match op with
  | .and => !left.toBoolean
  | .or => left.toBoolean
  | .coalesce => !left.isNullish

namespace Evaluator

def unary (ev : Evaluator) (op : UnaryOp) (operand : Expression) : Eval Value := do
  applyUnary op (← ev.value operand)

def binary (ev : Evaluator) (op : BinaryOp) (left right : Expression) : Eval Value := do
  let l ← ev.value left
  let r ← ev.value right
  applyBinary op l r

def logical (ev : Evaluator) (op : LogicalOp) (left right : Expression) : Eval Value := do
  let l ← ev.value left
  if op.stopsAt l then return l else ev.value right

def conditional (ev : Evaluator) (test consequent alternate : Expression) : Eval Value := do
  if (← ev.value test).toBoolean then ev.value consequent else ev.value alternate

/-- The `typeof` operator, which accepts a name that does not resolve. -/
def typeOf (ev : Evaluator) (operand : Expression) : Eval Value := do
  match ← ev.expression operand with
  | .reference (.unresolvable _ _) => return .ofString "undefined"
  | v => return .ofString (← (← v.getValue).typeOf)

def delete (ev : Evaluator) (operand : Expression) : Eval Value := do
  match ← ev.expression operand with
  | .reference (.unresolvable _ _) => return .boolean true
  | .reference (.binding env name _) => return .boolean (← env.delete name)
  | .reference (.property base name _ strict) =>
    let object ← base.toObject
    let key ← name.toKey
    let deleted ← object.delete key
    if !deleted && strict then complain (.cannotDelete key.display)
    else return .boolean deleted
  | _ => return .boolean true

def sequence (ev : Evaluator) : List Expression → Value → Eval Value
  | [], last => return last
  | e :: rest, _ => do ev.sequence rest (← ev.value e)

end Evaluator

def UpdateOp.apply : UpdateOp → Number → Number
  | .increment, n => n.add .one
  | .decrement, n => n.sub .one

/-- Object and array literals as targets stand for destructuring. -/
def Expression.isPatternLike : Expression → Bool
  | .object _ | .array _ => true
  | _ => false

namespace Evaluator

def update (ev : Evaluator) (op : UpdateOp) (returnsNew : Bool) (target : Expression) :
    Eval Value := do
  let reference ← ev.expression target
  match ← (← reference.getValue).toNumeric with
  | .number old =>
    let new := op.apply old
    reference.putValue (.number new)
    return .number (if returnsNew then new else old)
  | .bigint _ => unsupported .bigintArithmetic

/-- The value to assign. A function without a name takes the name of an identifier target. -/
def assignedValue (ev : Evaluator) (target value : Expression) : Eval Value :=
  match target with
  | .identifier name => ev.valueNamed value (.name name)
  | _ => ev.value value

def store (reference value : Value) : Eval Value := do
  reference.putValue value
  return value

/-- Assigns in the order target, value, write. A logical assignment writes only if the old value does
not decide. -/
def assign (ev : Evaluator) (op : AssignOp) (target value : Expression) : Eval Value := do
  if target.isPatternLike then unsupported .destructuringAssignment
  else
    let reference ← ev.expression target
    match op with
    | .plain => store reference (← ev.assignedValue target value)
    | .logical op =>
      let old ← reference.getValue
      if op.stopsAt old then return old
      else store reference (← ev.assignedValue target value)
    | .numeric op =>
      let old ← reference.getValue
      let operand ← ev.value value
      store reference (← applyNumeric op old operand)

end Evaluator

end EcmaEval
