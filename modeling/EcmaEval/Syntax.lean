import EcmaEval.Number.Basic

/-!
# Syntax trees

The trees an evaluator walks: expressions, binding patterns, functions and statements. A tree need
not be one a parser would produce; evaluation gives every tree a meaning or a fault.
-/
namespace EcmaEval

/-- Operators on two numbers; `add` also joins strings. -/
inductive NumericOp where
  | add | sub | mul | div | mod | exp | shiftLeft | shiftRight | shiftRightZero | bitAnd | bitOr | bitXor
  deriving DecidableEq

/-- Operators on two evaluated operands. -/
inductive BinaryOp where
  | numeric (op : NumericOp)
  | looselyEqual
  | looselyDifferent
  | strictlyEqual
  | strictlyDifferent
  | less
  | greater
  | lessOrEqual
  | greaterOrEqual
  | keyIn
  | instanceOf
  deriving DecidableEq

inductive UnaryOp where
  | minus | plus | not | bitNot
  deriving DecidableEq

/-- Operators that evaluate their right operand only when the left one does not decide. -/
inductive LogicalOp where
  | and | or | coalesce
  deriving DecidableEq

inductive UpdateOp where
  | increment | decrement
  deriving DecidableEq

/-- Plain assignment, or assignment of the result of an operator on the old value. -/
inductive AssignOp where
  | plain
  | numeric (op : NumericOp)
  | logical (op : LogicalOp)
  deriving DecidableEq

inductive Literal where
  | null
  | boolean (b : Bool)
  | number (n : Number)
  | string (s : String)
  | bigint (digits : String)
  deriving DecidableEq

/-- The scope of a declaration: `var` belongs to the function, `let` and `const` to the block. -/
inductive DeclarationKind where
  | var
  | lexical (constant : Bool)
  deriving DecidableEq

inductive MemberKind where
  | value | getter | setter
  deriving DecidableEq

inductive FunctionKind where
  | normal | arrow
  deriving DecidableEq

mutual

inductive Expression where
  | literal (l : Literal)
  | identifier (name : String)
  | thisValue
  | array (elements : List (Option Expression))
  | object (members : List Member)
  | function (code : FunctionCode)
  | arrow (code : FunctionCode)
  | unary (op : UnaryOp) (operand : Expression)
  | binary (op : BinaryOp) (left right : Expression)
  | logical (op : LogicalOp) (left right : Expression)
  | update (op : UpdateOp) (returnsNew : Bool) (target : Expression)
  | assign (op : AssignOp) (target value : Expression)
  | conditional (test consequent alternate : Expression)
  | call (callee : Expression) (arguments : List Expression)
  | new (callee : Expression) (arguments : List Expression)
  | member (object : Expression) (name : String)
  | index (object key : Expression)
  | spread (argument : Expression)
  | yield (argument : Option Expression) (delegate : Bool)
  | await (argument : Expression)
  | template (strings : List String) (expressions : List Expression)
  | typeOf (operand : Expression)
  | void (operand : Expression)
  | delete (operand : Expression)
  | sequence (expressions : List Expression)

structure Member where
  kind : MemberKind
  name : MemberName
  value : Expression

inductive MemberName where
  | identifier (name : String)
  | string (name : String)
  | number (n : Number)
  | computed (key : Expression)

inductive Pattern where
  | identifier (name : String)
  | array (elements : List (Option Pattern))
  | object (members : List PatternMember)
  | withDefault (target : Pattern) (default : Expression)
  | rest (target : Pattern)

inductive PatternMember where
  | keyed (name : MemberName) (target : Pattern)
  | shorthand (name : String) (default : Option Expression)
  | rest (name : String)

structure FunctionCode where
  name : Option String
  kind : FunctionKind
  parameters : List Pattern
  body : FunctionBody
  isAsync : Bool
  isGenerator : Bool

inductive FunctionBody where
  | block (statements : List Statement)
  | concise (value : Expression)

inductive Statement where
  | empty
  | debugger
  | expression (e : Expression)
  | block (body : List Statement)
  | declare (kind : DeclarationKind) (declarators : List Declarator)
  | conditional (test : Expression) (consequent : Statement) (alternate : Option Statement)
  | whileLoop (test : Expression) (body : Statement)
  | doWhileLoop (body : Statement) (test : Expression)
  | forLoop (init : Option ForInit) (test update : Option Expression) (body : Statement)
  | forIn (target : ForTarget) (source : Expression) (body : Statement)
  | forOf (target : ForTarget) (source : Expression) (body : Statement)
  | returns (value : Option Expression)
  | breaks (label : Option String)
  | continues (label : Option String)
  | throws (value : Expression)
  | tryCatch (block : List Statement) (handler : Option CatchClause)
      (finalizer : Option (List Statement))
  | switch (discriminant : Expression) (clauses : List SwitchClause)
  | labelled (label : String) (body : Statement)
  | withObject (object : Expression) (body : Statement)
  | function (code : FunctionCode)

structure Declarator where
  pattern : Pattern
  init : Option Expression

inductive ForInit where
  | declare (kind : DeclarationKind) (declarators : List Declarator)
  | expression (e : Expression)

/-- What each key of a for-in loop is stored in. -/
inductive ForTarget where
  | declare (kind : DeclarationKind) (pattern : Pattern)
  | pattern (p : Pattern)

structure CatchClause where
  parameter : Option Pattern
  body : List Statement

/-- A clause of a switch statement; the default clause has no test. -/
structure SwitchClause where
  test : Option Expression
  body : List Statement

end

def FunctionCode.statements (code : FunctionCode) : List Statement :=
  match code.body with
  | .block statements => statements
  | .concise _ => []

def FunctionCode.isConstructor (code : FunctionCode) : Bool :=
  code.kind == .normal && !code.isAsync && !code.isGenerator

/-- The name a function expression binds for itself, if it has a nonempty one. -/
def FunctionCode.ownName? (code : FunctionCode) : Option String := code.name.filter (!·.isEmpty)

/-- Function expressions without a name of their own, and arrows, take the name of what they are
assigned to. -/
def Expression.isAnonymousFunction : Expression → Bool
  | .function code => code.ownName?.isNone
  | .arrow _ => true
  | _ => false

def AssignOp.numericOp? : AssignOp → Option NumericOp
  | .numeric op => some op
  | _ => none

end EcmaEval
