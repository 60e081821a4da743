import EcmaEval.Syntax

/-!
# Scopes of a syntax tree

Which names a pattern binds, which declarations a statement list contributes to the function scope
and to the block scope, and whether code is strict. Nothing here looks inside nested functions.
-/
namespace EcmaEval

mutual

/-- The names a pattern binds, from left to right. -/
def Pattern.boundNames : Pattern → List String
  | .identifier name => [name]
  | .array elements => Pattern.elementNames elements
  | .object members => Pattern.memberNames members
  | .withDefault target _ => target.boundNames
  | .rest target => target.boundNames

def Pattern.elementNames : List (Option Pattern) → List String
  | [] => []
  | none :: tail => Pattern.elementNames tail
  | some p :: tail => p.boundNames ++ Pattern.elementNames tail

def Pattern.memberNames : List PatternMember → List String
  | [] => []
  | .keyed _ target :: tail => target.boundNames ++ Pattern.memberNames tail
  | .shorthand name _ :: tail => name :: Pattern.memberNames tail
  | .rest name :: tail => name :: Pattern.memberNames tail

end

mutual

/-- Whether binding the pattern may evaluate an expression: a default or a computed key. -/
def Pattern.containsExpression : Pattern → Bool
  | .identifier _ => false
  | .array elements => Pattern.elementsContainExpression elements
  | .object members => Pattern.membersContainExpression members
  | .withDefault _ _ => true
  | .rest target => target.containsExpression

def Pattern.elementsContainExpression : List (Option Pattern) → Bool
  | [] => false
  | none :: tail => Pattern.elementsContainExpression tail
  | some p :: tail => p.containsExpression || Pattern.elementsContainExpression tail

def Pattern.membersContainExpression : List PatternMember → Bool
  | [] => false
  | .keyed (.computed _) _ :: _ => true
  | .keyed _ target :: tail => target.containsExpression || Pattern.membersContainExpression tail
  | .shorthand _ default :: tail => default.isSome || Pattern.membersContainExpression tail
  | .rest _ :: tail => Pattern.membersContainExpression tail

end

def Pattern.isIdentifier : Pattern → Bool
  | .identifier _ => true
  | _ => false

namespace Parameters

def names (parameters : List Pattern) : List String := parameters.flatMap Pattern.boundNames

def isSimple (parameters : List Pattern) : Bool := parameters.all Pattern.isIdentifier

def containsExpression (parameters : List Pattern) : Bool :=
  parameters.any Pattern.containsExpression

/-- The number of parameters before the first default or rest parameter. -/
def expectedCount (parameters : List Pattern) : Nat :=
  (parameters.takeWhile fun
    | .withDefault _ _ => false
    | .rest _ => false
    | _ => true).length

end Parameters

inductive VarDeclaration where
  | binding (pattern : Pattern)
  | function (code : FunctionCode)

def VarDeclaration.boundNames : VarDeclaration → List String
  | .binding pattern => pattern.boundNames
  | .function code => code.name.toList

inductive LexicalDeclaration where
  | binding (constant : Bool) (pattern : Pattern)
  | function (code : FunctionCode)

namespace LexicalDeclaration

def isConstant : LexicalDeclaration → Bool
  | .binding constant _ => constant
  | .function _ => false

def boundNames : LexicalDeclaration → List String
  | .binding _ pattern => pattern.boundNames
  | .function code => code.name.toList

end LexicalDeclaration

def DeclarationKind.varDeclarations (kind : DeclarationKind) (declarators : List Declarator) :
    List VarDeclaration :=
  match kind with
  | .var => declarators.map fun d => .binding d.pattern
  | .lexical _ => []

def ForTarget.varDeclarations : ForTarget → List VarDeclaration
  | .declare .var p => [.binding p]
  | _ => []

def ForInit.varDeclarations : ForInit → List VarDeclaration
  | .declare kind declarators => kind.varDeclarations declarators
  | .expression _ => []

mutual

/-- The function-scoped declarations inside a statement. A function declaration is not among them
unless it stands at the top level of a body. -/
def Statement.varScoped : Statement → List VarDeclaration
  | .declare kind declarators => kind.varDeclarations declarators
  | .labelled _ body => body.varScoped
  | .block body => Statement.varScopedIn body
  | .conditional _ consequent none => consequent.varScoped
  | .conditional _ consequent (some alternate) => consequent.varScoped ++ alternate.varScoped
  | .whileLoop _ body => body.varScoped
  | .doWhileLoop body _ => body.varScoped
  | .forLoop none _ _ body => body.varScoped
  | .forLoop (some init) _ _ body => init.varDeclarations ++ body.varScoped
  | .forIn target _ body => target.varDeclarations ++ body.varScoped
  | .forOf target _ body => target.varDeclarations ++ body.varScoped
  | .tryCatch body handler finalizer =>
    Statement.varScopedIn body ++ Statement.varScopedInHandler handler ++
      Statement.varScopedInFinalizer finalizer
  | .switch _ clauses => Statement.varScopedInClauses clauses
  | .withObject _ body => body.varScoped
  | _ => []

def Statement.varScopedIn : List Statement → List VarDeclaration
  | [] => []
  | s :: tail => s.varScoped ++ Statement.varScopedIn tail

def Statement.varScopedInHandler : Option CatchClause → List VarDeclaration
  | none => []
  | some ⟨_, body⟩ => Statement.varScopedIn body

def Statement.varScopedInFinalizer : Option (List Statement) → List VarDeclaration
  | none => []
  | some body => Statement.varScopedIn body

def Statement.varScopedInClauses : List SwitchClause → List VarDeclaration
  | [] => []
  | ⟨_, body⟩ :: tail => Statement.varScopedIn body ++ Statement.varScopedInClauses tail

end

/-- The function-scoped declarations of a statement at the top level of a script or body, where
function declarations, also labelled ones, belong to the function scope. -/
def Statement.topVarScoped : Statement → List VarDeclaration
  | .function code => [.function code]
  | .labelled _ body => body.topVarScoped
  | s => s.varScoped

/-- The block-scoped declarations of a statement in a statement list. At the top level function
declarations are function-scoped and left out. -/
def Statement.lexicallyScoped (topLevel : Bool) : Statement → List LexicalDeclaration
  | .declare (.lexical constant) declarators => declarators.map fun d => .binding constant d.pattern
  | .function code => if topLevel then [] else [.function code]
  | .labelled _ body => body.lexicallyScoped topLevel
  | _ => []

namespace Body

def varScoped (body : List Statement) : List VarDeclaration := body.flatMap Statement.topVarScoped

def varNames (body : List Statement) : List String := (varScoped body).flatMap VarDeclaration.boundNames

def lexicallyScoped (body : List Statement) (topLevel : Bool) : List LexicalDeclaration :=
  body.flatMap (Statement.lexicallyScoped topLevel)

def lexicalNames (body : List Statement) (topLevel : Bool) : List String :=
  (lexicallyScoped body topLevel).flatMap LexicalDeclaration.boundNames

/-- Whether the string literals a body starts with include the strict mode directive. -/
def hasStrictDirective : List Statement → Bool
  | .expression (.literal (.string s)) :: tail => s == "use strict" || hasStrictDirective tail
  | _ => false

end Body

/-- Whether a function's code is strict, given the strictness of the code around it. -/
def FunctionCode.isStrict (code : FunctionCode) (enclosing : Bool) : Bool :=
  enclosing || Body.hasStrictDirective code.statements

end EcmaEval
