import EcmaEval.Value

/-!
# How evaluation ends

A *completion* is how a statement ends: normally, or by a return, a throw or a jump. A missing value is
an empty one, which an enclosing statement may fill. A *fault* is a failure of the evaluator itself: a
construct it does not support, or an internal condition that does not hold. Running code never sees
one. A *complaint* is an error of the language, thrown as an error object that running code may catch.
-/
namespace EcmaEval

inductive Completion where
  | normal (value : Option Value)
  | returned (value : Value)
  | thrown (value : Value)
  | broke (target : Option String) (value : Option Value)
  | continued (target : Option String) (value : Option Value)

namespace Completion

def isAbrupt : Completion → Bool
  | .normal _ => false
  | _ => true

def isThrow : Completion → Bool
  | .thrown _ => true
  | _ => false

def value? : Completion → Option Value
  | .normal value | .broke _ value | .continued _ value => value
  | .returned value | .thrown value => some value

/-- Fills an empty value. -/
def updateEmpty (c : Completion) (fill : Option Value) : Completion :=
  match c with
  | .normal none => .normal fill
  | .broke target none => .broke target fill
  | .continued target none => .continued target fill
  | other => other

/-- Whether a loop with the given labels goes on after its body ended this way. -/
def loopContinues (c : Completion) (labels : List String) : Bool :=
  match c with
  | .normal _ => true
  | .continued none _ => true
  | .continued (some label) _ => labels.contains label
  | _ => false

/-- A loop or switch consumes a break without a label. -/
def absorbBreak : Completion → Completion
  | .broke none value => .normal (some (value.getD .undefined))
  | other => other

end Completion

inductive ErrorKind where
  | error | typeError | referenceError | syntaxError | rangeError
  deriving DecidableEq, Inhabited

namespace ErrorKind

def all : List ErrorKind := [.error, .typeError, .referenceError, .syntaxError, .rangeError]

def name : ErrorKind → String
  | .error => "Error"
  | .typeError => "TypeError"
  | .referenceError => "ReferenceError"
  | .syntaxError => "SyntaxError"
  | .rangeError => "RangeError"

end ErrorKind

inductive Feature where
  | getter | setter
  | objectToPrimitive | primitiveToObject
  | stringOrder | bigintOrder | bigintArithmetic
  | suspendedBodies | spread | yield | await
  | destructuringAssignment | arrayDestructuring | forOf
  deriving DecidableEq

def Feature.name : Feature → String
  | .getter => "accessor property getter"
  | .setter => "accessor property setter"
  | .objectToPrimitive => "ToPrimitive on objects"
  | .primitiveToObject => "ToObject on primitive values"
  | .stringOrder => "relational comparison of strings"
  | .bigintOrder => "relational comparison of BigInts"
  | .bigintArithmetic => "BigInt arithmetic"
  | .suspendedBodies => "generator and async function bodies"
  | .spread => "spread elements"
  | .yield => "yield"
  | .await => "await"
  | .destructuringAssignment => "destructuring assignment"
  | .arrayDestructuring => "array destructuring"
  | .forOf => "for-of"

/-- Internal conditions that do not hold. -/
inductive Breach where
  | unknownRealm (realm : RealmId)
  | initializedTwice (name : String)
  | notDeclarative | notGlobal | immutableInObject
  | lexicalThis | withoutThis | bindThisOutsideFunction | bindLexicalThis | chainWithoutThis
  | initializeNonBinding | initializeNonReference
  | mapOutsideFunction | arrayWithoutLength
  | referenceToPrimitive | typeOfReference
  | notFunction | escapedFunction | escapedConstructor
  | malformedBigint (digits : String)
  | accessorWithoutFunction | patternWithoutInit | misplacedRest | iterationWithoutOuter
  deriving DecidableEq

def Breach.message : Breach → String
  | .unknownRealm realm => "unknown realm " ++ realm.index.repr
  | .initializedTwice name => s!"binding '{name}' initialized twice"
  | .notDeclarative => "expected a declarative environment record"
  | .notGlobal => "expected a global environment record"
  | .immutableInObject => "object environment records have no immutable bindings"
  | .lexicalThis => "GetThisBinding on a lexical-this environment"
  | .withoutThis => "GetThisBinding on an environment without a this binding"
  | .bindThisOutsideFunction => "BindThisValue on a non-function environment"
  | .bindLexicalThis => "BindThisValue on a lexical-this environment"
  | .chainWithoutThis => "environment chain has no this binding"
  | .initializeNonBinding => "InitializeReferencedBinding on a non-environment reference"
  | .initializeNonReference => "InitializeReferencedBinding on a non-reference"
  | .mapOutsideFunction => "parameter map outside a function environment"
  | .arrayWithoutLength => "array without a numeric length property"
  | .referenceToPrimitive => "ToPrimitive applied to a Reference"
  | .typeOfReference => "typeof applied to an unresolved Reference"
  | .notFunction => "expected an ECMAScript function object"
  | .escapedFunction => "break or continue escaped a function body"
  | .escapedConstructor => "break or continue escaped a constructor body"
  | .malformedBigint digits => "malformed BigInt literal " ++ digits
  | .accessorWithoutFunction => "accessor property without a function body"
  | .patternWithoutInit => "destructuring declaration without an initializer"
  | .misplacedRest => "rest element outside a parameter or array pattern"
  | .iterationWithoutOuter => "iteration environment has no outer environment"

inductive Fault where
  | notImplemented (feature : Feature)
  | assertion (breach : Breach)
  | duplicateBinding (name : String)
  | missingBinding (name : String)
  | invalidObject (o : ObjectId)
  | invalidEnvironment (env : EnvId)
  | noRunningContext
  deriving DecidableEq

def Fault.message : Fault → String
  | .notImplemented feature => "not implemented: " ++ feature.name
  | .assertion breach => "assertion failed: " ++ breach.message
  | .duplicateBinding name => s!"binding '{name}' is already declared in this environment"
  | .missingBinding name => s!"binding '{name}' does not exist in this environment"
  | .invalidObject o => "invalid object handle ObjectId(" ++ o.index.repr ++ ")"
  | .invalidEnvironment env => "invalid environment handle EnvId(" ++ env.index.repr ++ ")"
  | .noRunningContext => "no running execution context"

/-- An error of the language. Names and property keys are given as they are shown. -/
inductive Complaint where
  | notDefined (name : String)
  | beforeInitialization (name : String)
  | thisBeforeSuper | superTwice | invalidTarget
  | constantAssignment
  | alreadyDeclared (name : String)
  | redeclared (name : String)
  | readOnlyBinding (name : String)
  | readOnlyProperty (key : String)
  | cannotDefine (key : String)
  | cannotRedefine (key : String)
  | cannotDelete (key : String)
  | cannotDeclareFunction (name : String)
  | cannotDeclareVariable (name : String)
  | symbolToNumber | bigintToNumber | symbolToString
  | notObject (value : String)
  | cannotDestructure (value : String)
  | notFunction (callee : String)
  | notConstructor (callee : String)
  | instanceOfNonObject | instanceOfNonCallable | instanceOfPrototype
  | keyInNonObject | mixedBigint | cannotSetLength
  | invalidLength | stackExceeded
  deriving DecidableEq

namespace Complaint

def kind : Complaint → ErrorKind
  | .notDefined _ | .beforeInitialization _ | .thisBeforeSuper | .superTwice | .invalidTarget =>
    .referenceError
  | .redeclared _ => .syntaxError
  | .invalidLength | .stackExceeded => .rangeError
  | _ => .typeError

def message : Complaint → String
  | .notDefined name => s!"{name} is not defined"
  | .beforeInitialization name => s!"Cannot access '{name}' before initialization"
  | .thisBeforeSuper => "Must call super constructor before accessing 'this'"
  | .superTwice => "Super constructor may only be called once"
  | .invalidTarget => "Invalid assignment target"
  | .constantAssignment => "Assignment to constant variable."
  | .alreadyDeclared name => s!"Identifier '{name}' has already been declared"
  | .redeclared name => s!"Identifier '{name}' has already been declared"
  | .readOnlyBinding name => s!"Cannot assign to read only property '{name}'"
  | .readOnlyProperty key => s!"Cannot assign to read only property '{key}' of object"
  | .cannotDefine key => s!"Cannot define property '{key}'"
  | .cannotRedefine key => s!"Cannot redefine property: {key}"
  | .cannotDelete key => s!"Cannot delete property '{key}'"
  | .cannotDeclareFunction name => s!"Cannot declare global function '{name}'"
  | .cannotDeclareVariable name => s!"Cannot declare global variable '{name}'"
  | .symbolToNumber => "Cannot convert a Symbol value to a number"
  | .bigintToNumber => "Cannot convert a BigInt value to a number"
  | .symbolToString => "Cannot convert a Symbol value to a string"
  | .notObject value => s!"Cannot convert {value} to object"
  | .cannotDestructure value => s!"Cannot destructure '{value}' as it is {value}."
  | .notFunction callee => s!"{callee} is not a function"
  | .notConstructor callee => s!"{callee} is not a constructor"
  | .instanceOfNonObject => "Right-hand side of 'instanceof' is not an object"
  | .instanceOfNonCallable => "Right-hand side of 'instanceof' is not callable"
  | .instanceOfPrototype => "Function has non-object prototype in instanceof check"
  | .keyInNonObject => "Cannot use 'in' operator to search for a key in a non-object"
  | .mixedBigint => "Cannot mix BigInt and other types, use explicit conversions"
  | .cannotSetLength => "Cannot set array length"
  | .invalidLength => "Invalid array length"
  | .stackExceeded => "Maximum call stack size exceeded"

end Complaint

/-- Why an operation that knows no machine fails. -/
inductive Failure where
  | complaint (c : Complaint)
  | fault (f : Fault)
  deriving DecidableEq

end EcmaEval
