import EcmaEval.Function.Create

/-!
# Evaluators

The meaning of a construct is given in terms of an evaluator for its parts. Each construct has its own
function here and in the modules that follow; the levels at the end tie them together. A pattern is
bound to a value by way of an environment, in which its names are initialized, or without one, when they
are assigned where they resolve.
-/
namespace EcmaEval

/-- Evaluation of expressions, which may give a reference, and of statements. -/
structure Evaluator where
  expression : Expression → Eval Value
  statement : Statement → Eval Completion

namespace Evaluator

/-- The value of an expression, never a reference. -/
def value (ev : Evaluator) (e : Expression) : Eval Value := do
  (← ev.expression e).getValue

/-- The value of an expression, where a function without a name takes the given one. -/
def valueNamed (ev : Evaluator) (e : Expression) (name : Key) : Eval Value :=
  match e with
  | .function code =>
    if code.ownName?.isNone then return .object (← instantiateExpression code (some name))
    else ev.value e
  | .arrow code => return .object (← instantiateArrow code (some name))
  | _ => ev.value e

def values (ev : Evaluator) : List Expression → Eval (List Value)
  | [] => pure []
  | e :: rest => do
    let v ← ev.value e
    let vs ← ev.values rest
    return v :: vs

/-- Runs statements in order until one ends abruptly. The value is the last one that was not
empty. -/
def statements (ev : Evaluator) : List Statement → Option Value → Eval Completion
  | [], last => return .normal last
  | s :: rest, last => do
    match ← ev.statement s with
    | .normal value => ev.statements rest (value <|> last)
    | abrupt => return abrupt.updateEmpty last

def memberKey (ev : Evaluator) : MemberName → Eval Key
  | .identifier name | .string name => pure (.name name)
  | .number n => pure (.name n.toText)
  | .computed key => do (← ev.value key).toKey

end Evaluator

def bindName (env : Option EnvId) (name : String) (value : Value) : Eval Unit := do
  match env with
  | some env => env.initBinding name value
  | none => (← resolveBinding name none).putValue value

def copyKeys (target source : ObjectId) : List Key → Eval Unit
  | [] => pure ()
  | key :: rest => do
    match ← source.getOwnProperty key with
    | some d =>
      if d.enumerable then
        let value ← source.get key
        target.createPropertyOrThrow key value
    | none => pure ()
    copyKeys target source rest

def copyProperties (target source : ObjectId) (excluded : List Key) : Eval Unit := do
  let keys ← source.ownKeys
  copyKeys target source (keys.filter fun key => !excluded.contains key)

namespace Evaluator

mutual

def bindPattern (ev : Evaluator) (env : Option EnvId) : Pattern → Value → Eval Unit
  | .identifier name, value => bindName env name value
  | .withDefault target default, value => do
    let value ←
      if value.isUndefined then
        match target with
        | .identifier name => ev.valueNamed default (.name name)
        | _ => ev.value default
      else pure value
    ev.bindPattern env target value
  | .object members, value => do
    if value.isNullish then complain (.cannotDestructure value.display)
    else
      let source ← value.toObject
      ev.bindMembers env source members []
  | .array _, _ => unsupported .arrayDestructuring
  | .rest _, _ => breach .misplacedRest

/-- Binds the members of an object pattern. A rest member takes the properties that no member before
it named. -/
def bindMembers (ev : Evaluator) (env : Option EnvId) (source : ObjectId) :
    List PatternMember → List Key → Eval Unit
  | [], _ => pure ()
  | .shorthand name default :: rest, taken => do
    let key : Key := .name name
    let value ← source.get key
    let value ←
      match default with
      | some default => if value.isUndefined then ev.valueNamed default key else pure value
      | none => pure value
    bindName env name value
    ev.bindMembers env source rest (taken ++ [key])
  | .keyed name target :: rest, taken => do
    let key ← ev.memberKey name
    let value ← source.get key
    ev.bindPattern env target value
    ev.bindMembers env source rest (taken ++ [key])
  | .rest name :: rest, taken => do
    let others ← newObject (some (← intrinsics).objectPrototype)
    copyProperties others source taken
    bindName env name (.object others)
    ev.bindMembers env source rest taken

end

end Evaluator

end EcmaEval
