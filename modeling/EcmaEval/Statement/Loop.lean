import EcmaEval.Statement.Block

/-!
# Loops

The while, do-while and for loops, and the for-in loop over the string keys of an object and of its
prototypes. A loop goes on after its body ended normally or with a `continue` that means it, and its
value is the last one its body gave. The number of iterations is bounded by the steps it is given. A key
is given at most once, and only while it is an enumerable own property of the object being visited; a
property that is not enumerable hides those of the same key further up the chain.
-/
namespace EcmaEval

/-- A fresh environment for the next iteration of a `let` loop, with the current values of the
loop's names. -/
def copyIterationEnv (names : List String) : Eval Unit := do
  if names.isEmpty then return
  let last ← lexicalEnv
  match (← last.load).outer? with
  | none => breach .iterationWithoutOuter
  | some outer =>
    let env ← newDeclarativeEnvironment (some outer)
    declareInitialized env (last.read · true) names
    setLexicalEnv env

namespace Evaluator

def holds (ev : Evaluator) : Option Expression → Eval Bool
  | some test => return (← ev.value test).toBoolean
  | none => pure true

def whileLoop (ev : Evaluator) (test : Expression) (body : Statement) (labels : List String) :
    Nat → Value → Eval Completion
  | 0, _ => throw .exhausted
  | steps + 1, last => do
    if !(← ev.value test).toBoolean then return .normal (some last)
    else
      let result ← ev.statement body
      if !result.loopContinues labels then return result.updateEmpty (some last)
      else ev.whileLoop test body labels steps (result.value?.getD last)

def doWhileLoop (ev : Evaluator) (body : Statement) (test : Expression) (labels : List String) :
    Nat → Value → Eval Completion
  | 0, _ => throw .exhausted
  | steps + 1, last => do
    let result ← ev.statement body
    if !result.loopContinues labels then return result.updateEmpty (some last)
    else
      let last := result.value?.getD last
      if !(← ev.value test).toBoolean then return .normal (some last)
      else ev.doWhileLoop body test labels steps last

def forIterations (ev : Evaluator) (test update : Option Expression) (body : Statement)
    (names labels : List String) : Nat → Value → Eval Completion
  | 0, _ => throw .exhausted
  | steps + 1, last => do
    if !(← ev.holds test) then return .normal (some last)
    else
      let result ← ev.statement body
      if !result.loopContinues labels then return result.updateEmpty (some last)
      else
        copyIterationEnv names
        match update with
        | some e => discard (ev.value e)
        | none => pure ()
        ev.forIterations test update body names labels steps (result.value?.getD last)

def forBody (ev : Evaluator) (steps : Nat) (test update : Option Expression) (body : Statement)
    (names labels : List String) : Eval Completion := do
  copyIterationEnv names
  ev.forIterations test update body names labels steps .undefined

/-- A for loop whose names are block-scoped: an environment of its own, and for `let` a copy of it
for each iteration. -/
def forLexical (ev : Evaluator) (steps : Nat) (constant : Bool) (declarators : List Declarator)
    (test update : Option Expression) (body : Statement) (labels : List String) :
    Eval Completion := do
  let outer ← lexicalEnv
  let env ← newDeclarativeEnvironment (some outer)
  let names := declarators.flatMap (·.pattern.boundNames)
  names.forM (env.createLexical constant)
  withLexicalEnv env do
    ev.declare (.lexical constant) declarators
    ev.forBody steps test update body (if constant then [] else names) labels

def forLoop (ev : Evaluator) (steps : Nat) (init : Option ForInit) (test update : Option Expression)
    (body : Statement) (labels : List String) : Eval Completion := do
  match init with
  | some (.declare (.lexical constant) declarators) =>
    ev.forLexical steps constant declarators test update body labels
  | some (.declare .var declarators) =>
    ev.declare .var declarators
    ev.forBody steps test update body [] labels
  | some (.expression e) =>
    let _ ← ev.value e
    ev.forBody steps test update body [] labels
  | none => ev.forBody steps test update body [] labels

end Evaluator

structure KeyIterator where
  /-- The object being visited. -/
  object : Option ObjectId
  /-- The keys of that object still to come, once its visit has begun. -/
  pending : Option (List Key)
  /-- The keys met so far. -/
  visited : List Key

namespace KeyIterator

def start (o : ObjectId) : KeyIterator := { object := some o, pending := none, visited := [] }

/-- The first of the pending keys that is to be given, and the keys after it. -/
def nextOwn (o : ObjectId) : List Key → List Key → Query (Option (Text × List Key) × List Key)
  | [], visited => return (none, visited)
  | key :: rest, visited => do
    if visited.contains key then nextOwn o rest visited
    else
      match ← o.getOwnProperty key, key with
      | none, _ => nextOwn o rest visited
      | some d, .string t =>
        if d.enumerable then return (some (t, rest), key :: visited)
        else nextOwn o rest (key :: visited)
      | some _, .symbol _ => nextOwn o rest (key :: visited)

/-- The next key, going on to the prototype when an object has no more. -/
def advance : Nat → KeyIterator → Query (Option (Text × KeyIterator))
  | 0, _ => throw .exhausted
  | steps + 1, it => do
    match it.object with
    | none => return none
    | some o =>
      let pending ←
        match it.pending with
        | some keys => pure keys
        | none => do pure ((← o.ownKeys).filter Key.isString)
      match ← nextOwn o pending it.visited with
      | (some (t, rest), visited) =>
        return some (t, { object := some o, pending := some rest, visited })
      | (none, visited) =>
        advance steps { object := (← o.load).prototype, pending := none, visited }

def next (it : KeyIterator) : Query (Option (Text × KeyIterator)) := do
  it.advance ((← read).objects.size + 2)

end KeyIterator

namespace Evaluator

/-- The names that are not yet initialized while the object of the loop is evaluated. -/
def headNames : ForTarget → List String
  | .declare (.lexical _) pattern => pattern.boundNames
  | _ => []

/-- Evaluates the object of the loop, with the names of a `let` or `const` head in scope but not
initialized. -/
def forInSource (ev : Evaluator) (target : ForTarget) (source : Expression) : Eval Value := do
  let outer ← lexicalEnv
  let names := headNames target
  if names.isEmpty then withLexicalEnv outer (ev.value source)
  else
    let env ← newDeclarativeEnvironment (some outer)
    names.forM (env.createMutable · false)
    withLexicalEnv env (ev.value source)

def bindForTarget (ev : Evaluator) (outer : EnvId) (target : ForTarget) (value : Value) :
    Eval Unit := do
  match target with
  | .declare .var pattern => ev.bindPattern none pattern value
  | .declare (.lexical constant) pattern =>
    let env ← newDeclarativeEnvironment (some outer)
    pattern.boundNames.forM (env.createLexical constant)
    setLexicalEnv env
    ev.bindPattern (some env) pattern value
  | .pattern (.identifier name) => (← resolveBinding name none).putValue value
  | .pattern _ => unsupported .destructuringAssignment

def forInIterations (ev : Evaluator) (target : ForTarget) (body : Statement) (labels : List String)
    (outer : EnvId) : Nat → KeyIterator → Value → Eval Completion
  | 0, _, _ => throw .exhausted
  | steps + 1, it, last => do
    match ← it.next with
    | none => return .normal (some last)
    | some (key, it) =>
      let result ← withLexicalEnv outer do
        ev.bindForTarget outer target (.string key)
        ev.statement body
      if !result.loopContinues labels then return result.updateEmpty (some last)
      else ev.forInIterations target body labels outer steps it (result.value?.getD last)

/-- A for-in loop. Over undefined and null there is nothing to enumerate. -/
def forIn (ev : Evaluator) (steps : Nat) (target : ForTarget) (source : Expression)
    (body : Statement) (labels : List String) : Eval Completion := do
  let outer ← lexicalEnv
  let value ← ev.forInSource target source
  if value.isNullish then return .broke none none
  else
    let o ← value.toObject
    ev.forInIterations target body labels outer steps (.start o) .undefined

end Evaluator

end EcmaEval
