import EcmaEval.Evaluate

/-!
# Observed evaluation

An evaluation that takes a look at the machine before each of its moments: the evaluation of an expression,
the execution of a statement, and the resolution of a name that a `var` declaration gives a value. Looks
that do nothing leave the evaluation as it is.
-/
namespace EcmaEval

/-- What an evaluation is about to do. -/
inductive Moment where
  | expression (e : Expression)
  | statement (s : Statement)
  /-- A name of a `var` declaration is to be resolved. -/
  | var (name : String)

/-- A look before each moment. -/
abbrev Look : Type := Moment → Eval Unit

/-- The look that does nothing. -/
def Look.none : Look := fun _ => pure ()

variable (look : Look)

/-- Resolves a name of a `var` declaration and gives it a value. -/
def bindVar (name : String) (value : Value) : Eval Unit := do
  look (.var name)
  bindName none name value

namespace Evaluator

variable (ev : Evaluator)

mutual

/-- Binds a pattern to a value, the names in a way of one's own. -/
def bindPatternBy (bind : String → Value → Eval Unit) : Pattern → Value → Eval Unit
  | .identifier name, value => bind name value
  | .withDefault target default, value => do
    let value ←
      if value.isUndefined then
        match target with
        | .identifier name => ev.valueNamed default (.name name)
        | _ => ev.value default
      else pure value
    bindPatternBy bind target value
  | .object members, value => do
    if value.isNullish then complain (.cannotDestructure value.display)
    else
      let source ← value.toObject
      bindMembersBy bind source members []
  | .array _, _ => unsupported .arrayDestructuring
  | .rest _, _ => breach .misplacedRest

def bindMembersBy (bind : String → Value → Eval Unit) (source : ObjectId) :
    List PatternMember → List Key → Eval Unit
  | [], _ => pure ()
  | .shorthand name default :: rest, taken => do
    let key : Key := .name name
    let value ← source.get key
    let value ←
      match default with
      | some default => if value.isUndefined then ev.valueNamed default key else pure value
      | none => pure value
    bind name value
    bindMembersBy bind source rest (taken ++ [key])
  | .keyed name target :: rest, taken => do
    let key ← ev.memberKey name
    let value ← source.get key
    bindPatternBy bind target value
    bindMembersBy bind source rest (taken ++ [key])
  | .rest name :: rest, taken => do
    let others ← newObject (some (← intrinsics).objectPrototype)
    copyProperties others source taken
    bind name (.object others)
    bindMembersBy bind source rest taken

end

/-- Gives the names of a `var` declarator their values. -/
def varDeclarator (d : Declarator) : Eval Unit := do
  match d.pattern, d.init with
  | .identifier _, none => pure ()
  | .identifier name, some e =>
    look (.var name)
    let target ← resolveBinding name none
    let value ← ev.valueNamed e (.name name)
    target.putValue value
  | pattern, some e =>
    let value ← ev.value e
    ev.bindPatternBy (bindVar look) pattern value
  | _, none => breach .patternWithoutInit

/-- The iterations of a for-in loop that binds the keys in a way of one's own. -/
def forKeys (bind : Value → Eval Unit) (body : Statement) (labels : List String) (outer : EnvId) :
    Nat → KeyIterator → Value → Eval Completion
  | 0, _, _ => throw .exhausted
  | steps + 1, it, last => do
    match ← it.next with
    | none => return .normal (some last)
    | some (key, it) =>
      let result ← withLexicalEnv outer do
        bind (.string key)
        ev.statement body
      if !result.loopContinues labels then return result.updateEmpty (some last)
      else forKeys bind body labels outer steps it (result.value?.getD last)

/-- A for-in loop whose head declares variables. -/
def forVarIn (steps : Nat) (p : Pattern) (source : Expression) (body : Statement)
    (labels : List String) : Eval Completion := do
  let outer ← lexicalEnv
  let value ← ev.forInSource (.declare .var p) source
  if value.isNullish then return .broke none none
  else
    let o ← value.toObject
    ev.forKeys (ev.bindPatternBy (bindVar look) p) body labels outer steps (.start o) .undefined

/-- Runs a statement with the labels directly before it. -/
def observeWith (steps : Nat) (labels : List String) : Statement → Eval Completion
  | .declare .var declarators => do
    declarators.forM (ev.varDeclarator look)
    return .normal none
  | .forLoop (some (.declare .var declarators)) test update body => do
    declarators.forM (ev.varDeclarator look)
    return (← ev.forBody steps test update body [] labels).absorbBreak
  | .forIn (.declare .var p) source body =>
    return (← ev.forVarIn look steps p source body labels).absorbBreak
  | s => ev.executeWith steps labels s

/-- Runs a statement. -/
def observe (steps : Nat) (s : Statement) : Eval Completion := completing do
  ev.observeWith look steps (← takeLabels s) s

/-- The evaluator of a level that takes looks. -/
def observed : Nat → Evaluator
  | 0 => level 0
  | n + 1 =>
    { expression := fun e => do
        look (.expression e)
        (observed n).evaluate e
      statement := fun s => do
        look (.statement s)
        (observed n).observe look n s }

variable {ev}

mutual

theorem bindPatternBy_bindName (env : Option EnvId) (p : Pattern) (value : Value) :
    ev.bindPatternBy (bindName env) p value = ev.bindPattern env p value := by
  cases p with
  | object members =>
    unfold bindPatternBy bindPattern
    simp only [bindMembersBy_bindName env _ members]
  | withDefault target default =>
    unfold bindPatternBy bindPattern
    have ih := bindPatternBy_bindName env target
    cases target <;> simp only [ih]
  | _ =>
    unfold bindPatternBy bindPattern
    rfl

theorem bindMembersBy_bindName (env : Option EnvId) (source : ObjectId) (members : List PatternMember)
    (taken : List Key) :
    ev.bindMembersBy (bindName env) source members taken = ev.bindMembers env source members taken := by
  cases members with
  | nil =>
    unfold bindMembersBy bindMembers
    rfl
  | cons member rest =>
    cases member with
    | keyed name target =>
      unfold bindMembersBy bindMembers
      simp only [bindPatternBy_bindName env target, bindMembersBy_bindName env source rest]
    | shorthand name default =>
      unfold bindMembersBy bindMembers
      have ih := bindMembersBy_bindName env source rest
      cases default <;> simp only [ih]
    | rest name =>
      unfold bindMembersBy bindMembers
      simp only [bindMembersBy_bindName env source rest]

end

theorem bindVar_none : bindVar .none = bindName none := by
  funext name value
  exact pure_bind _ _

theorem varDeclarator_none (d : Declarator) : ev.varDeclarator .none d = ev.declarator .var d := by
  obtain ⟨pattern, init⟩ := d
  unfold varDeclarator declarator
  cases pattern with
  | identifier name =>
    cases init with
    | none => rfl
    | some e => exact pure_bind _ _
  | _ =>
    cases init with
    | none => rfl
    | some e =>
      simp only [bindVar_none, bindPatternBy_bindName, pure_bind]

theorem forKeys_bindForTarget (target : ForTarget) (body : Statement) (labels : List String)
    (outer : EnvId) (steps : Nat) (it : KeyIterator) (last : Value) :
    ev.forKeys (ev.bindForTarget outer target) body labels outer steps it last =
      ev.forInIterations target body labels outer steps it last := by
  induction steps generalizing it last with
  | zero => rfl
  | succ steps ih =>
    unfold forKeys forInIterations
    refine bind_congr fun found => ?_
    cases found with
    | none => rfl
    | some found => simp only [ih]

/-- Without looks a head that declares variables binds its names as any other pattern. -/
theorem forVarIn_none (steps : Nat) (p : Pattern) (source : Expression) (body : Statement)
    (labels : List String) :
    ev.forVarIn .none steps p source body labels = ev.forIn steps (.declare .var p) source body labels := by
  have hbind (outer : EnvId) :
      ev.bindPatternBy (bindVar .none) p = ev.bindForTarget outer (.declare .var p) := by
    funext value
    rw [bindVar_none]
    exact bindPatternBy_bindName none p value
  unfold forVarIn forIn
  simp only [← forKeys_bindForTarget, ← hbind]

theorem observeWith_none (steps : Nat) (labels : List String) (s : Statement) :
    ev.observeWith .none steps labels s = ev.executeWith steps labels s := by
  have hdeclare : ev.varDeclarator .none = ev.declarator .var := funext varDeclarator_none
  unfold observeWith
  split
  · rw [hdeclare]
    rfl
  · rw [hdeclare]
    exact (bind_assoc _ _ _).symm
  · unfold executeWith
    rw [forVarIn_none]
  · rfl

theorem observe_none (steps : Nat) (s : Statement) : ev.observe .none steps s = ev.execute steps s := by
  unfold observe execute
  simp only [observeWith_none]

/-- Without looks an observed evaluation is the evaluation itself. -/
theorem observed_none (n : Nat) : observed .none n = level n := by
  induction n with
  | zero => rfl
  | succ n ih =>
    unfold observed level
    simp only [ih, observe_none]
    rfl

end Evaluator

end EcmaEval
