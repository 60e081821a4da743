import EcmaEval.Proofs.Stack.Context

/-!
# Expressions and calls give back the context stack

A call runs in a context of its own. Entering the function moves the scope of that context, which
goes with the context, so calls and with them all expressions end with the stack they started with.
-/
namespace EcmaEval

/-- The evaluator gives back the stack: expressions all of it, statements all but the labels of the
running context, of which they leave none. -/
structure Evaluator.Restores (ev : Evaluator) : Prop where
  expression : ∀ e, (ev.expression e).KeepsStack
  statement : ∀ s, (ev.statement s).Fixes Machine.frame
  labels : ∀ s m, (ev.statement s).Ends m → ((ev.statement s).after m).labels = []

namespace Evaluator

variable {ev : Evaluator} (hev : ev.Restores)

include hev

@[grind ←] theorem value_keepsStack (e : Expression) : (ev.value e).KeepsStack :=
  .bind (hev.expression e) fun _ => by grind

@[grind ←] theorem valueNamed_keepsStack (e : Expression) (name : Key) :
    (ev.valueNamed e name).KeepsStack := by
  unfold valueNamed
  grind

@[grind ←] theorem values_keepsStack (es : List Expression) : (ev.values es).KeepsStack := by
  induction es with
  | nil => exact .pure _
  | cons e rest ih =>
    unfold values
    grind

@[grind ←] theorem memberKey_keepsStack (name : MemberName) : (ev.memberKey name).KeepsStack := by
  unfold memberKey
  grind

mutual

theorem bindPattern_keepsStack (env : Option EnvId) (p : Pattern) (value : Value) :
    (ev.bindPattern env p value).KeepsStack := by
  cases p with
  | identifier name => exact (bindName_stays (R := .inFrame) (holds_of_isFree _) _ (holds_of_isFree _)).keepsStack
  | array elements => exact .unsupported _
  | object members =>
    have hmembers (source : ObjectId) := bindMembers_keepsStack env source members []
    unfold bindPattern
    grind
  | withDefault target default =>
    have htarget (v : Value) := bindPattern_keepsStack env target v
    unfold bindPattern
    grind
  | rest target => exact .breach _

theorem bindMembers_keepsStack (env : Option EnvId) (source : ObjectId)
    (members : List PatternMember) (taken : List Key) :
    (ev.bindMembers env source members taken).KeepsStack := by
  cases members with
  | nil => exact .pure _
  | cons member rest =>
    have hrest (taken : List Key) := bindMembers_keepsStack env source rest taken
    cases member with
    | keyed name target =>
      have htarget (v : Value) := bindPattern_keepsStack env target v
      unfold bindMembers
      grind
    | shorthand name default =>
      have hbind (v : Value) : (bindName env name v).KeepsStack := by grind
      unfold bindMembers
      grind
    | rest name =>
      unfold bindMembers
      grind

end

theorem bindParameters_keepsStack (env : Option EnvId) (parameters : List Pattern)
    (arguments : List Value) : (ev.bindParameters env parameters arguments).KeepsStack := by
  fun_induction ev.bindParameters env parameters arguments with
  | case1 => exact .pure _
  | case2 => exact .bind (by grind) fun _ => bindPattern_keepsStack hev _ _ _
  | case3 _ _ _ _ ih => exact .bind (bindPattern_keepsStack hev _ _ _) fun _ => ih

omit hev in
theorem bindVariables_fixes_callers (slots : FunctionSlots) (env : EnvId) (names : List String) :
    (bindVariables slots env names).Fixes Machine.callers := by
  have hdeclare (env : EnvId) {initial : String → Eval Value} {names : List String}
      (hinitial : ∀ name, (initial name).StaysIn .inFrame Remit.inFrame.Holds) :
      (declareInitialized env initial names).KeepsStack :=
    (declareInitialized_stays (R := .inFrame) trivial (holds_of_isFree env) hinitial names).keepsStack
  unfold bindVariables
  dsimp only
  split
  · exact .bind (hdeclare env fun _ => .pure (holds_of_isFree _)).callers fun _ => .pure _
  · refine .bind (Eval.KeepsStack.callers (by grind)) fun varEnv => ?_
    refine .bind (modifyContext_fixes_callers _) fun _ => ?_
    exact .bind (hdeclare varEnv (by grind)).callers fun _ => .pure _

omit hev in
theorem parameterEnv_fixes_callers (slots : FunctionSlots) :
    (parameterEnv slots).Fixes Machine.callers := by
  refine .bind (.lift _) fun calleeEnv => ?_
  split
  · exact .pure _
  · refine .bind (Eval.KeepsStack.callers (by grind)) fun env => ?_
    exact .bind (setLexicalEnv_fixes_callers _) fun _ => .pure _

theorem bindCall_keepsStack (f : ObjectId) (slots : FunctionSlots) (env : EnvId)
    (arguments : List Value) : (ev.bindCall f slots env arguments).KeepsStack := by
  have hparameters (env : Option EnvId) :=
    bindParameters_keepsStack hev env slots.code.parameters arguments
  unfold bindCall
  grind

omit hev in
theorem bindFunctions_keepsStack (slots : FunctionSlots) (lexEnv varEnv : EnvId) :
    (bindFunctions slots lexEnv varEnv).KeepsStack :=
  (bindFunctions_stays (R := .inFrame) (fun _ _ => trivial) (holds_of_isFree _) (holds_of_isFree _)).keepsStack

omit hev in
theorem enterBody_fixes_callers (slots : FunctionSlots) (varEnv : EnvId) :
    (enterBody slots varEnv).Fixes Machine.callers := by
  have hbody (lexEnv : EnvId) : Eval.Fixes Machine.callers (do
      setLexicalEnv lexEnv
      declareLexical lexEnv (Body.lexicallyScoped slots.code.statements true)
      bindFunctions slots lexEnv varEnv) :=
    .bind (setLexicalEnv_fixes_callers _) fun _ =>
      .bind (Eval.KeepsStack.callers (by grind)) fun _ => (bindFunctions_keepsStack slots lexEnv varEnv).callers
  unfold enterBody
  split
  · exact hbody varEnv
  · exact .bind (Eval.KeepsStack.callers (by grind)) hbody

/-- Entering a function moves the scope of the running context, and no other context. -/
theorem instantiateFunction_fixes_callers (f : ObjectId) (slots : FunctionSlots)
    (arguments : List Value) : (ev.instantiateFunction f slots arguments).Fixes Machine.callers := by
  refine .bind (parameterEnv_fixes_callers slots) fun env => ?_
  refine .bind (bindCall_keepsStack hev f slots env arguments).callers fun _ => ?_
  exact .bind (bindVariables_fixes_callers slots env _) fun varEnv => enterBody_fixes_callers slots varEnv

theorem statements_fixes_frame (body : List Statement) (last : Option Value) :
    (ev.statements body last).Fixes Machine.frame := by
  induction body generalizing last with
  | nil => exact .pure _
  | cons s rest ih =>
    refine .bind (hev.statement s) fun completion => ?_
    cases completion with
    | normal value => exact ih _
    | _ => exact .pure _

theorem functionBody_fixes_callers (f : ObjectId) (slots : FunctionSlots) (arguments : List Value) :
    (ev.functionBody f slots arguments).Fixes Machine.callers := by
  refine .completing (.bind (instantiateFunction_fixes_callers hev f slots arguments) fun _ => ?_)
  cases slots.code.body with
  | block body => exact .callers (.outerFrame (statements_fixes_frame hev body none))
  | concise e => exact .bind (value_keepsStack hev e).callers fun _ => .pure _

theorem runFunction_keepsStack (f : ObjectId) (slots : FunctionSlots) (thisValue : Value)
    (arguments : List Value) (newTarget : Value) :
    (ev.runFunction f slots thisValue arguments newTarget).KeepsStack := by
  refine .bind (by grind) fun env => ?_
  refine withContext_keepsStack _ (.bind (Eval.KeepsStack.callers (by grind)) fun _ => ?_)
  exact functionBody_fixes_callers hev f slots arguments

theorem callFunction_keepsStack (f : ObjectId) (slots : FunctionSlots) (thisValue : Value)
    (arguments : List Value) : (ev.callFunction f slots thisValue arguments).KeepsStack := by
  have hrun := runFunction_keepsStack hev f slots thisValue arguments .undefined
  unfold callFunction
  grind

theorem constructFunction_keepsStack (f : ObjectId) (slots : FunctionSlots)
    (arguments : List Value) (newTarget : Value) :
    (ev.constructFunction f slots arguments newTarget).KeepsStack := by
  refine .bind (.lift _) fun prototype => .bind (by grind) fun self => ?_
  refine .bind (runFunction_keepsStack hev f slots _ arguments newTarget) fun completion => ?_
  cases completion with
  | returned value => cases value <;> exact .pure _
  | normal value => exact .pure _
  | thrown value => exact .throw _
  | broke target value => exact .breach _
  | continued target value => exact .breach _

/-- A call ends with the stack it started with. -/
@[grind ←] theorem call_keepsStack (f thisValue : Value) (arguments : List Value) :
    (ev.call f thisValue arguments).KeepsStack := by
  have hcall (o : ObjectId) (slots : FunctionSlots) :=
    callFunction_keepsStack hev o slots thisValue arguments
  unfold call
  grind

/-- A construction ends with the stack it started with. -/
@[grind ←] theorem construct_keepsStack (f : Value) (arguments : List Value)
    (newTarget : Option Value) : (ev.construct f arguments newTarget).KeepsStack := by
  have hconstruct (o : ObjectId) (slots : FunctionSlots) :=
    constructFunction_keepsStack hev o slots arguments (newTarget.getD f)
  unfold construct
  grind

@[grind ←] theorem templateParts_keepsStack (es : List Expression) (strings : List String)
    (text : Text) : (ev.templateParts es strings text).KeepsStack := by
  induction es generalizing strings text with
  | nil => exact .pure _
  | cons e rest ih =>
    unfold templateParts
    grind

@[grind ←] theorem arrayElements_keepsStack (array : ObjectId) (index : Nat)
    (elements : List (Option Expression)) :
    (ev.arrayElements array index elements).KeepsStack := by
  fun_induction ev.arrayElements array index elements with
  | case1 => exact .pure _
  | case2 _ _ ih => exact ih
  | case3 index e rest ih =>
    refine .bind (value_keepsStack hev e) fun value => ?_
    exact .bind (by grind) fun _ => ih

@[grind ←] theorem array_keepsStack (elements : List (Option Expression)) :
    (ev.array elements).KeepsStack := by
  refine .bind (by grind) fun array => ?_
  refine .bind (arrayElements_keepsStack hev array 0 elements) fun _ => ?_
  refine .bind (by grind) fun done => ?_
  split <;> grind

@[grind ←] theorem member_keepsStack (o : ObjectId) (entry : Member) :
    (ev.member o entry).KeepsStack := by
  refine .bind (memberKey_keepsStack hev _) fun key => ?_
  split <;> grind

@[grind ←] theorem sequence_keepsStack (es : List Expression) (last : Value) :
    (ev.sequence es last).KeepsStack := by
  induction es generalizing last with
  | nil => exact .pure _
  | cons e rest ih => exact .bind (value_keepsStack hev e) ih

@[grind ←] theorem delete_keepsStack (operand : Expression) : (ev.delete operand).KeepsStack := by
  refine .bind (hev.expression operand) fun reference => ?_
  split <;> grind

@[grind ←] theorem assign_keepsStack (op : AssignOp) (target value : Expression) :
    (ev.assign op target value).KeepsStack := by
  have hassigned : (ev.assignedValue target value).KeepsStack := by
    unfold assignedValue
    grind
  have hstore (reference value : Value) : (store reference value).KeepsStack := by
    unfold store
    grind
  have hexpression := hev.expression target
  unfold assign
  cases op <;> grind

/-- One step of expression evaluation ends with the stack it started with. -/
theorem evaluate_keepsStack (e : Expression) : (ev.evaluate e).KeepsStack := by
  have hexpression := hev.expression
  cases e with
  | literal l =>
    unfold evaluate Literal.evaluate
    grind
  | object members =>
    refine .bind (.lift _) fun intrinsics => .bind (by grind) fun o => ?_
    exact .bind (.forM (member_keepsStack hev o) members) fun _ => .pure _
  | update op returnsNew target =>
    unfold evaluate update
    grind
  | call callee arguments =>
    unfold evaluate callExpression
    grind
  | new callee arguments =>
    unfold evaluate newExpression
    grind
  | _ =>
    unfold evaluate
    first | grind | grind [unary, binary, logical, conditional, memberAccess, indexAccess, template, typeOf]

end Evaluator
end EcmaEval
