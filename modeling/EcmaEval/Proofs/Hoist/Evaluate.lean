import EcmaEval.Proofs.Hoist.Frame

/-!
# Observed expressions and calls

Calls and one step of the evaluation of expressions do the same in a frame for two evaluators that do the same
for the parts. What a call runs belongs to another context, so nothing is asked of the names it declares.
-/
namespace EcmaEval

variable {F : Frame} {apart : Prop} {m m₀ : Machine}

theorem Pattern.Binds.tail {name : String} {member : PatternMember} {rest : List PatternMember}
    (h : (Pattern.object rest).Binds name) : (Pattern.object (member :: rest)).Binds name := by
  cases h with
  | keyed hp h => exact .keyed (List.mem_cons_of_mem member hp) h
  | shorthand hp => exact .shorthand (List.mem_cons_of_mem member hp)
  | remaining hp => exact .remaining (List.mem_cons_of_mem member hp)

/-- Runs the code of a function whose names are bound. -/
def Evaluator.runCode (ev : Evaluator) (code : FunctionCode) : Eval Completion :=
  match code.body with
  | .block body => ev.statements body none
  | .concise e => return .returned (← ev.value e)

/-- The evaluators do the same in the frame. In the call itself this is asked only of statements whose
variables the call declares. -/
structure Frame.Relates (F : Frame) (ev ev' : Evaluator) : Prop where
  expression : ∀ apart m₀ e, F.Same apart m₀ (ev.expression e) (ev'.expression e)
  statement : ∀ apart m₀ s, F.Covers m₀ s.DeclaresVar → F.Same apart m₀ (ev.statement s) (ev'.statement s)

namespace Evaluator

variable {ev ev' : Evaluator} (hev : F.Relates ev ev')

include hev

@[grind ←] theorem expression_same (e : Expression) :
    F.Same apart m₀ (ev.expression e) (ev'.expression e) := hev.expression apart m₀ e

@[grind ←] theorem value_same (e : Expression) : F.Same apart m₀ (ev.value e) (ev'.value e) := by
  unfold value
  grind

@[grind ←] theorem valueNamed_same (e : Expression) (name : Key) :
    F.Same apart m₀ (ev.valueNamed e name) (ev'.valueNamed e name) := by
  unfold valueNamed
  cases e <;> grind

@[grind ←] theorem values_same (es : List Expression) : F.Same apart m₀ (ev.values es) (ev'.values es) := by
  induction es generalizing m₀ with
  | nil => exact .pure _
  | cons e rest ih =>
    unfold values
    grind

@[grind ←] theorem memberKey_same (name : MemberName) :
    F.Same apart m₀ (ev.memberKey name) (ev'.memberKey name) := by
  unfold memberKey
  cases name <;> grind

mutual

/-- A pattern is bound the same way if its names are. -/
theorem bindPatternBy_same {bind bind' : String → Value → Eval Unit} (p : Pattern) (value : Value) (m₀ : Machine)
    (hbind : ∀ name, p.Binds name → ∀ v, F.Same apart m₀ (bind name v) (bind' name v)) :
    F.Same apart m₀ (ev.bindPatternBy bind p value) (ev'.bindPatternBy bind' p value) := by
  cases p with
  | identifier name =>
    unfold bindPatternBy
    exact hbind name .identifier value
  | array elements => exact .unsupported _
  | object members =>
    have hmembers (m₁ : Machine) (h₁ : m₀.Follows m₁) (source : ObjectId) :=
      bindMembersBy_same source members [] m₁ fun name hname v => (hbind name hname v).later h₁
    unfold bindPatternBy
    split
    · grind
    · exact .bind (by grind) fun m₁ source h₁ => hmembers m₁ h₁ source
  | withDefault target default =>
    have htarget (m₁ : Machine) (h₁ : m₀.Follows m₁) (value : Value) :=
      bindPatternBy_same target value m₁ fun name hname v => (hbind name (.withDefault hname) v).later h₁
    unfold bindPatternBy
    split
    · dsimp only
      split <;> exact .bind (by grind) fun m₁ value h₁ => htarget m₁ h₁ value
    · exact htarget m₀ (.refl m₀) value
  | rest target => exact .breach _

theorem bindMembersBy_same {bind bind' : String → Value → Eval Unit} (source : ObjectId)
    (members : List PatternMember) (taken : List Key) (m₀ : Machine)
    (hbind : ∀ name, (Pattern.object members).Binds name → ∀ v,
      F.Same apart m₀ (bind name v) (bind' name v)) :
    F.Same apart m₀ (ev.bindMembersBy bind source members taken)
      (ev'.bindMembersBy bind' source members taken) := by
  cases members with
  | nil =>
    unfold bindMembersBy
    exact .pure _
  | cons member rest =>
    have hrest (m₁ : Machine) (h₁ : m₀.Follows m₁) (taken : List Key) :=
      bindMembersBy_same source rest taken m₁ fun name hname v => (hbind name hname.tail v).later h₁
    unfold bindMembersBy
    cases member with
    | keyed name target =>
      refine .bind (memberKey_same hev name) fun m₁ key h₁ => .bind (.lift _) fun m₂ value h₂ => ?_
      refine .bind (bindPatternBy_same target value m₂ fun name hname v => ?_) fun m₃ _ h₃ => ?_
      · exact (hbind name (.keyed List.mem_cons_self hname) v).later (h₁.trans h₂)
      · exact hrest m₃ ((h₁.trans h₂).trans h₃) _
    | shorthand name default =>
      have hbound (m₁ : Machine) (h₁ : m₀.Follows m₁) (value : Value) : F.Same apart m₁
          (do bind name value; ev.bindMembersBy bind source rest (taken ++ [.name name]))
          (do bind' name value; ev'.bindMembersBy bind' source rest (taken ++ [.name name])) := by
        refine .bind ((hbind name (.shorthand List.mem_cons_self) value).later h₁) fun m₂ _ h₂ => ?_
        exact hrest m₂ (h₁.trans h₂) _
      refine .bind (.lift _) fun m₁ value h₁ => ?_
      cases default with
      | none => exact hbound m₁ h₁ value
      | some default =>
        dsimp only
        split
        · exact .bind (valueNamed_same hev default _) fun m₂ value h₂ => hbound m₂ (h₁.trans h₂) value
        · exact hbound m₁ h₁ value
    | rest name =>
      refine .bind (.lift _) fun m₁ i h₁ => .bind (by grind) fun m₂ others h₂ => .bind (by grind) fun m₃ _ h₃ => ?_
      have h := (h₁.trans h₂).trans h₃
      refine .bind ((hbind name (.remaining List.mem_cons_self) _).later h) fun m₄ _ h₄ => ?_
      exact hrest m₄ (h.trans h₄) _

end

theorem bindPattern_same (env : Option EnvId) (p : Pattern) (value : Value) (m₀ : Machine) :
    F.Same apart m₀ (ev.bindPattern env p value) (ev'.bindPattern env p value) := by
  rw [← bindPatternBy_bindName, ← bindPatternBy_bindName]
  exact bindPatternBy_same hev p value m₀ fun name _ v => by grind

theorem bindParameters_same (env : Option EnvId) (parameters : List Pattern) (arguments : List Value) :
    F.Same apart m₀ (ev.bindParameters env parameters arguments)
      (ev'.bindParameters env parameters arguments) := by
  induction parameters generalizing m₀ arguments with
  | nil => exact .pure _
  | cons p rest ih =>
    have hpattern (m₁ : Machine) (p : Pattern) (value : Value) :
        F.Same apart m₁ (ev.bindPattern env p value) (ev'.bindPattern env p value) :=
      bindPattern_same hev env p value m₁
    unfold bindParameters
    cases p <;> grind

theorem statements_same (body : List Statement) (hbody : F.Covers m₀ (Body.DeclaresVar body))
    (last : Option Value) : F.Same apart m₀ (ev.statements body last) (ev'.statements body last) := by
  induction body generalizing m₀ last with
  | nil => exact .pure _
  | cons s rest ih =>
    refine .bind (hev.statement apart m₀ s (hbody.imp fun name h => ⟨s, List.mem_cons_self, h⟩))
      fun m₁ completion h₁ => ?_
    cases completion with
    | normal value =>
      exact ih ((hbody.imp fun name ⟨s, hs, h⟩ => ⟨s, List.mem_cons_of_mem _ hs, h⟩).later h₁) _
    | _ => exact .pure _

theorem runCode_same (code : FunctionCode) (hcode : F.Covers m₀ (Body.DeclaresVar code.statements)) :
    F.Same apart m₀ (ev.runCode code) (ev'.runCode code) := by
  unfold FunctionCode.statements at hcode
  unfold runCode
  cases hbody : code.body with
  | block body =>
    rw [hbody] at hcode
    exact statements_same hev body hcode none
  | concise e => exact .bind (value_same hev e) fun _ _ _ => .pure _

/-- A function body in a context of its own. -/
theorem functionBody_same (hm₀ : ¬ F.IsRunning m₀) (f : ObjectId) (slots : FunctionSlots)
    (arguments : List Value) :
    F.Same apart m₀ (ev.functionBody f slots arguments) (ev'.functionBody f slots arguments) := by
  have hdeep {m₁ : Machine} (h₁ : m₀.Follows m₁) : ¬ F.IsRunning m₁ := by rwa [Frame.IsRunning.later h₁]
  have hcall (m₁ : Machine) (env : EnvId) : F.Same apart m₁ (ev.bindCall f slots env arguments)
      (ev'.bindCall f slots env arguments) := by
    unfold bindCall
    have harguments (m₂ : Machine) : F.Same apart m₂ (bindArguments f slots env arguments)
        (bindArguments f slots env arguments) :=
      .of_stays (by grind)
    have hparameters (m₂ : Machine) (env : Option EnvId) :
        F.Same apart m₂ (ev.bindParameters env slots.code.parameters arguments)
          (ev'.bindParameters env slots.code.parameters arguments) := bindParameters_same hev _ _ _
    grind
  have henter : F.Same apart m₀ (ev.instantiateFunction f slots arguments)
      (ev'.instantiateFunction f slots arguments) := by
    refine .bind (.deep hm₀ (parameterEnv_fixes_callers slots) (by grind)) fun m₁ env h₁ => ?_
    refine .bind (hcall m₁ env) fun m₂ _ h₂ => ?_
    refine .bind (.deep (hdeep (h₁.trans h₂)) (bindVariables_fixes_callers slots env _) (by grind))
      fun m₃ varEnv h₃ => ?_
    exact .deep (hdeep ((h₁.trans h₂).trans h₃)) (enterBody_fixes_callers slots varEnv) (by grind)
  exact .completing (.bind henter fun m₁ _ h₁ => runCode_same hev slots.code (.of_not_running (hdeep h₁)))

@[grind ←] theorem runFunction_same (f : ObjectId) (slots : FunctionSlots) (thisValue : Value)
    (arguments : List Value) (newTarget : Value) :
    F.Same apart m₀ (ev.runFunction f slots thisValue arguments newTarget)
      (ev'.runFunction f slots thisValue arguments newTarget) := by
  unfold runFunction
  refine .bind (by grind) fun m₁ env _ => .withContext _ fun m₂ hm₂ => ?_
  refine .bind (by grind) fun m₃ _ h₃ => functionBody_same hev ?_ f slots arguments
  rwa [Frame.IsRunning.later h₃]

@[grind ←] theorem callFunction_same (f : ObjectId) (slots : FunctionSlots) (thisValue : Value)
    (arguments : List Value) :
    F.Same apart m₀ (ev.callFunction f slots thisValue arguments)
      (ev'.callFunction f slots thisValue arguments) := by
  unfold callFunction
  grind

@[grind ←] theorem constructFunction_same (f : ObjectId) (slots : FunctionSlots) (arguments : List Value)
    (newTarget : Value) :
    F.Same apart m₀ (ev.constructFunction f slots arguments newTarget)
      (ev'.constructFunction f slots arguments newTarget) := by
  unfold constructFunction
  refine .bind (.lift _) fun m₁ prototype _ => .bind (by grind) fun m₂ self _ => ?_
  refine .bind (runFunction_same hev f slots _ arguments newTarget) fun m₃ completion _ => ?_
  split
  · exact .pure _
  · exact .pure _
  · exact .pure _
  · exact .throw _
  · exact .breach _
  · exact .breach _

@[grind ←] theorem call_same (f thisValue : Value) (arguments : List Value) :
    F.Same apart m₀ (ev.call f thisValue arguments) (ev'.call f thisValue arguments) := by
  unfold call
  cases f <;> grind

@[grind ←] theorem construct_same (f : Value) (arguments : List Value) (newTarget : Option Value) :
    F.Same apart m₀ (ev.construct f arguments newTarget) (ev'.construct f arguments newTarget) := by
  unfold construct
  cases f <;> grind

theorem templateParts_same (es : List Expression) (strings : List String) (text : Text) :
    F.Same apart m₀ (ev.templateParts es strings text) (ev'.templateParts es strings text) := by
  induction es generalizing m₀ strings text with
  | nil => exact .pure _
  | cons e rest ih =>
    unfold templateParts
    grind

theorem arrayElements_same (array : ObjectId) (index : Nat) (elements : List (Option Expression)) :
    F.Same apart m₀ (ev.arrayElements array index elements) (ev'.arrayElements array index elements) := by
  induction elements generalizing m₀ index with
  | nil => exact .pure _
  | cons element rest ih =>
    unfold arrayElements
    cases element <;> grind

theorem array_same (elements : List (Option Expression)) :
    F.Same apart m₀ (ev.array elements) (ev'.array elements) := by
  have helements (m₁ : Machine) (array : ObjectId) :
      F.Same apart m₁ (ev.arrayElements array 0 elements) (ev'.arrayElements array 0 elements) :=
    arrayElements_same hev array 0 elements
  unfold Evaluator.array
  grind

theorem member_same (o : ObjectId) (entry : Member) :
    F.Same apart m₀ (ev.member o entry) (ev'.member o entry) := by
  unfold member
  refine .bind (memberKey_same hev _) fun m₁ key h₁ => ?_
  cases entry.kind with
  | value => grind
  | getter => cases entry.value <;> grind
  | setter => cases entry.value <;> grind

theorem object_same (members : List Member) :
    F.Same apart m₀ (ev.object members) (ev'.object members) := by
  have hmembers (m₁ : Machine) (o : ObjectId) : F.Same apart m₁ (members.forM (ev.member o))
      (members.forM (ev'.member o)) := .forM fun entry _ _ _ => member_same hev o entry
  unfold object
  grind

theorem update_same (op : UpdateOp) (returnsNew : Bool) (target : Expression) :
    F.Same apart m₀ (ev.update op returnsNew target) (ev'.update op returnsNew target) := by
  unfold update
  grind

@[grind ←] theorem assignedValue_same (target value : Expression) :
    F.Same apart m₀ (ev.assignedValue target value) (ev'.assignedValue target value) := by
  unfold assignedValue
  cases target <;> grind

theorem assign_same (op : AssignOp) (target value : Expression) :
    F.Same apart m₀ (ev.assign op target value) (ev'.assign op target value) := by
  have hstore (m₁ : Machine) (reference value : Value) :
      F.Same apart m₁ (store reference value) (store reference value) := by
    unfold store
    grind
  unfold Evaluator.assign
  split
  · exact .unsupported _
  refine .bind (expression_same hev target) fun m₁ reference h₁ => ?_
  cases op <;> grind

theorem typeOf_same (operand : Expression) :
    F.Same apart m₀ (ev.typeOf operand) (ev'.typeOf operand) := by
  refine .bind (expression_same hev operand) fun m₁ v h₁ => ?_
  split <;> grind

theorem delete_same (operand : Expression) :
    F.Same apart m₀ (ev.delete operand) (ev'.delete operand) := by
  refine .bind (expression_same hev operand) fun m₁ v h₁ => ?_
  split <;> grind

theorem sequence_same (es : List Expression) (last : Value) :
    F.Same apart m₀ (ev.sequence es last) (ev'.sequence es last) := by
  induction es generalizing m₀ last with
  | nil => exact .pure _
  | cons e rest ih =>
    unfold sequence
    grind

theorem callExpression_same (callee : Expression) (arguments : List Expression) :
    F.Same apart m₀ (ev.callExpression callee arguments) (ev'.callExpression callee arguments) := by
  unfold callExpression
  refine .bind (expression_same hev callee) fun m₁ reference h₁ => .bind (.lift _) fun m₂ receiver h₂ => ?_
  refine .bind (by grind) fun m₃ f h₃ => .bind (values_same hev arguments) fun m₄ values h₄ => ?_
  grind

theorem newExpression_same (callee : Expression) (arguments : List Expression) :
    F.Same apart m₀ (ev.newExpression callee arguments) (ev'.newExpression callee arguments) := by
  unfold newExpression
  grind

theorem evaluate_same (e : Expression) : F.Same apart m₀ (ev.evaluate e) (ev'.evaluate e) := by
  cases e with
  | literal l =>
    unfold Evaluator.evaluate Literal.evaluate
    grind
  | array elements => exact array_same hev elements
  | object members => exact object_same hev members
  | update op returnsNew target => exact update_same hev op returnsNew target
  | assign op target value => exact assign_same hev op target value
  | call callee arguments => exact callExpression_same hev callee arguments
  | new callee arguments => exact newExpression_same hev callee arguments
  | template strings expressions =>
    exact .bind (templateParts_same hev _ _ _) fun _ _ _ => .pure _
  | typeOf operand => exact typeOf_same hev operand
  | delete operand => exact delete_same hev operand
  | sequence expressions => exact sequence_same hev expressions .undefined
  | unary op operand =>
    unfold Evaluator.evaluate unary
    grind
  | binary op left right =>
    unfold Evaluator.evaluate binary
    grind
  | logical op left right =>
    unfold Evaluator.evaluate logical
    grind
  | conditional test consequent alternate =>
    unfold Evaluator.evaluate conditional
    grind
  | member object name =>
    unfold Evaluator.evaluate memberAccess
    grind
  | index object key =>
    unfold Evaluator.evaluate indexAccess
    grind
  | _ =>
    unfold Evaluator.evaluate
    grind

end Evaluator

end EcmaEval
