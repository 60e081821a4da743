import EcmaEval.Proofs.Jump
import EcmaEval.Proofs.Stack.Expression

/-!
# Calls and expressions within a remit

Making, entering and calling functions, and one step of expression evaluation, stay in every remit that
an evaluator for the parts stays in. Only the forms that name a binding or a property give a reference.
A call fails for an escaped jump in two ways: its body did so, or its body completed with a jump, which
then is not bound in it.
-/
namespace EcmaEval

variable {R : Remit}

/-- The evaluator stays in an open remit, and its statements jump soundly. -/
structure Evaluator.StaysIn (R : Remit) (ev : Evaluator) : Prop extends R.IsOpen where
  expression : ∀ e, (ev.expression e).StaysIn R (R.Yields e)
  statement : ∀ s, (ev.statement s).StaysIn R R.Holds
  jumps : ev.JumpsSoundly

/-- What follows the reading of an object may rely on what was read. -/
theorem ObjectId.load_bind_stays {o : ObjectId} (ho : R.Owns o) {f : Object → Eval β} {Q : β → Prop}
    (h : ∀ (m : Machine) obj, m.object? o = some obj → R.Holds obj → m.Permits R (f obj) Q) :
    Eval.StaysIn R (liftM o.load >>= f) Q := by
  refine fun m => (Eval.StaysIn.lift (load_stays ho) m).bind fun obj m' hload _ hobj => ?_
  obtain ⟨rfl, hload⟩ := lift_eq_ok hload
  exact h m' obj (load_ok hload) hobj

/-- A jump that escaped is reported where a function with a stray one is left behind. -/
theorem Machine.Permits.escaped {m : Machine} {b : Breach} (hb : b.ofReference = false)
    (hm : m.HasStrayJump) {P : α → Prop} : m.Permits R (EcmaEval.breach b : Eval α) P :=
  fun _ => ⟨.refl, (holds_fault _).mpr (.inr hb), fun _ => hm⟩

namespace Evaluator

variable {ev : Evaluator} (hev : ev.StaysIn R)

include hev

@[grind →] theorem StaysIn.opens : R.scopes ∧ (∀ code, R.codes code) ∧ R.moves ∧ R.calls :=
  ⟨hev.scopes, hev.codes, hev.moves, hev.calls⟩

/-- What an expression gives may be read or written. -/
@[grind ←] theorem expression_stays (e : Expression) : (ev.expression e).StaysIn R R.Admits :=
  (hev.expression e).imp fun _ h => ⟨h.1, h.2.imp_right fun h => h.1⟩

@[grind ←] theorem value_stays (e : Expression) : (ev.value e).StaysIn R R.Holds := by
  unfold value
  grind

@[grind ←] theorem valueNamed_stays (e : Expression) (name : Key) :
    (ev.valueNamed e name).StaysIn R R.Holds := by
  unfold valueNamed
  grind

@[grind ←] theorem values_stays (es : List Expression) : (ev.values es).StaysIn R R.Holds := by
  induction es with
  | nil => exact .pure (holds_nil.mpr trivial)
  | cons e rest ih =>
    unfold values
    grind

@[grind ←] theorem memberKey_stays (name : MemberName) : (ev.memberKey name).StaysIn R R.Holds := by
  unfold memberKey
  grind

mutual

theorem bindPattern_stays {env : Option EnvId} (henv : R.Holds env) (p : Pattern) {value : Value}
    (hv : R.Holds value) : (ev.bindPattern env p value).StaysIn R R.Holds := by
  cases p with
  | identifier name => exact bindName_stays henv _ hv
  | array elements => exact .unsupported _
  | object members =>
    have hmembers (source : ObjectId) (hs : R.Holds source) := bindMembers_stays henv hs members []
    unfold bindPattern
    grind
  | withDefault target default =>
    have htarget (v : Value) (hv : R.Holds v) := bindPattern_stays henv target hv
    unfold bindPattern
    grind
  | rest target => exact .breach rfl

theorem bindMembers_stays {env : Option EnvId} (henv : R.Holds env) {source : ObjectId}
    (hs : R.Holds source) (members : List PatternMember) (taken : List Key) :
    (ev.bindMembers env source members taken).StaysIn R R.Holds := by
  cases members with
  | nil => exact .pure (holds_empty _)
  | cons member rest =>
    have hrest (taken : List Key) := bindMembers_stays henv hs rest taken
    cases member with
    | keyed name target =>
      have htarget (v : Value) (hv : R.Holds v) := bindPattern_stays henv target hv
      unfold bindMembers
      grind
    | shorthand name default =>
      unfold bindMembers
      grind
    | rest name =>
      unfold bindMembers
      grind

end

theorem bindParameters_stays {env : Option EnvId} (henv : R.Holds env) (parameters : List Pattern)
    {arguments : List Value} (h : R.Holds arguments) :
    (ev.bindParameters env parameters arguments).StaysIn R R.Holds := by
  fun_induction ev.bindParameters env parameters arguments with
  | case1 => exact .pure (holds_empty _)
  | case2 => exact .bind (newArrayOf_stays h) fun _ ha => bindPattern_stays hev henv _ (by grind)
  | case3 p rest arguments _ ih =>
    have hrest : R.Holds arguments.tail := by cases arguments <;> grind
    exact .bind (bindPattern_stays hev henv _ (headD_holds h)) fun _ _ => ih hrest

theorem bindCall_stays {f : ObjectId} (hf : R.Holds f) (slots : FunctionSlots) {env : EnvId}
    (henv : R.Holds env) {arguments : List Value} (h : R.Holds arguments) :
    (ev.bindCall f slots env arguments).StaysIn R R.Holds := by
  have harguments := bindArguments_stays hev.scopes hf slots henv h
  have hparameters (env : Option EnvId) (henv : R.Holds env) :=
    bindParameters_stays hev henv slots.code.parameters h
  unfold bindCall
  grind

theorem instantiateFunction_stays {f : ObjectId} (hf : R.Holds f) (slots : FunctionSlots)
    {arguments : List Value} (h : R.Holds arguments) :
    (ev.instantiateFunction f slots arguments).StaysIn R R.Holds := by
  refine .bind (parameterEnv_stays hev.scopes hev.moves slots) fun env henv => ?_
  refine .bind (bindCall_stays hev hf slots henv h) fun _ _ => ?_
  refine .bind (bindVariables_stays hev.scopes hev.moves slots henv _) fun varEnv hvar => ?_
  exact enterBody_stays hev.scopes hev.moves (fun code _ => hev.codes code) hvar

@[grind ←] theorem statements_stays (body : List Statement) {last : Option Value}
    (hlast : R.Holds last) : (ev.statements body last).StaysIn R R.Holds := by
  induction body generalizing last with
  | nil => exact .pure hlast
  | cons s rest ih =>
    refine .bind (hev.statement s) fun completion hc => ?_
    cases completion with
    | normal value =>
      refine ih ?_
      cases value with
      | none => exact hlast
      | some v => exact hc
    | _ => exact .pure (Completion.updateEmpty_holds hc hlast)

theorem functionBody_stays {f : ObjectId} (hf : R.Holds f) (slots : FunctionSlots)
    {arguments : List Value} (h : R.Holds arguments) :
    (ev.functionBody f slots arguments).StaysIn R R.Holds := by
  refine .completing (.bind (instantiateFunction_stays hev hf slots h) fun _ _ => ?_)
  cases slots.code.body with
  | block body => exact statements_stays hev body (holds_none.mpr trivial)
  | concise e => exact .bind (value_stays hev e) fun _ hv => .pure ((Completion.holds_returned _).mpr hv)

theorem runFunction_stays {f : ObjectId} (hf : R.Holds f) {slots : FunctionSlots}
    (hslots : R.Holds slots.privateEnv) {thisValue newTarget : Value} {arguments : List Value}
    (hthis : R.Holds thisValue) (h : R.Holds arguments) (htarget : R.Holds newTarget) :
    (ev.runFunction f slots thisValue arguments newTarget).StaysIn R R.Holds := by
  refine .bind (newFunctionEnvironment_stays hev.scopes hf htarget) fun env henv => ?_
  refine withContext_stays hev.calls (by grind) ?_
  exact .bind (bindCallThis_stays hev.scopes slots hthis) fun _ _ => functionBody_stays hev hf slots h

omit hev in
/-- A jump out of a function body is not bound in it. -/
theorem runFunction_strays (hjumps : ev.JumpsSoundly) {f : ObjectId} {slots : FunctionSlots}
    {thisValue newTarget : Value} {arguments : List Value} {m m' : Machine} {obj : Object}
    {c : Completion} {j : Jump} (ho : m.object? f = some obj) (hcode : obj.code? = some slots.code)
    (hrun : ev.runFunction f slots thisValue arguments newTarget m = .ok c m') (hchanges : m.Changes m')
    (hj : c.jump? = some j) (hne : j ≠ .returned) : m'.HasStrayJump := by
  obtain ⟨obj', ho', hcode'⟩ := hchanges.code? ho
  refine ⟨f, obj', slots.code, ho', hcode'.trans hcode, fun hbinds => hne ?_⟩
  obtain hreturned | ⟨s, hs, hexits⟩ := runFunction_jumpsBy hjumps f slots thisValue arguments
    newTarget m c m' hrun j hj
  · exact hreturned
  · exact hbinds s hs j hexits

section Calls

variable {f : ObjectId} (hf : R.Holds f) {slots : FunctionSlots} (hslots : R.Holds slots.privateEnv)
  {arguments : List Value} (h : R.Holds arguments) {m : Machine} {obj : Object}
  (ho : m.object? f = some obj) (hcode : obj.code? = some slots.code)

include hf hslots h ho hcode

theorem callFunction_permits {thisValue : Value} (hthis : R.Holds thisValue) :
    m.Permits R (ev.callFunction f slots thisValue arguments) R.Holds := by
  unfold callFunction
  split
  · exact Eval.StaysIn.unsupported _ m
  intro hm
  have hundefined : R.Holds Value.undefined := holds_primitive rfl
  have hbody := runFunction_stays hev hf hslots hthis h hundefined
  refine (hbody m).bind (fun c m' hrun _ hc => ?_) hm
  have hchanges := (hbody.touches hm hrun).changes
  have hstrays (j : Jump) := runFunction_strays hev.jumps (j := j) ho hcode hrun hchanges
  cases c with
  | returned value => exact Eval.StaysIn.pure ((Completion.holds_returned value).mp hc) m'
  | normal value => exact Eval.StaysIn.pure hundefined m'
  | thrown value => exact Eval.StaysIn.thrown ((Completion.holds_thrown value).mp hc) m'
  | broke target value => exact .escaped rfl (hstrays _ rfl (by simp))
  | continued target value => exact .escaped rfl (hstrays _ rfl (by simp))

theorem constructFunction_permits {newTarget : Value} (htarget : R.Holds newTarget) :
    m.Permits R (ev.constructFunction f slots arguments newTarget) R.Holds := by
  refine (Eval.StaysIn.lift (prototypeFor_stays htarget) m).bind fun prototype m₁ hprototype hm₁ hp => ?_
  obtain ⟨rfl, -⟩ := lift_eq_ok hprototype
  have hnew := newObject_stays ((holds_some prototype).mpr hp)
  refine (hnew m₁).bind fun self m₂ hself hm₂ hs => ?_
  obtain ⟨obj₂, ho₂, hcode₂⟩ := (hnew.touches hm₁ hself).changes.code? ho
  have hthis := (holds_objectValue self).mpr hs
  have hbody := runFunction_stays hev hf hslots hthis h htarget
  refine (hbody m₂).bind fun c m' hrun _ hc => ?_
  have hchanges := (hbody.touches hm₂ hrun).changes
  have hstrays (j : Jump) := runFunction_strays hev.jumps (j := j) ho₂ (hcode₂.trans hcode) hrun hchanges
  cases c with
  | returned value =>
    have hvalue := (Completion.holds_returned value).mp hc
    cases value with
    | object o => exact Eval.StaysIn.pure hvalue m'
    | _ => exact Eval.StaysIn.pure hthis m'
  | normal value => exact Eval.StaysIn.pure hthis m'
  | thrown value => exact Eval.StaysIn.thrown ((Completion.holds_thrown value).mp hc) m'
  | broke target value => exact .escaped rfl (hstrays _ rfl (by simp))
  | continued target value => exact .escaped rfl (hstrays _ rfl (by simp))

end Calls

omit hev in
theorem privateEnv_holds {obj : Object} {slots : FunctionSlots} (hobj : R.Holds obj)
    (hkind : obj.kind = .function slots) : R.Holds slots.privateEnv := by
  have hholds := ((holds_object obj).mp hobj).2
  rw [hkind] at hholds
  exact ((holds_function slots).mp hholds).2

@[grind ←] theorem call_stays {f thisValue : Value} {arguments : List Value} (hf : R.Holds f)
    (hthis : R.Holds thisValue) (h : R.Holds arguments) :
    (ev.call f thisValue arguments).StaysIn R R.Holds := by
  unfold call
  cases f with
  | object o =>
    have ho := (holds_objectValue o).mp hf
    refine ObjectId.load_bind_stays (R.owns_of_holds ho) fun m obj hobj hholds => ?_
    split
    · exact constructError_stays _ h (holds_none.mpr trivial) m
    · rename_i slots hkind
      have hcode : obj.code? = some slots.code := by simp [Object.code?, ObjectKind.code?, hkind]
      exact callFunction_permits hev ho (privateEnv_holds hholds hkind) h hobj hcode hthis
    · exact complain_stays _ _ m
  | _ => exact complain_stays _ _

@[grind ←] theorem construct_stays {f : Value} {arguments : List Value} {newTarget : Option Value}
    (hf : R.Holds f) (h : R.Holds arguments) (htarget : R.Holds newTarget) :
    (ev.construct f arguments newTarget).StaysIn R R.Holds := by
  have htarget : R.Holds (newTarget.getD f) := getD_holds htarget hf
  unfold construct
  cases f with
  | object o =>
    have ho := (holds_objectValue o).mp hf
    refine ObjectId.load_bind_stays (R.owns_of_holds ho) fun m obj hobj hholds => ?_
    split
    · exact constructError_stays _ h ((holds_some _).mpr htarget) m
    · rename_i slots hkind
      have hcode : obj.code? = some slots.code := by simp [Object.code?, ObjectKind.code?, hkind]
      split
      · exact constructFunction_permits hev ho (privateEnv_holds hholds hkind) h hobj hcode htarget
      · exact complain_stays _ _ m
    · exact complain_stays _ _ m
  | _ => exact complain_stays _ _

@[grind ←] theorem templateParts_stays (es : List Expression) (strings : List String) (text : Text) :
    (ev.templateParts es strings text).StaysIn R R.Holds := by
  induction es generalizing strings text with
  | nil => exact .pure (holds_empty _)
  | cons e rest ih =>
    unfold templateParts
    grind

theorem arrayElements_stays {array : ObjectId} (ha : R.Owns array) (index : Nat)
    (elements : List (Option Expression)) :
    (ev.arrayElements array index elements).StaysIn R R.Holds := by
  fun_induction ev.arrayElements array index elements with
  | case1 => exact .pure (holds_empty _)
  | case2 _ _ ih => exact ih
  | case3 index e rest ih =>
    refine .bind (value_stays hev e) fun value hv => ?_
    exact .bind (ObjectId.createPropertyOrThrow_stays ha _ hv) fun _ _ => ih

theorem array_stays (elements : List (Option Expression)) :
    (ev.array elements).StaysIn R R.Holds := by
  refine .bind (newArray_stays 0) fun array ha => ?_
  refine .bind (arrayElements_stays hev (R.owns_of_holds ha) 0 elements) fun _ _ => ?_
  refine .bind (ObjectId.set_stays (R.owns_of_holds ha) _ (holds_primitive rfl) ?_) fun done _ => ?_
  · exact (holds_objectValue array).mpr ha
  split
  · exact complain_stays _ _
  · exact .pure ((holds_objectValue array).mpr ha)

theorem member_stays {o : ObjectId} (ho : R.Owns o) (entry : Member) :
    (ev.member o entry).StaysIn R R.Holds := by
  refine .bind (memberKey_stays hev _) fun key _ => ?_
  split <;> grind

theorem object_stays (members : List Member) : (ev.object members).StaysIn R R.Holds := by
  refine .bind (.lift intrinsics_stays) fun i hi => .bind (newObject_stays (by grind)) fun o ho => ?_
  refine .bind (.forM fun entry _ => member_stays hev (R.owns_of_holds ho) entry) fun _ _ => ?_
  exact .pure ((holds_objectValue o).mpr ho)

theorem sequence_stays (es : List Expression) {last : Value} (hlast : R.Holds last) :
    (ev.sequence es last).StaysIn R R.Holds := by
  induction es generalizing last with
  | nil => exact .pure hlast
  | cons e rest ih => exact .bind (value_stays hev e) fun _ hv => ih hv

theorem update_stays (op : UpdateOp) (returnsNew : Bool) (target : Expression) :
    (ev.update op returnsNew target).StaysIn R R.Holds := by
  refine .bind (expression_stays hev target) fun reference hr => ?_
  refine .bind (Value.getValue_stays hr) fun old hold => .bind (Value.toNumeric_stays hold) fun n _ => ?_
  cases n <;> grind

theorem assign_stays (op : AssignOp) (target value : Expression) :
    (ev.assign op target value).StaysIn R R.Holds := by
  have hassigned : (ev.assignedValue target value).StaysIn R R.Holds := by
    unfold assignedValue
    grind
  unfold assign
  cases op <;> grind

theorem delete_stays (operand : Expression) : (ev.delete operand).StaysIn R R.Holds := by
  refine .bind (expression_stays hev operand) fun reference hr => ?_
  split <;> grind

theorem typeOf_stays (operand : Expression) : (ev.typeOf operand).StaysIn R R.Holds := by
  unfold typeOf
  grind

theorem callExpression_stays (callee : Expression) (arguments : List Expression) :
    (ev.callExpression callee arguments).StaysIn R R.Holds := by
  unfold callExpression
  grind

theorem newExpression_stays (callee : Expression) (arguments : List Expression) :
    (ev.newExpression callee arguments).StaysIn R R.Holds := by
  unfold newExpression
  grind

/-- The parts of a property access are evaluated to values. -/
theorem memberAccess_stays (object : Expression) (name : String) :
    (ev.memberAccess object name).StaysIn R R.Admits := by
  unfold memberAccess
  grind

theorem indexAccess_stays (object key : Expression) :
    (ev.indexAccess object key).StaysIn R R.Admits := by
  unfold indexAccess
  grind

omit hev in
theorem yields_of_admits {e : Expression} (he : e.isNaming = true) {v : Value} (hv : R.Admits v) :
    R.Yields e v := ⟨hv.1, hv.2.imp_right fun h => ⟨h, fun hfalse => by simp [he] at hfalse⟩⟩

omit hev in
theorem yields_of_holds (e : Expression) {v : Value} (hv : R.Holds v) : R.Yields e v := by
  have hadmits := R.admits_of_holds hv
  refine ⟨hv.1, hv.2.elim .inl fun hproper => ?_⟩
  exact hadmits.2.imp_right fun hshallow => ⟨hshallow, fun _ => hproper⟩

/-- One step of expression evaluation gives a reference for a name only. -/
theorem evaluate_stays (e : Expression) : (ev.evaluate e).StaysIn R (R.Yields e) := by
  have hnaming {x : Eval Value} (he : e.isNaming = true) (hx : x.StaysIn R R.Admits) :
      x.StaysIn R (R.Yields e) := hx.imp fun v hv => yields_of_admits he hv
  have hvalue {x : Eval Value} (hx : x.StaysIn R R.Holds) : x.StaysIn R (R.Yields e) :=
    hx.imp fun v hv => yields_of_holds e hv
  cases e with
  | identifier name => exact hnaming rfl (.lift (resolveBinding_stays name (holds_none.mpr trivial)))
  | member object name => exact hnaming rfl (memberAccess_stays hev object name)
  | index object key => exact hnaming rfl (indexAccess_stays hev object key)
  | literal l => exact hvalue l.evaluate_stays
  | array elements => exact hvalue (array_stays hev elements)
  | object members => exact hvalue (object_stays hev members)
  | update op returnsNew target => exact hvalue (update_stays hev op returnsNew target)
  | assign op target value => exact hvalue (assign_stays hev op target value)
  | call callee arguments => exact hvalue (callExpression_stays hev callee arguments)
  | new callee arguments => exact hvalue (newExpression_stays hev callee arguments)
  | typeOf operand => exact hvalue (typeOf_stays hev operand)
  | delete operand => exact hvalue (delete_stays hev operand)
  | sequence expressions => exact hvalue (sequence_stays hev expressions (holds_primitive rfl))
  | _ =>
    refine hvalue ?_
    unfold evaluate
    first | grind | grind [unary, binary, logical, conditional, template]

end Evaluator

end EcmaEval
