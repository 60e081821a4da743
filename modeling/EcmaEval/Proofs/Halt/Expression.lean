import EcmaEval.Proofs.Halt.Converge

/-!
# Expressions and calls converge

The evaluation of an expression without loops converges if that of its parts does. A call runs code of
the machine and not a part of the call; this code runs in a context of its own, where everything without
loops has to converge.
-/
namespace EcmaEval

namespace Evaluator

variable {lim : Evaluator} {limit depth : Nat}

theorem value_converges {e : Expression} (h : lim.Converges limit depth (·.expression e)) :
    lim.Converges limit depth (·.value e) := .bind h fun v => .quiet (by grind)

/-- The evaluation of an expression converges, and that of the functions it makes would. -/
structure Manages (lim : Evaluator) (limit depth : Nat) (e : Expression) : Prop where
  loopFree : e.LoopFree
  converges : lim.Converges limit depth (·.expression e)

theorem Manages.value {e : Expression} (h : lim.Manages limit depth e) :
    lim.Converges limit depth (·.value e) := value_converges h.converges

theorem Manages.valueNamed {e : Expression} (h : lim.Manages limit depth e) (name : Key) :
    lim.Converges limit depth (·.valueNamed e name) := by
  obtain ⟨hfree, hconverges⟩ := h
  cases hfree with
  | function hcode =>
    unfold Evaluator.valueNamed
    refine .ite (.const (.bind (by grind) fun _ => .quiet (.pure _))) ?_
    exact value_converges hconverges
  | arrow hcode => exact .const (.bind (by grind) fun _ => .quiet (.pure _))
  | _ => exact value_converges hconverges

theorem values_converges {es : List Expression} (h : ∀ e ∈ es, lim.Converges limit depth (·.expression e)) :
    lim.Converges limit depth (·.values es) := by
  induction es with
  | nil => exact .pure _
  | cons e rest ih =>
    refine .bind (value_converges (h e List.mem_cons_self)) fun v => ?_
    exact .map (ih fun e' he' => h e' (List.mem_cons_of_mem e he'))

theorem statements_converges {body : List Statement}
    (h : ∀ s ∈ body, lim.Converges limit depth (·.statement s)) (last : Option Value) :
    lim.Converges limit depth (·.statements body last) := by
  induction body generalizing last with
  | nil => exact .pure _
  | cons s rest ih =>
    refine .bind (h s List.mem_cons_self) fun c => ?_
    cases c with
    | normal value => exact ih (fun s' hs' => h s' (List.mem_cons_of_mem s hs')) _
    | _ => exact .pure _

theorem computedKey_converges {key : Expression} (h : lim.Converges limit depth (·.expression key)) :
    lim.Converges limit depth (·.memberKey (.computed key)) :=
  .bind (value_converges h) fun v => .quiet (by grind)

/-- Binding the pattern converges, wherever its names are bound. -/
def Binds (lim : Evaluator) (limit depth : Nat) (p : Pattern) : Prop :=
  ∀ env v, lim.Converges limit depth (·.bindPattern env p v)

/-- The parts of a member of an object pattern converge. -/
def BindsMember (lim : Evaluator) (limit depth : Nat) : PatternMember → Prop
  | .keyed name target => lim.Converges limit depth (·.memberKey name) ∧ lim.Binds limit depth target
  | .shorthand _ e => ∀ e', e = some e' → lim.Manages limit depth e'
  | .rest _ => True

theorem withDefault_binds {target : Pattern} {e : Expression} (ht : lim.Binds limit depth target)
    (he : lim.Manages limit depth e) : lim.Binds limit depth (.withDefault target e) := by
  intro env v
  unfold bindPattern
  refine .ite ?_ (.bind (.pure v) fun v' => ht env v')
  cases target with
  | identifier name => exact .bind (he.valueNamed _) fun v' => ht env v'
  | _ => exact .bind he.value fun v' => ht env v'

theorem bindMembers_converges {members : List PatternMember}
    (h : ∀ p ∈ members, lim.BindsMember limit depth p) (env : Option EnvId) (source : ObjectId)
    (taken : List Key) : lim.Converges limit depth (·.bindMembers env source members taken) := by
  induction members generalizing taken with
  | nil => exact .pure _
  | cons p rest ih =>
    have hrest := ih fun p' hp' => h p' (List.mem_cons_of_mem p hp')
    have hp := h p List.mem_cons_self
    cases p with
    | keyed name target =>
      refine .bind hp.1 fun key => .query fun v => .bind (hp.2 env v) fun _ => hrest _
    | shorthand name e =>
      have hbind (v : Value) : lim.Converges limit depth fun ev =>
          bindName env name v >>= fun _ => ev.bindMembers env source rest (taken ++ [.name name]) :=
        .bind (.quiet (by grind)) fun _ => hrest _
      unfold bindMembers
      refine .query fun v => ?_
      cases e with
      | none => exact .bind (.pure v) hbind
      | some e => exact .ite (.bind ((hp e rfl).valueNamed _) hbind) (.bind (.pure v) hbind)
    | rest name =>
      refine .query fun i => .bind (.quiet (by grind)) fun others => ?_
      refine .bind (.quiet (by grind)) fun _ => ?_
      exact .bind (.quiet (by grind)) fun _ => hrest _

theorem object_binds {members : List PatternMember} (h : ∀ p ∈ members, lim.BindsMember limit depth p) :
    lim.Binds limit depth (.object members) := fun env v =>
  .ite (.quiet (by grind))
    (.bind (.quiet (by grind)) fun source => bindMembers_converges h env source [])

/-- Everything without loops converges. -/
structure ManagesAll (lim : Evaluator) (limit depth : Nat) : Prop where
  expression : ∀ e : Expression, e.LoopFree → lim.Converges limit depth (·.expression e)
  statement : ∀ s : Statement, s.LoopFree → lim.Converges limit depth (·.statement s)
  pattern : ∀ p : Pattern, p.LoopFree → lim.Binds limit depth p

section Body

variable (hall : lim.ManagesAll limit depth) {slots : FunctionSlots}

include hall

theorem bindParameters_converges {parameters : List Pattern} (h : ∀ p ∈ parameters, p.LoopFree)
    (env : Option EnvId) (arguments : List Value) :
    lim.Converges limit depth (·.bindParameters env parameters arguments) := by
  induction parameters generalizing arguments with
  | nil => exact .pure _
  | cons p rest ih =>
    have hp := h p List.mem_cons_self
    have hrest := ih fun p' hp' => h p' (List.mem_cons_of_mem p hp')
    cases p with
    | rest target =>
      cases hp with
      | rest htarget =>
        exact .bind (.quiet (by grind)) fun array => hall.pattern target htarget _ _
    | _ => exact .bind (hall.pattern _ hp _ _) fun _ => hrest _

theorem instantiateFunction_converges (hcode : slots.code.LoopFree) (f : ObjectId)
    (arguments : List Value) :
    lim.Converges limit depth (·.instantiateFunction f slots arguments) := by
  refine .bind (.const (by grind)) fun env => .bind ?_ fun _ => ?_
  · refine .bind (.const (by grind)) fun _ => ?_
    have hparameters := bindParameters_converges hall hcode.parameters
      (if repeatsParameter slots then none else some env) arguments
    exact .ite (.bind (.const (by grind)) fun _ => hparameters) hparameters
  · have hinner (code) (hfunction : code ∈ Body.functions slots.code.statements) : code.LoopFree :=
      Body.functions_loopFree hcode.statements hfunction
    refine .const (.bind (by grind) fun varEnv => .of_stays ?_)
    exact enterBody_stays trivial trivial hinner (holds_of_isFree varEnv)

theorem functionBody_converges (hcode : slots.code.LoopFree) (f : ObjectId) (arguments : List Value) :
    lim.Converges limit depth (·.functionBody f slots arguments) := by
  refine .completing (.bind (instantiateFunction_converges hall hcode f arguments) fun _ => ?_)
  obtain ⟨code, environment, privateEnv, realm, thisMode, strict, isConstructor⟩ := slots
  cases hcode with
  | block hparameters hbody => exact statements_converges (fun s hs => hall.statement s (hbody s hs)) none
  | concise hparameters hvalue => exact .map (value_converges (hall.expression _ hvalue))

end Body

section Call

variable (hdeep : depth < limit → lim.ManagesAll limit (depth + 1)) {slots : FunctionSlots}

include hdeep

theorem runFunction_converges (hcode : slots.code.LoopFree) (f : ObjectId) (thisValue : Value)
    (arguments : List Value) (newTarget : Value) :
    lim.Converges limit depth (·.runFunction f slots thisValue arguments newTarget) := by
  refine .bind (.const (by grind)) fun env => ?_
  refine .withContext _ fun hroom => .bind (.const (by grind)) fun _ => ?_
  exact functionBody_converges (hdeep hroom) hcode f arguments

theorem callFunction_converges (hcode : slots.code.LoopFree) (f : ObjectId) (thisValue : Value)
    (arguments : List Value) :
    lim.Converges limit depth (·.callFunction f slots thisValue arguments) := by
  refine .ite (.quiet (.unsupported _)) ?_
  refine .bind (runFunction_converges hdeep hcode f thisValue arguments .undefined) fun c => ?_
  cases c with
  | thrown v => exact .quiet (.throw _)
  | broke target v => exact .quiet (.breach _)
  | continued target v => exact .quiet (.breach _)
  | _ => exact .pure _

theorem constructFunction_converges (hcode : slots.code.LoopFree) (f : ObjectId)
    (arguments : List Value) (newTarget : Value) :
    lim.Converges limit depth (·.constructFunction f slots arguments newTarget) := by
  refine .query fun prototype => .bind (.quiet (by grind)) fun self => ?_
  refine .bind (runFunction_converges hdeep hcode f _ arguments newTarget) fun c => ?_
  cases c with
  | thrown v => exact .quiet (.throw _)
  | broke target v => exact .quiet (.breach _)
  | continued target v => exact .quiet (.breach _)
  | normal v => exact .pure _
  | returned v => cases v <;> exact .pure _

omit hdeep in
/-- What follows the reading of an object may rely on the code that it has. -/
theorem Converges.load_bind {o : ObjectId} {f : Evaluator → Object → Eval β}
    (hf : ∀ obj : Object, (∀ slots, obj.kind = .function slots → slots.code.LoopFree) →
      lim.Converges limit depth fun ev => f ev obj) :
    lim.Converges limit depth fun ev => liftM o.load >>= f ev := by
  refine .bind_of (.quiet (.lift _)) fun obj m m' hm hload => hf obj fun slots hkind => ?_
  obtain ⟨rfl, hload⟩ := lift_eq_ok hload
  have hobject : m'.object? o = some obj := ObjectId.load_ok hload
  have hclosure : m'.closure? o = some { slots with isConstructor := false } := by
    simp [Machine.closure?, hobject, Object.closure?, hkind]
  have hcode := hm.closures o _ hclosure
  exact hcode

theorem call_converges (f thisValue : Value) (arguments : List Value) :
    lim.Converges limit depth (·.call f thisValue arguments) := by
  cases f with
  | object o =>
    refine .load_bind fun obj hobj => ?_
    cases hkind : obj.kind with
    | function slots => exact callFunction_converges hdeep (hobj slots hkind) o thisValue arguments
    | errorConstructor kind =>
      exact .quiet (.of_stays (constructError_stays kind (holds_of_isFree _) (holds_of_isFree _)))
    | _ => exact .quiet (.complain _)
  | _ => exact .quiet (.complain _)

theorem construct_converges (f : Value) (arguments : List Value) (newTarget : Option Value) :
    lim.Converges limit depth (·.construct f arguments newTarget) := by
  cases f with
  | object o =>
    refine .load_bind fun obj hobj => ?_
    cases hkind : obj.kind with
    | function slots =>
      refine .ite ?_ (.quiet (by grind))
      exact constructFunction_converges hdeep (hobj slots hkind) o arguments _
    | errorConstructor kind =>
      exact .quiet (.of_stays (constructError_stays kind (holds_of_isFree _) (holds_of_isFree _)))
    | _ => exact .quiet (.complain _)
  | _ => exact .quiet (.complain _)

theorem callExpression_converges {callee : Expression} {arguments : List Expression}
    (hc : lim.Converges limit depth (·.expression callee))
    (ha : ∀ e ∈ arguments, lim.Converges limit depth (·.expression e)) :
    lim.Converges limit depth (·.callExpression callee arguments) := by
  refine .bind hc fun reference => .query fun receiver => .bind (.quiet (by grind)) fun f => ?_
  refine .bind (values_converges ha) fun values => .query fun callable => ?_
  exact .ite (.quiet (by grind)) (call_converges hdeep f receiver values)

theorem newExpression_converges {callee : Expression} {arguments : List Expression}
    (hc : lim.Converges limit depth (·.expression callee))
    (ha : ∀ e ∈ arguments, lim.Converges limit depth (·.expression e)) :
    lim.Converges limit depth (·.newExpression callee arguments) := by
  refine .bind (value_converges hc) fun constructor => .bind (values_converges ha) fun values => ?_
  exact .query fun may => .ite (.quiet (by grind)) (construct_converges hdeep constructor values none)

end Call

theorem templateParts_converges {es : List Expression}
    (h : ∀ e ∈ es, lim.Converges limit depth (·.expression e)) (strings : List String) (text : Text) :
    lim.Converges limit depth (·.templateParts es strings text) := by
  induction es generalizing strings text with
  | nil => exact .pure _
  | cons e rest ih =>
    refine .bind (value_converges (h e List.mem_cons_self)) fun v => .bind (.quiet (by grind)) fun part => ?_
    exact ih (fun e' he' => h e' (List.mem_cons_of_mem e he')) _ _

theorem arrayElements_converges {elements : List (Option Expression)}
    (h : ∀ e, some e ∈ elements → lim.Converges limit depth (·.expression e)) (array : ObjectId)
    (index : Nat) : lim.Converges limit depth (·.arrayElements array index elements) := by
  induction elements generalizing index with
  | nil => exact .pure _
  | cons element rest ih =>
    have hrest := ih (fun e he => h e (List.mem_cons_of_mem element he)) (index + 1)
    cases element with
    | none => exact hrest
    | some e =>
      refine .bind (value_converges (h e List.mem_cons_self)) fun v => ?_
      exact .bind (.quiet (by grind)) fun _ => hrest

theorem array_converges {elements : List (Option Expression)}
    (h : ∀ e, some e ∈ elements → lim.Converges limit depth (·.expression e)) :
    lim.Converges limit depth (·.array elements) := by
  refine .bind (.quiet (by grind)) fun array => .bind (arrayElements_converges h array 0) fun _ => ?_
  refine .bind (.quiet (by grind)) fun succeeded => ?_
  exact .ite (.quiet (by grind)) (.pure _)

theorem member_converges {entry : Member} (hname : lim.Converges limit depth (·.memberKey entry.name))
    (hvalue : lim.Manages limit depth entry.value) (o : ObjectId) :
    lim.Converges limit depth (·.member o entry) := by
  have hdefine {code : FunctionCode} (hcode : code.LoopFree) (name : String) (key : Key)
      (d : ObjectId → Value × Value → Descriptor) :
      Eval.Calm (do
        let f ← instantiateMethod code name
        let pair ← accessorPair o key
        o.defineOrThrow key (d f pair)) :=
    .bind (by grind) fun f => .quiet (.bind (.lift _) fun _ => by grind)
  obtain ⟨kind, name, e⟩ := entry
  refine .bind hname fun key => ?_
  cases kind with
  | value => exact .bind (hvalue.valueNamed key) fun v => .quiet (by grind)
  | getter =>
    cases hvalue.loopFree with
    | function hcode =>
      exact .const (hdefine hcode _ key fun f pair => .accessor (.object f) pair.2 true true)
    | _ => exact .quiet (.breach _)
  | setter =>
    cases hvalue.loopFree with
    | function hcode =>
      exact .const (hdefine hcode _ key fun f pair => .accessor pair.1 (.object f) true true)
    | _ => exact .quiet (.breach _)

theorem object_converges {members : List Member}
    (h : ∀ entry ∈ members, ∀ o, lim.Converges limit depth (·.member o entry)) :
    lim.Converges limit depth (·.object members) := by
  refine .query fun i => .bind (.quiet (by grind)) fun o => ?_
  exact .bind (.forM fun entry hentry => h entry hentry o) fun _ => .pure _

section Operators

variable {operand left right target value test consequent alternate : Expression}

theorem binary_converges (hl : lim.Converges limit depth (·.expression left))
    (hr : lim.Converges limit depth (·.expression right)) (op : BinaryOp) :
    lim.Converges limit depth (·.binary op left right) :=
  .bind (value_converges hl) fun l => .bind (value_converges hr) fun r => .quiet (by grind)

theorem logical_converges (hl : lim.Converges limit depth (·.expression left))
    (hr : lim.Converges limit depth (·.expression right)) (op : LogicalOp) :
    lim.Converges limit depth (·.logical op left right) :=
  .bind (value_converges hl) fun l => .ite (.pure l) (value_converges hr)

theorem conditional_converges (ht : lim.Converges limit depth (·.expression test))
    (hc : lim.Converges limit depth (·.expression consequent))
    (ha : lim.Converges limit depth (·.expression alternate)) :
    lim.Converges limit depth (·.conditional test consequent alternate) :=
  .bind (value_converges ht) fun _ => .ite (value_converges hc) (value_converges ha)

theorem update_converges (h : lim.Converges limit depth (·.expression target)) (op : UpdateOp)
    (returnsNew : Bool) : lim.Converges limit depth (·.update op returnsNew target) := by
  refine .bind h fun reference => .bind (.quiet (by grind)) fun v => ?_
  refine .bind (.quiet (by grind)) fun n => ?_
  cases n with
  | number old => exact .quiet (.bind (by grind) fun _ => .pure _)
  | bigint n => exact .quiet (.unsupported _)

theorem assign_converges (ht : lim.Converges limit depth (·.expression target))
    (hv : lim.Manages limit depth value) (op : AssignOp) :
    lim.Converges limit depth (·.assign op target value) := by
  have hstore (reference : Value) :
      lim.Converges limit depth fun ev => ev.assignedValue target value >>= store reference := by
    refine .bind ?_ fun v => .quiet (by grind)
    cases target with
    | identifier name => exact hv.valueNamed _
    | _ => exact hv.value
  refine .ite (.quiet (.unsupported _)) (.bind ht fun reference => ?_)
  cases op with
  | plain => exact hstore reference
  | logical op => exact .bind (.quiet (by grind)) fun old => .ite (.pure old) (hstore reference)
  | numeric op =>
    refine .bind (.quiet (by grind)) fun old => .bind hv.value fun v => .quiet ?_
    exact .bind (by grind) fun result => by grind

theorem typeOf_converges (h : lim.Converges limit depth (·.expression operand)) :
    lim.Converges limit depth (·.typeOf operand) := by
  refine .bind h fun v => .quiet ?_
  have hother : Eval.Quiet (do return Value.ofString (← (← v.getValue).typeOf)) := by grind
  split
  · exact .pure _
  · exact hother

theorem delete_converges (h : lim.Converges limit depth (·.expression operand)) :
    lim.Converges limit depth (·.delete operand) := by
  refine .bind h fun v => .quiet ?_
  split <;> grind

theorem sequence_converges {es : List Expression} (h : ∀ e ∈ es, lim.Converges limit depth (·.expression e))
    (last : Value) : lim.Converges limit depth (·.sequence es last) := by
  induction es generalizing last with
  | nil => exact .pure _
  | cons e rest ih =>
    refine .bind (value_converges (h e List.mem_cons_self)) fun v => ?_
    exact ih (fun e' he' => h e' (List.mem_cons_of_mem e he')) v

end Operators

end Evaluator

end EcmaEval
