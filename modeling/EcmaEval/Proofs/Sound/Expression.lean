import EcmaEval.Proofs.Sound.Call

/-!
# Expressions keep a machine sound

Every form of expression gives an operand. Operands hold no reference that the machine could lose:
what was evaluated first is still good after what was evaluated next.
-/
namespace EcmaEval

variable {g : Contract} {A : Grant} {m m' : Machine}

/-- A value without handles. -/
theorem Contract.Stored.number (b : Bounds) (n : Number) : g.Stored b (.number n) :=
  ⟨trivial, fun _ => rfl⟩

theorem Contract.Stored.boolean (b : Bounds) (x : Bool) : g.Stored b (.boolean x) :=
  ⟨trivial, fun _ => rfl⟩

theorem Contract.Stored.string (b : Bounds) (t : Text) : g.Stored b (.string t) :=
  ⟨trivial, fun _ => rfl⟩

theorem Contract.Stored.undefined (b : Bounds) : g.Stored b .undefined := ⟨trivial, fun _ => rfl⟩

section

variable {left right v : Value} (hl : g.Stored m.bounds left) (hr : g.Stored m.bounds right)

include hl hr

theorem applyToNumbers_runs (op : NumericOp) :
    g.Runs A m (applyToNumbers op left right) fun m' v => g.Stored m'.bounds v := by
  refine .bind (Value.toNumeric_runs hl) fun x _ _ _ _ hm' => ?_
  subst hm'
  refine .bind (Value.toNumeric_runs hr) fun y _ _ _ _ hm' => ?_
  subst hm'
  cases x with
  | number x =>
    cases y with
    | number y => exact .pure (.number _ _)
    | bigint y => exact .complain _
  | bigint x =>
    cases y with
    | number y => exact .complain _
    | bigint y => exact .unsupported _

theorem applyNumeric_runs (op : NumericOp) :
    g.Runs A m (applyNumeric op left right) fun m' v => g.Stored m'.bounds v := by
  unfold applyNumeric
  split
  · refine .query (Value.toPrimitive_asks hl) fun l _ hl => ?_
    refine .query (Value.toPrimitive_asks hr) fun r _ hr => ?_
    split
    · refine .bind (Value.toText_runs hl) fun s _ _ _ _ hm' => ?_
      subst hm'
      refine .bind (Value.toText_runs hr) fun t _ _ _ _ hm' => ?_
      exact .pure (.string _ _)
    · exact applyToNumbers_runs hl hr op
  · exact applyToNumbers_runs hl hr op

omit hl hr in
theorem applyLooselyEqual_asks (left right : Value) :
    g.Asks m (applyLooselyEqual left right) fun _ => True := by
  unfold applyLooselyEqual
  cases h : left.looselyEqual right with
  | ok b => exact .pure trivial
  | error f => exact fun _ _ => .inl (Value.looselyEqual_fault h)

theorem applyBinary_runs (op : BinaryOp) :
    g.Runs A m (applyBinary op left right) fun m' v => g.Stored m'.bounds v := by
  cases op with
  | numeric op => exact applyNumeric_runs hl hr op
  | looselyEqual =>
    exact .query (applyLooselyEqual_asks left right) fun _ _ _ => .pure (.boolean _ _)
  | looselyDifferent =>
    exact .query (applyLooselyEqual_asks left right) fun _ _ _ => .pure (.boolean _ _)
  | strictlyEqual => exact .pure (.boolean _ _)
  | strictlyDifferent => exact .pure (.boolean _ _)
  | less => exact .bind (Value.less?_runs true hl hr) fun _ _ _ _ _ _ => .pure (.boolean _ _)
  | greater => exact .bind (Value.less?_runs false hr hl) fun _ _ _ _ _ _ => .pure (.boolean _ _)
  | lessOrEqual => exact .bind (Value.less?_runs false hr hl) fun _ _ _ _ _ _ => .pure (.boolean _ _)
  | greaterOrEqual => exact .bind (Value.less?_runs true hl hr) fun _ _ _ _ _ _ => .pure (.boolean _ _)
  | keyIn =>
    cases right with
    | object o =>
      refine .bind (Value.toKey_runs hl) fun key _ _ _ _ hm' => ?_
      subst hm'
      exact .query (ObjectId.hasProperty_asks hr.1) fun _ _ _ => .pure (.boolean _ _)
    | _ => exact .complain _
  | instanceOf => exact .bind (instanceOf_runs hl.1 hr.1) fun _ _ _ _ _ _ => .pure (.boolean _ _)

omit hr in
theorem applyUnary_runs (op : UnaryOp) :
    g.Runs A m (applyUnary op left) fun m' v => g.Stored m'.bounds v := by
  cases op with
  | plus => exact .bind (Value.toNumber_runs hl) fun _ _ _ _ _ _ => .pure (.number _ _)
  | not => exact .pure (.boolean _ _)
  | minus =>
    refine .bind (Value.toNumeric_runs hl) fun n _ _ _ _ _ => ?_
    cases n with
    | number n => exact .pure (.number _ _)
    | bigint n => exact .unsupported _
  | bitNot =>
    refine .bind (Value.toNumeric_runs hl) fun n _ _ _ _ _ => ?_
    cases n with
    | number n => exact .pure (.number _ _)
    | bigint n => exact .unsupported _

end

theorem Literal.evaluate_runs {l : Literal} (hl : g.checked → l.Valid) :
    g.Runs A m l.evaluate fun m' v => g.Stored m'.bounds v := by
  cases l with
  | bigint digits =>
    have hdigits (hc : g.checked) : (Text.ofString (bigintNumeral digits)).toInt?.isSome = true := hl hc
    unfold evaluate
    dsimp only
    generalize (Text.ofString (bigintNumeral digits)).toInt? = n at hdigits ⊢
    cases n with
    | some n => exact .pure ⟨trivial, fun _ => rfl⟩
    | none => exact .breach _ fun hc => by simpa using hdigits hc
  | _ => exact .pure ⟨trivial, fun _ => rfl⟩

/-- A reference to a property of values. -/
theorem Contract.Stored.propertyOperand {base name : Value} {strict : Bool} (hbase : g.Stored m.bounds base)
    (hname : g.Stored m.bounds name) :
    g.Operand m (.reference (.property base name none strict)) where
  within := ⟨hbase.1, hname.1⟩
  shallow hplain := ⟨hbase.2 hplain, hname.2 hplain, by simp⟩
  resolves _ _ _ _ h := by cases h

theorem callReceiver_asks {v : Value} (hv : g.Operand m v) :
    g.Asks m (callReceiver v) (g.Stored m.bounds) := by
  cases v with
  | reference r =>
    cases r with
    | unresolvable name strict => exact .pure (.undefined _)
    | binding env name strict =>
      refine .bind (EnvId.withObject?_asks hv.within) fun o _ ho => ?_
      cases o with
      | none => exact .pure (.undefined _)
      | some o => exact .pure (.object (ho o rfl))
    | property base name thisValue strict =>
      obtain ⟨hbase, -, hthis⟩ := hv.property
      cases thisValue with
      | none => exact .pure hbase
      | some t => exact .pure (hthis t rfl)
  | _ => exact .pure (.undefined _)

namespace Evaluator

theorem accessorPair_asks {o : ObjectId} {key : Key} (ho : o.Within m.bounds) :
    g.Asks m (accessorPair o key) fun p => g.Stored m.bounds p.1 ∧ g.Stored m.bounds p.2 := by
  refine .bind (ObjectId.getOwnProperty_asks ho) fun d _ ⟨_, _, _, hd, _⟩ => ?_
  cases d with
  | none => exact .pure ⟨.undefined _, .undefined _⟩
  | some d =>
    cases d with
    | data v writable enumerable configurable => exact .pure ⟨.undefined _, .undefined _⟩
    | accessor get set enumerable configurable => exact .pure (hd _ rfl)

theorem store_runs {reference value : Value} (hr : g.Operand m reference)
    (hv : g.Stored m.bounds value) :
    g.Runs A m (store reference value) fun m' v => g.Stored m'.bounds v := by
  refine .of_sound fun hm => .bind (Value.putValue_runs hr hv) fun _ m₁ _ hsteps _ _ => ?_
  exact .pure (hv.mono (hsteps.bounds hm))

variable {ev : Evaluator} (hev : ev.Keeps g)

include hev

theorem templateParts_runs {es : List Expression} {strings : List String} {text : Text}
    (hes : g.checked → ∀ e ∈ es, e.Valid) :
    g.Runs A m (ev.templateParts es strings text) fun _ _ => True := by
  induction es generalizing m strings text with
  | nil => exact .pure trivial
  | cons e rest ih =>
    refine .bind (value_runs hev fun hc => hes hc e (by simp)) fun v m₁ _ _ _ hv => ?_
    refine .bind (Value.toText_runs hv) fun part m₂ _ _ _ _ => ?_
    exact ih fun hc e he => hes hc e (by simp [he])

theorem arrayElements_runs {array : ObjectId} {index : Nat} {elements : List (Option Expression)}
    (harray : array.Within m.bounds) (helements : g.checked → ∀ e, some e ∈ elements → e.Valid) :
    g.Runs A m (ev.arrayElements array index elements) fun _ _ => True := by
  induction elements generalizing m index with
  | nil => exact .pure trivial
  | cons element rest ih =>
    have hrest (hc : g.checked) (e : Expression) (he : some e ∈ rest) : e.Valid :=
      helements hc e (by simp [he])
    cases element with
    | none => exact ih harray hrest
    | some e =>
      refine .of_sound fun hm => ?_
      refine .bind (value_runs hev fun hc => helements hc e (by simp)) fun v m₁ _ hsteps₁ hm₁ hv => ?_
      have harray₁ := Nat.lt_of_lt_of_le harray (hsteps₁.bounds hm).1
      refine .bind (ObjectId.createPropertyOrThrow_runs harray₁ hv) fun _ m₂ _ hsteps₂ _ _ => ?_
      exact ih (Nat.lt_of_lt_of_le harray₁ (hsteps₂.bounds hm₁).1) hrest

theorem array_runs {elements : List (Option Expression)}
    (helements : g.checked → ∀ e, some e ∈ elements → e.Valid) :
    g.Runs A m (ev.array elements) fun m' v => g.Stored m'.bounds v := by
  refine .bind (newArray_runs 0) fun array m₁ _ _ hm₁ harray => ?_
  refine .bind (arrayElements_runs hev harray helements) fun _ m₂ _ hsteps₂ hm₂ _ => ?_
  have harray₂ := Nat.lt_of_lt_of_le harray (hsteps₂.bounds hm₁).1
  refine .bind (ObjectId.set_runs harray₂ (.number _ _) harray₂) fun b m₃ _ hsteps₃ _ _ => ?_
  split
  · exact .complain _
  · exact .pure (.object (Nat.lt_of_lt_of_le harray₂ (hsteps₃.bounds hm₂).1))

theorem member_runs {o : ObjectId} {entry : Member} (ho : o.Within m.bounds)
    (hentry : g.checked → entry.Valid) : g.Runs A m (ev.member o entry) fun _ _ => True := by
  obtain ⟨kind, name, value⟩ := entry
  have hname (hc : g.checked) : name.Valid := by
    cases hentry hc
    assumption
  have hvalue (hc : g.checked) : value.Valid := by
    cases hentry hc
    assumption
  have haccessor (hc : g.checked) : kind ≠ .value → ∃ code, value = .function code := by
    cases hentry hc
    assumption
  refine .of_sound fun hm => .bind (memberKey_runs hev hname) fun key m₁ _ hsteps₁ hm₁ _ => ?_
  have ho₁ := Nat.lt_of_lt_of_le ho (hsteps₁.bounds hm).1
  -- A getter or setter takes over the other half of the pair it belongs to.
  have hdefine (code : FunctionCode) (hcode : g.checked → code.Valid) (name : String)
      (d : ObjectId → Value × Value → Descriptor)
      (hd : ∀ b f p, f.Within b → g.Stored b p.1 → g.Stored b p.2 → (d f p).All (g.Stored b)) :
      g.Runs A m₁ (do
        let f ← instantiateMethod code name
        let p ← accessorPair o key
        o.defineOrThrow key (d f p)) fun _ _ => True := by
    refine .bind (instantiateMethod_runs hcode) fun f m₂ _ hsteps₂ _ hf => ?_
    have ho₂ := Nat.lt_of_lt_of_le ho₁ (hsteps₂.bounds hm₁).1
    refine .query (accessorPair_asks ho₂) fun p _ ⟨hget, hset⟩ => ?_
    exact ObjectId.defineOrThrow_runs ho₂ (hd _ f p hf hget hset)
  have hcode {code : FunctionCode} (h : value = .function code) (hc : g.checked) : code.Valid := by
    subst h
    cases hvalue hc
    assumption
  have hother (hkind : kind ≠ .value) (h : ∀ code, value ≠ .function code) : ¬ g.checked := by
    intro hc
    obtain ⟨code, hcode⟩ := haccessor hc hkind
    exact h code hcode
  cases kind with
  | value =>
    refine .bind (valueNamed_runs hev hvalue) fun v m₂ _ hsteps₂ _ hv => ?_
    exact ObjectId.createPropertyOrThrow_runs (Nat.lt_of_lt_of_le ho₁ (hsteps₂.bounds hm₁).1) hv
  | getter =>
    cases value with
    | function code =>
      exact hdefine code (hcode rfl) _ (fun f p => .accessor (.object f) p.2 true true)
        fun b f p hf _ hset => ⟨.object hf, hset⟩
    | _ => exact .breach _ (hother (by simp) (by simp))
  | setter =>
    cases value with
    | function code =>
      exact hdefine code (hcode rfl) _ (fun f p => .accessor p.1 (.object f) true true)
        fun b f p hf hget _ => ⟨hget, .object hf⟩
    | _ => exact .breach _ (hother (by simp) (by simp))

theorem members_runs {o : ObjectId} {members : List Member} (ho : o.Within m.bounds)
    (hmembers : g.checked → ∀ entry ∈ members, entry.Valid) :
    g.Runs A m (members.forM (ev.member o)) fun _ _ => True := by
  induction members generalizing m with
  | nil => exact .pure trivial
  | cons entry rest ih =>
    refine .of_sound fun hm => ?_
    refine .bind (member_runs hev ho fun hc => hmembers hc entry (by simp)) fun _ m₁ _ hsteps _ _ => ?_
    exact ih (Nat.lt_of_lt_of_le ho (hsteps.bounds hm).1) fun hc entry he => hmembers hc entry (by simp [he])

theorem object_runs {members : List Member} (hmembers : g.checked → ∀ entry ∈ members, entry.Valid) :
    g.Runs A m (ev.object members) fun m' v => g.Stored m'.bounds v := by
  refine .query intrinsics_asks fun i _ hi => ?_
  refine .bind (newObject_runs fun p hp => by cases hp; exact hi.objectPrototype)
    fun o m₁ _ _ hm₁ hnew => ?_
  have ho₁ : o.Within m₁.bounds := by
    rw [hnew.1, hnew.2]
    exact Machine.size_within _
  refine .bind (members_runs hev ho₁ hmembers) fun _ m₂ _ hsteps _ _ => ?_
  exact .pure (.object (Nat.lt_of_lt_of_le ho₁ (hsteps.bounds hm₁).1))

theorem assignedValue_runs {target value : Expression} (hv : g.checked → value.Valid) :
    g.Runs A m (ev.assignedValue target value) fun m' v => g.Stored m'.bounds v := by
  unfold assignedValue
  split
  · exact valueNamed_runs hev hv
  · exact value_runs hev hv

theorem update_runs {op : UpdateOp} {returnsNew : Bool} {target : Expression}
    (ht : g.checked → target.Valid) :
    g.Runs A m (ev.update op returnsNew target) fun m' v => g.Stored m'.bounds v := by
  refine .bind (hev.expression _ m target ht) fun reference m₁ _ _ hm₁ hreference => ?_
  refine .bind (Value.getValue_runs hreference) fun v m₂ _ hsteps₂ hm₂ hv => ?_
  refine .bind (Value.toNumeric_runs hv) fun n _ _ _ _ hm' => ?_
  subst hm'
  cases n with
  | number old =>
    refine .bind (Value.putValue_runs (hsteps₂.operand hm₁ hreference) (.number _ _))
      fun _ _ _ _ _ _ => .pure (.number _ _)
  | bigint n => exact .unsupported _

theorem assign_runs {op : AssignOp} {target value : Expression} (ht : g.checked → target.Valid)
    (hv : g.checked → value.Valid) :
    g.Runs A m (ev.assign op target value) fun m' v => g.Stored m'.bounds v := by
  unfold assign
  split
  · exact .unsupported _
  refine .bind (hev.expression _ m target ht) fun reference m₁ _ _ hm₁ hreference => ?_
  cases op with
  | plain =>
    refine .bind (assignedValue_runs hev hv) fun v m₂ _ hsteps₂ _ hv => ?_
    exact store_runs (hsteps₂.operand hm₁ hreference) hv
  | logical op =>
    refine .bind (Value.getValue_runs hreference) fun old m₂ _ hsteps₂ hm₂ hold => ?_
    split
    · exact .pure hold
    · refine .bind (assignedValue_runs hev hv) fun v m₃ _ hsteps₃ _ hv => ?_
      exact store_runs (hsteps₃.operand hm₂ (hsteps₂.operand hm₁ hreference)) hv
  | numeric op =>
    refine .bind (Value.getValue_runs hreference) fun old m₂ _ hsteps₂ hm₂ hold => ?_
    refine .bind (value_runs hev hv) fun operand m₃ _ hsteps₃ hm₃ hoperand => ?_
    refine .bind (applyNumeric_runs (hold.mono (hsteps₃.bounds hm₂)) hoperand op)
      fun v m₄ _ hsteps₄ _ hv => ?_
    exact store_runs
      (hsteps₄.operand hm₃ (hsteps₃.operand hm₂ (hsteps₂.operand hm₁ hreference))) hv

theorem binary_runs {op : BinaryOp} {left right : Expression} (hl : g.checked → left.Valid)
    (hr : g.checked → right.Valid) :
    g.Runs A m (ev.binary op left right) fun m' v => g.Stored m'.bounds v := by
  refine .bind (value_runs hev hl) fun l m₁ _ _ hm₁ hl => ?_
  refine .bind (value_runs hev hr) fun r m₂ _ hsteps₂ _ hr => ?_
  exact applyBinary_runs (hl.mono (hsteps₂.bounds hm₁)) hr op

theorem logical_runs {op : LogicalOp} {left right : Expression} (hl : g.checked → left.Valid)
    (hr : g.checked → right.Valid) :
    g.Runs A m (ev.logical op left right) fun m' v => g.Stored m'.bounds v := by
  refine .bind (value_runs hev hl) fun l m₁ _ _ _ hl => ?_
  split
  · exact .pure hl
  · exact value_runs hev hr

theorem conditional_runs {test consequent alternate : Expression} (ht : g.checked → test.Valid)
    (hc : g.checked → consequent.Valid) (ha : g.checked → alternate.Valid) :
    g.Runs A m (ev.conditional test consequent alternate) fun m' v => g.Stored m'.bounds v := by
  refine .bind (value_runs hev ht) fun v m₁ _ _ _ _ => ?_
  split
  · exact value_runs hev hc
  · exact value_runs hev ha

theorem typeOf_runs {operand : Expression} (ho : g.checked → operand.Valid) :
    g.Runs A m (ev.typeOf operand) fun m' v => g.Stored m'.bounds v := by
  refine .bind (hev.expression _ m operand ho) fun v m₁ _ _ _ hv => ?_
  have hvalue : g.Runs A m₁ (do return .ofString (← (← v.getValue).typeOf)) fun m' v =>
      g.Stored m'.bounds v := by
    refine .bind (Value.getValue_runs hv) fun w m₂ _ _ _ hw => ?_
    exact .query (Value.typeOf_asks hw) fun _ _ _ => .pure (.string _ _)
  cases v with
  | reference r =>
    cases r with
    | unresolvable name strict => exact .pure (.string _ _)
    | _ => exact hvalue
  | _ => exact hvalue

theorem delete_runs {operand : Expression} (ho : g.checked → operand.Valid) :
    g.Runs A m (ev.delete operand) fun m' v => g.Stored m'.bounds v := by
  refine .bind (hev.expression _ m operand ho) fun v m₁ _ _ _ hv => ?_
  cases v with
  | reference r =>
    cases r with
    | unresolvable name strict => exact .pure (.boolean _ _)
    | binding env name strict =>
      exact .bind (EnvId.delete_runs hv.within fun hc => hv.resolves hc env name strict rfl)
        fun _ _ _ _ _ _ => .pure (.boolean _ _)
    | property base name thisValue strict =>
      obtain ⟨hbase, hname, -⟩ := hv.property
      refine .bind (Value.toObject_runs hbase.1) fun o _ _ _ _ hobject => ?_
      obtain ⟨hm', ho⟩ := hobject
      subst hm'
      refine .bind (Value.toKey_runs hname) fun key _ _ _ _ hm' => ?_
      subst hm'
      refine .bind (ObjectId.delete_runs ho) fun deleted m₂ _ _ _ _ => ?_
      split
      · exact .complain _
      · exact .pure (.boolean _ _)
  | _ => exact .pure (.boolean _ _)

theorem sequence_runs {es : List Expression} {last : Value} (hes : g.checked → ∀ e ∈ es, e.Valid)
    (hlast : g.Stored m.bounds last) :
    g.Runs A m (ev.sequence es last) fun m' v => g.Stored m'.bounds v := by
  induction es generalizing m last with
  | nil => exact .pure hlast
  | cons e rest ih =>
    refine .bind (value_runs hev fun hc => hes hc e (by simp)) fun v m₁ _ _ _ hv => ?_
    exact ih (fun hc e he => hes hc e (by simp [he])) hv

theorem callExpression_runs {callee : Expression} {arguments : List Expression}
    (hcallee : g.checked → callee.Valid) (harguments : g.checked → ∀ e ∈ arguments, e.Valid) :
    g.Runs A m (ev.callExpression callee arguments) fun m' v => g.Stored m'.bounds v := by
  refine .bind (hev.expression _ m callee hcallee) fun reference m₁ _ _ hm₁ hreference => ?_
  refine .query (callReceiver_asks hreference) fun receiver _ hreceiver => ?_
  refine .bind (Value.getValue_runs hreference) fun f m₂ _ hsteps₂ hm₂ hf => ?_
  refine .bind (values_runs hev harguments) fun values m₃ _ hsteps₃ _ hvalues => ?_
  have hb₃ := hsteps₃.bounds hm₂
  refine .query (Value.isCallable_asks (hf.mono hb₃).1) fun callable _ _ => ?_
  split
  · exact .complain _
  · exact call_runs hev (hf.mono hb₃).1 ((hreceiver.mono (hsteps₂.bounds hm₁)).mono hb₃) hvalues

theorem newExpression_runs {callee : Expression} {arguments : List Expression}
    (hcallee : g.checked → callee.Valid) (harguments : g.checked → ∀ e ∈ arguments, e.Valid) :
    g.Runs A m (ev.newExpression callee arguments) fun m' v => g.Stored m'.bounds v := by
  refine .bind (value_runs hev hcallee) fun f m₁ _ _ hm₁ hf => ?_
  refine .bind (values_runs hev harguments) fun values m₂ _ hsteps₂ _ hvalues => ?_
  have hf₂ := hf.mono (hsteps₂.bounds hm₁)
  refine .query (Value.isConstructor_asks hf₂.1) fun constructs _ _ => ?_
  split
  · exact .complain _
  · exact construct_runs hev hf₂ hvalues (by simp)

theorem memberAccess_runs {object : Expression} {name : String} (ho : g.checked → object.Valid) :
    g.Runs A m (ev.memberAccess object name) fun m' v => g.Operand m' v := by
  refine .bind (value_runs hev ho) fun base m₁ _ _ _ hbase => ?_
  exact .query isStrict_asks fun strict _ _ => .pure (hbase.propertyOperand (.string _ _))

theorem indexAccess_runs {object key : Expression} (ho : g.checked → object.Valid)
    (hk : g.checked → key.Valid) :
    g.Runs A m (ev.indexAccess object key) fun m' v => g.Operand m' v := by
  refine .bind (value_runs hev ho) fun base m₁ _ _ hm₁ hbase => ?_
  refine .bind (value_runs hev hk) fun name m₂ _ hsteps₂ _ hname => ?_
  exact .query isStrict_asks fun strict _ _ =>
    .pure ((hbase.mono (hsteps₂.bounds hm₁)).propertyOperand hname)

/-- Every expression gives an operand. -/
theorem evaluate_runs (e : Expression) (he : g.checked → e.Valid) :
    g.Runs A m (ev.evaluate e) fun m' v => g.Operand m' v := by
  have hstored {x : Eval Value} (hx : g.Runs A m x fun m' v => g.Stored m'.bounds v) :
      g.Runs A m x fun m' v => g.Operand m' v := hx.imp fun _ _ _ _ hv => hv.operand
  cases e with
  | literal l => exact hstored (Literal.evaluate_runs fun hc => by cases he hc; assumption)
  | identifier name => exact .ask (resolveBinding_asks (by simp)) fun _ _ hv => hv
  | thisValue => exact hstored resolveThis_runs
  | array elements => exact hstored (array_runs hev fun hc => by cases he hc; assumption)
  | object members => exact hstored (object_runs hev fun hc => by cases he hc; assumption)
  | function code =>
    refine hstored (.bind (instantiateExpression_runs fun hc => by cases he hc; assumption) ?_)
    exact fun _ _ _ _ _ hf => .pure (.object hf)
  | arrow code =>
    refine hstored (.bind (instantiateArrow_runs fun hc => by cases he hc; assumption) ?_)
    exact fun _ _ _ _ _ hf => .pure (.object hf)
  | unary op operand =>
    refine hstored (.bind (value_runs hev fun hc => by cases he hc; assumption) ?_)
    exact fun _ _ _ _ _ hv => applyUnary_runs hv op
  | binary op left right =>
    exact hstored (binary_runs hev (fun hc => by cases he hc; assumption)
      fun hc => by cases he hc; assumption)
  | logical op left right =>
    exact hstored (logical_runs hev (fun hc => by cases he hc; assumption)
      fun hc => by cases he hc; assumption)
  | update op returnsNew target =>
    exact hstored (update_runs hev fun hc => by cases he hc; assumption)
  | assign op target value =>
    exact hstored (assign_runs hev (fun hc => by cases he hc; assumption)
      fun hc => by cases he hc; assumption)
  | conditional test consequent alternate =>
    exact hstored (conditional_runs hev (fun hc => by cases he hc; assumption)
      (fun hc => by cases he hc; assumption) fun hc => by cases he hc; assumption)
  | call callee arguments =>
    exact hstored (callExpression_runs hev (fun hc => by cases he hc; assumption)
      fun hc => by cases he hc; assumption)
  | new callee arguments =>
    exact hstored (newExpression_runs hev (fun hc => by cases he hc; assumption)
      fun hc => by cases he hc; assumption)
  | member object name => exact memberAccess_runs hev fun hc => by cases he hc; assumption
  | index object key =>
    exact indexAccess_runs hev (fun hc => by cases he hc; assumption)
      fun hc => by cases he hc; assumption
  | spread e => exact .unsupported _
  | yield e delegate => exact .unsupported _
  | await e => exact .unsupported _
  | template strings expressions =>
    refine hstored (.bind (templateParts_runs hev fun hc => by cases he hc; assumption) ?_)
    exact fun _ _ _ _ _ _ => .pure (.string _ _)
  | typeOf operand => exact hstored (typeOf_runs hev fun hc => by cases he hc; assumption)
  | void operand =>
    refine hstored (.bind (value_runs hev fun hc => by cases he hc; assumption) ?_)
    exact fun _ _ _ _ _ _ => .pure (.undefined _)
  | delete operand => exact hstored (delete_runs hev fun hc => by cases he hc; assumption)
  | sequence expressions =>
    exact hstored (sequence_runs hev (fun hc => by cases he hc; assumption) (.undefined _))

end Evaluator

end EcmaEval
