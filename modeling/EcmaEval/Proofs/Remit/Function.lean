import EcmaEval.Proofs.Heap.Mapping
import EcmaEval.Proofs.Remit.Environment

/-!
# Functions and operators within a remit

Making functions, arguments objects and errors, and applying operators, stay in every remit that is
open to the code of the functions. A new arguments object holds what its exact making says it holds, and
a new error may get another prototype before anything refers to it.
-/
namespace EcmaEval

variable {R : Remit}

section Making

variable {code : FunctionCode} (hcode : R.codes code)

include hcode

@[grind ←] theorem newFunction_stays {env : EnvId} (henv : R.Holds env) {privateEnv : Option EnvId}
    (hp : R.Holds privateEnv) : (newFunction code env privateEnv).StaysIn R R.Holds := by
  refine .bind (.lift currentRealm_stays) fun realm _ => .bind (.lift realm.load_stays) fun r hr => ?_
  refine .bind (.lift isStrict_stays) fun strict _ => .bind (allocate_stays_code ?_ ?_) fun f hf => ?_
  · have hprototype := ((holds_intrinsics r.intrinsics).mp ((holds_realm r).mp hr).1.1).1.1.2
    exact (holds_object _).mpr ⟨⟨(holds_some _).mpr hprototype, PropertyTable.empty_holds⟩,
      (holds_function _).mpr ⟨henv, hp⟩⟩
  · rintro slots ⟨⟩
    exact hcode
  · have hlength (n : Number) : R.Holds (Descriptor.readOnly (.number n)) :=
      Descriptor.readOnly_holds (holds_primitive rfl)
    exact .bind (ObjectId.defineOrThrow_stays (R.owns_of_holds hf) _ (hlength _)) fun _ _ => .pure hf

omit hcode in
@[grind ←] theorem makeConstructor_stays {f : ObjectId} (hf : R.Holds f) :
    (makeConstructor f).StaysIn R R.Holds := by
  have hown := R.owns_of_holds hf
  have hobject := (holds_objectValue f).mpr hf
  refine .bind (ObjectId.modify_stays hown (fun _ h => Object.markConstructor_holds h)
    Object.closure?_markConstructor Object.prototype_markConstructor) fun _ _ => ?_
  refine .bind (.lift intrinsics_stays) fun i hi => ?_
  refine .bind (newObject_stays ((holds_some _).mpr ((holds_intrinsics i).mp hi).1.1.1)) fun prototype hp => ?_
  refine .bind (ObjectId.defineOrThrow_stays (R.owns_of_holds hp) _ (Descriptor.hidden_holds hobject))
    fun _ _ => ?_
  exact ObjectId.defineOrThrow_stays hown _ ((holds_data _ _ _ _).mpr ((holds_objectValue prototype).mpr hp))

omit hcode in
@[grind ←] theorem setFunctionName_stays {f : ObjectId} (hf : R.Holds f) (name : String) :
    (setFunctionName f name).StaysIn R R.Holds :=
  ObjectId.defineOrThrow_stays (R.owns_of_holds hf) _ (Descriptor.readOnly_holds (ofString_holds name))

omit hcode in
@[grind ←] theorem finishFunction_stays {f : ObjectId} (hf : R.Holds f) (code : FunctionCode)
    (name : String) : (finishFunction f code name).StaysIn R R.Holds := by
  refine .bind (setFunctionName_stays hf name) fun _ _ => ?_
  split
  · exact makeConstructor_stays hf
  · exact .pure (holds_empty _)

@[grind ←] theorem instantiateDeclaration_stays {env : EnvId} (henv : R.Holds env)
    {privateEnv : Option EnvId} (hp : R.Holds privateEnv) :
    (instantiateDeclaration code env privateEnv).StaysIn R R.Holds :=
  .bind (newFunction_stays hcode henv hp) fun _ hf =>
    .bind (finishFunction_stays hf _ _) fun _ _ => .pure hf

@[grind ←] theorem instantiateExpression_stays (hscopes : R.scopes) (name : Option Key) :
    (instantiateExpression code name).StaysIn R R.Holds := by
  refine .bind (.lift lexicalEnv_stays) fun scope hscope => ?_
  refine .bind (.lift runningContext_stays) fun c hc => ?_
  have hprivate := ((holds_context c).mp hc).2
  cases code.ownName? with
  | none =>
    refine .bind (newFunction_stays hcode hscope hprivate) fun f hf => ?_
    exact .bind (finishFunction_stays hf _ _) fun _ _ => .pure hf
  | some ownName =>
    refine .bind (newDeclarativeEnvironment_stays hscopes ((holds_some scope).mpr hscope)) fun env henv => ?_
    refine .bind (EnvId.createImmutable_stays henv hscopes _ _) fun _ _ => ?_
    refine .bind (newFunction_stays hcode henv hprivate) fun f hf => ?_
    refine .bind (finishFunction_stays hf _ _) fun _ _ => ?_
    exact .bind (EnvId.initBinding_stays henv _ ((holds_objectValue f).mpr hf)) fun _ _ => .pure hf

@[grind ←] theorem instantiateMethod_stays (name : String) :
    (instantiateMethod code name).StaysIn R R.Holds := by
  refine .bind (.lift lexicalEnv_stays) fun scope hscope => ?_
  refine .bind (.lift runningContext_stays) fun c hc => ?_
  exact .bind (newFunction_stays hcode hscope ((holds_context c).mp hc).2) fun f hf =>
    .bind (setFunctionName_stays hf name) fun _ _ => .pure hf

@[grind ←] theorem instantiateArrow_stays (name : Option Key) :
    (instantiateArrow code name).StaysIn R R.Holds := instantiateMethod_stays hcode _

end Making

theorem headD_holds {arguments : List Value} (h : R.Holds arguments) :
    R.Holds (arguments.headD .undefined) := by
  cases arguments <;> grind

@[grind ←] theorem defineElements_stays {o : ObjectId} (ho : R.Owns o) (index : Nat)
    {values : List Value} (hvalues : R.Holds values) : (defineElements o index values).StaysIn R R.Holds := by
  induction values generalizing index with
  | nil => exact .pure (holds_empty _)
  | cons value rest ih =>
    unfold defineElements
    grind

@[grind ←] theorem newArrayOf_stays {elements : List Value} (h : R.Holds elements) :
    (newArrayOf elements).StaysIn R R.Holds := by
  unfold newArrayOf
  grind

section Arguments

variable {arguments : List Value} (harguments : R.Holds arguments) {f : ObjectId} (hf : R.Holds f)
  {mapping : Option (List String × EnvId)} (hmapping : R.Holds mapping)

include harguments hf hmapping

theorem argumentsObject_holds {prototype : ObjectId} (hp : R.Holds prototype) :
    R.Holds (argumentsObject prototype f arguments mapping) := by
  refine (holds_object _).mpr ⟨⟨(holds_some _).mpr hp, PropertyTable.holds_entries.mpr fun e he => ?_⟩, ?_⟩
  · rcases List.mem_append.mp he with helement | he
    · obtain ⟨v, hv, hplain⟩ := elementEntries_plain helement
      rw [hplain]
      exact holds_list.mp harguments v hv
    rcases List.mem_cons.mp he with rfl | hcallee
    · exact Descriptor.hidden_holds (holds_primitive rfl)
    · split at hcallee
      · obtain rfl := List.mem_singleton.mp hcallee
        exact Descriptor.hidden_holds ((holds_objectValue f).mpr hf)
      · cases hcallee
  · cases mapping with
    | none => exact holds_plainKind rfl
    | some mapping => exact ((holds_pair mapping).mp ((holds_some mapping).mp hmapping)).2

@[grind ←] theorem newArguments_stays : (newArguments f arguments mapping).StaysIn R R.Holds := by
  intro m hm
  have hanswer := intrinsics_stays m hm
  cases hi : intrinsics m with
  | error e =>
    rw [hi] at hanswer
    rw [show newArguments f arguments mapping m = _ from bind_error (bind_error (lift_error hi))]
    exact ⟨.refl, hanswer.1, fun he => absurd (hanswer.2.symm.trans he) Bool.false_ne_true⟩
  | ok i =>
    rw [hi] at hanswer
    rw [newArguments_eq hi]
    have hobject := argumentsObject_holds harguments hf hmapping ((holds_intrinsics i).mp hanswer).1.1.1
    exact ⟨.single (.object hobject nofun), hm.nextObject⟩

end Arguments

@[grind ←] theorem bindName_stays {env : Option EnvId} (henv : R.Holds env) (name : String)
    {value : Value} (hv : R.Holds value) : (bindName env name value).StaysIn R R.Holds := by
  unfold bindName
  grind

@[grind ←] theorem copyKeys_stays {target source : ObjectId} (ht : R.Owns target) (hs : R.Owns source)
    (keys : List Key) : (copyKeys target source keys).StaysIn R R.Holds := by
  induction keys with
  | nil => exact .pure (holds_empty _)
  | cons key rest ih =>
    unfold copyKeys
    grind

@[grind ←] theorem copyProperties_stays {target source : ObjectId} (ht : R.Owns target)
    (hs : R.Owns source) (excluded : List Key) :
    (copyProperties target source excluded).StaysIn R R.Holds := by
  unfold copyProperties
  grind

@[grind ←] theorem prototypeProperty_stays {v : Value} (hv : R.Holds v) :
    (prototypeProperty v).StaysIn R R.Holds := by
  unfold prototypeProperty
  grind

@[grind ←] theorem prototypeFor_stays {v : Value} (hv : R.Holds v) :
    (prototypeFor v).StaysIn R R.Holds := by
  unfold prototypeFor
  grind

@[grind ←] theorem setMessage_stays {error : ObjectId} (he : R.Owns error) {message : Value}
    (hv : R.Holds message) : (error.setMessage message).StaysIn R R.Holds := by
  unfold ObjectId.setMessage
  grind

@[grind ←] theorem hasInstance_stays {constructor value : Value} (hc : R.Holds constructor)
    (hv : R.Holds value) : (hasInstance constructor value).StaysIn R R.Holds := by
  unfold hasInstance
  refine .bind (.lift (Value.isCallable_stays hc)) fun callable _ => ?_
  split
  · exact .pure (holds_empty _)
  split
  · rename_i c o
    have hc : R.Owns c := by grind
    have ho : R.Owns o := by grind
    refine .bind (.lift (ObjectId.get_stays hc _)) fun prototype _ => ?_
    split
    · refine .bind (.lift (ObjectId.getPrototype_stays ho)) fun start hstart => ?_
      refine .bind (.lift (searchChain_stays (holds_empty _) (fun p hp => ?_) fun _ _ => .pure (holds_empty _)))
        fun _ _ => .pure (holds_empty _)
      rw [hp] at hstart
      exact R.owns_of_holds ((holds_some p).mp hstart)
    · exact complain_stays _ _
  · exact .pure (holds_empty _)

@[grind ←] theorem instanceOf_stays {value target : Value} (hv : R.Holds value) (ht : R.Holds target) :
    (instanceOf value target).StaysIn R R.Holds := by
  unfold instanceOf
  grind

theorem newError_eq_ok {kind : ErrorKind} {m m' : Machine} {o : ObjectId}
    (h : newError kind none m = .ok o m') :
    ∃ obj : Object, obj.closure? = none ∧ o = ⟨m.objects.size⟩ ∧ m' = m.pushObject obj := by
  obtain ⟨i, m₁, hintrinsics, hrun⟩ := bind_eq_ok h
  obtain ⟨rfl, -⟩ := lift_eq_ok hintrinsics
  cases hrun
  exact ⟨_, rfl, rfl, rfl⟩

/-- A new error that inherits from the prototype object of a new target. Only the new object gets
another prototype, so this is as good as making it with that prototype. -/
theorem newInstance_stays (kind : ErrorKind) {newTarget : Option Value} (ht : R.Holds newTarget) :
    Eval.StaysIn R (do
      let error ← newError kind none
      error.inheritFrom newTarget
      return error) R.Holds := by
  intro m hm
  have hfirst := newError_stays kind none m hm
  cases hnew : newError kind none m with
  | error e m₁ =>
    rw [hnew] at hfirst
    rw [bind_error hnew]
    exact hfirst
  | ok error m₁ =>
    rw [hnew] at hfirst
    obtain ⟨htouches, herror⟩ := hfirst
    have hclosed := hm.touches htouches
    obtain ⟨obj, hobj, rfl, rfl⟩ := newError_eq_ok hnew
    rw [bind_ok hnew]
    cases newTarget with
    | none => exact ⟨htouches, herror⟩
    | some target =>
      have hanswer := prototypeProperty_stays ((holds_some target).mp ht) (m.pushObject obj) hclosed
      unfold ObjectId.inheritFrom
      cases hquery : prototypeProperty target (m.pushObject obj) with
      | error e =>
        rw [hquery] at hanswer
        rw [bind_error (bind_error (lift_error hquery))]
        exact ⟨htouches, hanswer.1, fun he => absurd (hanswer.2.symm.trans he) Bool.false_ne_true⟩
      | ok v =>
        rw [hquery] at hanswer
        rw [bind_assoc, bind_ok (lift_ok hquery)]
        cases v with
        | object p =>
          have hmodify := ObjectId.modify_eq (m.within_pushObject_self obj) ({ · with prototype := some p })
          have hholds := (holds_object obj).mp
            (hclosed.objects _ obj (R.owns_of_holds herror) (m.object?_pushObject_self obj))
          have hprototype := (holds_some p).mpr ((holds_objectValue p).mp hanswer)
          -- the prototype of an object that was just made is part of its making
          rw [bind_ok hmodify, Machine.updateObject_pushObject]
          refine ⟨.single (.object ((holds_object _).mpr ⟨⟨hprototype, hholds.1.2⟩, hholds.2⟩) ?_), herror⟩
          intro slots hslots
          cases hobj.symm.trans hslots
        | _ => exact ⟨htouches, herror⟩

@[grind ←] theorem constructError_stays (kind : ErrorKind) {arguments : List Value}
    (harguments : R.Holds arguments) {newTarget : Option Value} (ht : R.Holds newTarget) :
    (constructError kind arguments newTarget).StaysIn R R.Holds := by
  have hsplit : constructError kind arguments newTarget = (do
      let error ← (do
        let error ← newError kind none
        error.inheritFrom newTarget
        return error)
      error.setMessage (arguments.headD .undefined)
      return .object error) := by
    simp only [constructError, bind_assoc, pure_bind]
  rw [hsplit]
  refine .bind (newInstance_stays kind ht) fun error he => ?_
  exact .bind (setMessage_stays (R.owns_of_holds he) (headD_holds harguments)) fun _ _ =>
    .pure ((holds_objectValue error).mpr he)

@[grind ←] theorem applyNumeric_stays (op : NumericOp) {left right : Value} (hl : R.Holds left)
    (hr : R.Holds right) : (applyNumeric op left right).StaysIn R R.Holds := by
  have hnumbers (left right : Value) (hl : R.Holds left) (hr : R.Holds right) :
      (applyToNumbers op left right).StaysIn R R.Holds := by
    unfold applyToNumbers
    grind
  unfold applyNumeric
  grind

@[grind ←] theorem applyLooselyEqual_stays (left right : Value) :
    (applyLooselyEqual left right).StaysIn R R.Holds := by
  have hplain (x y : Value) (f : Fault) (h : x.looselyEqualNonBoolean y = .error f) : f.isPlain = true := by
    unfold Value.looselyEqualNonBoolean at h
    split at h <;> cases h <;> rfl
  unfold applyLooselyEqual
  split
  · exact .pure (holds_empty _)
  · refine .fault ?_
    rename_i f h
    unfold Value.looselyEqual at h
    split at h
    · cases h
    · exact hplain _ _ _ h

@[grind ←] theorem applyBinary_stays (op : BinaryOp) {left right : Value} (hl : R.Holds left)
    (hr : R.Holds right) : (applyBinary op left right).StaysIn R R.Holds := by
  unfold applyBinary
  cases op <;> grind

@[grind ←] theorem applyUnary_stays (op : UnaryOp) {v : Value} (hv : R.Holds v) :
    (applyUnary op v).StaysIn R R.Holds := by
  unfold applyUnary
  cases op <;> grind

@[grind ←] theorem callReceiver_stays {v : Value} (hv : R.Admits v) :
    (callReceiver v).StaysIn R R.Holds := by
  unfold callReceiver
  grind

@[grind ←] theorem Evaluator.accessorPair_stays {o : ObjectId} (ho : R.Owns o) (key : Key) :
    (Evaluator.accessorPair o key).StaysIn R R.Holds := by
  unfold Evaluator.accessorPair
  grind

@[grind ←] theorem Evaluator.store_stays {reference value : Value} (hr : R.Admits reference)
    (hv : R.Holds value) : (Evaluator.store reference value).StaysIn R R.Holds := by
  unfold Evaluator.store
  grind

@[grind ←] theorem Literal.evaluate_stays (l : Literal) : l.evaluate.StaysIn R R.Holds := by
  unfold Literal.evaluate
  grind

end EcmaEval
