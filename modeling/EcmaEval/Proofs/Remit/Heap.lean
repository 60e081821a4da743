import EcmaEval.Proofs.Remit.Run

/-!
# Operations on objects within a remit

The machine's own operations, conversions and the operations on objects stay in every remit that owns
the object, holds the values they are given and is open to what they make. An object under construction
may be read and changed like any other.
-/
namespace EcmaEval

variable {R : Remit}

@[grind ←] theorem ObjectId.load_stays {o : ObjectId} (ho : R.Owns o) : o.load.StaysIn R R.Holds := by
  intro m hm
  unfold ObjectId.load
  split
  · exact hm.objects o _ ho ‹_›
  · exact ⟨(holds_fault _).mpr (.inr rfl), rfl⟩

/-- A change of an object that is there keeps its closure and its prototype. -/
theorem ObjectId.modify_permits {m : Machine} {o : ObjectId} (ho : R.Owns o) {f : Object → Object}
    (hf : ∀ obj, m.object? o = some obj → R.Holds obj → R.Holds (f obj) ∧
      (f obj).closure? = obj.closure? ∧ (R.prototypes ∨ (f obj).prototype = obj.prototype)) :
    m.Permits R (o.modify f) R.Holds := by
  by_cases h : o.index < m.objects.size
  · obtain ⟨obj, hobj⟩ := Machine.exists_object (o := o) h
    refine .of_ok (modify_eq h f) (fun hm => .single ?_) (holds_empty _)
    obtain ⟨hholds, hclosure, hprototype⟩ := hf obj hobj (hm.objects o obj ho hobj)
    exact .update hobj ho hholds hclosure hprototype
  · exact .of_fault (if_neg h) rfl

@[grind ←] theorem ObjectId.modify_stays {o : ObjectId} (ho : R.Owns o) {f : Object → Object}
    (hf : ∀ obj, R.Holds obj → R.Holds (f obj)) (hc : ∀ obj, (f obj).closure? = obj.closure?)
    (hp : ∀ obj, (f obj).prototype = obj.prototype) : (o.modify f).StaysIn R R.Holds :=
  fun _ => modify_permits ho fun obj _ hobj => ⟨hf obj hobj, hc obj, .inr (hp obj)⟩

@[grind ←] theorem ObjectId.insert_stays {o : ObjectId} (ho : R.Owns o) (key : Key) {d : Descriptor}
    (hd : R.Holds d) : (o.insert key d).StaysIn R R.Holds :=
  modify_stays ho (fun _ hobj => Object.insert_holds hobj hd) (fun _ => rfl) fun _ => rfl

/-- A new object whose code the remit may make functions with, if it has code. -/
theorem allocate_stays_code {obj : Object} (hobj : R.Holds obj)
    (hcode : ∀ slots, obj.closure? = some slots → R.codes slots.code) :
    (allocate obj).StaysIn R R.Holds :=
  fun _ hm => ⟨.single (.object hobj hcode), hm.nextObject⟩

@[grind ←] theorem allocate_stays {obj : Object} (hobj : R.Holds obj) (h : obj.closure? = none) :
    (allocate obj).StaysIn R R.Holds := allocate_stays_code hobj (by simp [h])

@[grind ←] theorem newSymbol_stays (description : Option String) :
    (newSymbol description).StaysIn R R.Holds := fun _ _ => ⟨.single (.symbols _), holds_empty _⟩

@[grind ←] theorem EnvId.load_stays {env : EnvId} (henv : R.Holds env) : env.load.StaysIn R R.Holds := by
  intro m hm
  unfold EnvId.load
  split
  · exact hm.environments env _ henv ‹_›
  · exact ⟨(holds_fault _).mpr (.inr rfl), rfl⟩

@[grind ←] theorem allocateEnvironment_stays {e : Environment} (hscopes : R.scopes) (he : R.Holds e) :
    (allocateEnvironment e).StaysIn R R.Holds :=
  fun _ hm => ⟨.single (.environment hscopes he), hm.nextEnv⟩

@[grind ←] theorem RealmId.load_stays (realm : RealmId) : realm.load.StaysIn R R.Holds := by
  intro m hm
  unfold RealmId.load
  split
  · exact hm.realms realm _ ‹_›
  · exact ⟨(holds_fault _).mpr (.inr rfl), rfl⟩

@[grind ←] theorem runningContext_stays : runningContext.StaysIn R R.Holds := by
  intro m hm
  unfold runningContext
  split
  · rename_i c cs hc
    exact hm.contexts c (by rw [hc]; exact List.mem_cons_self)
  · exact ⟨(holds_fault _).mpr (.inr rfl), rfl⟩

@[grind ←] theorem modifyContext_stays {f : Context → Context} (hmoves : R.moves)
    (hf : ∀ c, R.Holds c → R.Holds (f c)) : (modifyContext f).StaysIn R R.Holds := by
  intro m
  cases h : m.contexts with
  | nil => exact .of_fault (modifyContext_nil h f) rfl
  | cons c cs =>
    refine .of_ok (modifyContext_cons h f) (fun hm => .single (.move hmoves h (hf c ?_))) (holds_empty _)
    exact hm.contexts c (by rw [h]; exact List.mem_cons_self)

@[grind ←] theorem currentRealm_stays : currentRealm.StaysIn R R.Holds :=
  .bind runningContext_stays fun _ _ => .pure (holds_empty _)

@[grind ←] theorem intrinsics_stays : intrinsics.StaysIn R R.Holds :=
  .bind currentRealm_stays fun id _ =>
    .bind id.load_stays fun realm hrealm => .pure ((holds_realm realm).mp hrealm).1.1

@[grind ←] theorem isStrict_stays : isStrict.StaysIn R R.Holds :=
  .bind runningContext_stays fun _ _ => .pure (holds_empty _)

@[grind ←] theorem lexicalEnv_stays : lexicalEnv.StaysIn R R.Holds :=
  .bind runningContext_stays fun c hc => .pure ((holds_context c).mp hc).1.1.2

@[grind ←] theorem scriptContext_stays (realm : RealmId) (strict : Bool) :
    (scriptContext realm strict).StaysIn R R.Holds := by
  unfold scriptContext
  grind

@[grind ←] theorem newError_stays (kind : ErrorKind) (message : Option String) :
    (newError kind message).StaysIn R R.Holds := by
  refine .bind (.lift intrinsics_stays) fun i hi => ?_
  have hempty : R.Holds ({ prototype := some (i.errorPrototype kind), kind := .error } : Object) := by
    have hprototype := (holds_some _).mpr (((holds_intrinsics i).mp hi).2 kind)
    exact (holds_object _).mpr ⟨⟨hprototype, PropertyTable.empty_holds⟩, holds_plainKind rfl⟩
  cases message with
  | none => exact allocate_stays hempty rfl
  | some text =>
    exact allocate_stays (Object.insert_holds hempty ((holds_data _ _ _ _).mpr (ofString_holds text))) rfl

@[grind ←] theorem complain_stays (c : Complaint) (P : α → Prop) : (complain c).StaysIn R P :=
  .bind (newError_stays _ _) fun o ho => .thrown ((holds_objectValue o).mpr ho)

@[grind ←] theorem settle_stays [Tracked α] [Carrier α] {result : Except Failure α} (h : R.Settles result) :
    (settle result).StaysIn R R.Holds := by
  unfold settle
  split
  · exact .pure h
  · exact complain_stays _ _
  · exact .fault h

@[grind ←] theorem setLexicalEnv_stays (hmoves : R.moves) {env : EnvId} (henv : R.Holds env) :
    (setLexicalEnv env).StaysIn R R.Holds := by
  refine modifyContext_stays hmoves fun c hc => ?_
  have hc := (holds_context c).mp hc
  exact (holds_context _).mpr ⟨⟨⟨hc.1.1.1, henv⟩, hc.1.2⟩, hc.2⟩

@[grind ←] theorem withLexicalEnv_stays (hmoves : R.moves) {env : EnvId} (henv : R.Holds env)
    {x : Eval α} {P : α → Prop} (hx : x.StaysIn R P) : (withLexicalEnv env x).StaysIn R P :=
  .bind (.lift lexicalEnv_stays) fun _ hold =>
    .bind (setLexicalEnv_stays hmoves henv) fun _ _ => .tryFinally hx (setLexicalEnv_stays hmoves hold)

@[grind ←] theorem pushContext_stays (hcalls : R.calls) {context : Context} (hc : R.Holds context) :
    (pushContext context).StaysIn R R.Holds := by
  intro m
  by_cases h : m.stackLimit ≤ m.contexts.length
  · exact .congr (pushContext_of_full context h) (complain_stays .stackExceeded _ m)
  · exact .of_ok (pushContext_of_room context h) (fun _ => .single (.enter hcalls hc)) (holds_empty _)

@[grind ←] theorem pushScriptContext_stays (hcalls : R.calls) (realm : RealmId) (strict : Bool) :
    (pushScriptContext realm strict).StaysIn R R.Holds :=
  .bind (.lift (scriptContext_stays realm strict)) fun _ hc => pushContext_stays hcalls hc

@[grind ←] theorem popContext_stays (hcalls : R.calls) : popContext.StaysIn R R.Holds := by
  intro m hm
  refine ⟨.single (.leave hcalls), ?_⟩
  cases h : m.contexts.head? with
  | none => exact holds_none.mpr trivial
  | some c => exact (holds_some c).mpr (hm.contexts c (List.mem_of_mem_head? h))

@[grind ←] theorem withContext_stays (hcalls : R.calls) {context : Context} (hc : R.Holds context)
    {x : Eval α} {P : α → Prop} (hx : x.StaysIn R P) : (withContext context x).StaysIn R P :=
  .bind (pushContext_stays hcalls hc) fun _ _ => .tryFinally hx (.discard (popContext_stays hcalls))

namespace Value

/-- The order of two primitive operands. -/
def order? (x y : Value) : Eval (Option Bool) :=
  match x, y with
  | .string _, .string _ => unsupported .stringOrder
  | .bigint _, _ => unsupported .bigintOrder
  | _, .bigint _ => unsupported .bigintOrder
  | _, _ => do
    let nx ← x.toNumber
    let ny ← y.toNumber
    return nx.less? ny

variable {v : Value}

@[grind ←] theorem toPrimitive_stays (hv : R.Holds v) : v.toPrimitive.StaysIn R R.Holds := by
  cases v with
  | object o => exact .unsupported _
  | reference r => exact .misused (R.references_of_holds hv) rfl
  | _ => exact .pure hv

@[grind ←] theorem toNumber_stays (hv : R.Holds v) : v.toNumber.StaysIn R R.Holds := by
  cases v with
  | symbol s => exact complain_stays _ _
  | bigint n => exact complain_stays _ _
  | object o => exact .unsupported _
  | reference r => exact .misused (R.references_of_holds hv) rfl
  | _ => exact .pure (holds_empty _)

@[grind ←] theorem toNumeric_stays (hv : R.Holds v) : v.toNumeric.StaysIn R R.Holds := by
  cases v with
  | bigint n => exact .pure (holds_empty _)
  | _ => exact .bind (toNumber_stays hv) fun _ _ => .pure (holds_empty _)

@[grind ←] theorem toText_stays (hv : R.Holds v) : v.toText.StaysIn R R.Holds := by
  cases v with
  | symbol s => exact complain_stays _ _
  | object o => exact .unsupported _
  | reference r => exact .misused (R.references_of_holds hv) rfl
  | _ => exact .pure (holds_empty _)

@[grind ←] theorem toKey_stays (hv : R.Holds v) : v.toKey.StaysIn R R.Holds := by
  cases v with
  | symbol s => exact .pure (holds_empty _)
  | _ => exact .bind (toText_stays hv) fun _ _ => .pure (holds_empty _)

@[grind ←] theorem toObject_stays (hv : R.Holds v) : v.toObject.StaysIn R R.Holds := by
  cases v with
  | object o => exact .pure ((holds_objectValue o).mp hv)
  | undefined => exact complain_stays _ _
  | null => exact complain_stays _ _
  | _ => exact .unsupported _

@[grind ←] theorem isCallable_stays (hv : R.Holds v) : v.isCallable.StaysIn R R.Holds := by
  cases v with
  | object o =>
    have ho := Remit.owns_of_holds ((holds_objectValue o).mp hv)
    exact .bind (ObjectId.load_stays ho) fun _ _ => .pure (holds_empty _)
  | _ => exact .pure (holds_empty _)

@[grind ←] theorem isConstructor_stays (hv : R.Holds v) : v.isConstructor.StaysIn R R.Holds := by
  cases v with
  | object o =>
    have ho := Remit.owns_of_holds ((holds_objectValue o).mp hv)
    exact .bind (ObjectId.load_stays ho) fun _ _ => .pure (holds_empty _)
  | _ => exact .pure (holds_empty _)

@[grind ←] theorem typeOf_stays (hv : R.Holds v) : v.typeOf.StaysIn R R.Holds := by
  cases v with
  | object o =>
    have ho := Remit.owns_of_holds ((holds_objectValue o).mp hv)
    exact .bind (ObjectId.load_stays ho) fun _ _ => .pure (holds_empty _)
  | reference r => exact .misused (R.references_of_holds hv) rfl
  | _ => exact .pure (holds_empty _)

theorem order?_stays {w : Value} (hv : R.Holds v) (hw : R.Holds w) : (v.order? w).StaysIn R R.Holds := by
  unfold order?
  split
  · exact .unsupported _
  · exact .unsupported _
  · exact .unsupported _
  · exact .bind (toNumber_stays hv) fun _ _ => .bind (toNumber_stays hw) fun _ _ => .pure (holds_empty _)

@[grind ←] theorem less?_stays {w : Value} (hv : R.Holds v) (hw : R.Holds w) (leftFirst : Bool) :
    (v.less? w leftFirst).StaysIn R R.Holds := by
  unfold less?
  split
  · refine .bind (.lift (toPrimitive_stays hv)) fun px hx => ?_
    exact .bind (.lift (toPrimitive_stays hw)) fun py hy => order?_stays hx hy
  · refine .bind (.lift (toPrimitive_stays hw)) fun py hy => ?_
    exact .bind (.lift (toPrimitive_stays hv)) fun px hx => order?_stays hx hy

end Value

theorem searchChain_stays [Tracked (Option β)] [Carrier (Option β)] (hnone : R.Holds (none : Option β))
    {start : Option ObjectId} (hstart : ∀ o, start = some o → R.Owns o)
    {probe : ObjectId → Query (Option β)}
    (hprobe : ∀ o, R.Owns o → (probe o).StaysIn R R.Holds) :
    (searchChain start probe).StaysIn R R.Holds := by
  have hfind (steps : Nat) (start : Option ObjectId) (hstart : ∀ o, start = some o → R.Owns o) :
      (findOnChain probe steps start).StaysIn R R.Holds := by
    fun_induction findOnChain probe steps start with
    | case1 => exact .pure hnone
    | case2 => exact .exhausted
    | case3 steps o ih =>
      refine .bind (hprobe o (hstart o rfl)) fun found hfound => ?_
      cases found with
      | some b => exact .pure hfound
      | none =>
        refine .bind (ObjectId.load_stays (hstart o rfl)) fun obj hobj => ih obj fun p hp => ?_
        have hprototype := ((holds_object obj).mp hobj).1.1
        rw [hp] at hprototype
        exact Remit.owns_of_holds ((holds_some p).mp hprototype)
  exact .bind .read fun m _ => hfind _ start hstart

/-- A search from one object for something without handles. -/
theorem searchFrom_stays [Tracked (Option β)] [Carrier (Option β)] (hnone : R.Holds (none : Option β)) {o : ObjectId}
    (ho : R.Owns o) {probe : ObjectId → Query (Option β)}
    (hprobe : ∀ o, R.Owns o → (probe o).StaysIn R R.Holds) :
    (searchChain (some o) probe).StaysIn R R.Holds :=
  searchChain_stays hnone (fun _ h => Option.some.inj h ▸ ho) hprobe

@[grind ←] theorem newObject_stays {prototype : Option ObjectId} (hp : R.Holds prototype) :
    (newObject prototype).StaysIn R R.Holds :=
  allocate_stays ((holds_object _).mpr ⟨⟨hp, PropertyTable.empty_holds⟩, holds_plainKind rfl⟩) rfl

@[grind ←] theorem newArray_stays (length : Nat) : (newArray length).StaysIn R R.Holds := by
  unfold newArray
  split
  · exact complain_stays _ _
  refine .bind (.lift intrinsics_stays) fun i hi => ?_
  have hempty : R.Holds ({ prototype := some i.arrayPrototype, kind := .array } : Object) := by
    have hprototype := (holds_some _).mpr ((holds_intrinsics i).mp hi).1.2
    exact (holds_object _).mpr ⟨⟨hprototype, PropertyTable.empty_holds⟩, holds_plainKind rfl⟩
  exact allocate_stays (Object.insert_holds hempty ((holds_data _ _ _ _).mpr (holds_primitive rfl))) rfl

section Records

variable {m : Machine} {env : EnvId} {e : Environment} {r r' : DeclarativeRecord}

@[grind →] theorem Environment.record?_holds (he : R.Holds e) (hr : e.record? = some r) : R.Holds r := by
  cases e with
  | declarative r' =>
    cases hr
    exact (holds_declarative _).mp he
  | object s => cases hr
  | global g =>
    cases hr
    exact ((holds_globalRecord g).mp ((holds_global g).mp he)).1.2

@[grind ←] theorem Environment.withRecord_holds (he : R.Holds e) (hr : R.Holds r) :
    R.Holds (e.withRecord r) := by
  cases e with
  | declarative r' => exact (holds_declarative _).mpr hr
  | object s => exact he
  | global g =>
    have hg := (holds_globalRecord g).mp ((holds_global g).mp he)
    exact (holds_global _).mpr ((holds_globalRecord _).mpr ⟨⟨hg.1.1, hr⟩, hg.2⟩)

/-- What follows the reading of an environment may rely on what was read. -/
theorem EnvId.load_bind_stays {f : Environment → Eval β} {Q : β → Prop} (henv : R.Holds env)
    (h : ∀ (m : Machine) e, m.env? env = some e → R.Holds e → m.Permits R (f e) Q) :
    Eval.StaysIn R (liftM env.load >>= f) Q := by
  refine fun m => (Eval.StaysIn.lift (load_stays henv) m).bind fun e m' hload _ he => ?_
  obtain ⟨rfl, hload⟩ := lift_eq_ok hload
  exact h m' e (load_ok hload) he

/-- What follows the result of an operation on a record may rely on its success. -/
theorem settle_permits [Tracked α] [Carrier α] {result : Except Failure α} {f : α → Eval β} {Q : β → Prop}
    (hresult : R.Settles result) (h : ∀ a, result = .ok a → R.Holds a → m.Permits R (f a) Q) :
    m.Permits R (settle result >>= f) Q := by
  refine (settle_stays hresult m).bind fun a m' hrun _ ha => ?_
  obtain ⟨hok, rfl⟩ := settle_eq_ok hrun
  exact h a hok ha

/-- Storing a record after one of its operations. -/
theorem EnvId.store_permits (he : m.env? env = some e) (henv : R.Holds env) (hr : e.record? = some r)
    (h : r.Change r') (hr' : R.Holds r') (hquiet : R.scopes ∨ e.Quiet (e.withRecord r')) :
    m.Permits R (env.store (e.withRecord r')) R.Holds := by
  refine .of_ok (store_eq (Machine.within_of_env? he) _) (fun hm => .single ?_) (holds_empty _)
  exact .record he henv hr h (Environment.withRecord_holds (hm.environments env e henv he) hr') hquiet

/-- An operation on a record that was read, and the storing of its result. -/
theorem EnvId.revise_permits {result : Except Failure DeclarativeRecord} (he : m.env? env = some e)
    (henv : R.Holds env) (hr : e.record? = some r) (hresult : R.Holds r → R.Settles result)
    (hchange : ∀ r', result = .ok r' → r.Change r')
    (hquiet : R.scopes ∨ ∀ r', result = .ok r' → e.Quiet (e.withRecord r')) :
    m.Permits R (settle result >>= fun r' => env.store (e.withRecord r')) R.Holds := by
  intro hm
  have hrecord := Environment.record?_holds (hm.environments env e henv he) hr
  exact settle_permits (hresult hrecord) (fun r' hok hr' =>
    store_permits he henv hr (hchange r' hok) hr' (hquiet.imp_right fun h => h r' hok)) hm

end Records

namespace ObjectId

variable {o : ObjectId} (ho : R.Owns o)

include ho

@[grind ←] theorem getPrototype_stays : o.getPrototype.StaysIn R R.Holds :=
  .bind (load_stays ho) fun obj hobj => .pure ((holds_object obj).mp hobj).1.1

@[grind ←] theorem setPrototype_stays (hprototypes : R.prototypes) {p : Option ObjectId}
    (hp : R.Holds p) : (o.setPrototype p).StaysIn R R.Holds := by
  refine .bind (.lift (load_stays ho)) fun object _ => ?_
  split
  · exact .pure (holds_empty _)
  split
  · exact .pure (holds_empty _)
  have hprobe (p : ObjectId) (_ : R.Owns p) :
      Query.StaysIn R (Pure.pure (if p == o then some () else none)) (R.Holds : Option Unit → Prop) :=
    .pure (holds_empty _)
  have hstart (p' : ObjectId) (h : p = some p') : R.Owns p' :=
    R.owns_of_holds ((holds_some p').mp (h ▸ hp))
  refine .bind (.lift (searchChain_stays (holds_empty _) hstart hprobe)) fun cycle _ => ?_
  split
  · exact .pure (holds_empty _)
  · have hset : (o.modify ({ · with prototype := p })).StaysIn R R.Holds := fun _ =>
      modify_permits ho fun obj _ hobj =>
        ⟨(holds_object _).mpr ⟨⟨hp, ((holds_object obj).mp hobj).1.2⟩, ((holds_object obj).mp hobj).2⟩,
          rfl, .inl hprototypes⟩
    exact .bind hset fun _ _ => .pure (holds_empty _)

@[grind ←] theorem preventExtensions_stays : o.preventExtensions.StaysIn R R.Holds :=
  .bind (modify_stays ho (fun _ => id) (fun _ => rfl) fun _ => rfl) fun _ _ => .pure (holds_empty _)

@[grind ←] theorem isExtensible_stays : o.isExtensible.StaysIn R R.Holds :=
  .bind (load_stays ho) fun _ _ => .pure (holds_empty _)

@[grind ←] theorem mappedParameter_stays (key : Key) : (o.mappedParameter key).StaysIn R R.Holds := by
  refine .bind (load_stays ho) fun obj hobj => ?_
  cases hmap : obj.parameterMap? with
  | none => exact .pure (holds_none.mpr trivial)
  | some map =>
    have henv := Object.parameterMap?_holds hobj hmap
    refine .pure ?_
    cases map.get? key with
    | none => exact holds_none.mpr trivial
    | some name => exact (holds_some _).mpr ((holds_pair _).mpr ⟨henv, holds_empty _⟩)

@[grind ←] theorem mappedValue_stays (key : Key) : (o.mappedValue key).StaysIn R R.Holds := by
  refine .bind (mappedParameter_stays ho key) fun parameter hparameter => ?_
  cases parameter with
  | none => exact .pure (holds_none.mpr trivial)
  | some parameter =>
    have henv := ((holds_pair parameter).mp ((holds_some parameter).mp hparameter)).1
    refine .bind (EnvId.load_stays henv) fun e he => ?_
    cases e with
    | declarative r => exact .pure (DeclarativeRecord.get?_value_holds ((holds_declarative r).mp he))
    | _ => exact .breach rfl

omit ho in
@[grind ←] theorem writeParameter_stays {env : EnvId} (henv : R.Holds env) (name : String)
    {value : Value} (hv : R.Holds value) : (writeParameter env name value).StaysIn R R.Holds := by
  refine EnvId.load_bind_stays henv fun m e he _ => ?_
  cases e with
  | declarative r =>
    refine EnvId.revise_permits he henv rfl (fun hr => r.assign_settles hr hv false) (fun _ => .assign) ?_
    refine .inr fun r' hr' => ?_
    obtain ⟨houter, hcall, -⟩ := DeclarativeRecord.assign_keeps hr'
    exact .declarative houter hcall
  | _ => exact Eval.StaysIn.breach rfl m

@[grind ←] theorem getOwnProperty_stays (key : Key) : (o.getOwnProperty key).StaysIn R R.Holds := by
  refine .bind (load_stays ho) fun obj hobj => .bind (mappedValue_stays ho key) fun value hvalue => ?_
  split
  · exact .pure ((holds_some _).mpr ((holds_data _ _ _ _).mpr ((holds_some _).mp hvalue)))
  · exact .pure (PropertyTable.get?_holds ((holds_object obj).mp hobj).1.2)

@[grind ←] theorem hasOwnProperty_stays (key : Key) : (o.hasOwnProperty key).StaysIn R R.Holds :=
  .bind (getOwnProperty_stays ho key) fun _ _ => .pure (holds_empty _)

@[grind ←] theorem ownKeys_stays : o.ownKeys.StaysIn R R.Holds :=
  .bind (load_stays ho) fun _ _ => .pure (holds_empty _)

@[grind ←] theorem delete_stays (key : Key) : (o.delete key).StaysIn R R.Holds := by
  have herase : (o.modify (·.erase key)).StaysIn R R.Holds :=
    modify_stays ho (fun _ hobj => Object.erase_holds hobj) (fun obj => obj.closure?_erase key)
      fun obj => obj.prototype_erase key
  refine .bind (.lift (getOwnProperty_stays ho key)) fun own _ => ?_
  cases own with
  | none => exact .pure (holds_empty _)
  | some d =>
    dsimp only
    split
    · exact .bind herase fun _ _ => .pure (holds_empty _)
    · exact .pure (holds_empty _)

theorem unmap_stays (key : Key) : (o.modify (·.unmap key)).StaysIn R R.Holds :=
  modify_stays ho (fun _ hobj => Object.unmap_holds hobj) (fun obj => obj.closure?_unmap key)
    fun obj => obj.prototype_unmap key

omit ho in
@[grind ←] theorem validateAndApply_stays {o : Option ObjectId} (ho : ∀ p, o = some p → R.Owns p)
    (key : Key) (extensible : Bool) {d : Descriptor} (hd : R.Holds d) (current : Option Descriptor) :
    (validateAndApply o key extensible d current).StaysIn R R.Holds := by
  unfold validateAndApply
  split
  · cases o with
    | none => exact .pure (holds_empty _)
    | some o => exact .bind (insert_stays (ho o rfl) key hd) fun _ _ => .pure (holds_empty _)
  · exact .pure (holds_empty _)

@[grind ←] theorem defineOrdinary_stays (key : Key) {d : Descriptor} (hd : R.Holds d) :
    (o.defineOrdinary key d).StaysIn R R.Holds :=
  .bind (.lift (getOwnProperty_stays ho key)) fun current _ =>
    .bind (.lift (isExtensible_stays ho)) fun extensible _ =>
      validateAndApply_stays (fun _ h => Option.some.inj h ▸ ho) key extensible hd current

@[grind ←] theorem defineMapped_stays (key : Key) {d : Descriptor} (hd : R.Holds d) {env : EnvId}
    (henv : R.Holds env) (name : String) : (o.defineMapped key d env name).StaysIn R R.Holds := by
  have hunmap := unmap_stays ho key
  refine .bind (defineOrdinary_stays ho key hd) fun defined _ => ?_
  split
  · cases d with
    | accessor get set enumerable configurable =>
      exact .bind hunmap fun _ _ => .pure (holds_empty _)
    | data value writable enumerable configurable =>
      refine .bind (writeParameter_stays henv name ((holds_data _ _ _ _).mp hd)) fun _ _ => ?_
      dsimp only
      split
      · exact .bind hunmap fun _ _ => .pure (holds_empty _)
      · exact .pure (holds_empty _)
  · exact .pure (holds_empty _)

@[grind ←] theorem arrayLength_stays : o.arrayLength.StaysIn R R.Holds := by
  refine .bind (load_stays ho) fun obj _ => ?_
  split
  · exact .pure ((holds_pair _).mpr ⟨holds_empty _, holds_empty _⟩)
  · exact .breach rfl

@[grind ←] theorem removeIndices_stays (indices : List Nat) :
    (o.removeIndices indices).StaysIn R R.Holds := by
  induction indices with
  | nil => exact .pure (holds_empty _)
  | cons index rest ih =>
    refine .bind (delete_stays ho _) fun deleted _ => ?_
    split
    · exact ih
    · exact .pure (holds_empty _)

@[grind ←] theorem defineLength_stays {d : Descriptor} (hd : R.Holds d) :
    (o.defineLength d).StaysIn R R.Holds := by
  cases d with
  | accessor get set enumerable configurable => exact defineOrdinary_stays ho .length hd
  | data value newWritable enumerable configurable =>
    have hlength (writable : Bool) (length : Nat) := defineOrdinary_stays ho .length
      (d := .data (.number (.ofNat length)) writable enumerable configurable)
      ((holds_data _ _ _ _).mpr (holds_primitive rfl))
    unfold defineLength
    refine .bind (Value.toNumber_stays ((holds_data _ _ _ _).mp hd)) fun number _ => ?_
    dsimp only
    split
    · exact complain_stays _ _
    refine .bind (.lift (arrayLength_stays ho)) fun old _ => ?_
    split
    · exact hlength _ _
    split
    · exact .pure (holds_empty _)
    refine .bind (hlength _ _) fun defined _ => ?_
    split
    · exact .pure (holds_empty _)
    refine .bind (.lift (load_stays ho)) fun obj _ => .bind (removeIndices_stays ho _) fun stopped _ => ?_
    cases stopped with
    | some index => exact .bind (hlength _ _) fun _ _ => .pure (holds_empty _)
    | none =>
      dsimp only
      split
      · exact .bind (hlength _ _) fun _ _ => .pure (holds_empty _)
      · exact .pure (holds_empty _)

@[grind ←] theorem defineIndex_stays (index : Nat) (key : Key) {d : Descriptor} (hd : R.Holds d) :
    (o.defineIndex index key d).StaysIn R R.Holds := by
  unfold defineIndex
  refine .bind (.lift (arrayLength_stays ho)) fun old _ => ?_
  dsimp only
  split
  · exact .pure (holds_empty _)
  refine .bind (defineOrdinary_stays ho key hd) fun defined _ => ?_
  split
  · exact .pure (holds_empty _)
  split
  · have hlength (n : Nat) : R.Holds (Descriptor.data (.number (.ofNat n)) true false false) :=
      (holds_data _ _ _ _).mpr (holds_primitive rfl)
    exact .bind (defineOrdinary_stays ho .length (hlength _)) fun _ _ => .pure (holds_empty _)
  · exact .pure (holds_empty _)

@[grind ←] theorem define_stays (key : Key) {d : Descriptor} (hd : R.Holds d) :
    (o.define key d).StaysIn R R.Holds := by
  refine .bind (.lift (mappedParameter_stays ho key)) fun parameter hparameter => ?_
  cases parameter with
  | some parameter =>
    have henv := ((holds_pair parameter).mp ((holds_some parameter).mp hparameter)).1
    exact defineMapped_stays ho key hd henv _
  | none =>
    refine .bind (.lift (load_stays ho)) fun object _ => ?_
    split
    · exact defineOrdinary_stays ho key hd
    split
    · exact defineLength_stays ho hd
    split
    · exact defineIndex_stays ho _ key hd
    · exact defineOrdinary_stays ho key hd

@[grind ←] theorem createProperty_stays (key : Key) {value : Value} (hv : R.Holds value) :
    (o.createProperty key value).StaysIn R R.Holds := define_stays ho key hv

@[grind ←] theorem createPropertyOrThrow_stays (key : Key) {value : Value} (hv : R.Holds value) :
    (o.createPropertyOrThrow key value).StaysIn R R.Holds := by
  refine .bind (createProperty_stays ho key hv) fun created _ => ?_
  split
  · exact complain_stays _ _
  · exact .pure (holds_empty _)

@[grind ←] theorem defineOrThrow_stays (key : Key) {d : Descriptor} (hd : R.Holds d) :
    (o.defineOrThrow key d).StaysIn R R.Holds := by
  refine .bind (define_stays ho key hd) fun defined _ => ?_
  split
  · exact complain_stays _ _
  · exact .pure (holds_empty _)

@[grind ←] theorem deleteOrThrow_stays (key : Key) : (o.deleteOrThrow key).StaysIn R R.Holds := by
  refine .bind (delete_stays ho key) fun deleted _ => ?_
  split
  · exact complain_stays _ _
  · exact .pure (holds_empty _)

@[grind ←] theorem hasProperty_stays (key : Key) : (o.hasProperty key).StaysIn R R.Holds := by
  refine .bind (searchFrom_stays (holds_empty _) ho fun p hp => ?_) fun _ _ => .pure (holds_empty _)
  exact .bind (load_stays hp) fun _ _ => .pure (holds_empty _)

@[grind ←] theorem readOwn_stays (key : Key) : (readOwn key o).StaysIn R R.Holds := by
  refine .bind (mappedValue_stays ho key) fun found hfound => ?_
  cases found with
  | some value => exact .pure hfound
  | none =>
    refine .bind (load_stays ho) fun obj hobj => ?_
    have hstored : R.Holds (obj.properties.get? key) :=
      PropertyTable.get?_holds ((holds_object obj).mp hobj).1.2
    split
    · rename_i hget
      rw [hget, holds_some, holds_data] at hstored
      exact .pure ((holds_some _).mpr hstored)
    · split
      · exact .pure ((holds_some _).mpr (holds_primitive rfl))
      · exact .unsupported _
    · exact .pure (holds_none.mpr trivial)

@[grind ←] theorem get_stays (key : Key) : (o.get key).StaysIn R R.Holds := by
  refine .bind (searchFrom_stays (holds_none.mpr trivial) ho fun p hp => readOwn_stays hp key) ?_
  exact fun found hfound => .pure (getD_holds hfound (holds_primitive rfl))

@[grind ←] theorem assignOwn_stays (key : Key) {value : Value} (hv : R.Holds value) :
    (o.assignOwn key value).StaysIn R R.Holds := by
  refine .bind (.lift (getOwnProperty_stays ho key)) fun own _ => ?_
  split
  · exact .pure (holds_empty _)
  · split
    · exact define_stays ho key ((holds_data _ _ _ _).mpr hv)
    · exact .pure (holds_empty _)
  · exact createProperty_stays ho key hv

@[grind ←] theorem writeMapped_stays (key : Key) {value : Value} (hv : R.Holds value) :
    (o.writeMapped key value).StaysIn R R.Holds := by
  refine .bind (.lift (mappedParameter_stays ho key)) fun parameter hparameter => ?_
  cases parameter with
  | none => exact .pure (holds_empty _)
  | some parameter =>
    have henv := ((holds_pair parameter).mp ((holds_some parameter).mp hparameter)).1
    exact writeParameter_stays henv _ hv

@[grind ←] theorem setOnChain_stays (key : Key) {value receiver : Value} (hv : R.Holds value)
    (hr : R.Holds receiver) : (o.setOnChain key value receiver).StaysIn R R.Holds := by
  refine .bind (.lift (searchFrom_stays (holds_none.mpr trivial) ho fun p hp => ?_)) fun own _ => ?_
  · exact .bind (load_stays hp) fun obj hobj => .pure (PropertyTable.get?_holds ((holds_object obj).mp hobj).1.2)
  · cases own.getD (.plain .undefined) with
    | data current writable enumerable configurable =>
      cases receiver with
      | object target =>
        dsimp only
        split
        · exact assignOwn_stays (Remit.owns_of_holds ((holds_objectValue target).mp hr)) key hv
        · exact .pure (holds_empty _)
      | _ => exact .pure (holds_empty _)
    | accessor get set enumerable configurable =>
      dsimp only
      split
      · exact .pure (holds_empty _)
      · exact .unsupported _

@[grind ←] theorem set_stays (key : Key) {value receiver : Value} (hv : R.Holds value)
    (hr : R.Holds receiver) : (o.set key value receiver).StaysIn R R.Holds := by
  unfold ObjectId.set
  split
  · exact .bind (writeMapped_stays ho key hv) fun _ _ => setOnChain_stays ho key hv hr
  · exact setOnChain_stays ho key hv hr

end ObjectId

end EcmaEval
