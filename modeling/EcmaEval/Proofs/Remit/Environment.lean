import EcmaEval.Proofs.Remit.Heap

/-!
# Environments and references within a remit

The operations on environments and the use of references stay in every remit that holds the environment
and the values they are given, and the parts of the reference. A binding may be initialized, read,
assigned to and deleted where no scope may be made.
-/
namespace EcmaEval

variable {R : Remit}

namespace DeclarativeRecord

@[grind ←] theorem new_holds {outer : Option EnvId} (h : R.Holds outer) :
    R.Holds ({ outer } : DeclarativeRecord) := by
  refine (holds_record _).mpr ⟨⟨h, holds_nil.mpr trivial⟩, holds_none.mpr trivial⟩

@[grind →] theorem call_holds {r : DeclarativeRecord} {slots : CallSlots} (hr : R.Holds r)
    (h : r.call = some slots) : R.Holds slots := by
  have hcall := ((holds_record r).mp hr).2
  rw [h] at hcall
  exact (holds_some slots).mp hcall

theorem bindThis_holds {r : DeclarativeRecord} {slots : CallSlots} (hr : R.Holds r)
    (h : r.call = some slots) {value : Value} (hv : R.Holds value) (thisStatus : ThisStatus) :
    R.Holds ({ r with call := some { slots with thisValue := value, thisStatus } } :
      DeclarativeRecord) := by
  have hslots := (holds_callSlots slots).mp (call_holds hr h)
  refine (holds_record _).mpr ⟨((holds_record r).mp hr).1, (holds_some _).mpr ?_⟩
  exact (holds_callSlots _).mpr ⟨⟨hv, hslots.1.2⟩, hslots.2⟩

end DeclarativeRecord

namespace GlobalRecord

variable {g : GlobalRecord} (hg : R.Holds g)

include hg

theorem scope_holds : R.Holds g.scope := ((holds_globalRecord g).mp hg).1.1

theorem owns_object : R.Owns g.scope.object :=
  Remit.owns_of_holds ((holds_objectScope g.scope).mp (scope_holds hg)).1

end GlobalRecord

@[grind →] theorem Environment.outer?_holds {e : Environment} {outer : EnvId} (he : R.Holds e)
    (h : e.outer? = some outer) : R.Holds outer := by
  have hsome : R.Holds (some outer) := by
    rw [← h]
    cases e with
    | declarative r => exact ((holds_record r).mp ((holds_declarative r).mp he)).1.1
    | object s => exact ((holds_objectScope s).mp ((holds_scope s).mp he)).2
    | global g => exact holds_none.mpr trivial
  exact (holds_some outer).mp hsome

section Scopes

variable (hscopes : R.scopes)

include hscopes

@[grind ←] theorem newDeclarativeEnvironment_stays {outer : Option EnvId} (h : R.Holds outer) :
    (newDeclarativeEnvironment outer).StaysIn R R.Holds :=
  allocateEnvironment_stays hscopes ((holds_declarative _).mpr (DeclarativeRecord.new_holds h))

@[grind ←] theorem newObjectEnvironment_stays {o : ObjectId} (ho : R.Holds o) (isWith : Bool)
    {outer : Option EnvId} (h : R.Holds outer) :
    (newObjectEnvironment o isWith outer).StaysIn R R.Holds :=
  allocateEnvironment_stays hscopes ((holds_scope _).mpr ((holds_objectScope _).mpr ⟨ho, h⟩))

@[grind ←] theorem newGlobalEnvironment_stays {global thisObject : ObjectId} (hg : R.Holds global)
    (ht : R.Holds thisObject) : (newGlobalEnvironment global thisObject).StaysIn R R.Holds := by
  have hscope := (holds_objectScope ⟨global, false, none⟩).mpr ⟨hg, holds_none.mpr trivial⟩
  have hrecord := DeclarativeRecord.new_holds (holds_none.mpr trivial : R.Holds (none : Option EnvId))
  refine allocateEnvironment_stays hscopes ((holds_global _).mpr ((holds_globalRecord _).mpr ?_))
  exact ⟨⟨hscope, hrecord⟩, ht⟩

@[grind ←] theorem newFunctionEnvironment_stays {f : ObjectId} (hf : R.Holds f) {newTarget : Value}
    (ht : R.Holds newTarget) : (newFunctionEnvironment f newTarget).StaysIn R R.Holds := by
  refine .bind (.lift (ObjectId.load_stays (R.owns_of_holds hf))) fun obj hobj => ?_
  split
  · rename_i slots hk
    have hkind := ((holds_object obj).mp hobj).2
    rw [hk] at hkind
    have henv := (holds_some _).mpr ((holds_function slots).mp hkind).1
    have hcall := (holds_callSlots ⟨.undefined, if slots.thisMode == .lexical then .lexical else .uninitialized,
      f, newTarget⟩).mpr ⟨⟨holds_primitive rfl, hf⟩, ht⟩
    refine allocateEnvironment_stays hscopes ((holds_declarative _).mpr ((holds_record _).mpr ?_))
    exact ⟨⟨henv, holds_nil.mpr trivial⟩, (holds_some _).mpr hcall⟩
  · exact .breach rfl

end Scopes

namespace ObjectScope

variable {s : ObjectScope} (hs : R.Holds s)

include hs

theorem owns_object : R.Owns s.object := Remit.owns_of_holds ((holds_objectScope s).mp hs).1

@[grind ←] theorem hasBinding_stays (name : String) : (s.hasBinding name).StaysIn R R.Holds :=
  ObjectId.hasProperty_stays (owns_object hs) _

@[grind ←] theorem createMutable_stays (name : String) (deletable : Bool) :
    (s.createMutable name deletable).StaysIn R R.Holds :=
  ObjectId.defineOrThrow_stays (owns_object hs) _ ((holds_data _ _ _ _).mpr (holds_primitive rfl))

@[grind ←] theorem assign_stays (name : String) {value : Value} (hv : R.Holds value) (strict : Bool) :
    (s.assign name value strict).StaysIn R R.Holds := by
  have hobject := ((holds_objectScope s).mp hs).1
  refine .bind (.lift (hasBinding_stays hs name)) fun exists? _ => ?_
  have hset : Eval.StaysIn R (do
      let succeeded ← s.object.set (.name name) value (.object s.object)
      if !succeeded && strict then complain (.readOnlyBinding name)) R.Holds := by
    have hreceiver := (holds_objectValue s.object).mpr hobject
    refine .bind (ObjectId.set_stays (owns_object hs) _ hv hreceiver) fun succeeded _ => ?_
    split
    · exact complain_stays _ _
    · exact .pure (holds_empty _)
  dsimp only
  split
  · exact .bind (complain_stays _ fun _ => True) fun _ _ => hset
  · exact hset

@[grind ←] theorem read_stays (name : String) (strict : Bool) :
    (s.read name strict).StaysIn R R.Holds := by
  refine .bind (.lift (hasBinding_stays hs name)) fun exists? _ => ?_
  split
  · split
    · exact complain_stays _ _
    · exact .pure (holds_primitive rfl)
  · exact .lift (ObjectId.get_stays (owns_object hs) _)

end ObjectScope

/-- The deletion of a property leaves environments alone. -/
theorem ObjectId.delete_fixes_environments (o : ObjectId) (key : Key) :
    (o.delete key).Fixes Machine.environments := by
  have hmodify (f : Object → Object) : (o.modify f).Fixes Machine.environments := by
    intro m
    by_cases h : o.index < m.objects.size
    · rw [Eval.after_ok (ObjectId.modify_eq h f)]
      rfl
    · have hrun : o.modify f m = .error _ m := if_neg h
      rw [Eval.after_error hrun]
  refine .bind (.lift _) fun current => ?_
  cases current with
  | none => exact .pure _
  | some d =>
    dsimp only
    split
    · exact .bind (hmodify _) fun _ => .pure _
    · exact .pure _

theorem EnvId.loadGlobal_ok {env : EnvId} {m : Machine} {g : GlobalRecord} (h : env.loadGlobal m = .ok g) :
    m.env? env = some (.global g) := by
  unfold loadGlobal at h
  obtain ⟨e, hload, he⟩ := Query.bind_eq_ok h
  cases e <;> cases he
  exact load_ok hload

theorem EnvId.store_varNames_permits {m : Machine} {env : EnvId} {g : GlobalRecord}
    (he : m.env? env = some (.global g)) (henv : R.Holds env) {varNames : List String}
    (hnames : R.scopes ∨ varNames ⊆ g.varNames) :
    m.Permits R (env.store (.global { g with varNames })) R.Holds :=
  .of_ok (store_eq (Machine.within_of_env? he) _) (fun _ => .single (.varNames he henv hnames)) (holds_empty _)

namespace EnvId

variable {env : EnvId} (henv : R.Holds env)

include henv

@[grind ←] theorem hasBinding_stays (name : String) : (env.hasBinding name).StaysIn R R.Holds := by
  refine .bind (load_stays henv) fun e he => ?_
  cases e with
  | declarative r => exact .pure (holds_empty _)
  | object s => exact ObjectScope.hasBinding_stays ((holds_scope s).mp he) name
  | global g =>
    dsimp only
    split
    · exact .pure (holds_empty _)
    · exact ObjectScope.hasBinding_stays (GlobalRecord.scope_holds ((holds_global g).mp he)) name

@[grind ←] theorem createMutable_stays (hscopes : R.scopes) (name : String) (deletable : Bool) :
    (env.createMutable name deletable).StaysIn R R.Holds := by
  have hcreate (r : DeclarativeRecord) (hr : R.Holds r) : R.Settles (r.createMutable name deletable) :=
    r.create_settles hr true deletable false
  refine load_bind_stays henv fun m e he hholds => ?_
  cases e with
  | declarative r => exact revise_permits he henv rfl (hcreate r) (fun _ => .create) (.inl hscopes)
  | object s => exact ObjectScope.createMutable_stays ((holds_scope s).mp hholds) _ _ m
  | global g =>
    dsimp only
    split
    · exact complain_stays _ _ m
    · exact revise_permits he henv rfl (hcreate g.declarative) (fun _ => .create) (.inl hscopes)

@[grind ←] theorem createImmutable_stays (hscopes : R.scopes) (name : String) (strict : Bool) :
    (env.createImmutable name strict).StaysIn R R.Holds := by
  have hcreate (r : DeclarativeRecord) (hr : R.Holds r) : R.Settles (r.createImmutable name strict) :=
    r.create_settles hr false false strict
  refine load_bind_stays henv fun m e he _ => ?_
  cases e with
  | declarative r => exact revise_permits he henv rfl (hcreate r) (fun _ => .create) (.inl hscopes)
  | object s => exact Eval.StaysIn.breach rfl m
  | global g =>
    dsimp only
    split
    · exact complain_stays _ _ m
    · exact revise_permits he henv rfl (hcreate g.declarative) (fun _ => .create) (.inl hscopes)

@[grind ←] theorem createLexical_stays (hscopes : R.scopes) (constant : Bool) (name : String) :
    (env.createLexical constant name).StaysIn R R.Holds := by
  unfold createLexical
  split
  · exact createImmutable_stays henv hscopes _ _
  · exact createMutable_stays henv hscopes _ _

@[grind ←] theorem initBinding_stays (name : String) {value : Value} (hv : R.Holds value) :
    (env.initBinding name value).StaysIn R R.Holds := by
  have hinit (r : DeclarativeRecord) (hr : R.Holds r) : R.Settles (r.initBinding name value) :=
    r.initBinding_settles hr hv
  refine load_bind_stays henv fun m e he hholds => ?_
  cases e with
  | declarative r =>
    refine revise_permits he henv rfl (hinit r) (fun _ => .initBinding) (.inr fun r' hr' => ?_)
    obtain ⟨houter, hcall, -⟩ := DeclarativeRecord.initBinding_keeps hr'
    exact .declarative houter hcall
  | object s => exact ObjectScope.assign_stays ((holds_scope s).mp hholds) name hv false m
  | global g =>
    dsimp only
    split
    · refine revise_permits he henv rfl (hinit g.declarative) (fun _ => .initBinding) (.inr fun r' hr' => ?_)
      refine .global rfl (fun key hkey => ?_) fun _ => id
      rwa [← (DeclarativeRecord.initBinding_keeps hr').2.2 key]
    · have hscope := GlobalRecord.scope_holds ((holds_global g).mp hholds)
      exact ObjectScope.assign_stays hscope name hv false m

@[grind ←] theorem assign_stays (name : String) {value : Value} (hv : R.Holds value) (strict : Bool) :
    (env.assign name value strict).StaysIn R R.Holds := by
  have hassign (r : DeclarativeRecord) (hr : R.Holds r) : R.Settles (r.assign name value strict) :=
    r.assign_settles hr hv strict
  refine load_bind_stays henv fun m e he hholds => ?_
  cases e with
  | declarative r =>
    refine revise_permits he henv rfl (hassign r) (fun _ => .assign) (.inr fun r' hr' => ?_)
    obtain ⟨houter, hcall, -⟩ := DeclarativeRecord.assign_keeps hr'
    exact .declarative houter hcall
  | object s => exact ObjectScope.assign_stays ((holds_scope s).mp hholds) name hv strict m
  | global g =>
    dsimp only
    split
    · rename_i hhas
      refine revise_permits he henv rfl (hassign g.declarative) (fun _ => .assign) (.inr fun r' hr' => ?_)
      refine .global rfl (fun key hkey => ?_) fun _ => id
      rwa [← (DeclarativeRecord.assign_keeps hr').2.2 hhas key]
    · have hscope := GlobalRecord.scope_holds ((holds_global g).mp hholds)
      exact ObjectScope.assign_stays hscope name hv strict m

@[grind ←] theorem read_stays (name : String) (strict : Bool) :
    (env.read name strict).StaysIn R R.Holds := by
  refine .bind (.lift (load_stays henv)) fun e he => ?_
  cases e with
  | declarative r => exact settle_stays (r.read_settles ((holds_declarative r).mp he))
  | object s => exact ObjectScope.read_stays ((holds_scope s).mp he) _ _
  | global g =>
    dsimp only
    split
    · exact settle_stays (g.declarative.read_settles (Environment.record?_holds he rfl))
    · exact ObjectScope.read_stays (GlobalRecord.scope_holds ((holds_global g).mp he)) _ _

@[grind ←] theorem delete_stays (name : String) : (env.delete name).StaysIn R R.Holds := by
  refine load_bind_stays henv fun m e he hholds => ?_
  have hrecord (r : DeclarativeRecord) (hr : e.record? = some r)
      (hquiet : ∀ deleted r', r.delete name = .ok (deleted, r') → e.Quiet (e.withRecord r')) :
      m.Permits R (do
        let p ← settle (r.delete name)
        env.store (e.withRecord p.2)
        return p.1) R.Holds := by
    refine settle_permits (r.delete_settles (Environment.record?_holds hholds hr)) fun p hp hholds' => ?_
    refine (store_permits he henv hr (.delete hp) ((holds_pair p).mp hholds').2 (.inr (hquiet _ _ hp))).bind ?_
    exact fun _ m' _ _ _ => Eval.StaysIn.pure (holds_empty _) m'
  cases e with
  | declarative r =>
    refine hrecord r rfl fun deleted r' hr' => ?_
    obtain ⟨houter, hcall, -⟩ := DeclarativeRecord.delete_keeps hr'
    exact .declarative houter hcall
  | object s => exact ObjectId.delete_stays (ObjectScope.owns_object ((holds_scope s).mp hholds)) _ m
  | global g =>
    have hg := (holds_global g).mp hholds
    have howns := ObjectScope.owns_object (GlobalRecord.scope_holds hg)
    dsimp only
    split
    · exact hrecord g.declarative rfl fun deleted r' hr' =>
        .global rfl (DeclarativeRecord.delete_keeps hr').2.2 fun _ => id
    refine (Eval.StaysIn.lift (ObjectId.hasOwnProperty_stays howns _) m).bind fun found m₁ hfound _ _ => ?_
    obtain ⟨rfl, -⟩ := lift_eq_ok hfound
    split
    · exact Eval.StaysIn.pure (holds_empty _) m₁
    refine (ObjectId.delete_stays howns _ m₁).bind fun deleted m₂ hdeleted _ _ => ?_
    -- the record that was read is still the one to be stored over
    have he₂ : m₂.env? env = some (.global g) := by
      rw [Machine.env?, (ObjectId.delete_fixes_environments _ _).of_ok hdeleted]
      exact he
    cases deleted with
    | false => exact Eval.StaysIn.pure (holds_empty _) m₂
    | true =>
      have hstore := store_varNames_permits he₂ henv
        (.inr fun _ hkey => (List.mem_filter.mp hkey).1 : R.scopes ∨ (g.removeVarName name).varNames ⊆ g.varNames)
      exact hstore.bind fun _ m₃ _ _ _ => Eval.StaysIn.pure (holds_empty _) m₃

@[grind ←] theorem hasThis_stays : env.hasThis.StaysIn R R.Holds := by
  refine .bind (load_stays henv) fun e _ => ?_
  cases e <;> exact .pure (holds_empty _)

@[grind ←] theorem withObject?_stays : env.withObject?.StaysIn R R.Holds := by
  refine .bind (load_stays henv) fun e he => ?_
  cases e with
  | object s =>
    dsimp only
    split
    · exact .pure ((holds_some _).mpr ((holds_objectScope s).mp ((holds_scope s).mp he)).1)
    · exact .pure (holds_none.mpr trivial)
  | _ => exact .pure (holds_none.mpr trivial)

@[grind ←] theorem getThis_stays : env.getThis.StaysIn R R.Holds := by
  refine .bind (.lift (load_stays henv)) fun e he => ?_
  split
  · exact .pure ((holds_objectValue _).mpr ((holds_globalRecord _).mp ((holds_global _).mp he)).2)
  · split
    · exact .pure ((holds_callSlots _).mp (DeclarativeRecord.call_holds ((holds_declarative _).mp he) rfl)).1.1
    · exact complain_stays _ _
    · exact .breach rfl
  · exact .breach rfl

@[grind ←] theorem bindThis_stays (hscopes : R.scopes) {value : Value} (hv : R.Holds value) :
    (env.bindThis value).StaysIn R R.Holds := by
  refine load_bind_stays henv fun m e he hholds => ?_
  split
  · exact Eval.StaysIn.breach rfl m
  · split
    · exact Eval.StaysIn.breach rfl m
    · exact complain_stays _ _ m
    · have hr := DeclarativeRecord.bindThis_holds ((holds_declarative _).mp hholds) rfl hv .initialized
      exact store_permits he henv rfl (.bindThis _) hr (.inl hscopes)
  · exact Eval.StaysIn.breach rfl m

@[grind ←] theorem loadGlobal_stays : env.loadGlobal.StaysIn R R.Holds := by
  refine .bind (load_stays henv) fun e he => ?_
  cases e with
  | global g => exact .pure ((holds_global g).mp he)
  | _ => exact .breach rfl

@[grind ←] theorem hasVarDeclaration_stays (name : String) :
    (env.hasVarDeclaration name).StaysIn R R.Holds :=
  .bind (loadGlobal_stays henv) fun _ _ => .pure (holds_empty _)

@[grind ←] theorem hasLexicalDeclaration_stays (name : String) :
    (env.hasLexicalDeclaration name).StaysIn R R.Holds :=
  .bind (loadGlobal_stays henv) fun _ _ => .pure (holds_empty _)

@[grind ←] theorem hasRestrictedProperty_stays (name : String) :
    (env.hasRestrictedProperty name).StaysIn R R.Holds := by
  refine .bind (loadGlobal_stays henv) fun g hg => ?_
  refine .bind (ObjectId.getOwnProperty_stays (GlobalRecord.owns_object hg) _) fun own _ => ?_
  cases own <;> exact .pure (holds_empty _)

@[grind ←] theorem canDeclareVar_stays (name : String) :
    (env.canDeclareVar name).StaysIn R R.Holds := by
  refine .bind (loadGlobal_stays henv) fun g hg => ?_
  have hobject := GlobalRecord.owns_object hg
  refine .bind (ObjectId.hasOwnProperty_stays hobject _) fun found _ => ?_
  split
  · exact .pure (holds_empty _)
  · exact ObjectId.isExtensible_stays hobject

@[grind ←] theorem canDeclareFunction_stays (name : String) :
    (env.canDeclareFunction name).StaysIn R R.Holds := by
  refine .bind (loadGlobal_stays henv) fun g hg => ?_
  have hobject := GlobalRecord.owns_object hg
  refine .bind (ObjectId.getOwnProperty_stays hobject _) fun own _ => ?_
  split
  · exact ObjectId.isExtensible_stays hobject
  · exact .pure (holds_empty _)
  · exact .pure (holds_empty _)

@[grind ←] theorem declareVarName_stays (hscopes : R.scopes) (name : String) :
    (env.declareVarName name).StaysIn R R.Holds := by
  refine fun m => (Eval.StaysIn.lift (loadGlobal_stays henv) m).bind fun g m₁ hg _ _ => ?_
  obtain ⟨rfl, hload⟩ := lift_eq_ok hg
  exact store_varNames_permits (loadGlobal_ok hload) henv (.inl hscopes)

@[grind ←] theorem createGlobalVar_stays (hscopes : R.scopes) (name : String) (deletable : Bool) :
    (env.createGlobalVar name deletable).StaysIn R R.Holds := by
  unfold createGlobalVar
  grind

@[grind ←] theorem createGlobalFunction_stays (hscopes : R.scopes) (name : String) {value : Value}
    (hv : R.Holds value) (deletable : Bool) :
    (env.createGlobalFunction name value deletable).StaysIn R R.Holds := by
  refine .bind (.lift (loadGlobal_stays henv)) fun g hg => ?_
  have hglobal := GlobalRecord.owns_object hg
  have hdefine (d : Descriptor) (hd : R.Holds d) := ObjectId.defineOrThrow_stays hglobal (.name name) hd
  refine .bind (.lift (ObjectId.getOwnProperty_stays hglobal _)) fun current _ => ?_
  split <;> grind

end EnvId

theorem searchScopeChain_stays {start : Option EnvId} (hstart : R.Holds start)
    {probe : EnvId → Query Bool} (hprobe : ∀ env : EnvId, R.Holds env → (probe env).StaysIn R R.Holds) :
    (searchScopeChain start probe).StaysIn R R.Holds := by
  have hfind (steps : Nat) (start : Option EnvId) (hstart : R.Holds start) :
      (findOnScopeChain probe steps start).StaysIn R R.Holds := by
    fun_induction findOnScopeChain probe steps start with
    | case1 => exact .pure (holds_none.mpr trivial)
    | case2 => exact .exhausted
    | case3 steps env ih =>
      have henv := (holds_some env).mp hstart
      refine .bind (hprobe env henv) fun found _ => ?_
      split
      · exact .pure hstart
      · refine .bind (EnvId.load_stays henv) fun e he => ih e ?_
        cases hout : e.outer? with
        | none => exact holds_none.mpr trivial
        | some outer => exact (holds_some outer).mpr (Environment.outer?_holds he hout)
  exact .bind .read fun m _ => hfind _ start hstart

@[grind ←] theorem thisEnvironment_stays : thisEnvironment.StaysIn R R.Holds := by
  refine .bind lexicalEnv_stays fun env henv => ?_
  refine .bind (searchScopeChain_stays ((holds_some env).mpr henv) fun _ h => EnvId.hasThis_stays h) ?_
  intro found hfound
  cases found with
  | some env => exact .pure ((holds_some env).mp hfound)
  | none => exact .breach rfl

@[grind ←] theorem resolveThis_stays : resolveThis.StaysIn R R.Holds :=
  .bind (.lift thisEnvironment_stays) fun _ henv => EnvId.getThis_stays henv

/-- An identifier makes a reference without parts. -/
@[grind ←] theorem resolveBinding_stays (name : String) {env : Option EnvId} (henv : R.Holds env) :
    (resolveBinding name env).StaysIn R R.Admits := by
  have hreference (env : EnvId) (henv : R.Holds env) (strict : Bool) :
      (identifierReference (some env) name strict).StaysIn R fun r => R.Admits (.reference r) := by
    refine .bind (searchScopeChain_stays ((holds_some env).mpr henv) fun _ h => EnvId.hasBinding_stays h name) ?_
    intro found hfound
    cases found with
    | some env => exact .pure ((admits_binding _ _ _).mpr ((holds_some env).mp hfound))
    | none => exact .pure ((admits_unresolvable _ _).mpr trivial)
  have hstart (env : EnvId) (henv : R.Holds env) : Query.StaysIn R (do
      let strict ← isStrict
      return Value.reference (← identifierReference (some env) name strict)) R.Admits :=
    .bind isStrict_stays fun strict _ => .bind (hreference env henv strict) fun _ hr => .pure hr
  cases env with
  | some env => exact hstart env ((holds_some env).mp henv)
  | none => exact .bind lexicalEnv_stays hstart

namespace Value

@[grind ←] theorem getValue_stays {v : Value} (hv : R.Admits v) : v.getValue.StaysIn R R.Holds := by
  cases v with
  | reference r =>
    unfold getValue
    cases r <;> grind
  | _ => exact .pure (R.holds_of_admits hv nofun)

@[grind ←] theorem putValue_stays {target value : Value} (ht : R.Admits target) (hv : R.Holds value) :
    (target.putValue value).StaysIn R R.Holds := by
  unfold putValue
  grind

@[grind ←] theorem initReferenced_stays {target value : Value} (ht : R.Admits target)
    (hv : R.Holds value) : (target.initReferenced value).StaysIn R R.Holds := by
  unfold initReferenced
  grind

end Value

end EcmaEval
