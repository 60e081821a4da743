import EcmaEval.Proofs.Remit.Function

/-!
# Scopes within a remit

Declaring names, entering a function or a block, the environments of loops and the declarations of a
script stay in every remit that is open to new scopes and to the code of the functions that they make.
Where an operation gives the running context another scope, the remit must let that one change.
-/
namespace EcmaEval

variable {R : Remit}

section Declarations

variable (hscopes : R.scopes) {env : EnvId} (henv : R.Holds env)

include hscopes henv

@[grind ←] theorem declareLexical_stays (declarations : List LexicalDeclaration) :
    (declareLexical env declarations).StaysIn R R.Holds :=
  .forM fun _ _ => .forM fun _ _ => EnvId.createLexical_stays henv hscopes _ _

@[grind ←] theorem declareParameters_stays (repeated : Bool) (names : List String) :
    (declareParameters env repeated names).StaysIn R R.Holds := by
  refine .forM fun name _ => ?_
  grind

theorem declareInitialized_stays {initial : String → Eval Value}
    (hinitial : ∀ name, (initial name).StaysIn R R.Holds) (names : List String) :
    (declareInitialized env initial names).StaysIn R R.Holds :=
  .forM fun name _ => .bind (EnvId.createMutable_stays henv hscopes _ _) fun _ _ =>
    .bind (hinitial name) fun _ hv => EnvId.initBinding_stays henv _ hv

@[grind ←] theorem declareBlockName_stays (constant : Bool) (name : String) :
    (declareBlockName env constant name).StaysIn R R.Holds := by
  unfold declareBlockName
  grind

omit hscopes in
@[grind ←] theorem shadowedValue_stays (parameters functions : List String) (name : String) :
    (shadowedValue env parameters functions name).StaysIn R R.Holds := by
  unfold shadowedValue
  grind

omit hscopes in
@[grind ←] theorem bindBlockFunction_stays {code : FunctionCode} (hcode : R.codes code) (isFirst : Bool) :
    (bindBlockFunction env code isFirst).StaysIn R R.Holds := by
  unfold bindBlockFunction
  grind

@[grind ←] theorem instantiateBlock_stays {declarations : List LexicalDeclaration}
    (hcodes : ∀ code, .function code ∈ declarations → R.codes code) (bound : List String) :
    (instantiateBlock env declarations bound).StaysIn R R.Holds := by
  induction declarations generalizing bound with
  | nil => exact .pure (holds_empty _)
  | cons d rest ih =>
    have hrest := ih fun code hcode => hcodes code (List.mem_cons_of_mem d hcode)
    refine .bind (.forM fun name _ => declareBlockName_stays hscopes henv d.isConstant name) fun _ _ => ?_
    cases d with
    | binding constant pattern => exact hrest bound
    | function code =>
      exact .bind (bindBlockFunction_stays henv (hcodes code List.mem_cons_self) _) fun _ _ => hrest _

end Declarations

section Calls

variable (hscopes : R.scopes)

include hscopes

@[grind ←] theorem bindCallThis_stays (slots : FunctionSlots) {thisValue : Value}
    (hv : R.Holds thisValue) : (bindCallThis slots thisValue).StaysIn R R.Holds := by
  unfold bindCallThis
  cases slots.thisMode <;> grind

namespace Evaluator

@[grind ←] theorem bindArguments_stays {f : ObjectId} (hf : R.Holds f) (slots : FunctionSlots)
    {env : EnvId} (henv : R.Holds env) {arguments : List Value} (h : R.Holds arguments) :
    (bindArguments f slots env arguments).StaysIn R R.Holds := by
  unfold bindArguments
  refine .bind (newArguments_stays h hf ?_) fun o _ => ?_
  · split
    · exact (holds_some _).mpr ((holds_pair _).mpr ⟨holds_empty _, henv⟩)
    · exact holds_none.mpr trivial
  · grind

@[grind ←] theorem parameterEnv_stays (hmoves : R.moves) (slots : FunctionSlots) :
    (parameterEnv slots).StaysIn R R.Holds := by
  unfold parameterEnv
  grind

@[grind ←] theorem bindVariables_stays (hmoves : R.moves) (slots : FunctionSlots) {env : EnvId}
    (henv : R.Holds env) (names : List String) : (bindVariables slots env names).StaysIn R R.Holds := by
  unfold bindVariables
  dsimp only
  split
  · refine .bind (declareInitialized_stays hscopes henv (fun _ => .pure (holds_primitive rfl)) _) ?_
    exact fun _ _ => .pure henv
  · refine .bind (newDeclarativeEnvironment_stays hscopes ((holds_some env).mpr henv)) fun varEnv hvar => ?_
    refine .bind (modifyContext_stays hmoves fun c hc => by grind) fun _ _ => ?_
    exact .bind (declareInitialized_stays hscopes hvar (shadowedValue_stays henv _ _) _) fun _ _ => .pure hvar

omit hscopes in
@[grind ←] theorem bindFunctions_stays {slots : FunctionSlots}
    (hcodes : ∀ code ∈ Body.functions slots.code.statements, R.codes code) {lexEnv varEnv : EnvId}
    (hlex : R.Holds lexEnv) (hvar : R.Holds varEnv) :
    (bindFunctions slots lexEnv varEnv).StaysIn R R.Holds :=
  .bind (.lift runningContext_stays) fun c hc => .forM fun code hcode =>
    .bind (instantiateDeclaration_stays (hcodes code hcode) hlex ((holds_context c).mp hc).2) fun f hf =>
      EnvId.assign_stays hvar _ ((holds_objectValue f).mpr hf) _

@[grind ←] theorem enterBody_stays (hmoves : R.moves) {slots : FunctionSlots}
    (hcodes : ∀ code ∈ Body.functions slots.code.statements, R.codes code) {varEnv : EnvId}
    (hvar : R.Holds varEnv) : (enterBody slots varEnv).StaysIn R R.Holds := by
  have hfunctions (lexEnv : EnvId) (hlex : R.Holds lexEnv) := bindFunctions_stays hcodes hlex hvar
  unfold enterBody
  split <;> grind

end Evaluator

end Calls

section Moves

variable (hscopes : R.scopes) (hmoves : R.moves)

include hmoves

@[grind ←] theorem takeLabels_stays (s : Statement) : (takeLabels s).StaysIn R R.Holds := by
  unfold takeLabels
  grind

include hscopes

@[grind ←] theorem withBlockScope_stays {declarations : List LexicalDeclaration}
    (hcodes : ∀ code, .function code ∈ declarations → R.codes code) {x : Eval Completion}
    (hx : x.StaysIn R R.Holds) : (withBlockScope declarations x).StaysIn R R.Holds := by
  refine .bind (.lift lexicalEnv_stays) fun outer houter => ?_
  refine .bind (newDeclarativeEnvironment_stays hscopes ((holds_some outer).mpr houter)) fun env henv => ?_
  exact .bind (instantiateBlock_stays hscopes henv hcodes []) fun _ _ => withLexicalEnv_stays hmoves henv hx

@[grind ←] theorem copyIterationEnv_stays (names : List String) :
    (copyIterationEnv names).StaysIn R R.Holds := by
  unfold copyIterationEnv
  split
  · exact .pure (holds_empty _)
  refine .bind (.lift lexicalEnv_stays) fun last hlast => .bind (.lift (EnvId.load_stays hlast)) fun e he => ?_
  split
  · exact .breach rfl
  · rename_i outer houter
    have houter := (holds_some outer).mpr (Environment.outer?_holds he houter)
    refine .bind (newDeclarativeEnvironment_stays hscopes houter) fun env henv => ?_
    have hcopy := declareInitialized_stays hscopes henv (fun name => EnvId.read_stays hlast name true) names
    exact .bind hcopy fun _ _ => setLexicalEnv_stays hmoves henv

end Moves

namespace KeyIterator

@[grind =] theorem holds_iff (it : KeyIterator) : R.Holds it ↔ R.Holds it.object :=
  holds_congr rfl (by simp [Proper])

theorem nextOwn_stays {o : ObjectId} (ho : R.Owns o) (keys visited : List Key) :
    (nextOwn o keys visited).StaysIn R R.Holds := by
  induction keys generalizing visited with
  | nil => exact .pure ((holds_pair _).mpr ⟨holds_none.mpr trivial, holds_empty _⟩)
  | cons key rest ih =>
    unfold nextOwn
    grind

theorem visit_stays {steps : Nat}
    (hadvance : ∀ it : KeyIterator, R.Holds it → (advance steps it).StaysIn R R.Holds) {o : ObjectId}
    (ho : R.Holds o) (keys visited : List Key) :
    Query.StaysIn R (do
      match ← nextOwn o keys visited with
      | (some (t, rest), visited) =>
        return some (t, { object := some o, pending := some rest, visited })
      | (none, visited) =>
        advance steps { object := (← o.load).prototype, pending := none, visited }) R.Holds := by
  refine .bind (nextOwn_stays (R.owns_of_holds ho) keys _) fun found _ => ?_
  split <;> grind

@[grind ←] theorem next_stays {it : KeyIterator} (hit : R.Holds it) :
    it.next.StaysIn R R.Holds := by
  have hadvance (steps : Nat) (it : KeyIterator) (hit : R.Holds it) :
      (advance steps it).StaysIn R R.Holds := by
    induction steps generalizing it with
    | zero => exact .exhausted
    | succ steps ih =>
      unfold advance
      split
      · exact .pure (holds_none.mpr trivial)
      rename_i o ho
      have ho : R.Holds o := by grind
      split
      · exact visit_stays ih ho _ _
      · exact .bind (ObjectId.ownKeys_stays (R.owns_of_holds ho)) fun keys _ => visit_stays ih ho _ _
  exact .bind .read fun m _ => hadvance _ it hit

end KeyIterator

/-- The checks that come before every declaration of a script. -/
def checkGlobal (body : List Statement) (env : EnvId) : Eval Unit := do
  checkLexicalNames env (Body.lexicalNames body true)
  checkVarNames env (Body.varNames body)
  let functionNames := (Body.functions body).map (·.bindingName)
  checkFunctions env functionNames.reverse
  checkVariables env ((Body.variableNames body).filter (!functionNames.contains ·))

/-- The declarations of a script. -/
def declareGlobal (body : List Statement) (env : EnvId) : Eval Unit := do
  let functionNames := (Body.functions body).map (·.bindingName)
  declareLexical env (Body.lexicallyScoped body true)
  (Body.functions body).forM fun code => do
    let f ← instantiateDeclaration code env none
    env.createGlobalFunction code.bindingName (.object f) false
  ((Body.variableNames body).filter (!functionNames.contains ·)).eraseDups.forM (env.createGlobalVar · false)

theorem instantiateGlobal_eq (body : List Statement) (env : EnvId) :
    instantiateGlobal body env = checkGlobal body env >>= fun _ => declareGlobal body env := by
  unfold instantiateGlobal checkGlobal declareGlobal
  simp only [bind_assoc]

section Scripts

variable {env : EnvId} (henv : R.Holds env)

include henv

theorem checkGlobal_stays (body : List Statement) : (checkGlobal body env).StaysIn R R.Holds := by
  have htaken (name : String) : (env.isTaken name).StaysIn R R.Holds := by
    unfold EnvId.isTaken
    grind
  refine .bind (.forM fun name _ => ?_) fun _ _ => .bind (.forM fun name _ => ?_) fun _ _ => ?_
  · have htaken := htaken name
    grind
  · grind
  · refine .bind (.forM fun name _ => ?_) fun _ _ => .forM fun name _ => ?_ <;> grind

theorem declareGlobal_stays (hscopes : R.scopes) {body : List Statement}
    (hcodes : ∀ code ∈ Body.functions body, R.codes code) : (declareGlobal body env).StaysIn R R.Holds := by
  refine .bind (declareLexical_stays hscopes henv _) fun _ _ => .bind (.forM fun code hcode => ?_) fun _ _ => ?_
  · refine .bind (instantiateDeclaration_stays (hcodes code hcode) henv (holds_none.mpr trivial)) fun f hf => ?_
    exact EnvId.createGlobalFunction_stays henv hscopes _ ((holds_objectValue f).mpr hf) _
  · exact .forM fun _ _ => EnvId.createGlobalVar_stays henv hscopes _ _

theorem instantiateGlobal_stays (hscopes : R.scopes) {body : List Statement}
    (hcodes : ∀ code ∈ Body.functions body, R.codes code) :
    (instantiateGlobal body env).StaysIn R R.Holds := by
  rw [instantiateGlobal_eq]
  exact .bind (checkGlobal_stays henv body) fun _ _ => declareGlobal_stays henv hscopes hcodes

end Scripts

section Realms

theorem Object.plain_holds {prototype : Option ObjectId} (hp : R.Holds prototype) (kind : ObjectKind)
    (hkind : kind.isPlain = true) : R.Holds ({ prototype, kind } : Object) :=
  (holds_object _).mpr ⟨⟨hp, PropertyTable.empty_holds⟩, holds_plainKind hkind⟩

@[grind ←] theorem Descriptor.frozen_holds {value : Value} (hv : R.Holds value) :
    R.Holds (Descriptor.frozen value) := hv

theorem Realm.newErrorPrototype_stays {parent : ObjectId} (hp : R.Holds parent) (kind : ErrorKind) :
    (Realm.newErrorPrototype parent kind).StaysIn R R.Holds := by
  have hobject := Object.plain_holds ((holds_some parent).mpr hp) .ordinary rfl
  have htext (s : String) := Descriptor.hidden_holds (ofString_holds (R := R) s)
  exact allocate_stays (Object.insert_holds (Object.insert_holds hobject (htext _)) (htext _)) rfl

theorem Realm.newErrorConstructor_stays {i : Intrinsics} (hi : R.Holds i) {global : ObjectId}
    (hg : R.Holds global) (kind : ErrorKind) :
    (Realm.newErrorConstructor i global kind).StaysIn R R.Holds := by
  have hi := (holds_intrinsics i).mp hi
  have hobject := Object.plain_holds ((holds_some _).mpr hi.1.1.2) (.errorConstructor kind) rfl
  have hlength := Descriptor.readOnly_holds (holds_primitive rfl : R.Holds (Value.number .one))
  have hname := Descriptor.readOnly_holds (ofString_holds (R := R) kind.name)
  refine .bind (allocate_stays (Object.insert_holds (Object.insert_holds hobject hlength) hname) rfl)
    fun constructor hc => ?_
  have hvalue := Descriptor.hidden_holds ((holds_objectValue constructor).mpr hc)
  have hprototype := Descriptor.frozen_holds ((holds_objectValue _).mpr (hi.2 kind))
  refine .bind (ObjectId.insert_stays (R.owns_of_holds hc) _ hprototype) fun _ _ => ?_
  refine .bind (ObjectId.insert_stays (R.owns_of_holds (hi.2 kind)) _ hvalue) fun _ _ => ?_
  exact ObjectId.insert_stays (R.owns_of_holds hg) _ hvalue

/-- The object for a kind of error, of one for each kind. -/
def ErrorKind.pick (error typeError referenceError syntaxError rangeError : ObjectId) : ErrorKind → ObjectId
  | .error => error
  | .typeError => typeError
  | .referenceError => referenceError
  | .syntaxError => syntaxError
  | .rangeError => rangeError

theorem newRealm_stays (hscopes : R.scopes) (hrealms : R.realms) : newRealm.StaysIn R R.Holds := by
  have hobject {prototype : Option ObjectId} (hp : R.Holds prototype) :
      (allocate { prototype, kind := .ordinary }).StaysIn R R.Holds :=
    allocate_stays (Object.plain_holds hp .ordinary rfl) rfl
  have hget : (get : Eval Machine).StaysIn R R.Holds := fun _ _ => ⟨.refl, holds_empty _⟩
  have hpush {r : Realm} (hr : R.Holds r) : (modify (Machine.pushRealm · r) : Eval PUnit).StaysIn R R.Holds :=
    fun _ _ => ⟨.single (.realm hrealms hr), holds_empty _⟩
  refine .bind (hobject (holds_none.mpr trivial)) fun objectPrototype ho => ?_
  have hchild := hobject ((holds_some objectPrototype).mpr ho)
  refine .bind hchild fun functionPrototype hf => .bind hchild fun arrayPrototype ha => ?_
  refine .bind (Realm.newErrorPrototype_stays ho _) fun error he => ?_
  have hkind := Realm.newErrorPrototype_stays he
  refine .bind (hkind _) fun typeError ht => .bind (hkind _) fun referenceError hr => ?_
  refine .bind (hkind _) fun syntaxError hs => .bind (hkind _) fun rangeError hn => ?_
  refine .bind hchild fun global hg => .bind (newGlobalEnvironment_stays hscopes hg hg) fun env henv => ?_
  have hintrinsics (errorPrototype : ErrorKind → ObjectId) (h : ∀ kind, R.Holds (errorPrototype kind)) :
      R.Holds ({ objectPrototype, functionPrototype, arrayPrototype, errorPrototype } : Intrinsics) :=
    (holds_intrinsics _).mpr ⟨⟨⟨ho, hf⟩, ha⟩, h⟩
  have hi := hintrinsics (ErrorKind.pick error typeError referenceError syntaxError rangeError)
    fun kind => by cases kind <;> assumption
  have hinsert (key : Key) {d : Descriptor} (hd : R.Holds d) := ObjectId.insert_stays (R.owns_of_holds hg) key hd
  refine .bind hget fun _ _ => .bind (hpush ((holds_realm _).mpr ⟨⟨hi, hg⟩, henv⟩)) fun _ _ => ?_
  refine .bind (hinsert _ (Descriptor.hidden_holds ((holds_objectValue global).mpr hg))) fun _ _ => ?_
  refine .bind (hinsert _ (Descriptor.frozen_holds (holds_primitive rfl))) fun _ _ => ?_
  refine .bind (hinsert _ (Descriptor.frozen_holds (holds_primitive rfl))) fun _ _ => ?_
  refine .bind (hinsert _ (Descriptor.frozen_holds (holds_primitive rfl))) fun _ _ => ?_
  exact .bind (.forM fun kind _ => Realm.newErrorConstructor_stays hi hg kind) fun _ _ => .pure (holds_empty _)

end Realms

end EcmaEval
