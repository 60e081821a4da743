import EcmaEval.Proofs.Soundness

/-!
# Operations of a host

Everything a host can do to a machine, as one type of operations, and the machines that come of it.
What a host promises about the arguments of its operations is again a contract: handles are always in
range, and under a guarded contract properties are defined only with the checks of their object. No
promise is made about code. An operation under a contract takes steps of the machine and nothing else.
-/
namespace EcmaEval

/-- What a host may ask of a machine. -/
inductive Operation : Type 1 where
  /-- Reading the machine, in any way. -/
  | ask {α : Type} (q : Query α)
  | newRealm
  | pushScriptContext (realm : RealmId) (strict : Bool)
  | pushContext (context : Context)
  | popContext
  | newSymbol (description : Option String)
  | newObject (prototype : Option ObjectId)
  | newArray (length : Nat)
  | setPrototype (o : ObjectId) (prototype : Option ObjectId)
  | preventExtensions (o : ObjectId)
  | define (o : ObjectId) (key : Key) (d : Descriptor)
  | defineOrThrow (o : ObjectId) (key : Key) (d : Descriptor)
  | createProperty (o : ObjectId) (key : Key) (value : Value)
  | createPropertyOrThrow (o : ObjectId) (key : Key) (value : Value)
  /-- A definition that passes over what arrays and arguments objects tie their properties to. -/
  | defineOrdinary (o : ObjectId) (key : Key) (d : Descriptor)
  /-- A definition against a current descriptor that the host makes up. -/
  | validateAndApply (o : Option ObjectId) (key : Key) (extensible : Bool) (d : Descriptor)
      (current : Option Descriptor)
  | set (o : ObjectId) (key : Key) (value receiver : Value)
  | delete (o : ObjectId) (key : Key)
  | deleteOrThrow (o : ObjectId) (key : Key)
  | newDeclarativeEnvironment (outer : Option EnvId)
  | newObjectEnvironment (o : ObjectId) (isWith : Bool) (outer : Option EnvId)
  | newGlobalEnvironment (global thisObject : ObjectId)
  | newFunctionEnvironment (f : ObjectId) (newTarget : Value)
  | createMutable (env : EnvId) (name : String) (deletable : Bool)
  | createImmutable (env : EnvId) (name : String) (strict : Bool)
  | initBinding (env : EnvId) (name : String) (value : Value)
  | assign (env : EnvId) (name : String) (value : Value) (strict : Bool)
  | readBinding (env : EnvId) (name : String) (strict : Bool)
  | deleteBinding (env : EnvId) (name : String)
  | getThis (env : EnvId)
  | bindThis (env : EnvId) (value : Value)
  | createGlobalVar (env : EnvId) (name : String) (deletable : Bool)
  | createGlobalFunction (env : EnvId) (name : String) (value : Value) (deletable : Bool)
  | getValue (target : Value)
  | putValue (target value : Value)
  | initReferenced (target value : Value)
  | resolveThis
  | call (level : Nat) (f thisValue : Value) (arguments : List Value)
  | construct (level : Nat) (f : Value) (arguments : List Value) (newTarget : Option Value)
  | hasInstance (constructor value : Value)
  | toNumber (value : Value)
  | toNumeric (value : Value)
  | toText (value : Value)
  | toObject (value : Value)
  | toKey (value : Value)
  | less (x y : Value) (leftFirst : Bool)
  | evaluate (level : Nat) (node : Node)

namespace Operation

/-- Performs an operation; of its answer only what it did to the machine is kept. -/
def run : Operation → Eval Unit
  | .ask q => discard (liftM q : Eval _)
  | .newRealm => discard EcmaEval.newRealm
  | .pushScriptContext realm strict => EcmaEval.pushScriptContext realm strict
  | .pushContext context => EcmaEval.pushContext context
  | .popContext => discard EcmaEval.popContext
  | .newSymbol description => discard (EcmaEval.newSymbol description)
  | .newObject prototype => discard (EcmaEval.newObject prototype)
  | .newArray length => discard (EcmaEval.newArray length)
  | .setPrototype o prototype => discard (o.setPrototype prototype)
  | .preventExtensions o => discard o.preventExtensions
  | .define o key d => discard (o.define key d)
  | .defineOrThrow o key d => o.defineOrThrow key d
  | .createProperty o key value => discard (o.createProperty key value)
  | .createPropertyOrThrow o key value => o.createPropertyOrThrow key value
  | .defineOrdinary o key d => discard (o.defineOrdinary key d)
  | .validateAndApply o key extensible d current =>
    discard (ObjectId.validateAndApply o key extensible d current)
  | .set o key value receiver => discard (o.set key value receiver)
  | .delete o key => discard (o.delete key)
  | .deleteOrThrow o key => o.deleteOrThrow key
  | .newDeclarativeEnvironment outer => discard (EcmaEval.newDeclarativeEnvironment outer)
  | .newObjectEnvironment o isWith outer => discard (EcmaEval.newObjectEnvironment o isWith outer)
  | .newGlobalEnvironment global thisObject =>
    discard (EcmaEval.newGlobalEnvironment global thisObject)
  | .newFunctionEnvironment f newTarget => discard (EcmaEval.newFunctionEnvironment f newTarget)
  | .createMutable env name deletable => env.createMutable name deletable
  | .createImmutable env name strict => env.createImmutable name strict
  | .initBinding env name value => env.initBinding name value
  | .assign env name value strict => env.assign name value strict
  | .readBinding env name strict => discard (env.read name strict)
  | .deleteBinding env name => discard (env.delete name)
  | .getThis env => discard env.getThis
  | .bindThis env value => env.bindThis value
  | .createGlobalVar env name deletable => env.createGlobalVar name deletable
  | .createGlobalFunction env name value deletable => env.createGlobalFunction name value deletable
  | .getValue target => discard target.getValue
  | .putValue target value => target.putValue value
  | .initReferenced target value => target.initReferenced value
  | .resolveThis => discard EcmaEval.resolveThis
  | .call level f thisValue arguments =>
    discard ((Evaluator.level level).call f thisValue arguments)
  | .construct level f arguments newTarget =>
    discard ((Evaluator.level level).construct f arguments newTarget)
  | .hasInstance constructor value => discard (EcmaEval.hasInstance constructor value)
  | .toNumber value => discard value.toNumber
  | .toNumeric value => discard value.toNumeric
  | .toText value => discard value.toText
  | .toObject value => discard value.toObject
  | .toKey value => discard value.toKey
  | .less x y leftFirst => discard (x.less? y leftFirst)
  | .evaluate level node => discard (EcmaEval.evaluate level node)

end Operation

/-- The operation keeps the contract within bounds: its handles are in range, also those inside
values; a plain contract admits references only as what is to be read, written or initialized; a
guarded one admits no definition that passes over the checks of an object. -/
def Contract.Admits (g : Contract) (b : Bounds) : Operation → Prop
  | .ask _ | .newRealm | .popContext | .newSymbol _ | .newArray _ | .resolveThis | .evaluate _ _ => True
  | .pushScriptContext realm _ => realm.Within b
  | .pushContext context => context.Within b
  | .newObject prototype => ∀ p, prototype = some p → p.Within b
  | .setPrototype o prototype => o.Within b ∧ ∀ p, prototype = some p → p.Within b
  | .preventExtensions o | .delete o _ | .deleteOrThrow o _ => o.Within b
  | .define o _ d | .defineOrThrow o _ d => o.Within b ∧ d.All (g.Stored b)
  | .createProperty o _ value | .createPropertyOrThrow o _ value => o.Within b ∧ g.Stored b value
  | .defineOrdinary o _ d => ¬ g.guarded ∧ o.Within b ∧ d.All (g.Stored b)
  | .validateAndApply o _ _ d _ =>
    ¬ g.guarded ∧ (∀ p, o = some p → p.Within b) ∧ d.All (g.Stored b)
  | .set o _ value receiver => o.Within b ∧ g.Stored b value ∧ receiver.Within b
  | .newDeclarativeEnvironment outer => ∀ env, outer = some env → env.Within b
  | .newObjectEnvironment o _ outer => o.Within b ∧ ∀ env, outer = some env → env.Within b
  | .newGlobalEnvironment global thisObject => global.Within b ∧ thisObject.Within b
  | .newFunctionEnvironment f newTarget => f.Within b ∧ g.Stored b newTarget
  | .createMutable env _ _ | .createImmutable env _ _ | .readBinding env _ _ | .deleteBinding env _
  | .getThis env | .createGlobalVar env _ _ => env.Within b
  | .initBinding env _ value | .assign env _ value _ | .bindThis env value
  | .createGlobalFunction env _ value _ => env.Within b ∧ g.Stored b value
  | .getValue target => target.Within b ∧ (g.plain → target.Shallow)
  | .putValue target value | .initReferenced target value =>
    (target.Within b ∧ (g.plain → target.Shallow)) ∧ g.Stored b value
  | .call _ f thisValue arguments =>
    f.Within b ∧ g.Stored b thisValue ∧ ∀ v ∈ arguments, g.Stored b v
  | .construct _ f arguments newTarget =>
    g.Stored b f ∧ (∀ v ∈ arguments, g.Stored b v) ∧ ∀ v, newTarget = some v → g.Stored b v
  | .hasInstance constructor value => constructor.Within b ∧ value.Within b
  | .toNumber value | .toNumeric value | .toText value | .toObject value | .toKey value =>
    g.Stored b value
  | .less x y _ => g.Stored b x ∧ g.Stored b y

/-- One machine comes of another by an operation. -/
def Contract.Performs (g : Contract) (m m' : Machine) : Prop :=
  ∃ op, g.Admits m.bounds op ∧ op.run.after m = m'

theorem Contract.performs {g : Contract} {m : Machine} (op : Operation) (h : g.Admits m.bounds op) :
    g.Performs m (op.run.after m) := ⟨op, h, rfl⟩

/-- One machine comes of another by operations. -/
abbrev Contract.Leads (g : Contract) : Machine → Machine → Prop := Relation.ReflTransGen g.Performs

/-- A machine that comes of a new one by operations. -/
def Contract.Reachable (g : Contract) (m : Machine) : Prop :=
  ∃ limit, g.Leads { stackLimit := limit } m

theorem Contract.Reachable.new (g : Contract) : g.Reachable {} := ⟨_, .refl⟩

theorem Contract.Reachable.perform {g : Contract} {m : Machine} (h : g.Reachable m) (op : Operation)
    (hop : g.Admits m.bounds op) : g.Reachable (op.run.after m) :=
  have ⟨limit, hleads⟩ := h
  ⟨limit, hleads.tail (g.performs op hop)⟩

/-- The promise of a host that hands out valid handles. -/
def Contract.handles : Contract where
  plain := False
  guarded := False
  checked := False
  bounded := True
  plain_of_checked := False.elim
  guarded_of_checked := False.elim

/-- The promise of a host that also defines properties only with the checks of their object. -/
def Contract.checks : Contract :=
  { Contract.handles with guarded := True, guarded_of_checked := False.elim }

/-- The promise of a host that moreover stores no references. -/
def Contract.values : Contract :=
  { Contract.checks with
    plain := True, plain_of_checked := False.elim, guarded_of_checked := False.elim }

/-- A call of a function with one parameter leaves its environment behind, and the object of its arguments. -/
theorem Contract.reachable_call :
    let f : FunctionCode := ⟨some "f", .normal, [.identifier "a"], .block [], false, false⟩
    let m₁ := Operation.newRealm.run.after {}
    let m₂ := (Operation.pushScriptContext ⟨0⟩ false).run.after m₁
    let m₃ := (Operation.evaluate 4 (.script [.function f])).run.after m₂
    let m₄ := (Operation.call 4 (.object ⟨14⟩) .undefined [.null]).run.after m₃
    checks.Reachable m₄ ∧ ObjectId.Within m₄.bounds ⟨16⟩ ∧ EnvId.Within m₄.bounds ⟨1⟩ := by
  intro f m₁ m₂ m₃ m₄
  have hrealm : RealmId.Within m₁.bounds ⟨0⟩ := by decide +kernel
  have hf : ObjectId.Within m₃.bounds ⟨14⟩ := by decide +kernel
  have h₁ : checks.Reachable m₁ := (Reachable.new _).perform .newRealm trivial
  have h₃ : checks.Reachable m₃ :=
    (h₁.perform (.pushScriptContext ⟨0⟩ false) hrealm).perform (.evaluate 4 (.script [.function f])) trivial
  have h₄ : checks.Reachable m₄ := by
    refine h₃.perform (.call 4 (.object ⟨14⟩) .undefined [.null]) ⟨hf, ⟨trivial, fun _ => rfl⟩, fun v hv => ?_⟩
    cases List.mem_singleton.mp hv
    exact ⟨trivial, fun _ => rfl⟩
  exact ⟨h₄, by decide +kernel, by decide +kernel⟩

variable {g : Contract} {m m' : Machine}

theorem Eval.after_discard (x : Eval α) (m : Machine) : (discard x).after m = x.after m := by
  rw [discard_eq]
  cases hx : x m with
  | ok a m' => rw [after_ok hx, after_bind_ok hx]; rfl
  | error e m' => rw [after_error hx, after_error (bind_error hx)]

theorem ObjectId.validateAndApply_steps {o : Option ObjectId} {key : Key} {extensible : Bool}
    {d : Descriptor} {current : Option Descriptor} (hraw : ¬ g.guarded)
    (ho : ∀ p, o = some p → p.Within m.bounds) (hd : d.All (g.Stored m.bounds)) :
    g.Runs m.grant m (validateAndApply o key extensible d current) fun _ _ => True := by
  unfold validateAndApply
  split
  · cases o with
    | none => exact .pure trivial
    | some p =>
      obtain ⟨obj, hobj⟩ := Machine.exists_object (ho p rfl)
      refine .seq (P := fun _ _ => True) (.of_ok (modify_eq (ho p rfl) _) (.single ?_) trivial)
        fun _ _ _ _ _ _ => .pure trivial
      exact .insert hobj hd fun hg => absurd hg hraw
  · exact .pure trivial

theorem ObjectId.defineOrdinary_steps {o : ObjectId} {key : Key} {d : Descriptor}
    (hraw : ¬ g.guarded) (ho : o.Within m.bounds) (hd : d.All (g.Stored m.bounds)) :
    g.Runs m.grant m (o.defineOrdinary key d) fun _ _ => True := by
  refine .query (getOwnProperty_asks ho) fun current _ _ => ?_
  refine .query (isExtensible_asks ho) fun extensible _ _ => ?_
  exact validateAndApply_steps hraw (fun p hp => by cases hp; exact ho) hd

theorem newFunctionEnvironment_steps (hunchecked : ¬ g.checked) {f : ObjectId} {newTarget : Value}
    (hf : f.Within m.bounds) (ht : g.Stored m.bounds newTarget) :
    g.Runs m.grant m (newFunctionEnvironment f newTarget) fun _ _ => True := by
  obtain ⟨obj, hobj⟩ := Machine.exists_object hf
  by_cases hkind : ∃ slots, obj.kind = .function slots
  · obtain ⟨slots, hkind⟩ := hkind
    exact (newFunctionEnvironment_runs (Machine.isFunction_of_kind hobj hkind) ht).imp
      fun _ _ _ _ _ => trivial
  · refine .query (P := fun obj' => obj' = obj) ?_ fun obj' _ hobj' => ?_
    · exact (ObjectId.load_asks hf).imp fun obj' hobj' => by
        rw [hobj] at hobj'
        cases hobj'
        rfl
    · subst hobj'
      split
      · exact absurd ⟨_, ‹_›⟩ hkind
      · exact .breach _ hunchecked

namespace Operation

/-- An operation that keeps the contract takes steps of the machine, however it ends. -/
theorem run_steps (hunchecked : ¬ g.checked) (hbounded : g.bounded) (hm : g.Sound m) {op : Operation}
    (hop : g.Admits m.bounds op) : g.Steps m.grant m (op.run.after m) := by
  -- promises about code hold vacuously: this host makes none
  have hnone {P : Prop} (hc : g.checked) : P := absurd hc hunchecked
  have hstep {α : Type} {x : Eval α} {Q : Machine → α → Prop} (hx : g.Runs m.grant m x Q) :
      g.Steps m.grant m (x.after m) := hx.after (.refl _) hm
  have hstep' {α : Type} {x : Eval α} {Q : Machine → α → Prop} (hx : g.Runs m.grant m x Q) :
      g.Steps m.grant m ((discard x).after m) := Eval.after_discard x m ▸ hstep hx
  have hoperand {v : Value} (hv : v.Within m.bounds ∧ (g.plain → v.Shallow)) : g.Operand m v :=
    ⟨hv.1, hv.2, hnone⟩
  have hev := Evaluator.level_keeps hbounded
  cases op with
  | ask q =>
    have hsame : id ((liftM q : Eval _).after m) = id m := Eval.Fixes.lift q m
    change g.Steps _ m ((discard (liftM q : Eval _)).after m)
    rw [Eval.after_discard, show (liftM q : Eval _).after m = m from hsame]
  | newRealm => exact hstep' newRealm_runs
  | pushScriptContext realm strict => exact hstep (pushScriptContext_runs hop)
  | pushContext context => exact hstep (pushContext_runs hop)
  | popContext => exact hstep' popContext_runs
  | newSymbol description => exact hstep' (newSymbol_runs description)
  | newObject prototype => exact hstep' (newObject_runs hop)
  | newArray length => exact hstep' (newArray_runs length)
  | setPrototype o prototype => exact hstep' (ObjectId.setPrototype_runs hop.1 hop.2)
  | preventExtensions o => exact hstep' (ObjectId.preventExtensions_runs hop)
  | define o key d => exact hstep' (ObjectId.define_runs hop.1 hop.2)
  | defineOrThrow o key d => exact hstep (ObjectId.defineOrThrow_runs hop.1 hop.2)
  | createProperty o key value => exact hstep' (ObjectId.createProperty_runs hop.1 hop.2)
  | createPropertyOrThrow o key value => exact hstep (ObjectId.createPropertyOrThrow_runs hop.1 hop.2)
  | defineOrdinary o key d => exact hstep' (ObjectId.defineOrdinary_steps hop.1 hop.2.1 hop.2.2)
  | validateAndApply o key extensible d current =>
    exact hstep' (ObjectId.validateAndApply_steps hop.1 hop.2.1 hop.2.2)
  | set o key value receiver => exact hstep' (ObjectId.set_runs hop.1 hop.2.1 hop.2.2)
  | delete o key => exact hstep' (ObjectId.delete_runs hop)
  | deleteOrThrow o key => exact hstep (ObjectId.deleteOrThrow_runs hop)
  | newDeclarativeEnvironment outer => exact hstep' (newDeclarativeEnvironment_runs hop hnone)
  | newObjectEnvironment o isWith outer =>
    exact hstep' (newObjectEnvironment_runs hop.1 hop.2 hnone)
  | newGlobalEnvironment global thisObject =>
    refine hstep' (allocateEnvironment_runs (.global hop.1 rfl hop.2 ⟨?_, ?_, ?_⟩ rfl)) <;> simp
  | newFunctionEnvironment f newTarget =>
    exact hstep' (newFunctionEnvironment_steps hunchecked hop.1 hop.2)
  | createMutable env name deletable => exact hstep (EnvId.createMutable_runs hop hnone hnone hnone)
  | createImmutable env name strict => exact hstep (EnvId.createImmutable_runs hop hnone hnone)
  | initBinding env name value => exact hstep (EnvId.initBinding_runs hop.1 hop.2 hnone hnone)
  | assign env name value strict => exact hstep (EnvId.assign_runs hop.1 hop.2 hnone)
  | readBinding env name strict => exact hstep' (EnvId.read_runs hop hnone)
  | deleteBinding env name => exact hstep' (EnvId.delete_runs hop hnone)
  | getThis env => exact hstep' (EnvId.getThis_runs hop hnone)
  | bindThis env value => exact hstep (EnvId.bindThis_runs hop.1 hop.2 hnone)
  | createGlobalVar env name deletable => exact hstep (EnvId.createGlobalVar_runs hop hnone)
  | createGlobalFunction env name value deletable =>
    exact hstep (EnvId.createGlobalFunction_runs hop.1 hop.2 hnone)
  | getValue target => exact hstep' (Value.getValue_runs (hoperand hop))
  | putValue target value => exact hstep (Value.putValue_runs (hoperand hop.1) hop.2)
  | initReferenced target value => exact hstep (Value.initReferenced_runs hop.1.1 hop.2 hnone)
  | resolveThis => exact hstep' resolveThis_runs
  | call level f thisValue arguments =>
    exact hstep' (Evaluator.call_runs (hev level) hop.1 hop.2.1 hop.2.2)
  | construct level f arguments newTarget =>
    exact hstep' (Evaluator.construct_runs (hev level) hop.1 hop.2.1 hop.2.2)
  | hasInstance constructor value => exact hstep' (hasInstance_runs hop.1 hop.2)
  | toNumber value => exact hstep' (Value.toNumber_runs hop)
  | toNumeric value => exact hstep' (Value.toNumeric_runs hop)
  | toText value => exact hstep' (Value.toText_runs hop)
  | toObject value => exact hstep' (Value.toObject_runs hop.1)
  | toKey value => exact hstep' (Value.toKey_runs hop)
  | less x y leftFirst => exact hstep' (Value.less?_runs leftFirst hop.1 hop.2)
  | evaluate level node => exact hstep' (evaluate_runs hbounded hnone hnone)

end Operation

/-- A host that makes no promise about code and lets runs run out of levels. -/
structure Contract.Open (g : Contract) : Prop where
  unchecked : ¬ g.checked
  bounded : g.bounded

theorem Contract.handles_open : Contract.handles.Open := ⟨id, trivial⟩

theorem Contract.checks_open : Contract.checks.Open := ⟨id, trivial⟩

theorem Contract.values_open : Contract.values.Open := ⟨id, trivial⟩

namespace Contract.Leads

theorem steps (hg : g.Open) (hm : g.Sound m) (h : g.Leads m m') : g.Steps m.grant m m' := by
  induction h with
  | refl => exact .refl
  | tail _ hop ih =>
    obtain ⟨op, hop, rfl⟩ := hop
    have hsound := Steps.sound ih hm
    have hlast := Operation.run_steps hg.unchecked hg.bounded hsound hop
    exact ih.trans (Steps.mono (.grant (Steps.bounds ih hm)) hlast)

end Contract.Leads

theorem Contract.Reachable.sound (hg : g.Open) (h : g.Reachable m) : g.Sound m := by
  obtain ⟨limit, h⟩ := h
  exact Steps.sound (Leads.steps hg (g.sound_new limit) h) (g.sound_new limit)

end EcmaEval
