import EcmaEval.Proofs.Change

/-!
# What data mentions and stores

Which objects and environments a piece of data mentions, and whether a reference is among its values. A
value is *proper* if it is no reference, and whatever holds values is proper if all of them are.
-/
namespace EcmaEval

/-- A part of a machine that data can name. -/
inductive Handle where
  | object (o : ObjectId)
  | environment (env : EnvId)
  deriving DecidableEq

/-- The handle names a part of a machine with these bounds. -/
def Handle.Within (b : Bounds) : Handle → Prop
  | .object o => o.Within b
  | .environment env => env.Within b

instance (b : Bounds) (h : Handle) : Decidable (h.Within b) :=
  match h with
  | .object o => inferInstanceAs (Decidable (o.Within b))
  | .environment env => inferInstanceAs (Decidable (env.Within b))

/-- Data with a list of the handles that it mentions. -/
class Tracked (α : Type) where
  /-- The handles in the data. -/
  handles : α → List Handle

export Tracked (handles)

/-- Most data mentions nothing. -/
instance (priority := low) Tracked.empty : Tracked α := ⟨fun _ => []⟩

/-- Data that may hold handles. -/
class Linked (α : Type) extends Tracked α

instance : Linked ObjectId where
  handles o := [.object o]

instance : Linked EnvId where
  handles env := [.environment env]

mutual

def Value.handles : Value → List Handle
  | .object o => [.object o]
  | .reference r => r.handles
  | _ => []

def Reference.handles : Reference → List Handle
  | .unresolvable _ _ => []
  | .binding env _ _ => [.environment env]
  | .property base name none _ => base.handles ++ name.handles
  | .property base name (some thisValue) _ => base.handles ++ name.handles ++ thisValue.handles

end

instance : Linked Value where
  handles := Value.handles

instance [Linked α] : Linked (Option α) where
  handles
    | some a => handles a
    | none => []

instance [Linked α] : Linked (List α) where
  handles l := l.flatMap handles

instance [Tracked α] [Tracked β] : Linked (α × β) where
  handles p := handles p.1 ++ handles p.2

instance : Linked Descriptor where
  handles
    | .data value _ _ _ => handles value
    | .accessor get set _ _ => handles get ++ handles set

instance : Linked PropertyTable where
  handles t := handles t.entries

/-- A function mentions the environments it closes over, and an arguments object the environment of
its parameters. -/
instance : Linked ObjectKind where
  handles
    | .function slots => handles slots.environment ++ handles slots.privateEnv
    | .arguments (some map) => handles map.env
    | _ => []

instance : Linked Object where
  handles obj := handles obj.prototype ++ handles obj.properties ++ handles obj.kind

instance : Linked Binding where
  handles b := handles b.value

instance : Linked CallSlots where
  handles slots := handles slots.thisValue ++ handles slots.function ++ handles slots.newTarget

instance : Linked DeclarativeRecord where
  handles r := handles r.outer ++ handles r.bindings ++ handles r.call

instance : Linked ObjectScope where
  handles s := handles s.object ++ handles s.outer

instance : Linked GlobalRecord where
  handles g := handles g.scope ++ handles g.declarative ++ handles g.globalThis

instance : Linked Environment where
  handles
    | .declarative r => handles r
    | .object s => handles s
    | .global g => handles g

instance : Linked Context where
  handles c :=
    handles c.function ++ handles c.lexicalEnv ++ handles c.variableEnv ++ handles c.privateEnv

instance : Linked Intrinsics where
  handles i :=
    handles i.objectPrototype ++ handles i.functionPrototype ++ handles i.arrayPrototype ++
      handles (ErrorKind.all.map i.errorPrototype)

instance : Linked Realm where
  handles r := handles r.intrinsics ++ handles r.globalObject ++ handles r.globalEnv

instance : Linked Completion where
  handles c := handles c.value?

instance : Linked Abrupt where
  handles
    | .thrown v => handles v
    | _ => []

instance [Tracked α] : Linked (Except Failure α) where
  handles
    | .ok a => handles a
    | .error _ => []

instance : Linked KeyIterator where
  handles it := handles it.object

/-- Data with a condition on the values that it holds. -/
class Carrier (α : Type) where
  /-- No value in it is a reference. -/
  Proper : α → Prop

export Carrier (Proper)

/-- Most data holds no values. -/
instance (priority := low) Carrier.empty : Carrier α := ⟨fun _ => True⟩

/-- Data that may hold values. -/
class Holder (α : Type) extends Carrier α

instance : Holder Value where
  Proper v := v.isReference = false

instance [Holder α] : Holder (Option α) where
  Proper o := ∀ a, o = some a → Proper a

instance [Holder α] : Holder (List α) where
  Proper l := ∀ a ∈ l, Proper a

instance [Carrier α] [Carrier β] : Holder (α × β) where
  Proper p := Proper p.1 ∧ Proper p.2

instance : Holder ObjectId where
  Proper _ := True

instance : Holder EnvId where
  Proper _ := True

instance : Holder KeyIterator where
  Proper _ := True

instance : Holder Context where
  Proper _ := True

instance : Holder Descriptor where
  Proper := Descriptor.All Proper

instance : Holder Completion where
  Proper c := Proper c.value?

instance : Holder PropertyTable where
  Proper t := ∀ e ∈ t.entries, Proper e.2

instance : Holder Object where
  Proper obj := Proper obj.properties

instance : Holder Binding where
  Proper b := Proper b.value

instance : Holder CallSlots where
  Proper slots := Proper slots.thisValue ∧ Proper slots.newTarget

instance : Holder DeclarativeRecord where
  Proper r := (∀ e ∈ r.bindings, Proper e.2) ∧ Proper r.call

instance : Holder GlobalRecord where
  Proper g := Proper g.declarative

instance : Holder Environment where
  Proper e := Proper e.record?

/-- The condition is that no reference is left where a value is expected. -/
@[grind] def Breach.ofReference : Breach → Bool
  | .referenceToPrimitive | .typeOfReference => true
  | _ => false

@[grind] def Fault.ofReference : Fault → Bool
  | .assertion b => b.ofReference
  | _ => false

/-- What is thrown is proper, and no fault is about a reference. -/
instance : Holder Abrupt where
  Proper
    | .thrown v => Proper v
    | .fault f => f.ofReference = false
    | .exhausted => True

instance [Carrier α] : Holder (Except Failure α) where
  Proper
    | .ok a => Proper a
    | .error (.complaint _) => True
    | .error (.fault f) => f.ofReference = false

/-- Neither an object nor a reference. -/
@[grind] def Value.isPrimitive : Value → Bool
  | .object _ | .reference _ => false
  | .undefined | .null | .boolean _ | .number _ | .string _ | .symbol _ | .bigint _ => true

/-- Neither a function nor a mapped arguments object. -/
@[grind] def ObjectKind.isPlain : ObjectKind → Bool
  | .function _ | .arguments (some _) => false
  | .ordinary | .array | .error | .arguments none | .errorConstructor _ => true

/-- The parts of a property reference are no references. -/
def Value.Shallow : Value → Prop
  | .reference (.property base name thisValue _) =>
    base.isReference = false ∧ name.isReference = false ∧
      ∀ t, thisValue = some t → t.isReference = false
  | _ => True

/-- The form names a binding or a property. -/
def Expression.isNaming : Expression → Bool
  | .identifier _ | .member _ _ | .index _ _ => true
  | _ => false

/-- What an expression may give: a reference with proper parts if it names something, and a proper
value otherwise. -/
def Expression.Gives (e : Expression) (v : Value) : Prop :=
  v.Shallow ∧ (e.isNaming = false → Proper v)

end EcmaEval
