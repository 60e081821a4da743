import EcmaEval.Proofs.Heap.Table
import EcmaEval.Proofs.Static

/-!
# Sound machines

What every machine satisfies that operations have built up from an empty one: the handles stored
anywhere lie in range, prototypes form no cycle, an environment lies after its outer one, and a
mapped argument stands for a parameter. How much more holds depends on what the operations were
promised, which a *contract* records.
-/
namespace EcmaEval

/-- How many objects, environments and realms there are. -/
structure Bounds where
  objects : Nat
  environments : Nat
  realms : Nat

namespace Bounds

instance : LE Bounds where
  le a b := a.objects ≤ b.objects ∧ a.environments ≤ b.environments ∧ a.realms ≤ b.realms

theorem le_refl (b : Bounds) : b ≤ b := ⟨Nat.le_refl _, Nat.le_refl _, Nat.le_refl _⟩

theorem le_trans {a b c : Bounds} (h₁ : a ≤ b) (h₂ : b ≤ c) : a ≤ c :=
  ⟨Nat.le_trans h₁.1 h₂.1, Nat.le_trans h₁.2.1 h₂.2.1, Nat.le_trans h₁.2.2 h₂.2.2⟩

end Bounds

abbrev ObjectId.Within (b : Bounds) (o : ObjectId) : Prop := o.index < b.objects

abbrev EnvId.Within (b : Bounds) (env : EnvId) : Prop := env.index < b.environments

abbrev RealmId.Within (b : Bounds) (realm : RealmId) : Prop := realm.index < b.realms

mutual

/-- The handles in a value are in range, also those inside a reference. -/
def Value.Within (b : Bounds) : Value → Prop
  | .object o => o.Within b
  | .reference r => r.Within b
  | _ => True

def Reference.Within (b : Bounds) : Reference → Prop
  | .unresolvable _ _ => True
  | .binding env _ _ => env.Within b
  | .property base name none _ => base.Within b ∧ name.Within b
  | .property base name (some thisValue) _ => base.Within b ∧ name.Within b ∧ thisValue.Within b

end

mutual

theorem Value.Within.mono {b b' : Bounds} (hb : b ≤ b') {v : Value} (h : v.Within b) :
    v.Within b' := by
  cases v with
  | object o => exact Nat.lt_of_lt_of_le h hb.1
  | reference r => exact Reference.Within.mono hb h
  | _ => trivial

theorem Reference.Within.mono {b b' : Bounds} (hb : b ≤ b') {r : Reference} (h : r.Within b) :
    r.Within b' := by
  cases r with
  | unresolvable name strict => trivial
  | binding env name strict => exact Nat.lt_of_lt_of_le h hb.2.1
  | property base name thisValue strict =>
    cases thisValue with
    | none => exact ⟨Value.Within.mono hb h.1, Value.Within.mono hb h.2⟩
    | some t => exact ⟨Value.Within.mono hb h.1, Value.Within.mono hb h.2.1, Value.Within.mono hb h.2.2⟩

end

/-- The handles of a context are in range. -/
structure Context.Within (b : Bounds) (c : Context) : Prop where
  realm : c.realm.Within b
  function : ∀ f, c.function = some f → f.Within b
  lexicalEnv : c.lexicalEnv.Within b
  variableEnv : c.variableEnv.Within b
  privateEnv : ∀ env, c.privateEnv = some env → env.Within b

theorem Context.Within.mono {b b' : Bounds} (hb : b ≤ b') {c : Context} (h : c.Within b) :
    c.Within b' where
  realm := Nat.lt_of_lt_of_le h.realm hb.2.2
  function f hf := Nat.lt_of_lt_of_le (h.function f hf) hb.1
  lexicalEnv := Nat.lt_of_lt_of_le h.lexicalEnv hb.2.1
  variableEnv := Nat.lt_of_lt_of_le h.variableEnv hb.2.1
  privateEnv env henv := Nat.lt_of_lt_of_le (h.privateEnv env henv) hb.2.1

/-- The handles of the standard objects are in range. -/
structure Intrinsics.Within (b : Bounds) (i : Intrinsics) : Prop where
  objectPrototype : i.objectPrototype.Within b
  functionPrototype : i.functionPrototype.Within b
  arrayPrototype : i.arrayPrototype.Within b
  errorPrototype : ∀ kind, (i.errorPrototype kind).Within b

theorem Intrinsics.Within.mono {b b' : Bounds} (hb : b ≤ b') {i : Intrinsics} (h : i.Within b) :
    i.Within b' where
  objectPrototype := Nat.lt_of_lt_of_le h.objectPrototype hb.1
  functionPrototype := Nat.lt_of_lt_of_le h.functionPrototype hb.1
  arrayPrototype := Nat.lt_of_lt_of_le h.arrayPrototype hb.1
  errorPrototype kind := Nat.lt_of_lt_of_le (h.errorPrototype kind) hb.1

/-- The handles of a realm are in range. -/
structure Realm.Within (b : Bounds) (r : Realm) : Prop where
  intrinsics : r.intrinsics.Within b
  globalObject : r.globalObject.Within b
  globalEnv : r.globalEnv.Within b

theorem Realm.Within.mono {b b' : Bounds} (hb : b ≤ b') {r : Realm} (h : r.Within b) :
    r.Within b' where
  intrinsics := h.intrinsics.mono hb
  globalObject := Nat.lt_of_lt_of_le h.globalObject hb.1
  globalEnv := Nat.lt_of_lt_of_le h.globalEnv hb.2.1

/-- What the operations that built a machine were promised, and so what the machine promises. -/
structure Contract where
  /-- No value handed in is a reference, so none is stored. -/
  plain : Prop
  /-- Properties are stored only after the check of their definition. -/
  guarded : Prop
  /-- All code is statically valid. -/
  checked : Prop
  /-- Runs may run out of levels. -/
  bounded : Prop
  plain_of_checked : checked → plain
  guarded_of_checked : checked → guarded

/-- Every value of the descriptor has a property. -/
def Descriptor.All (P : Value → Prop) : Descriptor → Prop
  | .data value _ _ _ => P value
  | .accessor get set _ _ => P get ∧ P set

theorem Descriptor.All.imp {P Q : Value → Prop} (h : ∀ v, P v → Q v) {d : Descriptor}
    (hd : d.All P) : d.All Q := by
  cases d with
  | data value writable enumerable configurable => exact h _ hd
  | accessor get set enumerable configurable => exact ⟨h _ hd.1, h _ hd.2⟩

namespace Contract

variable (g : Contract) (b : Bounds)

/-- A value that may be stored: its handles are in range, and under a plain contract it is no
reference. -/
def Stored (v : Value) : Prop := v.Within b ∧ (g.plain → v.isReference = false)

/-- What the kind of an object holds is in range, and a function has valid code. -/
def KindOk : ObjectKind → Prop
  | .function slots =>
    slots.environment.Within b ∧ (∀ env, slots.privateEnv = some env → env.Within b) ∧
      slots.realm.Within b ∧ (g.checked → slots.code.Valid)
  | .arguments (some map) => map.env.Within b
  | _ => True

/-- What an object holds is in range, its keys differ, and an array has a length. -/
structure ObjectOk (obj : Object) : Prop where
  prototype : ∀ p, obj.prototype = some p → p.Within b
  properties : ∀ e ∈ obj.properties.entries, e.2.All (g.Stored b)
  keys : obj.properties.Distinct
  kind : g.KindOk b obj.kind
  length : g.guarded → obj.isArray = true →
    ∃ n writable, obj.properties.get? .length = some (.data (.number n) writable false false)

/-- What a declarative record holds is in range; bindings of checked code cannot be deleted. -/
structure RecordOk (r : DeclarativeRecord) : Prop where
  values : ∀ e ∈ r.bindings, ∀ v, e.2.value = some v → g.Stored b v
  fixed : g.checked → ∀ e ∈ r.bindings, e.2.deletable = false
  call : ∀ slots, r.call = some slots →
    g.Stored b slots.thisValue ∧ slots.function.Within b ∧ g.Stored b slots.newTarget

/-- What an environment holds is in range. Its outer environment comes before it; in checked code
only a global one has none. -/
inductive EnvironmentOk (env : EnvId) : Environment → Prop
  | declarative (houter : ∀ e, r.outer = some e → e.index < env.index)
      (hroot : g.checked → r.outer.isSome = true) (hrecord : g.RecordOk b r) :
      EnvironmentOk env (.declarative r)
  | object (houter : ∀ e, s.outer = some e → e.index < env.index)
      (hroot : g.checked → s.outer.isSome = true) (hobject : s.object.Within b) :
      EnvironmentOk env (.object s)
  | global (hscope : r.scope.object.Within b) (houter : r.scope.outer = none)
      (hthis : r.globalThis.Within b) (hrecord : g.RecordOk b r.declarative)
      (hrecordOuter : r.declarative.outer = none) : EnvironmentOk env (.global r)

end Contract

/-- The record of an environment that holds bindings itself. -/
def Environment.record? : Environment → Option DeclarativeRecord
  | .declarative r => some r
  | .object _ => none
  | .global r => some r.declarative

/-- The environment with another record of bindings. -/
def Environment.withRecord (e : Environment) (r : DeclarativeRecord) : Environment :=
  match e with
  | .declarative _ => .declarative r
  | .object s => .object s
  | .global g => .global { g with declarative := r }

namespace Machine

def bounds (m : Machine) : Bounds := ⟨m.objects.size, m.environments.size, m.realms.size⟩

def object? (m : Machine) (o : ObjectId) : Option Object := m.objects[o.index]?

def env? (m : Machine) (env : EnvId) : Option Environment := m.environments[env.index]?

def realm? (m : Machine) (realm : RealmId) : Option Realm := m.realms[realm.index]?

/-- The bindings that an environment holds itself. -/
def record? (m : Machine) (env : EnvId) : Option DeclarativeRecord :=
  (m.env? env).bind Environment.record?

/-- One object is the prototype of another. -/
def IsPrototype (m : Machine) (p o : ObjectId) : Prop :=
  ∃ obj, m.object? o = some obj ∧ obj.prototype = some p

/-- A variable that nothing but an assignment changes: mutable, not deletable and initialized. -/
def IsVariable (m : Machine) (env : EnvId) (name : String) : Prop :=
  ∃ r b, m.env? env = some (.declarative r) ∧ r.get? name = some b ∧ b.isMutable = true ∧
    b.deletable = false ∧ b.value.isSome = true

end Machine

/-- A parameter that a key stands for is a binding of a declarative environment. -/
def ParameterMap.Declarative (m : Machine) (map : ParameterMap) : Prop :=
  ∀ key name, map.get? key = some name → ∃ r, m.env? map.env = some (.declarative r)

/-- Each mapped key of an object stands for a variable, and its own property is writable data. -/
def Object.Aliases (m : Machine) (obj : Object) : Prop :=
  ∀ map key name, obj.parameterMap? = some map → map.get? key = some name →
    m.IsVariable map.env name ∧
      ∃ v enumerable configurable,
        obj.properties.get? key = some (.data v true enumerable configurable)

namespace Object

/-- Every own index has a property. -/
def Indexed (obj : Object) (P : Nat → Prop) : Prop :=
  ∀ key i, (obj.properties.get? key).isSome = true → key.arrayIndex? = some i → P i

/-- The own length is `n`, at most the greatest one, and every own index lies below it. -/
structure Spans (obj : Object) (n : Nat) (writable : Bool) : Prop where
  le : n ≤ maxArrayLength
  length : obj.properties.get? .length = some (.data (.number (.ofNat n)) writable false false)
  below : obj.Indexed (· < n)

/-- If it is an array, the object has a length above its indices. -/
def Orderly (obj : Object) : Prop := obj.isArray = true → ∃ n writable, obj.Spans n writable

theorem Orderly.of_isArray {obj : Object} (h : obj.isArray = false) : obj.Orderly := by
  intro harray
  simp [h] at harray

end Object

namespace Contract

/-- A machine that keeps its contract. -/
structure Sound (g : Contract) (m : Machine) : Prop where
  objects : ∀ o obj, m.object? o = some obj → g.ObjectOk m.bounds obj
  environments : ∀ env e, m.env? env = some e → g.EnvironmentOk m.bounds env e
  realms : ∀ r realm, m.realm? r = some realm → realm.Within m.bounds
  globals : ∀ r realm, m.realm? r = some realm → ∃ record, m.env? realm.globalEnv = some (.global record)
  contexts : ∀ c ∈ m.contexts, c.Within m.bounds
  prototypes : WellFounded m.IsPrototype
  aliases : g.guarded → ∀ o obj, m.object? o = some obj → obj.Aliases m

end Contract

/-- Every value that is stored in an object or a declarative environment has a property. -/
structure Machine.Holds (m : Machine) (P : Value → Prop) : Prop where
  properties : ∀ o obj, m.object? o = some obj → ∀ e ∈ obj.properties.entries, e.2.All P
  bindings : ∀ env r, m.env? env = some (.declarative r) → ∀ e ∈ r.bindings, ∀ v,
    e.2.value = some v → P v

namespace Contract

variable {g : Contract} {b b' : Bounds}

theorem Stored.mono (hb : b ≤ b') {v : Value} (h : g.Stored b v) : g.Stored b' v :=
  ⟨h.1.mono hb, h.2⟩

theorem KindOk.mono (hb : b ≤ b') {kind : ObjectKind} (h : g.KindOk b kind) : g.KindOk b' kind := by
  cases kind with
  | function slots =>
    exact ⟨Nat.lt_of_lt_of_le h.1 hb.2.1, fun env henv => Nat.lt_of_lt_of_le (h.2.1 env henv) hb.2.1,
      Nat.lt_of_lt_of_le h.2.2.1 hb.2.2, h.2.2.2⟩
  | arguments map =>
    cases map with
    | none => trivial
    | some map => exact Nat.lt_of_lt_of_le h hb.2.1
  | _ => trivial

theorem ObjectOk.mono (hb : b ≤ b') {obj : Object} (h : g.ObjectOk b obj) : g.ObjectOk b' obj where
  prototype p hp := Nat.lt_of_lt_of_le (h.prototype p hp) hb.1
  properties e he := (h.properties e he).imp fun _ hv => hv.mono hb
  keys := h.keys
  kind := h.kind.mono hb
  length := h.length

theorem RecordOk.mono (hb : b ≤ b') {r : DeclarativeRecord} (h : g.RecordOk b r) :
    g.RecordOk b' r where
  values e he v hv := (h.values e he v hv).mono hb
  fixed := h.fixed
  call slots hslots :=
    have ⟨hthis, hfunction, htarget⟩ := h.call slots hslots
    ⟨hthis.mono hb, Nat.lt_of_lt_of_le hfunction hb.1, htarget.mono hb⟩

theorem EnvironmentOk.mono (hb : b ≤ b') {env : EnvId} {e : Environment}
    (h : g.EnvironmentOk b env e) : g.EnvironmentOk b' env e := by
  cases h with
  | declarative houter hroot hrecord => exact .declarative houter hroot (hrecord.mono hb)
  | object houter hroot hobject => exact .object houter hroot (Nat.lt_of_lt_of_le hobject hb.1)
  | global hscope houter hthis hrecord hrecordOuter =>
    exact .global (Nat.lt_of_lt_of_le hscope hb.1) houter (Nat.lt_of_lt_of_le hthis hb.1)
      (hrecord.mono hb) hrecordOuter

/-- An object without properties, other than an array. -/
theorem ObjectOk.empty {prototype : Option ObjectId} {kind : ObjectKind}
    (hprototype : ∀ p, prototype = some p → p.Within b) (hkind : g.KindOk b kind)
    (harray : kind ≠ .array) : g.ObjectOk b { prototype, kind } where
  prototype := hprototype
  properties _ he := by simp at he
  keys := .nil
  kind := hkind
  length _ ha := by
    cases kind <;> simp [Object.isArray] at ha
    exact absurd rfl harray

theorem ObjectOk.insert {obj : Object} (h : g.ObjectOk b obj) {key : Key} {d : Descriptor}
    (hd : d.All (g.Stored b))
    (hlength : g.guarded → obj.isArray = true → (key == .length) = true →
      ∃ n writable, d = .data (.number n) writable false false) : g.ObjectOk b (obj.insert key d) where
  prototype := h.prototype
  properties e he := by
    rcases PropertyTable.mem_insert he with hnew | hold
    · exact hnew ▸ hd
    · exact h.properties e hold
  keys := h.keys.insert key d
  kind := h.kind
  length hg ha := by
    rw [Object.insert, PropertyTable.get?_insert]
    by_cases hkey : key == .length
    · obtain ⟨n, writable, rfl⟩ := hlength hg ha hkey
      exact ⟨n, writable, by rw [if_pos hkey]⟩
    · rw [if_neg hkey]
      exact h.length hg ha

theorem ObjectOk.insert_plain {obj : Object} (h : g.ObjectOk b obj) (harray : obj.isArray = false)
    (key : Key) {d : Descriptor} (hd : d.All (g.Stored b)) : g.ObjectOk b (obj.insert key d) :=
  h.insert hd fun _ ha => by simp [harray] at ha

theorem Stored.object {o : ObjectId} (h : o.Within b) : g.Stored b (.object o) := ⟨h, fun _ => rfl⟩

theorem ObjectOk.get? {obj : Object} (h : g.ObjectOk b obj) {key : Key} {d : Descriptor}
    (hd : obj.properties.get? key = some d) : d.All (g.Stored b) := by
  obtain ⟨e, he, rfl⟩ := PropertyTable.mem_of_get? hd
  exact h.properties e he

theorem ObjectOk.parameterMap {obj : Object} (h : g.ObjectOk b obj) {map : ParameterMap}
    (hmap : obj.parameterMap? = some map) : map.env.Within b := by
  have hkind := h.kind
  unfold Object.parameterMap? at hmap
  split at hmap
  · rename_i hk
    rw [hk, hmap] at hkind
    exact hkind
  · cases hmap

theorem RecordOk.get? {r : DeclarativeRecord} (h : g.RecordOk b r) {name : String} {x : Binding}
    {v : Value} (hx : r.get? name = some x) (hv : x.value = some v) : g.Stored b v :=
  h.values _ (DeclarativeRecord.mem_of_get? hx) v hv

theorem EnvironmentOk.record {env : EnvId} {e : Environment} (h : g.EnvironmentOk b env e)
    {r : DeclarativeRecord} (hr : e.record? = some r) : g.RecordOk b r := by
  cases h with
  | declarative houter hroot hrecord => cases hr; exact hrecord
  | object houter hroot hobject => cases hr
  | global hscope houter hthis hrecord hrecordOuter => cases hr; exact hrecord

theorem Sound.holds {m : Machine} (hm : g.Sound m) : m.Holds (g.Stored m.bounds) where
  properties o obj ho := (hm.objects o obj ho).properties
  bindings env _ he := ((hm.environments env _ he).record rfl).values

theorem EnvironmentOk.outer {env : EnvId} {e : Environment} (h : g.EnvironmentOk b env e)
    {env' : EnvId} (hout : e.outer? = some env') : env'.index < env.index := by
  cases h with
  | declarative houter hroot hrecord => exact houter _ hout
  | object houter hroot hobject => exact houter _ hout
  | global hscope houter hthis hrecord hrecordOuter => cases hout

end Contract

end EcmaEval
