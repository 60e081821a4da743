import EcmaEval.Proofs.Remit.Data

/-!
# Remits

A *remit* says what a run may do to a machine: which objects and environments it may name, what values
it may store, and which changes of objects, scopes and contexts are open to it. Data is within a remit
if everything it mentions may be named and its values may be stored.
-/
namespace EcmaEval

/-- What a run may do. -/
structure Remit where
  /-- What may be named. -/
  mentions : Handle → Prop
  /-- Objects under construction, which may be changed although nothing names them yet. -/
  builds : ObjectId → Prop
  /-- References may be stored. -/
  references : Prop
  /-- Objects may get another prototype. -/
  prototypes : Prop
  /-- Environments may be made, and names and `this` declared in them. -/
  scopes : Prop
  /-- Realms may be made. -/
  realms : Prop
  /-- Functions may be made with the code. -/
  codes : FunctionCode → Prop
  /-- The running context may change. -/
  moves : Prop
  /-- Contexts may be entered and left. -/
  calls : Prop

namespace Remit

variable (R : Remit)

/-- The object may be read and changed. -/
def Owns (o : ObjectId) : Prop := R.mentions (.object o) ∨ R.builds o

/-- Everything the data mentions may be named, and its values may be stored. -/
def Holds [Tracked α] [Carrier α] (a : α) : Prop :=
  (∀ h ∈ handles a, R.mentions h) ∧ (R.references ∨ Proper a)

/-- The value may be read and written: it is within the remit, or a reference whose parts are. -/
def Admits (v : Value) : Prop := (∀ h ∈ handles v, R.mentions h) ∧ (R.references ∨ v.Shallow)

/-- The expression may give the value. -/
def Yields (e : Expression) (v : Value) : Prop :=
  (∀ h ∈ handles v, R.mentions h) ∧ (R.references ∨ e.Gives v)

/-- Anything but references may be stored. -/
abbrev proper : Remit where
  mentions _ := True
  builds _ := False
  references := False
  prototypes := True
  scopes := True
  realms := True
  codes _ := True
  moves := True
  calls := True

/-- Everything is open. -/
def whole : Remit := { proper with references := True }

/-- The remit is open to whatever code does to scopes and contexts. -/
structure IsOpen (R : Remit) : Prop where
  scopes : R.scopes
  codes : ∀ code, R.codes code
  moves : R.moves
  calls : R.calls

theorem proper_isOpen : proper.IsOpen := ⟨trivial, fun _ => trivial, trivial, trivial⟩

theorem whole_isOpen : whole.IsOpen := ⟨trivial, fun _ => trivial, trivial, trivial⟩

/-- Any data is within the remit. -/
class IsFree (R : Remit) : Prop where
  mentions : ∀ h, R.mentions h
  references : R.references

instance : whole.IsFree := ⟨fun _ => trivial, trivial⟩

@[grind ←] theorem whole_scopes : whole.scopes := trivial

@[grind ←] theorem whole_codes (code : FunctionCode) : whole.codes code := trivial

@[grind ←] theorem whole_moves : whole.moves := trivial

@[grind ←] theorem whole_calls : whole.calls := trivial

end Remit

section Free

variable {R : Remit} [hR : R.IsFree]

@[grind ←] theorem holds_of_isFree [Tracked α] [Carrier α] (a : α) : R.Holds a :=
  ⟨fun h _ => hR.mentions h, .inl hR.references⟩

@[grind ←] theorem admits_of_isFree (v : Value) : R.Admits v :=
  ⟨fun h _ => hR.mentions h, .inl hR.references⟩

@[grind ←] theorem owns_of_isFree (o : ObjectId) : R.Owns o := .inl (hR.mentions _)

end Free

section Data

variable {R : Remit}

section

variable [Tracked α] [Carrier α] [Tracked β] [Carrier β] [Tracked γ] [Carrier γ]

theorem holds_congr {a : α} {b : β} (hh : handles a = handles b) (hp : Proper a ↔ Proper b) :
    R.Holds a ↔ R.Holds b := by
  unfold Remit.Holds
  rw [hh, hp]

/-- Data that is made of two parts. -/
theorem holds_parts {a : α} {b : β} {c : γ} (hh : handles c = handles a ++ handles b)
    (hp : Proper c ↔ Proper a ∧ Proper b) : R.Holds c ↔ R.Holds a ∧ R.Holds b := by
  unfold Remit.Holds
  rw [hh, List.forall_mem_append, hp, or_and_left]
  exact and_and_and_comm

theorem holds_nothing {a : α} (hh : handles a = []) (hp : Proper a) : R.Holds a :=
  ⟨by simp [hh], .inr hp⟩

@[simp, grind =] theorem holds_pair (p : α × β) : R.Holds p ↔ R.Holds p.1 ∧ R.Holds p.2 :=
  holds_parts rfl Iff.rfl

@[simp, grind =] theorem holds_ok (b : β) : R.Holds (Except.ok b : Except Failure β) ↔ R.Holds b :=
  Iff.rfl

@[grind ←] theorem holds_empty {α : Type} (a : α) : @Remit.Holds R α Tracked.empty Carrier.empty a :=
  holds_nothing rfl trivial

end

section

variable [Linked α] [Holder α]

@[simp, grind =] theorem holds_none : R.Holds (none : Option α) ↔ True := by
  simp [Remit.Holds, handles, Proper]

@[simp, grind =] theorem holds_some (a : α) : R.Holds (some a) ↔ R.Holds a :=
  holds_congr rfl (by simp [Proper])

@[grind ←] theorem getD_holds {o : Option α} {a : α} (ho : R.Holds o) (ha : R.Holds a) :
    R.Holds (o.getD a) := by
  cases o with
  | none => exact ha
  | some b => exact (holds_some b).mp ho

@[simp, grind =] theorem holds_nil : R.Holds ([] : List α) ↔ True := by
  simp [Remit.Holds, handles, Proper]

@[simp, grind =] theorem holds_cons (a : α) (l : List α) : R.Holds (a :: l) ↔ R.Holds a ∧ R.Holds l :=
  holds_parts (by simp [handles]) (by simp [Proper])

theorem holds_list {l : List α} : R.Holds l ↔ ∀ a ∈ l, R.Holds a := by
  induction l with
  | nil => simp
  | cons a l ih => rw [holds_cons, ih, List.forall_mem_cons]

end

@[grind ←] theorem Remit.owns_of_holds {o : ObjectId} (h : R.Holds o) : R.Owns o :=
  .inl (h.1 _ (List.mem_singleton_self _))

theorem holds_objectId (o : ObjectId) : R.Holds o ↔ R.mentions (.object o) := by
  simp [Remit.Holds, handles, Proper]

theorem holds_envId (env : EnvId) : R.Holds env ↔ R.mentions (.environment env) := by
  simp [Remit.Holds, handles, Proper]

@[simp, grind =] theorem holds_objectValue (o : ObjectId) : R.Holds (Value.object o) ↔ R.Holds o :=
  holds_congr (by simp [handles, Value.handles]) (by simp [Proper, Value.isReference])

/-- Only objects and references mention anything. -/
@[grind ←] theorem holds_primitive {v : Value} (h : v.isPrimitive = true) : R.Holds v := by
  cases v with
  | object o => cases h
  | reference r => cases h
  | _ => exact holds_nothing rfl rfl

@[grind ←] theorem ofString_holds (s : String) : R.Holds (Value.ofString s) := holds_nothing rfl rfl

@[grind →] theorem Remit.references_of_holds {r : Reference} (h : R.Holds (Value.reference r)) :
    R.references := h.2.resolve_right Bool.noConfusion

@[grind ←] theorem Remit.admits_of_holds {v : Value} (h : R.Holds v) : R.Admits v := by
  refine ⟨h.1, h.2.imp_right fun hv => ?_⟩
  cases v with
  | reference r => cases hv
  | _ => trivial

@[grind →] theorem Remit.holds_of_admits {v : Value} (h : R.Admits v) (hv : ∀ r, v ≠ .reference r) :
    R.Holds v := by
  refine ⟨h.1, .inr ?_⟩
  cases v with
  | reference r => exact absurd rfl (hv r)
  | _ => rfl

@[simp, grind =] theorem admits_unresolvable (name : String) (strict : Bool) :
    R.Admits (.reference (.unresolvable name strict)) ↔ True := by
  simp [Remit.Admits, handles, Value.handles, Reference.handles, Value.Shallow]

@[simp, grind =] theorem admits_binding (env : EnvId) (name : String) (strict : Bool) :
    R.Admits (.reference (.binding env name strict)) ↔ R.Holds env := by
  simp [Remit.Admits, Remit.Holds, handles, Value.handles, Reference.handles, Value.Shallow, Proper]

@[simp, grind =] theorem admits_property (base name : Value) (thisValue : Option Value) (strict : Bool) :
    R.Admits (.reference (.property base name thisValue strict)) ↔
      R.Holds base ∧ R.Holds name ∧ R.Holds thisValue := by
  have hshallow : R.Admits (.reference (.property base name thisValue strict)) ↔
      R.Holds ((base, name), thisValue) := by
    refine and_congr ?_ (or_congr_right and_assoc.symm)
    cases thisValue <;> simp [handles, Value.handles, Reference.handles]
  rw [hshallow, holds_pair, holds_pair, and_assoc]

@[simp, grind =] theorem holds_data (v : Value) (w e c : Bool) :
    R.Holds (Descriptor.data v w e c) ↔ R.Holds v := Iff.rfl

@[simp, grind =] theorem holds_accessor (get set : Value) (e c : Bool) :
    R.Holds (Descriptor.accessor get set e c) ↔ R.Holds get ∧ R.Holds set := holds_parts rfl Iff.rfl

@[simp, grind =] theorem holds_thrown (v : Value) : R.Holds (Abrupt.thrown v) ↔ R.Holds v := Iff.rfl

@[simp, grind =] theorem holds_fault (f : Fault) :
    R.Holds (Abrupt.fault f) ↔ R.references ∨ f.ofReference = false := by
  simp [Remit.Holds, handles, Proper]

@[simp, grind =] theorem holds_exhausted : R.Holds Abrupt.exhausted ↔ True := by
  simp [Remit.Holds, handles, Proper]

@[simp, grind =] theorem holds_object (obj : Object) :
    R.Holds obj ↔ (R.Holds obj.prototype ∧ R.Holds obj.properties) ∧ R.Holds obj.kind := by
  rw [← holds_pair (obj.prototype, obj.properties), ← holds_pair ((obj.prototype, obj.properties), obj.kind)]
  exact holds_congr rfl (by simp [Proper])

@[simp, grind =] theorem holds_function (slots : FunctionSlots) :
    R.Holds (ObjectKind.function slots) ↔ R.Holds slots.environment ∧ R.Holds slots.privateEnv :=
  holds_parts rfl (by simp [Proper])

/-- Only functions and mapped arguments objects mention anything by their kind. -/
@[grind ←] theorem holds_plainKind {kind : ObjectKind} (h : kind.isPlain = true) : R.Holds kind := by
  cases kind with
  | function slots => cases h
  | arguments map =>
    cases map with
    | some map => cases h
    | none => exact holds_nothing rfl trivial
  | _ => exact holds_nothing rfl trivial

@[simp, grind =] theorem holds_record (r : DeclarativeRecord) :
    R.Holds r ↔ (R.Holds r.outer ∧ R.Holds r.bindings) ∧ R.Holds r.call := by
  rw [← holds_pair (r.outer, r.bindings), ← holds_pair ((r.outer, r.bindings), r.call)]
  exact holds_congr rfl (by simp [Proper])

@[simp, grind =] theorem holds_objectScope (s : ObjectScope) :
    R.Holds s ↔ R.Holds s.object ∧ R.Holds s.outer := holds_parts rfl (by simp [Proper])

@[simp, grind =] theorem holds_globalRecord (g : GlobalRecord) :
    R.Holds g ↔ (R.Holds g.scope ∧ R.Holds g.declarative) ∧ R.Holds g.globalThis := by
  rw [← holds_pair (g.scope, g.declarative), ← holds_pair ((g.scope, g.declarative), g.globalThis)]
  exact holds_congr rfl (by simp [Proper])

@[simp, grind =] theorem holds_declarative (r : DeclarativeRecord) :
    R.Holds (Environment.declarative r) ↔ R.Holds r :=
  holds_congr rfl (by simp [Proper, Environment.record?])

@[simp, grind =] theorem holds_scope (s : ObjectScope) : R.Holds (Environment.object s) ↔ R.Holds s :=
  holds_congr rfl (by simp [Proper, Environment.record?])

@[simp, grind =] theorem holds_global (g : GlobalRecord) : R.Holds (Environment.global g) ↔ R.Holds g :=
  holds_congr rfl (by simp [Proper, Environment.record?])

@[simp, grind =] theorem holds_callSlots (slots : CallSlots) :
    R.Holds slots ↔ (R.Holds slots.thisValue ∧ R.Holds slots.function) ∧ R.Holds slots.newTarget := by
  rw [← holds_pair (slots.thisValue, slots.function),
    ← holds_pair ((slots.thisValue, slots.function), slots.newTarget)]
  exact holds_congr rfl (by simp [Proper])

@[simp, grind =] theorem holds_context (c : Context) :
    R.Holds c ↔ ((R.Holds c.function ∧ R.Holds c.lexicalEnv) ∧ R.Holds c.variableEnv) ∧
      R.Holds c.privateEnv := by
  rw [← holds_pair (c.function, c.lexicalEnv), ← holds_pair ((c.function, c.lexicalEnv), c.variableEnv),
    ← holds_pair (((c.function, c.lexicalEnv), c.variableEnv), c.privateEnv)]
  exact holds_congr rfl (by simp [Proper])

@[simp, grind =] theorem holds_intrinsics (i : Intrinsics) :
    R.Holds i ↔ ((R.Holds i.objectPrototype ∧ R.Holds i.functionPrototype) ∧
      R.Holds i.arrayPrototype) ∧ ∀ kind, R.Holds (i.errorPrototype kind) := by
  have herrors : R.Holds (ErrorKind.all.map i.errorPrototype) ↔ ∀ kind, R.Holds (i.errorPrototype kind) := by
    rw [holds_list, List.forall_mem_map]
    exact ⟨fun h kind => h kind (by cases kind <;> simp [ErrorKind.all]), fun h kind _ => h kind⟩
  rw [← herrors, ← holds_pair (i.objectPrototype, i.functionPrototype),
    ← holds_pair ((i.objectPrototype, i.functionPrototype), i.arrayPrototype),
    ← holds_pair (((i.objectPrototype, i.functionPrototype), i.arrayPrototype), _)]
  exact holds_congr rfl (by simp [Proper])

@[simp, grind =] theorem holds_realm (r : Realm) :
    R.Holds r ↔ (R.Holds r.intrinsics ∧ R.Holds r.globalObject) ∧ R.Holds r.globalEnv := by
  rw [← holds_pair (r.intrinsics, r.globalObject),
    ← holds_pair ((r.intrinsics, r.globalObject), r.globalEnv)]
  exact holds_congr rfl (by simp [Proper])

namespace Completion

@[simp, grind =] theorem holds_normal (value : Option Value) : R.Holds (normal value) ↔ R.Holds value :=
  Iff.rfl

@[simp, grind =] theorem holds_returned (value : Value) : R.Holds (returned value) ↔ R.Holds value :=
  holds_some value

@[simp, grind =] theorem holds_thrown (value : Value) : R.Holds (thrown value) ↔ R.Holds value :=
  holds_some value

@[simp, grind =] theorem holds_broke (target : Option String) (value : Option Value) :
    R.Holds (broke target value) ↔ R.Holds value := Iff.rfl

@[simp, grind =] theorem holds_continued (target : Option String) (value : Option Value) :
    R.Holds (continued target value) ↔ R.Holds value := Iff.rfl

@[grind ←] theorem value?_holds {c : Completion} (hc : R.Holds c) : R.Holds c.value? := hc

@[grind ←] theorem updateEmpty_holds {c : Completion} {fill : Option Value} (hc : R.Holds c)
    (hfill : R.Holds fill) : R.Holds (c.updateEmpty fill) := by
  unfold updateEmpty
  split <;> first | exact hfill | exact hc

@[grind ←] theorem absorbBreak_holds {c : Completion} (hc : R.Holds c) : R.Holds c.absorbBreak := by
  unfold absorbBreak
  split
  · exact (holds_some _).mpr (getD_holds hc (holds_primitive rfl))
  · exact hc

end Completion

end Data

end EcmaEval
