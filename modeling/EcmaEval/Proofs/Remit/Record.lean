import EcmaEval.Proofs.Remit.Basic

/-!
# Objects and records within a remit

The operations on one object and on one record keep them within a remit, keep what a function closes
over, and keep a record in its place among the scopes.
-/
namespace EcmaEval

/-- What a function closes over. Whether `new` may be applied to it is settled after it was made. -/
def Object.closure? (obj : Object) : Option FunctionSlots :=
  match obj.kind with
  | .function slots => some { slots with isConstructor := false }
  | _ => none

/-- The environment keeps its place and its `this`; a global one declares nothing more. -/
inductive Environment.Quiet : Environment → Environment → Prop
  | declarative {r r' : DeclarativeRecord} (outer : r'.outer = r.outer) (call : r'.call = r.call) :
      Quiet (.declarative r) (.declarative r')
  | object (s : ObjectScope) : Quiet (.object s) (.object s)
  | global {g g' : GlobalRecord} (globalThis : g'.globalThis = g.globalThis)
      (lexical : ∀ name, g'.declarative.has name = true → g.declarative.has name = true)
      (var : ∀ name ∈ g'.varNames, name ∈ g.varNames) : Quiet (.global g) (.global g')

namespace Environment.Quiet

variable {e e' e'' : Environment}

@[refl] theorem refl (e : Environment) : e.Quiet e := by
  cases e with
  | declarative r => exact .declarative rfl rfl
  | object s => exact .object s
  | global g => exact .global rfl (fun _ => id) fun _ => id

theorem trans (h : e.Quiet e') (h' : e'.Quiet e'') : e.Quiet e'' := by
  cases h with
  | declarative outer call =>
    cases h' with
    | declarative outer' call' => exact .declarative (outer'.trans outer) (call'.trans call)
  | object s => exact h'
  | global this lexical var =>
    cases h' with
    | global this' lexical' var' =>
      exact .global (this'.trans this) (fun name h => lexical name (lexical' name h))
        fun name h => var name (var' name h)

end Environment.Quiet

namespace Object

@[simp, grind =] theorem closure?_unmap (obj : Object) (key : Key) :
    (obj.unmap key).closure? = obj.closure? := by
  unfold unmap
  split
  · rename_i map hkind
    simp [closure?, hkind]
  · rfl

@[simp, grind =] theorem prototype_unmap (obj : Object) (key : Key) :
    (obj.unmap key).prototype = obj.prototype := by
  unfold unmap
  split <;> rfl

@[simp, grind =] theorem closure?_erase (obj : Object) (key : Key) :
    (obj.erase key).closure? = obj.closure? := closure?_unmap _ _

@[simp, grind =] theorem prototype_erase (obj : Object) (key : Key) :
    (obj.erase key).prototype = obj.prototype := prototype_unmap _ _

@[simp, grind =] theorem closure?_markConstructor (obj : Object) :
    obj.markConstructor.closure? = obj.closure? := by
  unfold markConstructor
  split
  · rename_i slots hkind
    simp [closure?, hkind]
  · rfl

@[simp, grind =] theorem prototype_markConstructor (obj : Object) :
    obj.markConstructor.prototype = obj.prototype := by
  unfold markConstructor
  split <;> rfl

end Object

/-- A fault that is neither about a reference nor about a jump that escaped. -/
@[grind] def Fault.isPlain (f : Fault) : Bool := !f.ofReference && !f.isEscape

/-- The result of an operation that knows no machine is within the remit, or it failed for a condition
that may fail. -/
def Remit.Settles [Tracked α] [Carrier α] (R : Remit) : Except Failure α → Prop
  | .ok a => R.Holds a
  | .error (.complaint _) => True
  | .error (.fault f) => f.isPlain = true

section Holds

variable {R : Remit}

namespace PropertyTable

variable {t : PropertyTable} {key : Key} {d : Descriptor}

theorem holds_entries : R.Holds t ↔ ∀ e ∈ t.entries, R.Holds e.2 := by
  have hlist : R.Holds t ↔ R.Holds t.entries := holds_congr rfl (by simp [Proper])
  rw [hlist, holds_list]
  refine forall₂_congr fun e _ => ?_
  rw [holds_pair]
  exact and_iff_right (holds_empty _)

@[grind ←] theorem empty_holds : R.Holds ({} : PropertyTable) := holds_entries.mpr fun _ he => nomatch he

@[grind ←] theorem insert_holds (ht : R.Holds t) (hd : R.Holds d) : R.Holds (t.insert key d) := by
  refine holds_entries.mpr fun e he => ?_
  rcases mem_insert he with hnew | hold
  · exact hnew ▸ hd
  · exact holds_entries.mp ht e hold

@[grind ←] theorem erase_holds (ht : R.Holds t) : R.Holds (t.erase key) :=
  holds_entries.mpr fun e he => holds_entries.mp ht e (mem_erase he)

@[grind ←] theorem get?_holds (ht : R.Holds t) : R.Holds (t.get? key) := by
  cases h : t.get? key with
  | none => exact holds_none.mpr trivial
  | some d =>
    obtain ⟨e, he, rfl⟩ := mem_of_get? h
    exact (holds_some e.2).mpr (holds_entries.mp ht e he)

end PropertyTable

namespace Object

variable {obj : Object} {key : Key} {d : Descriptor}

@[grind ←] theorem insert_holds (hobj : R.Holds obj) (hd : R.Holds d) : R.Holds (obj.insert key d) := by
  have hobj := (holds_object _).mp hobj
  exact (holds_object _).mpr ⟨⟨hobj.1.1, PropertyTable.insert_holds hobj.1.2 hd⟩, hobj.2⟩

@[grind ←] theorem unmap_holds (hobj : R.Holds obj) : R.Holds (obj.unmap key) := by
  unfold unmap
  split
  · rename_i map hk
    rw [holds_object, hk] at hobj
    exact (holds_object _).mpr hobj
  · exact hobj

@[grind ←] theorem erase_holds (hobj : R.Holds obj) : R.Holds (obj.erase key) := by
  have hobj := (holds_object _).mp hobj
  exact unmap_holds ((holds_object _).mpr ⟨⟨hobj.1.1, PropertyTable.erase_holds hobj.1.2⟩, hobj.2⟩)

@[grind ←] theorem markConstructor_holds (hobj : R.Holds obj) : R.Holds obj.markConstructor := by
  unfold markConstructor
  split
  · rename_i slots hk
    rw [holds_object, hk] at hobj
    exact (holds_object _).mpr hobj
  · exact hobj

@[grind →] theorem parameterMap?_holds {map : ParameterMap} (hobj : R.Holds obj)
    (h : obj.parameterMap? = some map) : R.Holds map.env := by
  have hkind := ((holds_object _).mp hobj).2
  unfold parameterMap? at h
  split at h
  · rename_i hk
    rw [hk, h] at hkind
    exact hkind
  · cases h

end Object

@[grind ←] theorem Descriptor.withValue_holds {d : Descriptor} {value : Value} (hv : R.Holds value) :
    R.Holds (d.withValue value) := hv

@[grind ←] theorem Descriptor.hidden_holds {value : Value} (hv : R.Holds value) :
    R.Holds (Descriptor.hidden value) := hv

@[grind ←] theorem Descriptor.readOnly_holds {value : Value} (hv : R.Holds value) :
    R.Holds (Descriptor.readOnly value) := hv

namespace DeclarativeRecord

variable {r : DeclarativeRecord} {name : String} {value : Value}

theorem holds_bindings : R.Holds r.bindings ↔ ∀ e ∈ r.bindings, R.Holds e.2.value := by
  refine holds_list.trans ⟨fun h e he => ((holds_pair e).mp (h e he)).2, fun h e he => ?_⟩
  exact (holds_pair e).mpr ⟨holds_empty _, h e he⟩

theorem cons_holds (hr : R.Holds r) {b : Binding} (hb : R.Holds b.value) :
    R.Holds ({ r with bindings := (name, b) :: r.bindings } : DeclarativeRecord) := by
  have hr := (holds_record _).mp hr
  refine (holds_record _).mpr ⟨⟨hr.1.1, (holds_cons _ _).mpr ⟨?_, hr.1.2⟩⟩, hr.2⟩
  exact (holds_pair _).mpr ⟨holds_empty _, hb⟩

theorem put_holds (hr : R.Holds r) (hv : R.Holds value) : R.Holds (r.put name value) := by
  have hr := (holds_record _).mp hr
  refine (holds_record _).mpr ⟨⟨hr.1.1, holds_bindings.mpr fun e he => ?_⟩, hr.2⟩
  obtain ⟨x, hx, -, hnew | hold⟩ := mem_put he
  · rw [hnew]
    exact (holds_some value).mpr hv
  · rw [hold]
    exact holds_bindings.mp hr.1.2 x hx

@[grind ←] theorem get?_value_holds (hr : R.Holds r) : R.Holds ((r.get? name).bind (·.value)) := by
  cases h : r.get? name with
  | none => exact holds_none.mpr trivial
  | some b => exact holds_bindings.mp ((holds_record _).mp hr).1.2 _ (mem_of_get? h)

theorem create_settles (hr : R.Holds r) (isMutable deletable strict : Bool) :
    R.Settles (r.create name isMutable deletable strict) := by
  unfold create
  split
  · exact rfl
  · exact cons_holds hr (holds_none.mpr trivial)

theorem initBinding_settles (hr : R.Holds r) (hv : R.Holds value) :
    R.Settles (r.initBinding name value) := by
  unfold initBinding
  split
  · exact rfl
  · split
    · exact rfl
    · exact put_holds hr hv

theorem assign_settles (hr : R.Holds r) (hv : R.Holds value) (strict : Bool) :
    R.Settles (r.assign name value strict) := by
  unfold assign
  split
  · split
    · exact trivial
    · exact cons_holds hr ((holds_some value).mpr hv)
  · split
    · exact trivial
    split
    · exact put_holds hr hv
    split
    · exact trivial
    · exact hr

theorem read_settles (hr : R.Holds r) : R.Settles (r.read name) := by
  unfold read
  split
  · exact rfl
  · rename_i b hb
    split
    · rename_i value hvalue
      have hstored : R.Holds ((r.get? name).bind (·.value)) := get?_value_holds hr
      rw [hb, Option.bind_some, hvalue, holds_some] at hstored
      exact hstored
    · exact trivial

theorem delete_settles (hr : R.Holds r) : R.Settles (r.delete name) := by
  unfold delete
  split
  · exact rfl
  · split
    · have hr := (holds_record _).mp hr
      refine (holds_pair _).mpr ⟨holds_empty _, (holds_record _).mpr ⟨⟨hr.1.1, ?_⟩, hr.2⟩⟩
      exact holds_bindings.mpr fun e he => holds_bindings.mp hr.1.2 e (List.mem_filter.mp he).1
    · exact (holds_pair _).mpr ⟨holds_empty _, hr⟩

end DeclarativeRecord

end Holds

namespace DeclarativeRecord

variable {r r' : DeclarativeRecord} {name : String} {value : Value}

theorem initBinding_keeps (h : r.initBinding name value = .ok r') :
    r'.outer = r.outer ∧ r'.call = r.call ∧ ∀ key, r'.has key = r.has key := by
  obtain ⟨b, -, -, rfl⟩ := initBinding_ok h
  exact ⟨rfl, rfl, fun key => r.has_put name key value⟩

theorem assign_keeps {strict : Bool} (h : r.assign name value strict = .ok r') :
    r'.outer = r.outer ∧ r'.call = r.call ∧ (r.has name = true → ∀ key, r'.has key = r.has key) := by
  obtain ⟨hnone, rfl⟩ | ⟨b, -, -, ⟨-, rfl⟩ | ⟨-, rfl⟩⟩ := assign_ok h
  · exact ⟨rfl, rfl, fun hhas => by simp [has, hnone] at hhas⟩
  · exact ⟨rfl, rfl, fun _ key => r.has_put name key value⟩
  · exact ⟨rfl, rfl, fun _ _ => rfl⟩

theorem delete_keeps {deleted : Bool} (h : r.delete name = .ok (deleted, r')) :
    r'.outer = r.outer ∧ r'.call = r.call ∧ ∀ key, r'.has key = true → r.has key = true := by
  obtain ⟨b, -, ⟨-, rfl⟩ | ⟨-, rfl⟩⟩ := delete_ok h
  · refine ⟨rfl, rfl, fun key hkey => ?_⟩
    unfold has at *
    rw [get?_filter] at hkey
    split at hkey
    · cases hkey
    · exact hkey
  · exact ⟨rfl, rfl, fun _ => id⟩

end DeclarativeRecord

end EcmaEval
