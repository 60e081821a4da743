import EcmaEval.Proofs.Heap.Alias
import EcmaEval.Proofs.Heap.Create
import EcmaEval.Proofs.Host.Global
import EcmaEval.Proofs.Text

/-!
# The state of a global environment

A global environment and the object under it, taken together as one state. Each question that the checks
of a script ask has its answer in this state, and each declaration that the checks allow is made: it
changes the state in one way, and nothing else of the machine but for a new function.
-/
namespace EcmaEval

variable {m m' m'' : Machine} {r : Realm} {name : String} {key : Key} {o : ObjectId} {obj : Object}

/-- A writable data property of an object's own takes a value that is set on the object. -/
theorem ObjectId.set_own {v : Value} {enumerable configurable : Bool} (ho : m.object? o = some obj)
    (hkey : obj.parameter? key = none) (harray : obj.isArray = false)
    (hown : obj.properties.get? key = some (.data v true enumerable configurable)) (value : Value) :
    o.set key value (.object o) m =
      .ok true (m.updateObject o (·.insert key (.data value true enumerable configurable))) := by
  have hmapped : o.writeMapped key value m = .ok () m := by
    unfold writeMapped
    rw [bind_ok (lift_ok (mappedParameter_eq ho)), hkey]
    rfl
  have hfound : searchChain (some o) (fun p => return (← p.load).properties.get? key) m =
      .ok (some (.data v true enumerable configurable)) := by
    refine searchChain_here ?_
    rw [Query.bind_ok (load_eq ho), hown]
    rfl
  have hmay : Descriptor.mayBecome (some (.data v true enumerable configurable)) obj.extensible
      (.data value true enumerable configurable) = true := by
    cases configurable <;> simp [Descriptor.mayBecome, Descriptor.configurable, Descriptor.enumerable]
  have hassign : o.assignOwn key value m =
      .ok true (m.updateObject o (·.insert key (.data value true enumerable configurable))) := by
    unfold assignOwn
    rw [bind_ok (lift_ok (getOwnProperty_eq_stored ho hkey)), hown]
    exact (define_eq ho hkey harray _).trans (if_pos (hown ▸ hmay))
  have hsame : (Value.object o).same (.object o) = true := Value.same_refl rfl
  have hchain : o.setOnChain key value (.object o) m =
      .ok true (m.updateObject o (·.insert key (.data value true enumerable configurable))) := by
    unfold setOnChain
    rw [bind_ok (lift_ok hfound)]
    exact hassign
  unfold set
  rw [if_pos hsame]
  exact (bind_ok hmapped).trans hchain

/-- A global record with the object under it. -/
structure Globals where
  record : GlobalRecord
  object : Object

namespace Globals

variable (s : Globals)

/-- A block-scoped declaration of the name would clash with another declaration or with a property that
cannot be removed. -/
def isTaken (name : String) : Bool :=
  s.record.varNames.contains name || s.record.declarative.has name ||
    (s.object.properties.get? (.name name)).any (!·.configurable)

/-- The object has a property of the name, or takes a new one. -/
def takesVar (name : String) : Bool :=
  (s.object.properties.get? (.name name)).isSome || s.object.extensible

/-- The property of the name may become an enumerable property that functions are stored in. -/
def takesFunction (name : String) : Bool :=
  match s.object.properties.get? (.name name) with
  | none => s.object.extensible
  | some (.data _ writable enumerable configurable) => configurable || (writable && enumerable)
  | some (.accessor _ _ _ configurable) => configurable

/-- Adds an uninitialized block-scoped binding. -/
def addLexical (constant : Bool) (name : String) : Globals :=
  let b : Binding := ⟨!constant, false, constant, none⟩
  let declarative := { s.record.declarative with bindings := (name, b) :: s.record.declarative.bindings }
  { s with record := { s.record with declarative } }

/-- Remembers a name that is declared for the function scope. -/
def addVarName (name : String) : Globals := { s with record := s.record.addVarName name }

/-- The property of a declaration: it can be written and enumerated but not removed. -/
def addProperty (name : String) (value : Value) : Globals :=
  { s with object := s.object.insert (.name name) (.data value true true false) }

def addFunction (name : String) (f : ObjectId) : Globals := (s.addProperty name (.object f)).addVarName name

/-- An existing property stays as it is. -/
def addVar (name : String) : Globals :=
  if (s.object.properties.get? (.name name)).isSome then s.addVarName name
  else (s.addProperty name .undefined).addVarName name

end Globals

variable {s s' : Globals}

/-- The state of the globals of a realm. The global object is an ordinary one. -/
structure Machine.HasGlobals (m : Machine) (r : Realm) (s : Globals) : Prop where
  env : m.env? r.globalEnv = some (.global s.record)
  scope : s.record.scope.object = r.globalObject
  object : m.object? r.globalObject = some s.object
  kind : s.object.kind = .ordinary

def Machine.putGlobals (m : Machine) (r : Realm) (s : Globals) : Machine :=
  (m.updateObject r.globalObject fun _ => s.object).storeEnv r.globalEnv (.global s.record)

theorem Machine.putGlobals_putGlobals (m : Machine) (r : Realm) (s s' : Globals) :
    (m.putGlobals r s).putGlobals r s' = m.putGlobals r s' :=
  calc (m.putGlobals r s).putGlobals r s'
    _ = (((m.updateObject r.globalObject fun _ => s.object).updateObject r.globalObject
          fun _ => s'.object).storeEnv r.globalEnv (.global s.record)).storeEnv r.globalEnv
          (.global s'.record) := rfl
    _ = m.putGlobals r s' := by rw [storeEnv_storeEnv, updateObject_updateObject, putGlobals]

namespace Machine.HasGlobals

variable (h : m.HasGlobals r s)

include h

theorem put (hscope : s'.record.scope = s.record.scope) (hkind : s'.object.kind = s.object.kind) :
    (m.putGlobals r s').HasGlobals r s' where
  env := env?_storeEnv_self (m := m.updateObject _ _) h.env _
  scope := hscope ▸ h.scope
  object := object?_updateObject_self h.object fun _ => s'.object
  kind := hkind.trans h.kind

theorem allocates (hm : m.Allocates m') : m'.HasGlobals r s where
  env := (hm.env? _).trans h.env
  scope := h.scope
  object := (hm.objects _ (within_of_object? h.object)).trans h.object
  kind := h.kind

theorem parameter?_eq_none (key : Key) : s.object.parameter? key = none := by
  simp [Object.parameter?, Object.parameterMap?, h.kind]

theorem isArray_eq_false : s.object.isArray = false := by simp [Object.isArray, h.kind]

theorem loadGlobal_eq : r.globalEnv.loadGlobal m = .ok s.record := EnvId.loadGlobal_eq h.env

theorem getOwnProperty_eq (key : Key) :
    r.globalObject.getOwnProperty key m = .ok (s.object.properties.get? key) :=
  ObjectId.getOwnProperty_eq_stored h.object (h.parameter?_eq_none key)

theorem hasOwnProperty_eq (key : Key) :
    r.globalObject.hasOwnProperty key m = .ok (s.object.properties.get? key).isSome :=
  Query.bind_ok (h.getOwnProperty_eq key)

theorem isTaken_eq (name : String) : r.globalEnv.isTaken name m = .ok (s.isTaken name) := by
  have hvar : r.globalEnv.hasVarDeclaration name m = .ok (s.record.varNames.contains name) :=
    Query.bind_ok h.loadGlobal_eq
  have hlexical : r.globalEnv.hasLexicalDeclaration name m = .ok (s.record.declarative.has name) :=
    Query.bind_ok h.loadGlobal_eq
  have hproperty : r.globalEnv.hasRestrictedProperty name m =
      .ok ((s.object.properties.get? (.name name)).any (!·.configurable)) := by
    unfold EnvId.hasRestrictedProperty
    rw [Query.bind_ok h.loadGlobal_eq, h.scope, Query.bind_ok (h.getOwnProperty_eq _)]
    cases s.object.properties.get? (.name name) <;> rfl
  unfold EnvId.isTaken Globals.isTaken
  rw [Query.bind_ok hvar]
  cases s.record.varNames.contains name with
  | true => rfl
  | false =>
    refine (Query.bind_ok hlexical).trans ?_
    cases s.record.declarative.has name with
    | true => rfl
    | false => exact hproperty

theorem canDeclareVar_eq (name : String) : r.globalEnv.canDeclareVar name m = .ok (s.takesVar name) := by
  unfold EnvId.canDeclareVar Globals.takesVar
  rw [Query.bind_ok h.loadGlobal_eq, h.scope, Query.bind_ok (h.hasOwnProperty_eq _)]
  cases (s.object.properties.get? (.name name)).isSome with
  | true => rfl
  | false => exact ObjectId.isExtensible_eq h.object

theorem canDeclareFunction_eq (name : String) :
    r.globalEnv.canDeclareFunction name m = .ok (s.takesFunction name) := by
  unfold EnvId.canDeclareFunction Globals.takesFunction
  rw [Query.bind_ok h.loadGlobal_eq, h.scope, Query.bind_ok (h.getOwnProperty_eq _)]
  cases s.object.properties.get? (.name name) with
  | none => exact ObjectId.isExtensible_eq h.object
  | some d => cases d <;> rfl

theorem storeEnv_eq (record : GlobalRecord) :
    m.storeEnv r.globalEnv (.global record) = m.putGlobals r { s with record } := by
  rw [Machine.putGlobals, Machine.updateObject_of_eq h.object rfl]

theorem createLexical_eq (constant : Bool) (hnew : s.record.declarative.get? name = none) :
    r.globalEnv.createLexical constant name m = .ok () (m.putGlobals r (s.addLexical constant name)) := by
  have hhas : s.record.declarative.has name = false := by simp [DeclarativeRecord.has, hnew]
  have hstore (record : GlobalRecord) : r.globalEnv.store (.global record) m =
      .ok () (m.putGlobals r { s with record }) := by
    rw [EnvId.store_eq (within_of_env? h.env), h.storeEnv_eq]
  unfold EnvId.createLexical
  cases constant with
  | true =>
    unfold EnvId.createImmutable
    rw [if_pos rfl, bind_ok (lift_ok (EnvId.load_eq h.env))]
    dsimp only
    rw [hhas, DeclarativeRecord.createImmutable, DeclarativeRecord.create, hhas]
    exact hstore _
  | false =>
    unfold EnvId.createMutable
    rw [if_neg Bool.false_ne_true, bind_ok (lift_ok (EnvId.load_eq h.env))]
    dsimp only
    rw [hhas, DeclarativeRecord.createMutable, DeclarativeRecord.create, hhas]
    exact hstore _

theorem declareVarName_eq (name : String) :
    r.globalEnv.declareVarName name m = .ok () (m.putGlobals r (s.addVarName name)) := by
  unfold EnvId.declareVarName
  rw [bind_ok (lift_ok h.loadGlobal_eq), EnvId.store_eq (within_of_env? h.env), h.storeEnv_eq]
  rfl

/-- A property that may become that of a declaration is defined, and takes the value again. -/
theorem defineOrThrow_set (value : Value)
    (hmay : Descriptor.mayBecome (s.object.properties.get? (.name name)) s.object.extensible
      (.data value true true false) = true) :
    let m' := m.putGlobals r (s.addProperty name value)
    r.globalObject.defineOrThrow (.name name) (.data value true true false) m = .ok () m' ∧
      r.globalObject.set (.name name) value (.object r.globalObject) m' = .ok true m' := by
  intro m'
  let d : Descriptor := .data value true true false
  have hput : m.updateObject r.globalObject (·.insert (.name name) d) = m' :=
    calc m.updateObject r.globalObject (·.insert (.name name) d)
      _ = m.updateObject r.globalObject fun _ => s.object.insert (.name name) d :=
        updateObject_congr h.object rfl
      _ = m' := (storeEnv_self (m := m.updateObject _ _) h.env).symm
  have hm' : m'.HasGlobals r (s.addProperty name value) := h.put rfl rfl
  have hown : (s.addProperty name value).object.properties.get? (.name name) = some d := by
    simp [Globals.addProperty, Object.insert_get?, d]
  constructor
  · rw [ObjectId.defineOrThrow_eq h.object (h.parameter?_eq_none _) h.isArray_eq_false hmay, hput]
  · rw [ObjectId.set_own hm'.object (hm'.parameter?_eq_none _) hm'.isArray_eq_false hown,
      updateObject_of_eq hm'.object (Object.insert_insert s.object (.name name) d d)]

theorem createGlobalFunction_eq (f : ObjectId) (htakes : s.takesFunction name = true) :
    r.globalEnv.createGlobalFunction name (.object f) false m =
      .ok () (m.putGlobals r (s.addFunction name f)) := by
  let m' := m.putGlobals r (s.addProperty name (.object f))
  have hm' : m'.HasGlobals r (s.addProperty name (.object f)) := h.put rfl rfl
  let d : Descriptor := .data (.object f) true true false
  -- Whichever property there is, a function that may be declared becomes the same one.
  have hproperty : (∀ old, s.object.properties.get? (.name name) = some old →
      (if old.configurable then d else old.withValue (.object f)) = d) ∧
      Descriptor.mayBecome (s.object.properties.get? (.name name)) s.object.extensible d = true := by
    unfold Globals.takesFunction at htakes
    cases hold : s.object.properties.get? (.name name) with
    | none =>
      rw [hold] at htakes
      exact ⟨nofun, htakes⟩
    | some old =>
      rw [hold] at htakes
      cases old with
      | accessor get set enumerable configurable =>
        cases htakes
        exact ⟨by rintro _ ⟨⟩; rfl, rfl⟩
      | data v writable enumerable configurable =>
        cases configurable with
        | true => exact ⟨by rintro _ ⟨⟩; rfl, rfl⟩
        | false =>
          obtain ⟨rfl, rfl⟩ : writable = true ∧ enumerable = true := by simpa using htakes
          exact ⟨by rintro _ ⟨⟩; rfl, rfl⟩
  obtain ⟨hdefine, hset⟩ := h.defineOrThrow_set (.object f) hproperty.2
  have hrest : (do
      r.globalObject.defineOrThrow (.name name) d
      if !(← r.globalObject.set (.name name) (.object f) (.object r.globalObject)) then
        complain (.readOnlyBinding name)
      r.globalEnv.declareVarName name : Eval Unit) m = .ok () (m.putGlobals r (s.addFunction name f)) := by
    rw [← m.putGlobals_putGlobals r (s.addProperty name (.object f))]
    exact (bind_ok hdefine).trans ((bind_ok hset).trans (hm'.declareVarName_eq name))
  unfold EnvId.createGlobalFunction
  rw [bind_ok (lift_ok h.loadGlobal_eq), h.scope, bind_ok (lift_ok (h.getOwnProperty_eq _))]
  cases hold : s.object.properties.get? (.name name) with
  | none => exact hrest
  | some old =>
    dsimp only
    rw [hproperty.1 old hold]
    exact hrest

theorem createGlobalVar_eq (htakes : s.takesVar name = true) :
    r.globalEnv.createGlobalVar name false m = .ok () (m.putGlobals r (s.addVar name)) := by
  unfold EnvId.createGlobalVar
  rw [bind_ok (lift_ok h.loadGlobal_eq), h.scope, bind_ok (lift_ok (h.hasOwnProperty_eq _)),
    bind_ok (lift_ok (ObjectId.isExtensible_eq h.object))]
  cases hold : s.object.properties.get? (.name name) with
  | some d =>
    have hadd : s.addVar name = s.addVarName name := by simp [Globals.addVar, hold]
    rw [hadd]
    exact h.declareVarName_eq name
  | none =>
    have hextensible : s.object.extensible = true := by simpa [Globals.takesVar, hold] using htakes
    have hadd : s.addVar name = (s.addProperty name .undefined).addVarName name := by
      simp [Globals.addVar, hold]
    let m' := m.putGlobals r (s.addProperty name .undefined)
    have hm' : m'.HasGlobals r (s.addProperty name .undefined) := h.put rfl rfl
    obtain ⟨hdefine, hset⟩ := h.defineOrThrow_set .undefined (by rw [hold]; exact hextensible)
    have hcreate : s.record.scope.createMutable name false m = .ok () m' := by
      rw [ObjectScope.createMutable, h.scope]
      exact hdefine
    have hassign : s.record.scope.assign name .undefined false m' = .ok () m' := by
      have hfound : s.record.scope.hasBinding name m' = .ok true := by
        rw [ObjectScope.hasBinding, h.scope]
        exact ObjectId.hasProperty_own hm'.object (by simp [Globals.addProperty, Object.insert_get?])
      unfold ObjectScope.assign
      rw [bind_ok (lift_ok hfound), h.scope]
      exact bind_ok hset
    rw [hadd, hextensible, ← m.putGlobals_putGlobals r (s.addProperty name .undefined)]
    exact (bind_ok hcreate).trans ((bind_ok hassign).trans (hm'.declareVarName_eq name))

end Machine.HasGlobals

end EcmaEval
