import EcmaEval.Proofs.Scope.Global
import EcmaEval.Proofs.Scope.Names

/-!
# The declarations of a script

What a script declares is one list: its block-scoped names, then the last function of each name, then the
variables that no function takes the name of. A declaration that the globals allow is made, and it
changes them under its own name only. So all of them are made if the globals allow them all at the start,
and each has at the end what it was declared to have.
-/
namespace EcmaEval

variable {m m' m'' : Machine} {r : Realm} {s s' s'' : Globals} {lexical lexical' var var' : List String}

/-- Apart from new objects, nothing but the globals of a realm has changed. -/
structure Machine.AltersGlobals (m : Machine) (r : Realm) (m' : Machine) : Prop where
  contexts : m'.contexts = m.contexts
  realms : m'.realms = m.realms
  size : m.objects.size ≤ m'.objects.size
  objects : ∀ o, o ≠ r.globalObject → o.Within m.bounds → m'.object? o = m.object? o

namespace Machine.AltersGlobals

theorem refl (m : Machine) (r : Realm) : m.AltersGlobals r m := ⟨rfl, rfl, Nat.le_refl _, fun _ _ _ => rfl⟩

theorem trans (h : m.AltersGlobals r m') (h' : m'.AltersGlobals r m'') : m.AltersGlobals r m'' where
  contexts := h'.contexts.trans h.contexts
  realms := h'.realms.trans h.realms
  size := Nat.le_trans h.size h'.size
  objects o hne ho := (h'.objects o hne (Nat.lt_of_lt_of_le ho h.size)).trans (h.objects o hne ho)

theorem of_allocates (h : m.Allocates m') (r : Realm) : m.AltersGlobals r m' where
  contexts := h.contexts
  realms := by rw [h.rest]
  size := h.size
  objects o _ ho := h.objects o ho

theorem putGlobals (m : Machine) (r : Realm) (s : Globals) : m.AltersGlobals r (m.putGlobals r s) where
  contexts := rfl
  realms := rfl
  size := by simp [Machine.putGlobals, storeEnv, updateObject]
  objects o hne _ := by
    rw [Machine.putGlobals, object?_storeEnv, object?_updateObject, if_neg hne]

theorem realm? (h : m.AltersGlobals r m') (id : RealmId) : m'.realm? id = m.realm? id := by
  unfold Machine.realm?
  rw [h.realms]

/-- A function is not the global object, so it stays what it is. -/
theorem isClosure (h : m.AltersGlobals r m') (hm : m.HasGlobals r s) {f : ObjectId} {code : FunctionCode}
    {env : EnvId} {realm : RealmId} (hf : m.IsClosure f code env realm) : m'.IsClosure f code env realm := by
  obtain ⟨obj, slots, hobj, hkind, hslots⟩ := hf
  have hne : f ≠ r.globalObject := by
    rintro rfl
    cases hm.object.symm.trans hobj
    cases hm.kind.symm.trans hkind
  exact ⟨obj, slots, (h.objects f hne (within_of_object? hobj)).trans hobj, hkind, hslots⟩

theorem object?_eq_none (h : m.AltersGlobals r m') {o : ObjectId} (ho : m'.object? o = none) :
    m.object? o = none :=
  Array.getElem?_eq_none (Nat.le_trans h.size (Array.getElem?_eq_none_iff.mp ho))

end Machine.AltersGlobals

/-- The globals have changed under these names only, and all names for the function scope are
remembered. -/
structure Globals.Gains (lexical var : List String) (s s' : Globals) : Prop where
  scope : s'.record.scope = s.record.scope
  globalThis : s'.record.globalThis = s.record.globalThis
  bindings : ∀ name, name ∉ lexical → s'.record.declarative.get? name = s.record.declarative.get? name
  varNames : ∀ name, name ∈ s'.record.varNames ↔ name ∈ s.record.varNames ∨ name ∈ var
  prototype : s'.object.prototype = s.object.prototype
  extensible : s'.object.extensible = s.object.extensible
  properties : ∀ key, (∀ name ∈ var, (Key.name name == key) = false) →
    s'.object.properties.get? key = s.object.properties.get? key

namespace Globals

theorem Gains.refl (s : Globals) : Gains [] [] s s :=
  ⟨rfl, rfl, fun _ _ => rfl, fun _ => by simp, rfl, rfl, fun _ _ => rfl⟩

theorem Gains.trans (h : Gains lexical var s s') (h' : Gains lexical' var' s' s'') :
    Gains (lexical ++ lexical') (var ++ var') s s'' where
  scope := h'.scope.trans h.scope
  globalThis := h'.globalThis.trans h.globalThis
  bindings name hname := by
    rw [List.mem_append, not_or] at hname
    exact (h'.bindings name hname.2).trans (h.bindings name hname.1)
  varNames name := by rw [h'.varNames, h.varNames, List.mem_append, or_assoc]
  prototype := h'.prototype.trans h.prototype
  extensible := h'.extensible.trans h.extensible
  properties key hkey :=
    (h'.properties key fun name hname => hkey name (List.mem_append_right _ hname)).trans
      (h.properties key fun name hname => hkey name (List.mem_append_left _ hname))

theorem Gains.property (h : Gains lexical var s s') {name : String} (hname : name ∉ var) :
    s'.object.properties.get? (.name name) = s.object.properties.get? (.name name) := by
  refine h.properties _ fun name' hname' => ?_
  rw [Key.name_beq, beq_eq_false_iff_ne]
  rintro rfl
  exact hname hname'

theorem Gains.takesFunction (h : Gains lexical var s s') {name : String} (hname : name ∉ var) :
    s'.takesFunction name = s.takesFunction name := by
  unfold Globals.takesFunction
  rw [h.property hname, h.extensible]

theorem Gains.takesVar (h : Gains lexical var s s') {name : String} (hname : name ∉ var) :
    s'.takesVar name = s.takesVar name := by
  unfold Globals.takesVar
  rw [h.property hname, h.extensible]

theorem mem_addVarName (s : Globals) (name name' : String) :
    name' ∈ (s.addVarName name).record.varNames ↔ name' ∈ s.record.varNames ∨ name' ∈ [name] := by
  unfold addVarName GlobalRecord.addVarName
  dsimp only
  split
  · rename_i hmem
    refine ⟨.inl, fun h => h.elim id fun h => ?_⟩
    rw [List.mem_singleton.mp h]
    simpa using hmem
  · rw [List.mem_cons, List.mem_singleton, or_comm]

theorem gains_addLexical (s : Globals) (constant : Bool) (name : String) :
    Gains [name] [] s (s.addLexical constant name) where
  scope := rfl
  globalThis := rfl
  bindings name' hname' := by
    rw [List.mem_singleton] at hname'
    exact (DeclarativeRecord.get?_cons ..).trans (if_neg hname')
  varNames _ := by simp [addLexical]
  prototype := rfl
  extensible := rfl
  properties _ _ := rfl

theorem gains_addVarName (s : Globals) (name : String) : Gains [] [name] s (s.addVarName name) where
  scope := rfl
  globalThis := rfl
  bindings _ _ := rfl
  varNames := s.mem_addVarName name
  prototype := rfl
  extensible := rfl
  properties _ _ := rfl

theorem gains_addProperty (s : Globals) (name : String) (value : Value) :
    Gains [] [name] s ((s.addProperty name value).addVarName name) where
  scope := rfl
  globalThis := rfl
  bindings _ _ := rfl
  varNames := (s.addProperty name value).mem_addVarName name
  prototype := rfl
  extensible := rfl
  properties key hkey := by
    have hother := hkey name (List.mem_singleton.mpr rfl)
    simp [addVarName, addProperty, Object.insert_get?, hother]

theorem gains_addVar (s : Globals) (name : String) : Gains [] [name] s (s.addVar name) := by
  unfold addVar
  split
  · exact s.gains_addVarName name
  · exact s.gains_addProperty name .undefined

end Globals

/-- A declaration of a script. -/
inductive Declaration where
  | lexical (constant : Bool) (name : String)
  | function (code : FunctionCode)
  | var (name : String)

namespace Declaration

def lexicalNames : Declaration → List String
  | .lexical _ name => [name]
  | .function _ | .var _ => []

def varNames : Declaration → List String
  | .lexical _ _ => []
  | .function code => [code.bindingName]
  | .var name => [name]

def run (env : EnvId) : Declaration → Eval Unit
  | .lexical constant name => env.createLexical constant name
  | .function code => do
    let f ← instantiateDeclaration code env none
    env.createGlobalFunction code.bindingName (.object f) false
  | .var name => env.createGlobalVar name false

/-- The globals have room for the declaration. -/
def Allowed (s : Globals) : Declaration → Prop
  | .lexical _ name => s.record.declarative.get? name = none
  | .function code => s.takesFunction code.bindingName = true
  | .var name => s.takesVar name = true

/-- What the declaration has led to: an uninitialized binding, a property that holds a new function, or a
property that was there or is undefined. -/
def Done (realm : RealmId) (env : EnvId) (m : Machine) (s : Globals) (m' : Machine) (s' : Globals) :
    Declaration → Prop
  | .lexical constant name =>
    s'.record.declarative.get? name = some ⟨!constant, false, constant, none⟩
  | .function code => ∃ f, m.object? f = none ∧ m'.IsClosure f code env realm ∧
    s'.object.properties.get? (.name code.bindingName) = some (.data (.object f) true true false)
  | .var name => s'.object.properties.get? (.name name) =
    some ((s.object.properties.get? (.name name)).getD (.data .undefined true true false))

/-- The declaration declares none of these names. -/
def Avoids (d : Declaration) (lexical var : List String) : Prop :=
  (∀ name ∈ d.lexicalNames, name ∉ lexical) ∧ ∀ name ∈ d.varNames, name ∉ var

variable {d : Declaration} {realm : RealmId} {env : EnvId}

theorem Allowed.gains (h : d.Allowed s) (hs : s.Gains lexical var s') (hd : d.Avoids lexical var) :
    d.Allowed s' := by
  cases d with
  | lexical constant name => exact (hs.bindings name (hd.1 name (by simp [lexicalNames]))).trans h
  | function code => exact (hs.takesFunction (hd.2 code.bindingName (by simp [varNames]))).trans h
  | var name => exact (hs.takesVar (hd.2 name (by simp [varNames]))).trans h

/-- Later declarations of other names leave alone what a declaration has led to. -/
theorem Done.later (h : d.Done realm env m s m' s') (hm' : m'.HasGlobals r s')
    (halters : m'.AltersGlobals r m'') (hs : s'.Gains lexical var s'') (hd : d.Avoids lexical var) :
    d.Done realm env m s m'' s'' := by
  cases d with
  | lexical constant name => exact (hs.bindings name (hd.1 name (by simp [lexicalNames]))).trans h
  | function code =>
    obtain ⟨f, hnew, hf, hproperty⟩ := h
    have hlater := hs.property (hd.2 code.bindingName (by simp [varNames]))
    exact ⟨f, hnew, halters.isClosure hm' hf, hlater.trans hproperty⟩
  | var name => exact (hs.property (hd.2 name (by simp [varNames]))).trans h

/-- A declaration may be seen from before earlier declarations of other names. -/
theorem Done.earlier (h : d.Done realm env m' s' m'' s'') (halters : m.AltersGlobals r m')
    (hs : s.Gains lexical var s') (hd : d.Avoids lexical var) : d.Done realm env m s m'' s'' := by
  cases d with
  | lexical constant name => exact h
  | function code =>
    obtain ⟨f, hnew, hf⟩ := h
    exact ⟨f, halters.object?_eq_none hnew, hf⟩
  | var name =>
    have hproperty := hs.property (hd.2 name (by simp [varNames]))
    exact h.trans (congrArg (some <| Option.getD · _) hproperty)

section Run

variable {c : Context} {cs : List Context} (hm : m.contexts = c :: cs) (hr : m.realm? c.realm = some r)
  (h : m.HasGlobals r s)

include hm hr h

/-- A declaration that the globals have room for is made. -/
theorem run_eq (hallowed : d.Allowed s) : ∃ m' s', d.run r.globalEnv m = .ok () m' ∧ m'.HasGlobals r s' ∧
    m.AltersGlobals r m' ∧ s.Gains d.lexicalNames d.varNames s' ∧
    d.Done c.realm r.globalEnv m s m' s' := by
  cases d with
  | lexical constant name =>
    refine ⟨_, _, h.createLexical_eq constant hallowed, h.put rfl rfl, .putGlobals m r _,
      s.gains_addLexical constant name, ?_⟩
    exact (DeclarativeRecord.get?_cons ..).trans (if_pos rfl)
  | function code =>
    obtain ⟨m₁, hmake, hallocates, hclosure, -⟩ := instantiateDeclaration_eq hm hr code r.globalEnv none
    have h₁ := h.allocates hallocates
    let f : ObjectId := ⟨m.objects.size⟩
    have hputs : m₁.AltersGlobals r (m₁.putGlobals r (s.addFunction code.bindingName f)) := .putGlobals ..
    refine ⟨_, _, (bind_ok hmake).trans (h₁.createGlobalFunction_eq f hallowed), h₁.put rfl rfl,
      (Machine.AltersGlobals.of_allocates hallocates r).trans hputs, s.gains_addProperty _ _,
      f, Array.getElem?_eq_none (Nat.le_refl _), hputs.isClosure h₁ hclosure, ?_⟩
    simp [Globals.addFunction, Globals.addVarName, Globals.addProperty, Object.insert_get?]
  | var name =>
    refine ⟨_, _, h.createGlobalVar_eq hallowed, h.put ?_ ?_, .putGlobals m r _, s.gains_addVar name, ?_⟩
    · exact (s.gains_addVar name).scope
    · unfold Globals.addVar
      split <;> rfl
    · change (s.addVar name).object.properties.get? (.name name) = _
      cases hold : s.object.properties.get? (.name name) with
      | some old => simp [Globals.addVar, Globals.addVarName, hold]
      | none => simp [Globals.addVar, Globals.addVarName, Globals.addProperty, Object.insert_get?, hold]

/-- Declarations of different names that the globals have room for are all made. -/
theorem forM_run_eq {ds : List Declaration} (hallowed : ∀ d ∈ ds, d.Allowed s)
    (hlexical : (ds.flatMap lexicalNames).Nodup) (hvar : (ds.flatMap varNames).Nodup) :
    ∃ m' s', ds.forM (run r.globalEnv) m = .ok () m' ∧ m'.HasGlobals r s' ∧ m.AltersGlobals r m' ∧
      s.Gains (ds.flatMap lexicalNames) (ds.flatMap varNames) s' ∧
      ∀ d ∈ ds, d.Done c.realm r.globalEnv m s m' s' := by
  induction ds generalizing m s with
  | nil => exact ⟨m, s, rfl, h, .refl m r, .refl s, nofun⟩
  | cons d ds ih =>
    obtain ⟨hd, hds⟩ := List.forall_mem_cons.mp hallowed
    rw [List.flatMap_cons] at hlexical hvar
    obtain ⟨-, hlexical', hapart⟩ := List.nodup_append.mp hlexical
    obtain ⟨-, hvar', hapart'⟩ := List.nodup_append.mp hvar
    have havoids : d.Avoids (ds.flatMap lexicalNames) (ds.flatMap varNames) :=
      ⟨fun name hname hmem => hapart name hname name hmem rfl,
        fun name hname hmem => hapart' name hname name hmem rfl⟩
    have havoided : ∀ d' ∈ ds, d'.Avoids d.lexicalNames d.varNames := fun d' hd' =>
      ⟨fun name hname hmem => havoids.1 name hmem (List.mem_flatMap.mpr ⟨d', hd', hname⟩),
        fun name hname hmem => havoids.2 name hmem (List.mem_flatMap.mpr ⟨d', hd', hname⟩)⟩
    obtain ⟨m₁, s₁, hrun, h₁, halters, hgains, hdone⟩ := run_eq hm hr h hd
    obtain ⟨m₂, s₂, hrest, h₂, halters', hgains', hdone'⟩ := ih (halters.contexts.trans hm)
      ((halters.realm? _).trans hr) h₁ (fun d' hd' => (hds d' hd').gains hgains (havoided d' hd'))
      hlexical' hvar'
    refine ⟨m₂, s₂, (bind_ok hrun).trans hrest, h₂, halters.trans halters', hgains.trans hgains', ?_⟩
    refine List.forall_mem_cons.mpr ⟨hdone.later h₁ halters' hgains' havoids, fun d' hd' => ?_⟩
    exact (hdone' d' hd').earlier halters hgains (havoided d' hd')

end Run

end Declaration

/-- The names of declarations, each with whether it is constant. -/
def LexicalDeclaration.flagged (ds : List LexicalDeclaration) : List (Bool × String) :=
  ds.flatMap fun d => d.boundNames.map (d.isConstant, ·)

theorem declareLexical_eq (env : EnvId) (ds : List LexicalDeclaration) :
    declareLexical env ds = (LexicalDeclaration.flagged ds).forM fun e => env.createLexical e.1 e.2 := by
  unfold declareLexical LexicalDeclaration.flagged
  induction ds with
  | nil => rfl
  | cons d ds ih =>
    simp only [List.forM_eq_forM] at ih ⊢
    rw [List.forM_cons, ih, List.flatMap_cons, List.forM_append, List.forM_map]

namespace Body

variable {body : List Statement} {name : String}

/-- The variables that no function takes the name of. -/
def plainNames (body : List Statement) : List String :=
  (Body.variableNames body).filter (!((Body.functions body).map (·.bindingName)).contains ·)

def declarations (body : List Statement) : List Declaration :=
  (Body.lexicallyScoped body true).flatMap (fun d => d.boundNames.map (.lexical d.isConstant)) ++
    ((Body.functions body).map .function ++ (plainNames body).eraseDups.map .var)

theorem declareGlobal_eq (body : List Statement) (env : EnvId) :
    declareGlobal body env = (declarations body).forM (Declaration.run env) := by
  have hlexical (ds : List LexicalDeclaration) : declareLexical env ds =
      (ds.flatMap fun d => d.boundNames.map (.lexical d.isConstant)).forM (Declaration.run env) := by
    have hmap : (ds.flatMap fun d => d.boundNames.map (.lexical d.isConstant)) =
        (LexicalDeclaration.flagged ds).map fun e => Declaration.lexical e.1 e.2 := by
      simp [LexicalDeclaration.flagged, List.map_flatMap, Function.comp_def]
    rw [declareLexical_eq, hmap]
    simp only [List.forM_eq_forM, List.forM_map]
    rfl
  unfold declareGlobal declarations
  rw [hlexical]
  simp only [List.forM_eq_forM, List.forM_append, List.forM_map]
  rfl

theorem lexicalNames_declarations (body : List Statement) :
    (declarations body).flatMap Declaration.lexicalNames = Body.lexicalNames body true := by
  simp [declarations, List.flatMap_assoc, List.flatMap_map, Declaration.lexicalNames, Body.lexicalNames]

theorem varNames_declarations (body : List Statement) :
    (declarations body).flatMap Declaration.varNames =
      (Body.functions body).map (·.bindingName) ++ (plainNames body).eraseDups := by
  simp [declarations, List.flatMap_assoc, Declaration.varNames, List.map_eq_flatMap]

theorem mem_plainNames :
    name ∈ plainNames body ↔ DeclaresVar body name ∧ ¬ DeclaresFunction body name := by
  unfold plainNames
  rw [List.mem_filter, mem_variableNames]
  simp only [Bool.not_eq_true', List.contains_eq_mem, decide_eq_false_iff_not, mem_functionNames]

theorem lexical_mem_declarations {constant : Bool} :
    .lexical constant name ∈ declarations body ↔ DeclaresLexical body constant name := by
  rw [← mem_lexicallyScoped]
  simp [declarations, and_comm]

theorem function_mem_declarations {code : FunctionCode} :
    .function code ∈ declarations body ↔ code ∈ Body.functions body := by
  simp [declarations]

theorem var_mem_declarations :
    .var name ∈ declarations body ↔ DeclaresVar body name ∧ ¬ DeclaresFunction body name := by
  rw [← mem_plainNames]
  simp [declarations]

theorem mem_varNames_declarations :
    name ∈ (declarations body).flatMap Declaration.varNames ↔
      DeclaresVar body name ∨ DeclaresFunction body name := by
  rw [varNames_declarations, List.mem_append, mem_functionNames, List.mem_eraseDups, mem_plainNames]
  by_cases h : DeclaresFunction body name <;> simp [h]

theorem nodup_varNames_declarations (body : List Statement) :
    ((declarations body).flatMap Declaration.varNames).Nodup := by
  rw [varNames_declarations]
  refine List.nodup_append.mpr ⟨?_, nodup_eraseDups _, ?_⟩
  · rw [functions_eq]
    exact lastOfEachName_nodup _
  · rintro name hfunction _ hplain rfl
    exact (mem_plainNames.mp (List.mem_eraseDups.mp hplain)).2 (mem_functionNames.mp hfunction)

end Body

end EcmaEval
