import EcmaEval.Proofs.Host.Realm
import EcmaEval.Proofs.Scope.Declare

/-!
# Global declarations of a script

Before its statements run, a script checks that all its names can be declared and then declares them. The
checks are sharp: where they are passed no declaration fails, whatever became of the global object. So a
script declares all its names or, with an error, none of them, and the names it declares have what their
declarations say.
-/
namespace EcmaEval

variable {m n m' : Machine} {r : Realm} {s : Globals} {body : List Statement}

/-- How checks end: they are passed, or a complaint is thrown. -/
def Realm.verdict (r : Realm) (m : Machine) : Option Complaint → EStateM.Result Abrupt Machine Unit
  | none => .ok () m
  | some complaint =>
    .error (.thrown (.object ⟨m.objects.size⟩)) (m.pushObject (r.errorFor complaint))

theorem Realm.verdict_bind {x y : Eval Unit} {a b : Option Complaint} (hx : x m = r.verdict m a)
    (hy : y m = r.verdict m b) : (x >>= fun _ => y) m = r.verdict m (a.or b) := by
  cases a with
  | none => exact (bind_ok hx).trans hy
  | some complaint => exact bind_error hx

/-- What a script has to complain about: the first name that cannot be declared, in the order of the
checks. -/
def Globals.complaint? (s : Globals) (body : List Statement) : Option Complaint :=
  let functionNames := (Body.functions body).map (·.bindingName)
  (((Body.lexicalNames body true).find? s.isTaken).map .redeclared).or <|
    (((Body.varNames body).find? s.record.declarative.has).map .redeclared).or <|
    ((functionNames.reverse.find? (!s.takesFunction ·)).map .cannotDeclareFunction).or <|
    ((Body.plainNames body).find? (!s.takesVar ·)).map .cannotDeclareVariable

section Checks

variable {c : Context} {cs : List Context} (hm : m.contexts = c :: cs) (hr : m.realm? c.realm = some r)

include hm hr

theorem checks_eq {p : String → Query Bool} {q : String → Bool} (hp : ∀ name, p name m = .ok (q name))
    (f : Bool → Bool) (complaint : String → Complaint) (names : List String) :
    (names.forM fun name => liftM (p name) >>= fun b => if f b then complain (complaint name) else pure ()) m =
      r.verdict m ((names.find? fun name => f (q name)).map complaint) := by
  induction names with
  | nil => rfl
  | cons name names ih =>
    have hfirst : (liftM (p name) >>= fun b =>
        if f b then complain (complaint name) else pure () : Eval Unit) m =
          r.verdict m (if f (q name) then some (complaint name) else none) := by
      refine (bind_ok (lift_ok (hp name))).trans ?_
      cases f (q name) with
      | true => exact complain_eq hm hr (complaint name)
      | false => rfl
    refine (Realm.verdict_bind hfirst ih).trans ?_
    rw [List.find?_cons]
    cases f (q name) <;> rfl

/-- The checks of a script throw the complaint that there is, and change nothing else. -/
theorem checkGlobal_eq (h : m.HasGlobals r s) (body : List Statement) :
    checkGlobal body r.globalEnv m = r.verdict m (s.complaint? body) := by
  have hlexical (name : String) :
      r.globalEnv.hasLexicalDeclaration name m = .ok (s.record.declarative.has name) :=
    EnvId.hasLexicalDeclaration_eq h.env
  exact Realm.verdict_bind (checks_eq hm hr h.isTaken_eq id .redeclared _)
    (Realm.verdict_bind (checks_eq hm hr hlexical id .redeclared _)
      (Realm.verdict_bind (checks_eq hm hr h.canDeclareFunction_eq not .cannotDeclareFunction _)
        (checks_eq hm hr h.canDeclareVar_eq not .cannotDeclareVariable _)))

end Checks

namespace Globals

theorem complaint?_kind {complaint : Complaint} (h : s.complaint? body = some complaint) :
    complaint.kind = .syntaxError ∨ complaint.kind = .typeError := by
  unfold complaint? at h
  simp only [Option.or_eq_some_iff, Option.map_eq_some_iff] at h
  obtain ⟨_, -, rfl⟩ | ⟨-, ⟨_, -, rfl⟩ | ⟨-, ⟨_, -, rfl⟩ | ⟨-, ⟨_, -, rfl⟩⟩⟩⟩ := h
  · exact .inl rfl
  · exact .inl rfl
  · exact .inr rfl
  · exact .inr rfl

/-- Globals that give no reason to complain have room for each declaration. -/
theorem allowed_of_complaint? (h : s.complaint? body = none) :
    ∀ d ∈ Body.declarations body, d.Allowed s := by
  unfold complaint? at h
  simp only [Option.or_eq_none_iff, Option.map_eq_none_iff, List.find?_eq_none, List.mem_reverse] at h
  obtain ⟨hlexical, -, hfunctions, hvars⟩ := h
  intro d hd
  rcases List.mem_append.mp hd with hd | hd
  · obtain ⟨d, hdeclared, hd⟩ := List.mem_flatMap.mp hd
    obtain ⟨name, hname, rfl⟩ := List.mem_map.mp hd
    have hfree := hlexical name (List.mem_flatMap.mpr ⟨d, hdeclared, hname⟩)
    have hhas : (s.record.declarative.get? name).isSome = false := by
      simp_all [isTaken, DeclarativeRecord.has]
    exact Option.isNone_iff_eq_none.mp (Option.isSome_eq_false_iff.mp hhas)
  rcases List.mem_append.mp hd with hd | hd
  · obtain ⟨code, hcode, rfl⟩ := List.mem_map.mp hd
    have hfree := hfunctions code.bindingName (List.mem_map.mpr ⟨code, hcode, rfl⟩)
    rwa [Bool.not_eq_true', Bool.not_eq_false] at hfree
  · obtain ⟨name, hname, rfl⟩ := List.mem_map.mp hd
    have hfree := hvars name (List.mem_eraseDups.mp hname)
    rwa [Bool.not_eq_true', Bool.not_eq_false] at hfree

end Globals

section Instantiation

variable {c : Context} {cs : List Context} (hm : m.contexts = c :: cs) (hr : m.realm? c.realm = some r)
  (h : m.HasGlobals r s) (hnodup : (Body.lexicalNames body true).Nodup)

include hm hr h

/-- A script with a name that cannot be declared throws and declares none. -/
theorem instantiateGlobal_eq_error {complaint : Complaint} (hcomplaint : s.complaint? body = some complaint) :
    instantiateGlobal body r.globalEnv m = r.verdict m (some complaint) := by
  rw [instantiateGlobal_eq]
  exact bind_error ((checkGlobal_eq hm hr h body).trans (by rw [hcomplaint]; rfl))

include hnodup

/-- A script without such a name declares them all. -/
theorem instantiateGlobal_eq_ok (hcomplaint : s.complaint? body = none) :
    ∃ m' s', instantiateGlobal body r.globalEnv m = .ok () m' ∧ m'.HasGlobals r s' ∧
      s.Gains (Body.lexicalNames body true) ((Body.declarations body).flatMap Declaration.varNames) s' ∧
      ∀ d ∈ Body.declarations body, d.Done c.realm r.globalEnv m s m' s' := by
  have hcheck : checkGlobal body r.globalEnv m = .ok () m := by
    rw [checkGlobal_eq hm hr h, hcomplaint]
    rfl
  have hlexical := Body.lexicalNames_declarations body
  obtain ⟨m', s', hrun, h', -, hgains, hdone⟩ := Declaration.forM_run_eq hm hr h
    (Globals.allowed_of_complaint? hcomplaint) (hlexical ▸ hnodup) (Body.nodup_varNames_declarations body)
  refine ⟨m', s', ?_, h', hlexical ▸ hgains, hdone⟩
  rw [instantiateGlobal_eq, bind_ok hcheck, Body.declareGlobal_eq, hrun]

end Instantiation

theorem pushScriptContext_eq_ok {id : RealmId} {strict : Bool} (hr : m.realm? id = some r)
    (h : pushScriptContext id strict m = .ok () n) :
    ∃ c, n = m.withContexts (c :: m.contexts) ∧ c.realm = id := by
  have hcontext : scriptContext id strict m = .ok ⟨id, none, r.globalEnv, r.globalEnv, none, [], strict⟩ :=
    Query.bind_ok (RealmId.load_eq hr)
  rw [pushScriptContext, bind_ok (lift_ok hcontext)] at h
  obtain ⟨-, rfl⟩ := pushContext_eq_ok h
  exact ⟨_, rfl, rfl⟩

theorem Realm.Governs.hasGlobals (h : r.Governs m) : ∃ s, m.HasGlobals r s := by
  obtain ⟨record, obj, henv, hscope, hobj, hkind⟩ := h
  exact ⟨⟨record, obj⟩, henv, hscope, hobj, hkind⟩

/-- The machine that a script of a reachable machine starts on. -/
theorem Contract.Reachable.pushScriptContext (hm : Contract.handles.Reachable m) {id : RealmId}
    {strict : Bool} (hr : m.realm? id = some r) (hpush : pushScriptContext id strict m = .ok () n) :
    ∃ c s, n.contexts = c :: m.contexts ∧ c.realm = id ∧ n.realm? c.realm = some r ∧ n.HasGlobals r s := by
  obtain ⟨c, rfl, rfl⟩ := pushScriptContext_eq_ok hr hpush
  obtain ⟨s, h⟩ := ((hm.realmsOk Contract.handles_open).governs c.realm r hr).hasGlobals
  exact ⟨c, s, rfl, rfl, hr, h.env, h.scope, h.object, h.kind⟩

/-- The first script of a new realm. -/
theorem newRealm_starts_script : ∃ (r : Realm) (m n : Machine), newRealm {} = .ok ⟨0⟩ m ∧
    Contract.handles.Reachable m ∧ m.realm? ⟨0⟩ = some r ∧ r.globalEnv = ⟨0⟩ ∧
    pushScriptContext ⟨0⟩ false m = .ok () n ∧
    n = (pushScriptContext ⟨0⟩ false).after (newRealm.after {}) := by
  obtain ⟨r, m, hrun, hfounded⟩ := newRealm_founded {}
  have hafter : newRealm.after {} = m := Eval.after_ok hrun
  have hm : Operation.newRealm.run.after {} = m := (Eval.after_discard newRealm {}).trans hafter
  have hr : m.realm? ⟨0⟩ = some r := (hfounded.realm? ⟨0⟩).trans (if_pos rfl)
  have hreach : Contract.handles.Reachable m := hm ▸ (Contract.Reachable.new _).perform .newRealm trivial
  let c : Context := ⟨⟨0⟩, none, r.globalEnv, r.globalEnv, none, [], false⟩
  have hcontext : scriptContext ⟨0⟩ false m = .ok c := Query.bind_ok (RealmId.load_eq hr)
  have hroom : ¬ m.stackLimit ≤ m.contexts.length := by
    rw [hfounded.stackLimit, hfounded.contexts]
    decide
  have hpush : pushScriptContext ⟨0⟩ false m = .ok () { m with contexts := c :: m.contexts } := by
    rw [pushScriptContext, bind_ok (lift_ok hcontext), pushContext_of_room c hroom]
  refine ⟨r, m, _, hrun, hreach, hr, hfounded.globalEnv, hpush, ?_⟩
  rw [hafter, Eval.after_ok hpush]

/-- **A script declares all its names or none.** On any machine that a host can reach with valid handles,
let a script context of a realm be pushed, and let a script whose block-scoped names differ fail to
declare its names in the global environment of the realm. Then a syntax error or a type error is thrown,
and apart from the error object nothing has changed: the globals of the realm are what they were. -/
theorem instantiateGlobal_all_or_none {id : RealmId} {strict : Bool} {e : Abrupt}
    (hm : Contract.handles.Reachable m) (hr : m.realm? id = some r)
    (hpush : pushScriptContext id strict m = .ok () n) (hnodup : (Body.lexicalNames body true).Nodup)
    (hfails : instantiateGlobal body r.globalEnv n = .error e m') :
    ∃ complaint, (complaint.kind = .syntaxError ∨ complaint.kind = .typeError) ∧
      e = .thrown (.object ⟨n.objects.size⟩) ∧ m' = n.pushObject (r.errorFor complaint) ∧
      ∃ s, n.HasGlobals r s ∧ m'.HasGlobals r s := by
  obtain ⟨c, s, hcontexts, -, hrealm, h⟩ := hm.pushScriptContext hr hpush
  cases hcomplaint : s.complaint? body with
  | none =>
    obtain ⟨m₁, -, hok, -⟩ := instantiateGlobal_eq_ok hcontexts hrealm h hnodup hcomplaint
    cases hok.symm.trans hfails
  | some complaint =>
    cases (instantiateGlobal_eq_error hcontexts hrealm h hcomplaint).symm.trans hfails
    exact ⟨complaint, Globals.complaint?_kind hcomplaint, rfl, rfl, s, h, h.allocates (.pushObject n _)⟩

/-- A script that would declare a variable, a function and a name that the global object cannot give up. -/
theorem instantiateGlobal_all_or_none_undefined :
    let body : List Statement := [.declare .var [⟨.identifier "x", none⟩],
      .function ⟨some "f", .normal, [], .block [], false, false⟩,
      .declare (.lexical false) [⟨.identifier "undefined", none⟩]]
    ∃ (r : Realm) (m n m' : Machine) (complaint : Complaint), newRealm {} = .ok ⟨0⟩ m ∧
      m.realm? ⟨0⟩ = some r ∧ pushScriptContext ⟨0⟩ false m = .ok () n ∧
      instantiateGlobal body r.globalEnv n = .error (.thrown (.object ⟨n.objects.size⟩)) m' ∧
      (complaint.kind = .syntaxError ∨ complaint.kind = .typeError) ∧
      m' = n.pushObject (r.errorFor complaint) ∧ ∃ s, n.HasGlobals r s ∧ m'.HasGlobals r s := by
  intro body
  obtain ⟨r, m, n, hrealm, hreach, hr, henv, hpush, hn⟩ := newRealm_starts_script
  obtain ⟨e, m', hrun⟩ := Eval.exists_error (x := instantiateGlobal body ⟨0⟩)
    (m := (pushScriptContext ⟨0⟩ false).after (newRealm.after {})) (by decide +kernel)
  rw [← hn, ← henv] at hrun
  have hnodup : (Body.lexicalNames body true).Nodup := by decide
  obtain ⟨complaint, hkind, rfl, hm', hglobals⟩ := instantiateGlobal_all_or_none hreach hr hpush hnodup hrun
  exact ⟨r, m, n, m', complaint, hrealm, hr, hpush, hrun, hkind, hm', hglobals⟩

/-- What the declarations of a script in a realm have made of the globals. -/
structure Body.Instantiated (body : List Statement) (id : RealmId) (r : Realm) (m : Machine) (s : Globals)
    (m' : Machine) (s' : Globals) : Prop where
  /-- A block-scoped name is new and has an uninitialized binding; a constant is strict and immutable. -/
  lexical : ∀ constant name, DeclaresLexical body constant name →
    s.record.declarative.get? name = none ∧
      s'.record.declarative.get? name = some ⟨!constant, false, constant, none⟩
  bindings : ∀ name, (∀ constant, ¬ DeclaresLexical body constant name) →
    s'.record.declarative.get? name = s.record.declarative.get? name
  /-- The name of a function has a property with a new function, made of the last one of the name. -/
  functions : ∀ name, DeclaresFunction body name → ∃ code f, DeclaresLast body code ∧
    code.bindingName = name ∧ m.object? f = none ∧ m'.IsClosure f code r.globalEnv id ∧
    s'.object.properties.get? (.name name) = some (.data (.object f) true true false)
  /-- Another variable has the property that was there, or a new one. -/
  vars : ∀ name, DeclaresVar body name → ¬ DeclaresFunction body name →
    s'.object.properties.get? (.name name) =
      some ((s.object.properties.get? (.name name)).getD (.data .undefined true true false))
  varNames : ∀ name, name ∈ s'.record.varNames ↔
    name ∈ s.record.varNames ∨ DeclaresVar body name ∨ DeclaresFunction body name
  properties : ∀ key, (∀ name, DeclaresVar body name ∨ DeclaresFunction body name →
    (Key.name name == key) = false) → s'.object.properties.get? key = s.object.properties.get? key
  rest : s'.record.scope = s.record.scope ∧ s'.record.globalThis = s.record.globalThis ∧
    s'.object.prototype = s.object.prototype ∧ s'.object.extensible = s.object.extensible

theorem Body.Instantiated.of_done {id : RealmId} {s' : Globals}
    (hallowed : ∀ d ∈ Body.declarations body, d.Allowed s)
    (hgains : s.Gains (Body.lexicalNames body true) ((Body.declarations body).flatMap Declaration.varNames) s')
    (hdone : ∀ d ∈ Body.declarations body, d.Done id r.globalEnv m s m' s') :
    Body.Instantiated body id r m s m' s' where
  lexical constant name hname := by
    have hd := Body.lexical_mem_declarations.mpr hname
    exact ⟨hallowed _ hd, hdone _ hd⟩
  bindings name hname := by
    refine hgains.bindings name fun hmem => ?_
    obtain ⟨constant, hdeclares⟩ := Body.mem_lexicalNames.mp hmem
    exact hname constant hdeclares
  functions name hname := by
    obtain ⟨code, hcode, rfl⟩ := List.mem_map.mp (Body.mem_functionNames.mpr hname)
    obtain ⟨f, hf⟩ := hdone _ (Body.function_mem_declarations.mpr hcode)
    exact ⟨code, f, Body.declaresLast_of_mem hcode, rfl, hf⟩
  vars name hname hnone := hdone _ (Body.var_mem_declarations.mpr ⟨hname, hnone⟩)
  varNames name := (hgains.varNames name).trans (or_congr_right Body.mem_varNames_declarations)
  properties key hkey :=
    hgains.properties key fun name hname => hkey name (Body.mem_varNames_declarations.mp hname)
  rest := ⟨hgains.scope, hgains.globalThis, hgains.prototype, hgains.extensible⟩

/-- **What a script declares.** On any machine that a host can reach with valid handles, let a script
context of a realm be pushed, and let a script whose block-scoped names differ declare its names in the
global environment of the realm. Then each of them has what its declaration says, and nothing else of the
globals of the realm has changed. -/
theorem instantiateGlobal_declares {id : RealmId} {strict : Bool}
    (hm : Contract.handles.Reachable m) (hr : m.realm? id = some r)
    (hpush : pushScriptContext id strict m = .ok () n) (hnodup : (Body.lexicalNames body true).Nodup)
    (hok : instantiateGlobal body r.globalEnv n = .ok () m') :
    ∃ s s', n.HasGlobals r s ∧ m'.HasGlobals r s' ∧ Body.Instantiated body id r n s m' s' := by
  obtain ⟨c, s, hcontexts, rfl, hrealm, h⟩ := hm.pushScriptContext hr hpush
  cases hcomplaint : s.complaint? body with
  | some complaint => cases (instantiateGlobal_eq_error hcontexts hrealm h hcomplaint).symm.trans hok
  | none =>
    obtain ⟨m₁, s', hrun, h', hgains, hdone⟩ := instantiateGlobal_eq_ok hcontexts hrealm h hnodup hcomplaint
    cases hrun.symm.trans hok
    exact ⟨s, s', h, h', .of_done (Globals.allowed_of_complaint? hcomplaint) hgains hdone⟩

/-- A constant, a variable inside a block, and two functions of one name, the second under a label. -/
theorem instantiateGlobal_declares_labelled :
    let last : FunctionCode := ⟨some "f", .normal, [.identifier "y"], .block [], false, false⟩
    let body : List Statement := [.declare (.lexical true) [⟨.identifier "c", none⟩],
      .function ⟨some "f", .normal, [], .block [], false, false⟩,
      .block [.declare .var [⟨.identifier "x", none⟩]], .labelled "l" (.function last)]
    ∃ (r : Realm) (m n m' : Machine) (s s' : Globals), newRealm {} = .ok ⟨0⟩ m ∧
      m.realm? ⟨0⟩ = some r ∧ pushScriptContext ⟨0⟩ false m = .ok () n ∧
      instantiateGlobal body r.globalEnv n = .ok () m' ∧ n.HasGlobals r s ∧ m'.HasGlobals r s' ∧
      Body.Instantiated body ⟨0⟩ r n s m' s' := by
  intro last body
  obtain ⟨r, m, n, hrealm, hreach, hr, henv, hpush, hn⟩ := newRealm_starts_script
  obtain ⟨u, m', hrun⟩ := Eval.exists_ok (x := instantiateGlobal body ⟨0⟩)
    (m := (pushScriptContext ⟨0⟩ false).after (newRealm.after {})) (by decide +kernel)
  rw [← hn, ← henv] at hrun
  have hnodup : (Body.lexicalNames body true).Nodup := by decide
  obtain ⟨s, s', hs, hs', hinstantiated⟩ := instantiateGlobal_declares hreach hr hpush hnodup hrun
  exact ⟨r, m, n, m', s, s', hrealm, hr, hpush, hrun, hs, hs', hinstantiated⟩

end EcmaEval
