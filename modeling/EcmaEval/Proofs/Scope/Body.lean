import EcmaEval.Proofs.Scope.Entry

/-!
# Entering a body

After its parameters and variables, a call binds the functions of its body and opens the scope of the
block-scoped names: in strict code the environment of the call itself, in sloppy code one inside it. Like
the rounds before, these always come to their end.
-/
namespace EcmaEval

variable {m m' m'' : Machine} {env : EnvId} {r : DeclarativeRecord}

namespace Machine

theorem IsClosure.allocates {f : ObjectId} {code : FunctionCode} {realm : RealmId}
    (hf : m.IsClosure f code env realm) (h : m.Allocates m') : m'.IsClosure f code env realm := by
  obtain ⟨obj, slots, hobj, hslots⟩ := hf
  exact ⟨obj, slots, (h.objects f (within_of_object? hobj)).trans hobj, hslots⟩

/-- Apart from new objects and environments, only the environment has changed. -/
structure AltersEnv (m : Machine) (env : EnvId) (m' : Machine) : Prop where
  objects : ∀ o, o.Within m.bounds → m'.object? o = m.object? o
  environments : ∀ e, e.Within m.bounds → e ≠ env → m'.env? e = m.env? e
  realms : m'.realms = m.realms
  le : m.bounds ≤ m'.bounds

namespace AltersEnv

theorem trans (h : m.AltersEnv env m') (h' : m'.AltersEnv env m'') : m.AltersEnv env m'' where
  objects o ho := (h'.objects o (Nat.lt_of_lt_of_le ho h.le.1)).trans (h.objects o ho)
  environments e he hne :=
    (h'.environments e (Nat.lt_of_lt_of_le he h.le.2.1) hne).trans (h.environments e he hne)
  realms := h'.realms.trans h.realms
  le := Bounds.le_trans h.le h'.le

theorem realm? (h : m.AltersEnv env m') (id : RealmId) : m'.realm? id = m.realm? id := by
  unfold Machine.realm?
  rw [h.realms]

theorem object?_eq_none (h : m.AltersEnv env m') {o : ObjectId} (ho : m'.object? o = none) :
    m.object? o = none :=
  Array.getElem?_eq_none (Nat.le_trans h.le.1 (Array.getElem?_eq_none_iff.mp ho))

theorem of_allocates (h : m.Allocates m') (env : EnvId) : m.AltersEnv env m' where
  objects := h.objects
  environments e _ _ := h.env? e
  realms := by rw [h.rest]
  le := ⟨h.size, by rw [h.rest]; exact Nat.le_refl _, by rw [h.rest]; exact Nat.le_refl _⟩

theorem storeEnv {e : Environment} (he : m.env? env = some e) (e' : Environment) :
    m.AltersEnv env (m.storeEnv env e') where
  objects _ _ := rfl
  environments _ _ hne := by rw [env?_storeEnv _ _ _ _ he, if_neg hne]
  realms := rfl
  le := by rw [bounds_storeEnv]; exact Bounds.le_refl _

/-- A record has changed, and new objects have come. -/
theorem of_record {e : Environment} (he : m.env? env = some e) {e' : Environment}
    (h : (m.storeEnv env e').Allocates m') : m.AltersEnv env m' :=
  (storeEnv he e').trans (.of_allocates h env)

theorem refl (m : Machine) (env : EnvId) : m.AltersEnv env m :=
  ⟨fun _ _ => rfl, fun _ _ _ => rfl, rfl, Bounds.le_refl _⟩

theorem withContexts (h : m.AltersEnv env m') (cs : List Context) : m.AltersEnv env (m'.withContexts cs) :=
  ⟨h.objects, h.environments, h.realms, h.le⟩

/-- A new environment is no part of the machine before. -/
theorem pushEnv (m : Machine) (env : EnvId) (e : Environment) : m.AltersEnv env (m.pushEnv e) where
  objects _ _ := rfl
  environments _ he _ := env?_pushEnv_of_within he
  realms := rfl
  le := ⟨Nat.le_refl _, by simp [bounds, Machine.pushEnv], Nat.le_refl _⟩

/-- Nor is what happens to a new environment. -/
theorem storeEnv_new (h : m.AltersEnv env m') {scope : EnvId} (hscope : m.env? scope = none) {e : Environment}
    (he : m'.env? scope = some e) (e' : Environment) : m.AltersEnv env (m'.storeEnv scope e') where
  objects := h.objects
  environments e'' he'' hne := by
    have hother : e'' ≠ scope := by
      rintro rfl
      obtain ⟨old, hold⟩ := exists_env he''
      cases hscope.symm.trans hold
    rw [env?_storeEnv _ _ _ _ he, if_neg hother]
    exact h.environments e'' he'' hne
  realms := h.realms
  le := by rw [bounds_storeEnv]; exact h.le

end AltersEnv

end Machine

section Functions

variable {c : Context} {cs : List Context} {realm : Realm} {varEnv : EnvId}

/-- Functions are made in turn, and each becomes the value of the variable of its name. -/
theorem bindDeclared_eq (lexEnv : EnvId) {functions : List FunctionCode} (hm : m.contexts = c :: cs)
    (hr : m.realm? c.realm = some realm) (privateEnv : Option EnvId)
    (he : m.env? varEnv = some (.declarative r))
    (hnodup : (functions.map FunctionCode.bindingName).Nodup)
    (hvariables : ∀ code ∈ functions, r.HasVariable code.bindingName true) :
    ∃ m' r', (functions.forM fun code => do
        let f ← instantiateDeclaration code lexEnv privateEnv
        varEnv.assign code.bindingName (.object f) false : Eval Unit) m = .ok () m' ∧
      (m.storeEnv varEnv (.declarative r')).Allocates m' ∧ m.GetsNoArguments m' ∧ r.Rebound r' ∧
      (∀ name, name ∉ functions.map FunctionCode.bindingName → r'.get? name = r.get? name) ∧
      ∀ code ∈ functions, ∃ f, m.object? f = none ∧ m'.IsClosure f code lexEnv c.realm ∧
        r'.get? code.bindingName = some ⟨true, false, false, some (.object f)⟩ := by
  -- By induction on the functions: those to come are bound in a record that has the variables of all,
  -- and making one of them changes no variable.
  induction functions generalizing m r with
  | nil => exact ⟨m, r, rfl, by rw [Machine.storeEnv_self he], .of_objects rfl, .refl r,
      fun _ _ => rfl, nofun⟩
  | cons code rest ih =>
    obtain ⟨hfirst, hrest⟩ := List.nodup_cons.mp hnodup
    obtain ⟨m₁, hmake, hallocates, hclosure, hnone⟩ := instantiateDeclaration_eq hm hr code lexEnv privateEnv
    let f : ObjectId := ⟨m.objects.size⟩
    let r₁ := r.put code.bindingName (.object f)
    let m₂ := m₁.storeEnv varEnv (.declarative r₁)
    have hvariable := hvariables code List.mem_cons_self
    have hassign : varEnv.assign code.bindingName (.object f) false m₁ = .ok () m₂ :=
      EnvId.assign_acts hvariable _ false m₁ ((hallocates.env? _).trans he)
    have he₂ : m₂.env? varEnv = some (.declarative r₁) :=
      Machine.env?_storeEnv_self ((hallocates.env? _).trans he) _
    have hvariables₂ (code' : FunctionCode) (h : code' ∈ rest) : r₁.HasVariable code'.bindingName true := by
      simpa using (hvariables code' (List.mem_cons_of_mem _ h)).put code.bindingName (.object f)
    obtain ⟨m', r', hrun, hallocates', hnone', hrebound, hothers, hfunctions⟩ :=
      ih (m := m₂) (hallocates.contexts.trans hm) ((hallocates.realm? _).trans hr) he₂ hrest hvariables₂
    rw [Machine.storeEnv_storeEnv] at hallocates'
    have hlater : m₁.AltersEnv varEnv m' := .of_record ((hallocates.env? _).trans he) hallocates'
    refine ⟨m', r', (bind_ok ((bind_ok hmake).trans hassign)).trans hrun,
      (hallocates.storeEnv varEnv _).trans hallocates', hnone.trans hnone' hlater.objects,
      (DeclarativeRecord.Rebound.put r _ _).trans hrebound, fun name hname => ?_, fun code' hcode' => ?_⟩
    · rw [List.map_cons, List.mem_cons, not_or] at hname
      rw [hothers name hname.2, DeclarativeRecord.get?_put]
      simp [hname.1]
    · rcases List.mem_cons.mp hcode' with rfl | hcode'
      · refine ⟨f, Array.getElem?_eq_none (Nat.le_refl _),
          Machine.IsClosure.allocates (m := m₁.storeEnv varEnv (.declarative r')) hclosure hallocates', ?_⟩
        obtain ⟨value, hvalue, -⟩ := hvariable
        rw [hothers _ hfirst, DeclarativeRecord.get?_put_self hvalue]
      · obtain ⟨f', hnew, hf'⟩ := hfunctions code' hcode'
        exact ⟨f', hallocates.object?_eq_none hnew, hf'⟩

end Functions

/-- The functions and the block-scoped names of a body are bound: the functions in the environment of the
call, the block-scoped names in the scope of the body. -/
structure FunctionSlots.EntersBody (slots : FunctionSlots) (c : Context) (cs : List Context) (scope : EnvId)
    (r s : DeclarativeRecord) (m m' : Machine) : Prop where
  contexts : m'.contexts = { c with lexicalEnv := scope } :: cs
  alters : m.AltersEnv c.variableEnv m'
  record : m'.env? c.variableEnv = some (.declarative r)
  body : m'.env? scope = some (.declarative s)
  /-- Strict code has one record for both. -/
  strict : slots.strict = true → scope = c.variableEnv
  /-- The scope of a sloppy body is new and has the block-scoped names only. -/
  sloppy : slots.strict = false → m.env? scope = none ∧ s.outer = some c.variableEnv ∧ s.call = none ∧
    ∀ name, (∀ constant, ¬ Body.DeclaresLexical slots.code.statements constant name) → s.get? name = none
  /-- The name of a function has a new function, made of the last one of the name. -/
  functions : ∀ name, Body.DeclaresFunction slots.code.statements name →
    ∃ code f, Body.DeclaresLast slots.code.statements code ∧ code.bindingName = name ∧
      m.object? f = none ∧ m'.IsClosure f code scope c.realm ∧
      r.get? name = some ⟨true, false, false, some (.object f)⟩
  /-- A block-scoped name waits for its value; a constant is strict and immutable. -/
  lexical : ∀ constant name, Body.DeclaresLexical slots.code.statements constant name →
    s.get? name = some ⟨!constant, false, constant, none⟩

namespace Evaluator

variable {c : Context} {cs : List Context} {realm : Realm} {slots : FunctionSlots} {varEnv : EnvId}

theorem bindFunctions_eq (lexEnv : EnvId) (hm : m.contexts = c :: cs) (hr : m.realm? c.realm = some realm)
    (he : m.env? varEnv = some (.declarative r))
    (hvariables : ∀ code ∈ Body.functions slots.code.statements, r.HasVariable code.bindingName true) :
    ∃ m' r', bindFunctions slots lexEnv varEnv m = .ok () m' ∧
      (m.storeEnv varEnv (.declarative r')).Allocates m' ∧ m.GetsNoArguments m' ∧ r.Rebound r' ∧
      (∀ name, ¬ Body.DeclaresFunction slots.code.statements name → r'.get? name = r.get? name) ∧
      ∀ name, Body.DeclaresFunction slots.code.statements name →
        ∃ code f, Body.DeclaresLast slots.code.statements code ∧ code.bindingName = name ∧
          m.object? f = none ∧ m'.IsClosure f code lexEnv c.realm ∧
          r'.get? name = some ⟨true, false, false, some (.object f)⟩ := by
  have hnodup : ((Body.functions slots.code.statements).map FunctionCode.bindingName).Nodup := by
    rw [Body.functions_eq]
    exact lastOfEachName_nodup _
  obtain ⟨m', r', hrun, hallocates, hnone, hrebound, hothers, hfunctions⟩ :=
    bindDeclared_eq lexEnv hm hr c.privateEnv he hnodup hvariables
  refine ⟨m', r', ?_, hallocates, hnone, hrebound, fun name hname => hothers name ?_, fun name hname => ?_⟩
  · have hcontext : runningContext m = .ok c := by simp [runningContext, hm]
    unfold bindFunctions
    rw [bind_ok (lift_ok hcontext)]
    exact hrun
  · exact fun hmem => hname (Body.mem_functionNames.mp hmem)
  · obtain ⟨code, hcode, rfl⟩ := List.mem_map.mp (Body.mem_functionNames.mpr hname)
    obtain ⟨f, hf⟩ := hfunctions code hcode
    exact ⟨code, f, Body.declaresLast_of_mem hcode, rfl, hf⟩

theorem notMem_lexicalBindings {body : List Statement} {name : String}
    (h : ∀ constant, ¬ Body.DeclaresLexical body constant name) :
    name ∉ (Body.lexicalBindings body).map Prod.fst := by
  rw [Body.fst_lexicalBindings]
  intro hmem
  obtain ⟨constant, hname⟩ := Body.mem_lexicalNames.mp hmem
  exact h constant hname

theorem get?_addAll_lexicalBindings (r : DeclarativeRecord) {body : List Statement}
    (hnodup : (Body.lexicalNames body true).Nodup) {constant : Bool} {name : String}
    (h : Body.DeclaresLexical body constant name) :
    (r.addAll (Body.lexicalBindings body)).get? name = some ⟨!constant, false, constant, none⟩ :=
  DeclarativeRecord.get?_addAll (Body.fst_lexicalBindings body ▸ hnodup) (Body.mem_lexicalBindings h)

theorem setLexicalEnv_cons (scope : EnvId) (hm : m.contexts = c :: cs) :
    setLexicalEnv scope m = .ok () (m.withContexts ({ c with lexicalEnv := scope } :: cs)) :=
  modifyContext_cons hm _

/-- The body is entered, and the record of the call keeps the names that the body does not bind in it. -/
def CanEnterBody (slots : FunctionSlots) (c : Context) (cs : List Context) (r : DeclarativeRecord)
    (m : Machine) : Prop :=
  ∃ m' r' s scope, enterBody slots c.variableEnv m = .ok () m' ∧
    slots.EntersBody c cs scope r' s m m' ∧ m.GetsNoArguments m' ∧ r.Rebound r' ∧
    ∀ name, ¬ Body.DeclaresFunction slots.code.statements name →
      (slots.strict = true → ∀ constant, ¬ Body.DeclaresLexical slots.code.statements constant name) →
      r'.get? name = r.get? name

/-- In strict code the block-scoped names join the record of the call, before the functions. -/
theorem canEnterBody_of_strict (hstrict : slots.strict = true) (hm : m.contexts = c :: cs)
    (hr : m.realm? c.realm = some realm) (he : m.env? c.variableEnv = some (.declarative r))
    (hnew : ∀ n ∈ Body.lexicalNames slots.code.statements true, r.get? n = none)
    (hnodup : (Body.lexicalNames slots.code.statements true).Nodup)
    (hapart : ∀ constant n, Body.DeclaresLexical slots.code.statements constant n →
      ¬ Body.DeclaresFunction slots.code.statements n)
    (hvariables : ∀ code ∈ Body.functions slots.code.statements, r.HasVariable code.bindingName true) :
    CanEnterBody slots c cs r m := by
  let bindings := Body.lexicalBindings slots.code.statements
  let m₁ := m.withContexts ({ c with lexicalEnv := c.variableEnv } :: cs)
  let m₂ := m₁.storeEnv c.variableEnv (.declarative (r.addAll bindings))
  have hlexical := Body.declareLexical_acts hnew hnodup m₁ he
  have he₂ : m₂.env? c.variableEnv = some (.declarative (r.addAll bindings)) :=
    Machine.env?_storeEnv_self (m := m₁) he _
  have hvariables₂ (code : FunctionCode) (hcode : code ∈ Body.functions slots.code.statements) :
      (r.addAll bindings).HasVariable code.bindingName true := by
    obtain ⟨value, hvalue, hsome⟩ := hvariables code hcode
    refine ⟨value, ?_, hsome⟩
    have hfunction := Body.mem_functionNames.mp (List.mem_map_of_mem hcode)
    rw [DeclarativeRecord.get?_addAll_of_notMem, hvalue]
    exact notMem_lexicalBindings fun constant h => hapart constant _ h hfunction
  obtain ⟨m', r', hrun, hallocates, hnone, hrebound, hothers, hfunctions⟩ :=
    bindFunctions_eq (m := m₂) c.variableEnv rfl hr he₂ hvariables₂
  have halters₂ : m.AltersEnv c.variableEnv m₂ :=
    ((Machine.AltersEnv.refl m c.variableEnv).withContexts _).trans (.storeEnv (m := m₁) he _)
  have hrecord : m'.env? c.variableEnv = some (.declarative r') := by
    rw [hallocates.env?]
    exact Machine.env?_storeEnv_self he₂ _
  refine ⟨m', r', r', c.variableEnv, ?_, ⟨hallocates.contexts, halters₂.trans (.of_record he₂ hallocates),
    hrecord, hrecord, fun _ => rfl, by simp [hstrict], hfunctions, fun constant name h => ?_⟩,
    hnone, (DeclarativeRecord.Rebound.addAll r bindings).trans hrebound, fun name hname hfree => ?_⟩
  · unfold enterBody
    simp only [hstrict, if_true]
    exact (bind_ok rfl).trans ((bind_ok (setLexicalEnv_cons _ hm)).trans ((bind_ok hlexical).trans hrun))
  · rw [hothers name (hapart constant name h)]
    exact get?_addAll_lexicalBindings r hnodup h
  · rw [hothers name hname, DeclarativeRecord.get?_addAll_of_notMem (notMem_lexicalBindings (hfree hstrict))]

/-- In sloppy code the block-scoped names have an environment of their own, opened inside that of the call:
the record of the call changes by the functions only. -/
theorem canEnterBody_of_sloppy (hstrict : slots.strict = false) (hm : m.contexts = c :: cs)
    (hr : m.realm? c.realm = some realm) (he : m.env? c.variableEnv = some (.declarative r))
    (hnodup : (Body.lexicalNames slots.code.statements true).Nodup)
    (hvariables : ∀ code ∈ Body.functions slots.code.statements, r.HasVariable code.bindingName true) :
    CanEnterBody slots c cs r m := by
  let bindings := Body.lexicalBindings slots.code.statements
  let scope : EnvId := ⟨m.environments.size⟩
  let empty : DeclarativeRecord := { outer := some c.variableEnv }
  let m₁ := (m.pushEnv (.declarative empty)).withContexts ({ c with lexicalEnv := scope } :: cs)
  let m₂ := m₁.storeEnv scope (.declarative (empty.addAll bindings))
  have hscope : m.env? scope = none := Array.getElem?_eq_none (Nat.le_refl _)
  have hne : scope ≠ c.variableEnv := by
    intro h
    rw [← h, hscope] at he
    cases he
  have hself : m₁.env? scope = some (.declarative empty) :=
    (m.env?_pushEnv scope (.declarative empty)).trans (if_pos rfl)
  have hlexical := Body.declareLexical_acts (fun _ _ => rfl) hnodup m₁ hself
  have hopen : newDeclarativeEnvironment (some c.variableEnv) m = .ok scope (m.pushEnv (.declarative empty)) :=
    rfl
  have halters₂ : m.AltersEnv c.variableEnv m₂ :=
    ((Machine.AltersEnv.pushEnv m c.variableEnv _).withContexts _).storeEnv_new hscope hself _
  have he₁ : m₁.env? c.variableEnv = some (.declarative r) :=
    (Machine.env?_pushEnv_of_within (Machine.within_of_env? he)).trans he
  have he₂ : m₂.env? c.variableEnv = some (.declarative r) := by
    rw [Machine.env?_storeEnv _ _ _ _ hself, if_neg hne.symm]
    exact he₁
  obtain ⟨m', r', hrun, hallocates, hnone, hrebound, hothers, hfunctions⟩ :=
    bindFunctions_eq (m := m₂) scope rfl hr he₂ hvariables
  refine ⟨m', r', empty.addAll bindings, scope, ?_, ⟨hallocates.contexts,
    halters₂.trans (.of_record he₂ hallocates), ?_, ?_, by simp [hstrict], fun _ => ⟨hscope, rfl, rfl, ?_⟩,
    hfunctions, fun _ _ h => get?_addAll_lexicalBindings empty hnodup h⟩, hnone, hrebound,
    fun name hname _ => hothers name hname⟩
  · unfold enterBody
    simp only [hstrict, Bool.false_eq_true, if_false]
    have hscoped := setLexicalEnv_cons (m := m.pushEnv (.declarative empty)) scope hm
    exact (bind_ok hopen).trans ((bind_ok hscoped).trans ((bind_ok hlexical).trans hrun))
  · rw [hallocates.env?]
    exact Machine.env?_storeEnv_self he₂ _
  · rw [hallocates.env?, Machine.env?_storeEnv _ _ _ _ he₂, if_neg hne]
    exact Machine.env?_storeEnv_self hself _
  · exact fun name hname => DeclarativeRecord.get?_addAll_of_notMem (notMem_lexicalBindings hname)

/-- The functions and the block-scoped names of a body are always bound. -/
theorem canEnterBody (hm : m.contexts = c :: cs) (hr : m.realm? c.realm = some realm)
    (he : m.env? c.variableEnv = some (.declarative r))
    (hnew : ∀ n ∈ Body.lexicalNames slots.code.statements true, r.get? n = none)
    (hnodup : (Body.lexicalNames slots.code.statements true).Nodup)
    (hapart : ∀ n ∈ Body.lexicalNames slots.code.statements true,
      ¬ Body.DeclaresFunction slots.code.statements n)
    (hvariables : ∀ code ∈ Body.functions slots.code.statements, r.HasVariable code.bindingName true) :
    CanEnterBody slots c cs r m := by
  cases hstrict : slots.strict with
  | true =>
    exact canEnterBody_of_strict hstrict hm hr he hnew hnodup
      (fun constant n h => hapart n (Body.mem_lexicalNames.mpr ⟨constant, h⟩)) hvariables
  | false => exact canEnterBody_of_sloppy hstrict hm hr he hnodup hvariables

end Evaluator

end EcmaEval
