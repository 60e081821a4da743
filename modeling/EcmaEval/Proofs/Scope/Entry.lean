import EcmaEval.Proofs.Heap.Arguments
import EcmaEval.Proofs.Scope.Declare
import EcmaEval.Proofs.Scope.Function
import EcmaEval.Proofs.Sound.Parameters

/-!
# Entering a function

A call of a function whose parameters are identifiers binds its names in rounds: the parameters, the
arguments object, the variables, the block-scoped names, the functions. No round evaluates an expression,
so what it makes of a record is known in advance, apart from new objects.
-/
namespace EcmaEval

variable {m m' m'' : Machine} {env : EnvId} {r r' : DeclarativeRecord} {name : String} {b : Binding}

namespace DeclarativeRecord

/-- Adds bindings in turn. -/
def addAll (r : DeclarativeRecord) (added : List (String × Binding)) : DeclarativeRecord :=
  { r with bindings := added.reverse ++ r.bindings }

theorem addAll_cons (r : DeclarativeRecord) (e : String × Binding) (added : List (String × Binding)) :
    r.addAll (e :: added) = (r.addAll [e]).addAll added := by
  simp [addAll]

theorem get?_addAll_singleton (r : DeclarativeRecord) (name n : String) (b : Binding) :
    (r.addAll [(name, b)]).get? n = if n = name then some b else r.get? n :=
  r.get?_cons name n b

theorem get?_addAll_of_notMem {added : List (String × Binding)} (h : name ∉ added.map Prod.fst) :
    (r.addAll added).get? name = r.get? name := by
  induction added generalizing r with
  | nil => rfl
  | cons e added ih =>
    rw [List.map_cons, List.mem_cons, not_or] at h
    rw [addAll_cons, ih h.2, get?_addAll_singleton, if_neg h.1]

theorem get?_addAll {added : List (String × Binding)} (hnodup : (added.map Prod.fst).Nodup)
    (h : (name, b) ∈ added) : (r.addAll added).get? name = some b := by
  induction added generalizing r with
  | nil => cases h
  | cons e added ih =>
    obtain ⟨hfirst, hrest⟩ := List.nodup_cons.mp hnodup
    rw [addAll_cons]
    rcases List.mem_cons.mp h with rfl | h
    · rw [get?_addAll_of_notMem hfirst, get?_addAll_singleton, if_pos rfl]
    · exact ih hrest h

theorem put_of_get?_eq_none (h : r.get? name = none) (v : Value) : r.put name v = r := by
  have hother (e : String × Binding) (he : e ∈ r.bindings) : (e.1 == name) = false := by
    have hne := List.lookup_eq_none_iff.mp h e he
    rw [BEq.comm]
    simpa using hne
  have hmap : (r.bindings.map fun e => if e.1 == name then (e.1, { e.2 with value := some v }) else e) =
      r.bindings := by
    refine (List.map_congr_left fun e he => ?_).trans (List.map_id _)
    rw [hother e he]
    rfl
  unfold put
  rw [hmap]

/-- A new binding that has no value yet takes one. -/
theorem initBinding_addAll (h : r.get? name = none) (isMutable deletable strict : Bool) (v : Value) :
    (r.addAll [(name, ⟨isMutable, deletable, strict, none⟩)]).initBinding name v =
      .ok (r.addAll [(name, ⟨isMutable, deletable, strict, some v⟩)]) := by
  have hput : (r.addAll [(name, ⟨isMutable, deletable, strict, none⟩)]).put name v =
      (r.put name v).addAll [(name, ⟨isMutable, deletable, strict, some v⟩)] := by
    simp [put, addAll]
  unfold initBinding
  rw [get?_addAll_singleton, if_pos rfl, hput, put_of_get?_eq_none h]
  rfl

theorem Rebound.addAll (r : DeclarativeRecord) (added : List (String × Binding)) :
    r.Rebound (r.addAll added) := ⟨_, rfl⟩

theorem Rebound.putAll (r : DeclarativeRecord) (names : List String) (values : List Value) :
    r.Rebound (r.putAll names values) := by
  induction names generalizing r values with
  | nil => exact .refl r
  | cons name rest ih => exact (Rebound.put r name _).trans (ih _ _)

theorem get?_putAll_of_notMem {names : List String} (h : name ∉ names) (values : List Value) :
    (r.putAll names values).get? name = r.get? name := by
  induction names generalizing r values with
  | nil => rfl
  | cons n rest ih =>
    rw [List.mem_cons, not_or] at h
    rw [putAll, ih h.2, get?_put]
    simp [h.1]

/-- Of the values for one name the last counts. -/
theorem get?_putAll {names : List String} {i : Nat} (hi : names[i]? = some name)
    (hlast : name ∉ names.drop (i + 1)) (values : List Value) :
    (r.putAll names values).get? name =
      (r.get? name).map ({ · with value := some (values[i]?.getD .undefined) }) := by
  induction names generalizing r values i with
  | nil => cases hi
  | cons n rest ih =>
    cases i with
    | zero =>
      obtain rfl : n = name := by simpa using hi
      rw [putAll, get?_putAll_of_notMem (by simpa using hlast), get?_put]
      simp [List.headD_eq_head?_getD, List.head?_eq_getElem?]
    | succ i =>
      rw [putAll, ih (by simpa using hi) (by simpa using hlast), get?_put, List.getElem?_tail, Option.map_map]
      congr 1
      funext x
      dsimp only [Function.comp]
      split <;> rfl

end DeclarativeRecord

namespace EnvId

theorem createImmutable_acts {strict : Bool} (h : r.get? name = none) :
    (env.createImmutable name strict).ActsOn env r (r.addAll [(name, ⟨false, false, strict, none⟩)]) := by
  intro m he
  have hcreate : r.createImmutable name strict = .ok (r.addAll [(name, ⟨false, false, strict, none⟩)]) := by
    simp [DeclarativeRecord.createImmutable, DeclarativeRecord.create, DeclarativeRecord.has, h,
      DeclarativeRecord.addAll]
  unfold createImmutable
  rw [bind_ok (lift_ok (load_eq he))]
  dsimp only
  rw [hcreate]
  exact store_eq (Machine.within_of_env? he) _

theorem createLexical_acts (constant : Bool) (h : r.get? name = none) :
    (env.createLexical constant name).ActsOn env r
      (r.addAll [(name, ⟨!constant, false, constant, none⟩)]) := by
  cases constant with
  | true => exact createImmutable_acts h
  | false => exact createMutable_acts h

/-- An assignment to a variable that has a value. -/
theorem assign_acts (h : r.HasVariable name true) (v : Value) (strict : Bool) :
    (env.assign name v strict).ActsOn env r (r.put name v) := by
  intro m he
  obtain ⟨value, hname, hvalue⟩ := h
  obtain ⟨w, rfl⟩ := Option.isSome_iff_exists.mp hvalue
  unfold assign
  rw [bind_ok (lift_ok (load_eq he))]
  dsimp only
  rw [DeclarativeRecord.assign_eq_put hname rfl rfl]
  exact store_eq (Machine.within_of_env? he) _

end EnvId

/-- A round that adds one new binding for each element of a list. -/
theorem Eval.ActsOn.forM {l : List α} {x : α → Eval Unit} {added : α → String × Binding}
    (hx : ∀ a ∈ l, ∀ r : DeclarativeRecord, r.get? (added a).1 = none →
      (x a).ActsOn env r (r.addAll [added a]))
    (hnew : ∀ a ∈ l, r.get? (added a).1 = none) (hnodup : (l.map fun a => (added a).1).Nodup) :
    (l.forM x).ActsOn env r (r.addAll (l.map added)) := by
  induction l generalizing r with
  | nil => exact .pure env r
  | cons a l ih =>
    obtain ⟨hfirst, hrest⟩ := List.nodup_cons.mp hnodup
    rw [List.map_cons, DeclarativeRecord.addAll_cons]
    refine .bind (hx a (by simp) r (hnew a (by simp))) (ih (fun a' ha' => hx a' (by simp [ha'])) ?_ hrest)
    intro a' ha'
    have hother : (added a').1 ≠ (added a).1 := fun h => hfirst (List.mem_map.mpr ⟨a', ha', h⟩)
    rw [DeclarativeRecord.get?_addAll_singleton, if_neg hother, hnew a' (by simp [ha'])]

/-- Variables are added with the value undefined. -/
theorem declareInitialized_acts {names : List String} (hnew : ∀ n ∈ names, r.get? n = none)
    (hnodup : names.Nodup) :
    (declareInitialized env (fun _ => pure .undefined) names).ActsOn env r
      (r.addAll (names.map (·, ⟨true, false, false, some .undefined⟩))) := by
  refine .forM (fun n _ r hn => ?_) hnew (by simpa using hnodup)
  exact .bind (EnvId.createMutable_acts hn)
    (EnvId.initBinding_acts (r.initBinding_addAll hn true false false .undefined))

namespace Body

variable {body : List Statement}

/-- The bindings that the block-scoped declarations of a body start with. -/
def lexicalBindings (body : List Statement) : List (String × Binding) :=
  (LexicalDeclaration.flagged (Body.lexicallyScoped body true)).map fun e =>
    (e.2, ⟨!e.1, false, e.1, none⟩)

theorem fst_lexicalBindings (body : List Statement) :
    (lexicalBindings body).map Prod.fst = Body.lexicalNames body true := by
  simp [lexicalBindings, LexicalDeclaration.flagged, Body.lexicalNames, List.map_flatMap, Function.comp_def]

theorem mem_lexicalBindings {constant : Bool} (h : DeclaresLexical body constant name) :
    (name, ⟨!constant, false, constant, none⟩) ∈ lexicalBindings body := by
  obtain ⟨d, hd, rfl, hname⟩ := mem_lexicallyScoped.mpr h
  refine List.mem_map.mpr ⟨(d.isConstant, name), List.mem_flatMap.mpr ⟨d, hd, ?_⟩, rfl⟩
  exact List.mem_map.mpr ⟨name, hname, rfl⟩

theorem declareLexical_acts (hnew : ∀ n ∈ Body.lexicalNames body true, r.get? n = none)
    (hnodup : (Body.lexicalNames body true).Nodup) :
    (declareLexical env (Body.lexicallyScoped body true)).ActsOn env r (r.addAll (lexicalBindings body)) := by
  have hnames : (LexicalDeclaration.flagged (Body.lexicallyScoped body true)).map Prod.snd =
      Body.lexicalNames body true := by
    rw [← fst_lexicalBindings, lexicalBindings, List.map_map]
    rfl
  rw [declareLexical_eq]
  refine .forM (fun e _ r h => EnvId.createLexical_acts e.1 h) (fun e he => hnew e.2 ?_) (hnames ▸ hnodup)
  exact hnames ▸ List.mem_map_of_mem he

end Body

namespace Evaluator

variable {c : Context} {cs : List Context} {parameters : List Pattern} {repeated : Bool}

/-- Parameters get their values in the scope that binds them, whether they are initialized there or, with
repeated names, assigned to. -/
theorem bindParameters_eq (ev : Evaluator) (arguments : List Value) (hm : m.contexts = c :: cs)
    (he : m.env? c.lexicalEnv = some (.declarative r)) (hsimple : Parameters.isSimple parameters = true)
    (hnodup : repeated = false → (Parameters.names parameters).Nodup)
    (hvariables : ∀ n ∈ Parameters.names parameters, r.HasVariable n repeated) :
    ev.bindParameters (if repeated then none else some c.lexicalEnv) parameters arguments m =
      .ok () (m.storeEnv c.lexicalEnv (.declarative (r.putAll (Parameters.names parameters) arguments))) := by
  cases repeated with
  | false =>
    exact (bindParameters_acts (g := Contract.handles) ev _ r arguments hsimple (hnodup rfl) hvariables).1 m he
  | true =>
    clear hnodup
    rw [if_pos rfl]
    induction parameters generalizing m r arguments with
    | nil =>
      rw [Parameters.names, List.flatMap_nil, DeclarativeRecord.putAll, Machine.storeEnv_self he]
      rfl
    | cons p rest ih =>
      obtain ⟨name, rfl, hsimple, hnames⟩ := Parameters.isSimple_cons hsimple
      rw [hnames] at hvariables ⊢
      let v := arguments.headD .undefined
      let m₁ := m.storeEnv c.lexicalEnv (.declarative (r.put name v))
      have hname := hvariables name (by simp)
      have hhas : c.lexicalEnv.hasBinding name m = .ok true := by
        obtain ⟨value, hvalue, -⟩ := hname
        rw [EnvId.hasBinding_eq he, DeclarativeRecord.has, hvalue]
        rfl
      have hfirst : bindName none name v m = .ok () m₁ := by
        unfold bindName
        dsimp only
        rw [bind_ok (lift_ok (resolveBinding_here hm hhas))]
        exact EnvId.assign_acts hname v c.strict m he
      have hrest := ih arguments.tail (m := m₁) hm (Machine.env?_storeEnv_self he _) hsimple fun n hn => by
        simpa using (hvariables n (by simp [hn])).put name v
      rw [Machine.storeEnv_storeEnv] at hrest
      exact (bind_ok hfirst).trans hrest

end Evaluator

section Arguments

variable {c : Context} {cs : List Context} {realm : Realm} (hm : m.contexts = c :: cs)
  (hr : m.realm? c.realm = some realm)

include hm hr

/-- The arguments object is bound, in strict code as a constant. -/
theorem bindArguments_eq (f : ObjectId) (slots : FunctionSlots) (arguments : List Value)
    (he : m.env? env = some (.declarative r)) (hnew : r.get? "arguments" = none) :
    let r' := r.addAll [("arguments", ⟨!slots.strict, false, false, some (.object ⟨m.objects.size⟩)⟩)]
    ∃ m', Evaluator.bindArguments f slots env arguments m = .ok () m' ∧
      (m.storeEnv env (.declarative r')).Allocates m' ∧ m.GetsArguments m' ⟨m.objects.size⟩ := by
  intro r'
  let mapping := if !slots.strict && Parameters.isSimple slots.code.parameters then
    some (Parameters.names slots.code.parameters, env) else none
  let obj := argumentsObject realm.intrinsics.objectPrototype f arguments mapping
  have hrun := newArguments_eq (intrinsics_eq hm hr) f arguments mapping
  have hbind : Eval.ActsOn (do
      if slots.strict then env.createImmutable "arguments" false
      else env.createMutable "arguments" false
      env.initBinding "arguments" (.object ⟨m.objects.size⟩)) env r
        (r.addAll [("arguments", ⟨!slots.strict, false, false, some (.object ⟨m.objects.size⟩)⟩)]) := by
    have hinit (isMutable : Bool) : Eval.ActsOn (env.initBinding "arguments" (.object ⟨m.objects.size⟩)) env _ _ :=
      EnvId.initBinding_acts (r.initBinding_addAll hnew isMutable false false (.object ⟨m.objects.size⟩))
    cases slots.strict with
    | true => exact .bind (EnvId.createImmutable_acts hnew) (hinit false)
    | false => exact .bind (EnvId.createMutable_acts hnew) (hinit true)
  refine ⟨(m.pushObject obj).storeEnv env (.declarative r'), ?_, ?_, ?_⟩
  · unfold Evaluator.bindArguments
    dsimp only
    rw [bind_ok hrun]
    exact hbind _ he
  · exact .pushObject (m.storeEnv env (.declarative r')) obj
  · exact ⟨Array.getElem?_eq_none (Nat.le_refl _), obj, _, m.object?_pushObject_self obj, rfl⟩

end Arguments

theorem Machine.Allocates.storeEnv (h : m.Allocates m') (env : EnvId) (e : Environment) :
    (m.storeEnv env e).Allocates (m'.storeEnv env e) where
  rest := by
    rw [h.rest]
    rfl
  size := h.size
  objects := h.objects

/-- The record of a call after its arguments have been bound. -/
structure FunctionSlots.TakesArguments (slots : FunctionSlots) (arguments : List Value) (m m' : Machine)
    (r : DeclarativeRecord) : Prop where
  parameters : ∀ i name, (Parameters.names slots.code.parameters)[i]? = some name →
    name ∉ (Parameters.names slots.code.parameters).drop (i + 1) →
    r.get? name = some ⟨true, false, false, some (arguments[i]?.getD .undefined)⟩
  object : Evaluator.needsArguments slots = true → ∃ a, m.GetsArguments m' a ∧
    r.get? "arguments" = some ⟨!slots.strict, false, false, some (.object a)⟩
  noObject : Evaluator.needsArguments slots = false → m.GetsNoArguments m'
  unbound : ∀ name, name ∉ Evaluator.callNames slots → r.get? name = none

namespace Evaluator

variable {c : Context} {cs : List Context} {realm : Realm} {slots : FunctionSlots}
  (hm : m.contexts = c :: cs) (hr : m.realm? c.realm = some realm)

theorem mem_callNames : name ∈ callNames slots ↔ name ∈ Parameters.names slots.code.parameters ∨
    needsArguments slots = true ∧ name = "arguments" := by
  unfold callNames
  cases needsArguments slots <;> simp

include hm hr

theorem bindCall_eq (f : ObjectId) (arguments : List Value)
    (he : m.env? c.lexicalEnv = some (.declarative r)) (hempty : r.bindings = [])
    (hsimple : Parameters.isSimple slots.code.parameters = true) :
    ∃ m' r', (∀ ev : Evaluator, ev.bindCall f slots c.lexicalEnv arguments m = .ok () m') ∧
      (m.storeEnv c.lexicalEnv (.declarative r')).Allocates m' ∧ r.Rebound r' ∧
      slots.TakesArguments arguments m m' r' := by
  let env := c.lexicalEnv
  let names := Parameters.names slots.code.parameters
  let repeated := repeatsParameter slots
  have hdeclares : r.Declares [] repeated := ⟨by simp, fun n _ => by simp [DeclarativeRecord.get?, hempty]⟩
  obtain ⟨r₁, hacts, hrebound, hr₁, -⟩ :=
    declareParameters_acts (g := Contract.handles) env repeated names hdeclares
  rw [List.append_nil] at hr₁
  let m₁ := m.storeEnv env (.declarative r₁)
  have he₁ : m₁.env? env = some (.declarative r₁) := Machine.env?_storeEnv_self he _
  have hfirst := hacts m he
  -- What the parameters make of a record that may have the arguments object besides.
  have hbind (m₂ : Machine) (r₂ : DeclarativeRecord) (hm₂ : (m₁.storeEnv env (.declarative r₂)).Allocates m₂)
      (hsame : ∀ n ∈ names, r₂.get? n = r₁.get? n) (ev : Evaluator) :
      ev.bindParameters (if repeated then none else some env) slots.code.parameters arguments m₂ =
        .ok () (m₂.storeEnv env (.declarative (r₂.putAll names arguments))) := by
    refine bindParameters_eq ev arguments (hm₂.contexts.trans hm) ?_ hsimple repeatsParameter_nodup fun n hn => ?_
    · rw [hm₂.env?]
      exact Machine.env?_storeEnv_self he₁ _
    · obtain ⟨value, hvalue⟩ := hr₁.bound n (List.mem_reverse.mpr hn)
      exact ⟨value, (hsame n hn).trans hvalue.1, hvalue.2⟩
  have hparameters (r₂ : DeclarativeRecord) (hsame : ∀ n ∈ names, r₂.get? n = r₁.get? n) (i : Nat)
      (name : String) (hi : names[i]? = some name) (hlast : name ∉ names.drop (i + 1)) :
      (r₂.putAll names arguments).get? name =
        some ⟨true, false, false, some (arguments[i]?.getD .undefined)⟩ := by
    have hname : name ∈ names := List.mem_of_getElem? hi
    obtain ⟨value, hvalue, -⟩ := hr₁.bound name (List.mem_reverse.mpr hname)
    rw [DeclarativeRecord.get?_putAll hi hlast, hsame name hname, hvalue]
    rfl
  cases hneeds : needsArguments slots with
  | false =>
    refine ⟨m₁.storeEnv env (.declarative (r₁.putAll names arguments)), _, fun ev => ?_, ?_,
      hrebound.trans (.putAll r₁ names arguments), ?_⟩
    · unfold bindCall
      dsimp only
      rw [hneeds]
      have hself : m₁.storeEnv env (.declarative r₁) = m₁ := Machine.storeEnv_self he₁
      exact (bind_ok hfirst).trans (hbind m₁ r₁ (by rw [hself]) (fun _ _ => rfl) ev)
    · rw [Machine.storeEnv_storeEnv]
    · refine ⟨hparameters r₁ fun _ _ => rfl, by simp [hneeds], fun _ => .of_objects rfl, fun name hname => ?_⟩
      have hnot : name ∉ names := fun h => hname (mem_callNames.mpr (.inl h))
      rw [DeclarativeRecord.get?_putAll_of_notMem hnot]
      exact hr₁.unbound name (by simpa using hnot)
  | true =>
    have hname : "arguments" ∉ names := needsArguments_names hneeds
    have hnew : r₁.get? "arguments" = none := hr₁.unbound _ (by simpa using hname)
    obtain ⟨m₂, harguments, hallocates, hgets⟩ :=
      bindArguments_eq (m := m₁) hm hr f slots arguments he₁ hnew
    let r₂ := r₁.addAll [("arguments", ⟨!slots.strict, false, false, some (.object ⟨m.objects.size⟩)⟩)]
    have hsame (n : String) (hn : n ∈ names) : r₂.get? n = r₁.get? n := by
      have hne : n ≠ "arguments" := fun h => hname (h ▸ hn)
      rw [DeclarativeRecord.get?_addAll_singleton, if_neg hne]
    refine ⟨m₂.storeEnv env (.declarative (r₂.putAll names arguments)), _, fun ev => ?_, ?_,
      (hrebound.trans (.addAll r₁ _)).trans (.putAll r₂ names arguments), ?_⟩
    · unfold bindCall
      dsimp only
      rw [hneeds]
      exact (bind_ok hfirst).trans ((bind_ok harguments).trans (hbind m₂ r₂ hallocates hsame ev))
    · have hlater := hallocates.storeEnv env (.declarative (r₂.putAll names arguments))
      rwa [Machine.storeEnv_storeEnv, Machine.storeEnv_storeEnv] at hlater
    · refine ⟨hparameters r₂ hsame, fun _ => ⟨_, hgets, ?_⟩, by simp [hneeds], fun name hunbound => ?_⟩
      · rw [DeclarativeRecord.get?_putAll_of_notMem hname, DeclarativeRecord.get?_addAll_singleton, if_pos rfl]
        rfl
      · rw [mem_callNames, not_or, not_and] at hunbound
        rw [DeclarativeRecord.get?_putAll_of_notMem hunbound.1, DeclarativeRecord.get?_addAll_singleton,
          if_neg (hunbound.2 hneeds)]
        exact hr₁.unbound name (by simpa using hunbound.1)

end Evaluator

end EcmaEval
