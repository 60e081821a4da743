import EcmaEval.Proofs.Heap.Create
import EcmaEval.Proofs.Heap.Open
import EcmaEval.Proofs.Stack.Context
import EcmaEval.Proofs.Text

/-!
# Names of functions

A function without a name that is the value of a property of an object literal takes its name from the key,
and so do getters and setters, with a word in front. Names are made of characters, so where a key has a lone
surrogate the name has U+FFFD.
-/
namespace EcmaEval

namespace Text

variable {s t t' : Text}

/-- The text with U+FFFD for each lone surrogate. -/
def toWellFormed (t : Text) : Text := .ofString t.toString

/-- The text is that of a sequence of characters: it has no lone surrogate. -/
def IsWellFormed (t : Text) : Prop := ∃ string, ofString string = t

theorem toWellFormed_eq_iff : t.toWellFormed = t ↔ t.IsWellFormed := by
  constructor
  · intro h
    exact ⟨t.toString, h⟩
  · rintro ⟨string, rfl⟩
    exact congrArg ofString (toString_ofString string)

theorem ofString_append (a b : String) : ofString (a ++ b) = ofString a ++ ofString b := by
  unfold ofString
  rw [String.toList_append, List.flatMap_append]
  rfl

theorem append_right_inj : s ++ t = s ++ t' ↔ t = t' := by
  constructor
  · intro h
    have hunits : s.units ++ t.units = s.units ++ t'.units := congrArg units h
    cases t
    cases t'
    exact congrArg mk (List.append_cancel_left hunits)
  · rintro rfl
    rfl

end Text

/-- What an object reports as its name: a text, in a property that only a redefinition changes. -/
def Machine.HasName (m : Machine) (f : ObjectId) (t : Text) : Prop :=
  f.getOwnProperty (.name "name") m = .ok (some (.readOnly (.string t)))

/-- An entry of an object literal makes a function of the code and names it after its key, with some text
before it. -/
inductive Member.Names : Member → FunctionCode → String → Prop
  | function {name : MemberName} {code : FunctionCode} (h : code.ownName? = none) :
    Names ⟨.value, name, .function code⟩ code ""
  | arrow {name : MemberName} {code : FunctionCode} : Names ⟨.value, name, .arrow code⟩ code ""
  | getter {name : MemberName} {code : FunctionCode} : Names ⟨.getter, name, .function code⟩ code "get "
  | setter {name : MemberName} {code : FunctionCode} : Names ⟨.setter, name, .function code⟩ code "set "

/-- How an entry of a kind defines the property that holds its function. -/
def MemberKind.define (o : ObjectId) (key : Key) (f : ObjectId) : MemberKind → Eval Unit
  | .value => o.createPropertyOrThrow key (.object f)
  | .getter => do
    let (_, set) ← Evaluator.accessorPair o key
    o.defineOrThrow key (.accessor (.object f) set true true)
  | .setter => do
    let (get, _) ← Evaluator.accessorPair o key
    o.defineOrThrow key (.accessor get (.object f) true true)

/-- The property that an entry of a kind makes of a function. -/
inductive MemberKind.Puts (f : ObjectId) : MemberKind → Descriptor → Prop
  | value : Puts f .value (.plain (.object f))
  | getter (set : Value) : Puts f .getter (.accessor (.object f) set true true)
  | setter (get : Value) : Puts f .setter (.accessor get (.object f) true true)

variable {m m₁ : Machine} {o f : ObjectId} {obj : Object} {key : Key} {d : Descriptor} {t t' : Text}
  {c : Context} {cs : List Context} {r : Realm}

namespace Machine.HasName

theorem of_object (ho : m.object? f = some obj) (hobj : obj.IsNamed t) : m.HasName f t := by
  have hfree : obj.parameter? (.name "name") = none := by simp [Object.parameter?, hobj.1]
  unfold HasName
  rw [ObjectId.getOwnProperty_eq_stored ho hfree, hobj.2]

theorem unique (h : m.HasName f t) (h' : m.HasName f t') : t = t' := by
  unfold HasName at h h'
  rw [h] at h'
  cases h'
  rfl

end Machine.HasName

/-- A new function of the code has come to the machine under a name, and nothing else has changed. -/
structure Machine.GetsFunction (m m' : Machine) (f : ObjectId) (code : FunctionCode) (env : EnvId)
    (realm : RealmId) (t : Text) : Prop where
  allocates : m.Allocates m'
  fresh : ¬ f.Within m.bounds
  closure : m'.IsClosure f code env realm
  named : ∃ obj, m'.object? f = some obj ∧ obj.IsNamed t

section Make

variable (hm : m.contexts = c :: cs) (hr : m.realm? c.realm = some r) (code : FunctionCode)

include hm hr

theorem instantiateMethod_eq (name : String) : ∃ f m', instantiateMethod code name m = .ok f m' ∧
    m.GetsFunction m' f code c.lexicalEnv c.realm (.ofString name) := by
  let first := code.objectIn c r c.lexicalEnv c.privateEnv
  let named := first.insert (.name "name") (.readOnly (.ofString name))
  have hcontext : runningContext m = .ok c := by simp [runningContext, hm]
  have hname : setFunctionName ⟨m.objects.size⟩ name (m.pushObject first) = .ok () (m.pushObject named) :=
    ObjectId.defineOrThrow_new rfl rfl rfl rfl
  refine ⟨⟨m.objects.size⟩, m.pushObject named, ?_, .pushObject m named, Nat.lt_irrefl _,
    ⟨named, code.slotsIn c c.lexicalEnv c.privateEnv, m.object?_pushObject_self named, rfl, rfl, rfl, rfl⟩,
    named, m.object?_pushObject_self named, rfl, rfl⟩
  unfold instantiateMethod
  rw [bind_ok (lift_ok (lexicalEnv_cons hm)), bind_ok (lift_ok hcontext),
    bind_ok (newFunction_eq hm hr code c.lexicalEnv c.privateEnv)]
  exact bind_ok hname

theorem instantiateExpression_eq (hcode : code.ownName? = none) (key : Key) : ∃ f m',
    instantiateExpression code (some key) m = .ok f m' ∧
      m.GetsFunction m' f code c.lexicalEnv c.realm (.ofString key.functionName) := by
  obtain ⟨m', obj, hfinish, hallocates, hclosure, -, hobj, hnamed⟩ :=
    finishFunction_eq hm hr code c.lexicalEnv c.privateEnv key.functionName
  have hcontext : runningContext m = .ok c := by simp [runningContext, hm]
  refine ⟨⟨m.objects.size⟩, m', ?_, hallocates, Nat.lt_irrefl _, hclosure, obj, hobj, hnamed⟩
  unfold instantiateExpression
  rw [bind_ok (lift_ok (lexicalEnv_cons hm)), bind_ok (lift_ok hcontext), hcode]
  dsimp only
  rw [bind_ok (newFunction_eq hm hr code c.lexicalEnv c.privateEnv)]
  exact bind_ok hfinish

end Make

namespace Evaluator

variable {entry : Member} {code : FunctionCode} {label : String}

theorem accessorPair_eq (ho : m.object? o = some obj) (hopen : obj.Open) (key : Key) :
    ∃ get set, accessorPair o key m = .ok (get, set) := by
  unfold accessorPair
  rw [Query.bind_ok (ObjectId.getOwnProperty_eq_stored ho (hopen.unmapped key))]
  cases obj.properties.get? key with
  | none => exact ⟨_, _, rfl⟩
  | some d => cases d <;> exact ⟨_, _, rfl⟩

/-- An entry that names a function makes it and then defines its property. -/
theorem member_eq (ev : Evaluator) (o : ObjectId) (hkey : ev.memberKey entry.name m = .ok (.string t) m₁)
    (hm : m₁.contexts = c :: cs) (hr : m₁.realm? c.realm = some r) (hentry : entry.Names code label) :
    ∃ f m₂, m₁.GetsFunction m₂ f code c.lexicalEnv c.realm (.ofString label ++ t.toWellFormed) ∧
      ev.member o entry m = entry.kind.define o (.string t) f m₂ := by
  unfold member
  rw [bind_ok hkey]
  cases hentry with
  | function hanonymous =>
    obtain ⟨f, m₂, hrun, hf⟩ := instantiateExpression_eq hm hr code hanonymous (.string t)
    refine ⟨f, m₂, hf, ?_⟩
    dsimp only
    unfold valueNamed
    dsimp only
    rw [if_pos (Option.isNone_iff_eq_none.mpr hanonymous)]
    exact bind_ok (bind_ok hrun)
  | arrow =>
    obtain ⟨f, m₂, hrun, hf⟩ := instantiateMethod_eq hm hr code t.toString
    exact ⟨f, m₂, hf, bind_ok (bind_ok hrun)⟩
  | getter =>
    obtain ⟨f, m₂, hrun, hf⟩ := instantiateMethod_eq hm hr code ("get " ++ t.toString)
    rw [Text.ofString_append] at hf
    exact ⟨f, m₂, hf, bind_ok hrun⟩
  | setter =>
    obtain ⟨f, m₂, hrun, hf⟩ := instantiateMethod_eq hm hr code ("set " ++ t.toString)
    rw [Text.ofString_append] at hf
    exact ⟨f, m₂, hf, bind_ok hrun⟩

end Evaluator

/-- An object that takes every property gets the one that an entry defines. -/
theorem Object.Open.memberDefine_eq (hopen : obj.Open) (ho : m.object? o = some obj) (key : Key)
    (kind : MemberKind) (f : ObjectId) :
    ∃ d, kind.Puts f d ∧ kind.define o key f m = .ok () (m.updateObject o (·.insert key d)) := by
  obtain ⟨get, set, hpair⟩ := Evaluator.accessorPair_eq ho hopen key
  cases kind with
  | value => exact ⟨_, .value, hopen.createPropertyOrThrow_eq ho key _⟩
  | getter => exact ⟨_, .getter set, (bind_ok (lift_ok hpair)).trans (hopen.defineOrThrow_eq ho key _)⟩
  | setter => exact ⟨_, .setter get, (bind_ok (lift_ok hpair)).trans (hopen.defineOrThrow_eq ho key _)⟩

/-- **Names of functions in object literals.** Where a property of an object literal has a string key, a
function without a name and an arrow get a name of their own before they become the value of the property,
and so do a getter and a setter: the key, after `get ` or `set ` for an accessor, with U+FFFD in place of each
lone surrogate. So the name is exactly that of the key if and only if the key is well formed. An object that
takes every property, as that of a literal does, then has the function under the key. -/
theorem member_names_function {ev : Evaluator} {entry : Member} {code : FunctionCode} {label : String}
    (o : ObjectId) (hkey : ev.memberKey entry.name m = .ok (.string t) m₁) (hm : m₁.contexts = c :: cs)
    (hr : m₁.realm? c.realm = some r) (hentry : entry.Names code label) : ∃ f m₂,
      ev.member o entry m = entry.kind.define o (.string t) f m₂ ∧
      ¬ f.Within m₁.bounds ∧ m₁.Allocates m₂ ∧ m₂.IsClosure f code c.lexicalEnv c.realm ∧
      m₂.HasName f (.ofString label ++ t.toWellFormed) ∧
      (m₂.HasName f (.ofString label ++ t) ↔ t.IsWellFormed) ∧
      ∀ obj, m₁.object? o = some obj → obj.Open → ∃ d m', ev.member o entry m = .ok () m' ∧
        entry.kind.Puts f d ∧ o.getOwnProperty (.string t) m' = .ok (some d) ∧
        m'.HasName f (.ofString label ++ t.toWellFormed) := by
  obtain ⟨f, m₂, hf, hrun⟩ := Evaluator.member_eq ev o hkey hm hr hentry
  obtain ⟨fobj, hfobj, hnamed⟩ := hf.named
  have hname := Machine.HasName.of_object hfobj hnamed
  refine ⟨f, m₂, hrun, hf.fresh, hf.allocates, hf.closure, hname, ⟨fun hexact => ?_, fun hwell => ?_⟩,
    fun obj ho hopen => ?_⟩
  · exact Text.toWellFormed_eq_iff.mp (Text.append_right_inj.mp (hname.unique hexact))
  · rwa [Text.toWellFormed_eq_iff.mpr hwell] at hname
  · have hwithin := Machine.within_of_object? ho
    have ho₂ : m₂.object? o = some obj := (hf.allocates.objects o hwithin).trans ho
    obtain ⟨d, hputs, hdefine⟩ := hopen.memberDefine_eq ho₂ (.string t) entry.kind f
    refine ⟨d, _, hrun.trans hdefine, hputs, ?_, ?_⟩
    · have hinsert := Machine.object?_updateObject_self ho₂ (·.insert (.string t) d)
      rw [ObjectId.getOwnProperty_eq_stored hinsert (hopen.unmapped (.string t)), Object.insert_get?,
        if_pos BEq.rfl]
    · have hother : f ≠ o := by
        rintro rfl
        exact hf.fresh hwithin
      refine .of_object ?_ hnamed
      rw [Machine.object?_updateObject, if_neg hother, hfobj]

/-- A getter of an object literal. -/
theorem member_names_function_getter :
    let code : FunctionCode := ⟨none, .normal, [], .block [], false, false⟩
    let entry : Member := ⟨.getter, .identifier "x", .function code⟩
    let m₁ := Operation.newRealm.run.after {}
    let m₂ := (Operation.pushScriptContext ⟨0⟩ false).run.after m₁
    let m₃ := (Operation.newObject none).run.after m₂
    ∃ f set m₄, (Evaluator.level 1).member ⟨14⟩ entry m₃ = .ok () m₄ ∧
      ObjectId.getOwnProperty ⟨14⟩ (.name "x") m₄ = .ok (some (.accessor (.object f) set true true)) ∧
      m₄.HasName f (.ofString "get x") := by
  intro code entry m₁ m₂ m₃
  have hrealm : RealmId.Within m₃.bounds ⟨0⟩ := by decide +kernel
  have hcount : m₃.contexts.length = 1 := by decide +kernel
  obtain ⟨c, hcontexts⟩ := List.length_eq_one_iff.mp hcount
  have hc : c.realm = ⟨0⟩ := by
    have hrealms : m₃.contexts.map Context.realm = [⟨0⟩] := by decide +kernel
    rw [hcontexts] at hrealms
    exact List.head_eq_of_cons_eq hrealms
  obtain ⟨r, hr⟩ := Machine.exists_realm (hc ▸ hrealm)
  have ho : m₃.object? ⟨14⟩ = some { prototype := none, kind := .ordinary } := by
    have hsize : m₂.objects.size = 14 := by decide +kernel
    exact hsize ▸ m₂.object?_pushObject_self { prototype := none, kind := .ordinary }
  have hkey : (Evaluator.level 1).memberKey entry.name m₃ = .ok (.name "x") m₃ := rfl
  obtain ⟨f, -, -, -, -, -, -, -, hdefines⟩ := member_names_function ⟨14⟩ hkey hcontexts hr .getter
  obtain ⟨d, m₄, hrun, hputs, hown, hname⟩ := hdefines _ ho ⟨rfl, rfl, fun _ => rfl, fun _ _ h => by cases h⟩
  have hwell : (Text.ofString "x").toWellFormed = .ofString "x" := Text.toWellFormed_eq_iff.mpr ⟨"x", rfl⟩
  rw [hwell, ← Text.ofString_append] at hname
  cases hputs with
  | getter set => exact ⟨f, set, m₄, hrun, hown, hname⟩

/-- Whether the object has a plain property of the key that holds an object. -/
def Machine.holdsObject (m : Machine) (o : ObjectId) (key : Key) (f : ObjectId) : Bool :=
  match o.getOwnProperty key m with
  | .ok (some (.data (.object f') true true true)) => f' = f
  | _ => false

theorem Machine.getOwnProperty_of_holdsObject {o : ObjectId} (h : m.holdsObject o key f = true) :
    o.getOwnProperty key m = .ok (some (.plain (.object f))) := by
  unfold holdsObject at h
  split at h
  · rename_i f' heq
    obtain rfl := of_decide_eq_true h
    exact heq
  · cases h

/-- A name that an object can be seen to report is its name. -/
theorem Machine.HasName.of_check (h : (match f.getOwnProperty (.name "name") m with
    | .ok (some (.data (.string t') false false true)) => decide (t' = t)
    | _ => false) = true) : m.HasName f t := by
  split at h
  · rename_i t' heq
    obtain rfl := of_decide_eq_true h
    exact heq
  · cases h

/-- A run that can be seen to complete with an object does. -/
theorem Eval.exists_object {x : Eval Completion} {p : ObjectId → Bool}
    (h : (match x m with | .ok (.normal (some (.object o))) _ => p o | _ => false) = true) :
    ∃ o m', x m = .ok (.normal (some (.object o))) m' ∧ p o = true := by
  split at h
  · exact ⟨_, _, ‹_›, h⟩
  · cases h

/-- The name of an arrow under a computed key that is a lone surrogate. -/
theorem arrow_name_surrogate :
    let x : Expression := .identifier "x"
    let arrow : Expression := .arrow ⟨none, .arrow, [], .concise x, false, false⟩
    let key : Text := ⟨[0xd800]⟩
    let m₁ := Operation.newRealm.run.after {}
    let m₂ := (Operation.pushScriptContext ⟨0⟩ false).run.after m₁
    let m₃ := (Operation.define ⟨8⟩ (.name "x") (.plain (.string key))).run.after m₂
    ∃ m₄, evaluate 4 (.expression (.object [⟨.value, .computed x, arrow⟩])) m₃ =
        .ok (.normal (some (.object ⟨14⟩))) m₄ ∧
      ObjectId.getOwnProperty ⟨14⟩ (.string key) m₄ = .ok (some (.plain (.object ⟨15⟩))) ∧
      m₄.HasName ⟨15⟩ ⟨[0xfffd]⟩ ∧ ¬ m₄.HasName ⟨15⟩ key := by
  intro x arrow key m₁ m₂ m₃
  let run := evaluate 4 (.expression (.object [⟨.value, .computed x, arrow⟩]))
  obtain ⟨o, m₄, hrun, ho⟩ := Eval.exists_object (x := run) (m := m₃) (p := fun o => o = ⟨14⟩) (by decide +kernel)
  have hafter : run.after m₃ = m₄ := Eval.after_ok hrun
  have hvalue : (run.after m₃).holdsObject ⟨14⟩ (.string key) ⟨15⟩ = true := by decide +kernel
  have hname : (run.after m₃).HasName ⟨15⟩ ⟨[0xfffd]⟩ := .of_check (by decide +kernel)
  rw [hafter] at hvalue hname
  refine ⟨m₄, ?_, Machine.getOwnProperty_of_holdsObject hvalue, hname, fun hkey => ?_⟩
  · rw [← of_decide_eq_true ho]
    exact hrun
  · exact absurd (hname.unique hkey) (by decide)

end EcmaEval
