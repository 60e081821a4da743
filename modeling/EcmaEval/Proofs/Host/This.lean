import EcmaEval.Proofs.Host.Binding
import EcmaEval.Proofs.Scope.Script

/-!
# `this` under the operations of a host

A host that makes realms, pushes script contexts and runs code only ever sees scoped machines: `this`
has a value wherever code is evaluated. In the call of an arrow it is the value that `this` had where
the arrow was made: what `this` is for an environment stays to the end of a run, and the end of the run
is that of the call and of the making of the arrow alike.
-/
namespace EcmaEval

variable {gains : Growth} {final m m' : Machine} {env : EnvId} {v : Value}

theorem EnvId.hasThis_eq {e : Environment} (he : m.env? env = some e) : env.hasThis m = .ok e.hasThis := by
  unfold EnvId.hasThis
  rw [Query.bind_ok (EnvId.load_eq he)]
  cases e <;> rfl

theorem findOnScopeChain_here {e : Environment} (he : m.env? env = some e) (hthis : e.hasThis = true)
    (steps : Nat) : findOnScopeChain (·.hasThis) (steps + 1) (some env) m = .ok (some env) := by
  unfold findOnScopeChain
  rw [Query.bind_ok (EnvId.hasThis_eq he), hthis]
  rfl

theorem findOnScopeChain_outer {e : Environment} (he : m.env? env = some e) (hthis : e.hasThis = false)
    (steps : Nat) :
    findOnScopeChain (·.hasThis) (steps + 1) (some env) m =
      findOnScopeChain (·.hasThis) steps e.outer? m := by
  conv_lhs => unfold findOnScopeChain
  rw [Query.bind_ok (EnvId.hasThis_eq he), hthis]
  exact Query.bind_ok (EnvId.load_eq he)

namespace Machine

/-- Outer environments descend, so the search comes to its end. -/
theorem ThisAt.find (h : m.ThisAt env v) (hm : m.IsScoped) {steps : Nat} (hsteps : env.index < steps) :
    ∃ found, findOnScopeChain (·.hasThis) steps (some env) m = .ok (some found) ∧
      found.getThis m = .ok v m := by
  induction h generalizing steps with
  | @global env g he =>
    obtain ⟨steps, rfl⟩ := Nat.exists_eq_add_one_of_ne_zero (Nat.ne_zero_of_lt hsteps)
    refine ⟨env, findOnScopeChain_here he rfl steps, ?_⟩
    exact bind_ok (lift_ok (EnvId.load_eq he))
  | @call env r slots he hcall hstatus =>
    obtain ⟨steps, rfl⟩ := Nat.exists_eq_add_one_of_ne_zero (Nat.ne_zero_of_lt hsteps)
    refine ⟨env, findOnScopeChain_here he ?_ steps, ?_⟩
    · simp [Environment.hasThis, DeclarativeRecord.hasThis, hcall, hstatus]
    · unfold EnvId.getThis
      rw [bind_ok (lift_ok (EnvId.load_eq he))]
      obtain ⟨outer, bindings, call⟩ := r
      cases hcall
      simp only [hstatus]
      rfl
  | @outer env outer v hpasses _ ih =>
    obtain ⟨steps, rfl⟩ := Nat.exists_eq_add_one_of_ne_zero (Nat.ne_zero_of_lt hsteps)
    obtain ⟨e, he, hthis, houter⟩ := hpasses
    have hlt : outer.index < env.index := (hm.outers env e outer he houter).1
    rw [findOnScopeChain_outer he hthis, houter]
    exact ih (by omega)

theorem ThisAt.of_getThis {e : Environment} (he : m.env? env = some e) (h : env.getThis m = .ok v m) :
    m.ThisAt env v := by
  unfold EnvId.getThis at h
  rw [bind_ok (lift_ok (EnvId.load_eq he))] at h
  cases e with
  | object s => cases h
  | global g =>
    cases h
    exact .global he
  | declarative r =>
    obtain ⟨outer, bindings, call⟩ := r
    cases call with
    | none => cases h
    | some slots =>
      cases hstatus : slots.thisStatus with
      | initialized =>
        simp only [hstatus] at h
        cases h
        exact .call he rfl hstatus
      | uninitialized =>
        simp only [hstatus] at h
        exact absurd h complain_ne_ok
      | lexical =>
        simp only [hstatus] at h
        cases h

/-- What `this` resolves to is found on the scope chain. -/
theorem ThisAt.of_find {steps : Nat} {found : EnvId}
    (hfind : findOnScopeChain (·.hasThis) steps (some env) m = .ok (some found))
    (hthis : found.getThis m = .ok v m) : m.ThisAt env v := by
  induction steps generalizing env with
  | zero => cases hfind
  | succ steps ih =>
    cases hload : env.load m with
    | error e =>
      have hfails : env.hasThis m = .error e := Query.bind_error hload
      unfold findOnScopeChain at hfind
      rw [Query.bind_error hfails] at hfind
      cases hfind
    | ok e =>
      have he := EnvId.load_ok hload
      cases hhas : e.hasThis with
      | false =>
        rw [findOnScopeChain_outer he hhas] at hfind
        cases houter : e.outer? with
        | none =>
          rw [houter] at hfind
          cases steps <;> cases hfind
        | some outer =>
          rw [houter] at hfind
          exact .outer ⟨e, he, hhas, houter⟩ (ih hfind)
      | true =>
        rw [findOnScopeChain_here he hhas] at hfind
        cases hfind
        exact .of_getThis he hthis

theorem resolveThis_eq {c : Context} {cs : List Context} (hcontexts : m.contexts = c :: cs)
    (hm : m.IsScoped) (h : m.ThisAt c.lexicalEnv v) : resolveThis m = .ok v m := by
  obtain ⟨found, hfind, hthis⟩ := h.find hm (Nat.lt_succ_of_lt h.within)
  have hsearch : thisEnvironment m = .ok found := by
    unfold thisEnvironment
    rw [Query.bind_ok (lexicalEnv_cons hcontexts)]
    exact Query.bind_ok hfind
  exact (bind_ok (lift_ok hsearch)).trans hthis

theorem thisAt_of_resolveThis (h : resolveThis m = .ok v m) :
    ∃ c cs, m.contexts = c :: cs ∧ m.ThisAt c.lexicalEnv v := by
  obtain ⟨found, m₁, hsearch, hthis⟩ := bind_eq_ok h
  obtain ⟨rfl, hsearch⟩ := lift_eq_ok hsearch
  cases hcontexts : m₁.contexts with
  | nil =>
    unfold thisEnvironment at hsearch
    rw [Query.bind_error (lexicalEnv_nil hcontexts)] at hsearch
    cases hsearch
  | cons c cs =>
    refine ⟨c, cs, rfl, ?_⟩
    unfold thisEnvironment at hsearch
    rw [Query.bind_ok (lexicalEnv_cons hcontexts)] at hsearch
    have hchain : searchScopeChain (some c.lexicalEnv) (·.hasThis) m₁ =
      findOnScopeChain (·.hasThis) (m₁.environments.size + 1) (some c.lexicalEnv) m₁ := rfl
    cases hfind : findOnScopeChain (·.hasThis) (m₁.environments.size + 1) (some c.lexicalEnv) m₁ with
    | error e =>
      rw [Query.bind_error (hchain.trans hfind)] at hsearch
      cases hsearch
    | ok result =>
      rw [Query.bind_ok (hchain.trans hfind)] at hsearch
      cases result with
      | none => cases hsearch
      | some env =>
        cases hsearch
        exact .of_find hfind hthis

/-- An environment that leaves `this` to others has the `this` of each of them. -/
theorem ThisAt.of_passes {outer : EnvId} (h : Relation.ReflTransGen m.Passes env outer)
    (hthis : m.ThisAt outer v) : m.ThisAt env v := by
  induction h using Relation.ReflTransGen.head_induction_on with
  | refl => exact hthis
  | head hpasses _ ih => exact .outer hpasses ih

theorem ThisAt.not_passes {outer : EnvId} {e : Environment} (he : m.env? env = some e) (hthis : e.hasThis = true) :
    ¬ m.Passes env outer := by
  rintro ⟨e', he', hpasses, -⟩
  cases he.symm.trans he'
  exact Bool.false_ne_true (hpasses.symm.trans hthis)

/-- The search for `this` has one outcome. -/
theorem ThisAt.unique {v' : Value} (h : m.ThisAt env v) (h' : m.ThisAt env v') : v = v' := by
  induction h with
  | global he =>
    cases h' with
    | global he' =>
      cases he.symm.trans he'
      rfl
    | call he' => cases he.symm.trans he'
    | outer hpasses => exact absurd hpasses (not_passes he rfl)
  | call he hcall hstatus =>
    cases h' with
    | global he' => cases he.symm.trans he'
    | call he' hcall' =>
      cases he.symm.trans he'
      cases hcall.symm.trans hcall'
      rfl
    | outer hpasses =>
      refine absurd hpasses (not_passes he ?_)
      simp [Environment.hasThis, DeclarativeRecord.hasThis, hcall, hstatus]
  | outer hpasses _ ih =>
    cases h' with
    | global he => exact absurd hpasses (not_passes he rfl)
    | call he hcall hstatus =>
      refine absurd hpasses (not_passes he ?_)
      simp [Environment.hasThis, DeclarativeRecord.hasThis, hcall, hstatus]
    | outer hpasses' hthis =>
      obtain ⟨e, he, -, houter⟩ := hpasses
      obtain ⟨e', he', -, houter'⟩ := hpasses'
      cases he.symm.trans he'
      cases houter.symm.trans houter'
      exact ih hthis

end Machine

theorem allocate_closure? {object : Object} {o : ObjectId} (h : allocate object m = .ok o m') :
    m'.closure? o = object.closure? := by
  cases h
  change (m.pushObject object).closure? ⟨m.objects.size⟩ = _
  simp [Machine.closure?, Machine.object?_pushObject]

theorem newFunction_ok {code : FunctionCode} {privateEnv : Option EnvId} {f : ObjectId}
    (hcode : code.kind = .arrow) (h : newFunction code env privateEnv m = .ok f m') :
    ∃ slots, m'.closure? f = some slots ∧ slots.thisMode = .lexical ∧ slots.environment = env ∧
      m.Persists .none m' := by
  obtain ⟨realm, m₁, hrealm, h₁⟩ := bind_eq_ok h
  obtain ⟨rfl, -⟩ := lift_eq_ok hrealm
  obtain ⟨r, m₂, hload, h₂⟩ := bind_eq_ok h₁
  obtain ⟨rfl, -⟩ := lift_eq_ok hload
  obtain ⟨strict, m₃, hstrict, h₃⟩ := bind_eq_ok h₂
  obtain ⟨rfl, -⟩ := lift_eq_ok hstrict
  obtain ⟨o, m₄, hallocate, h₄⟩ := bind_eq_ok h₃
  obtain ⟨u, m₅, hdefine, h₅⟩ := bind_eq_ok h₄
  cases h₅
  have hquiet : m₄.Quiet m' := Eval.Quiet.quiet_ok (by grind) hdefine
  have hclosure := allocate_closure? hallocate
  have hnew : m₃.Persists .none m₄ := by
    cases hallocate
    exact (Machine.IsScoped.pushObject_extends m₃ _).toPersists
  refine ⟨_, ((hquiet.closures _).trans hclosure).trans rfl, ?_, rfl,
    hnew.trans (Machine.Extends.of_quiet hquiet).toPersists⟩
  simp [hcode]

/-- An arrow closes over the running scope. -/
theorem instantiateArrow_ok {code : FunctionCode} {name : Option Key} {f : ObjectId}
    (hcode : code.kind = .arrow) (h : instantiateArrow code name m = .ok f m') :
    ∃ slots, m'.closure? f = some slots ∧ slots.thisMode = .lexical ∧
      lexicalEnv m = .ok slots.environment ∧ m.Persists .none m' := by
  obtain ⟨scope, m₁, hscope, h₁⟩ := bind_eq_ok h
  obtain ⟨rfl, hlexical⟩ := lift_eq_ok hscope
  obtain ⟨c, m₂, hcontext, h₂⟩ := bind_eq_ok h₁
  obtain ⟨rfl, -⟩ := lift_eq_ok hcontext
  obtain ⟨o, m₃, hnew, h₃⟩ := bind_eq_ok h₂
  obtain ⟨u, m₄, hname, h₄⟩ := bind_eq_ok h₃
  cases h₄
  have hquiet : m₃.Quiet m' := Eval.Quiet.quiet_ok (by grind) hname
  obtain ⟨slots, hslots, hmode, rfl, hpersists⟩ := newFunction_ok hcode hnew
  exact ⟨slots, (hquiet.closures _).trans hslots, hmode, hlexical,
    hpersists.trans (Machine.Extends.of_quiet hquiet).toPersists⟩

/-- `this` has a value on a machine that goes on to a final one. In the call of an arrow it is the value of the
environment that the arrow closes over, on whatever machine that goes on to the same final one. So it is what
`this` was where the arrow was made; and so it is for every function of the kind of arrows, however it was made. -/
structure Machine.ResolvesThis (m final : Machine) : Prop where
  value : ∃ v, resolveThis m = .ok v m
  persists : m.Persists .all final
  closed : ∀ (n : Machine) f slots v, n.Persists .all final → n.closure? f = some slots →
    slots.thisMode = .lexical → n.ThisAt slots.environment v → m.function? = some f →
    resolveThis m = .ok v m
  arrow : ∀ n code name f n' v, code.kind = .arrow → instantiateArrow code name n = .ok f n' →
    resolveThis n = .ok v n → n'.Persists .all final → m.function? = some f → resolveThis m = .ok v m
  lexical : ∀ n code env privateEnv f n' v, code.kind = .arrow →
    newFunction code env privateEnv n = .ok f n' → n.ThisAt env v → n'.Persists .all final →
    m.function? = some f → resolveThis m = .ok v m

theorem Machine.IsOnWay.resolvesThis (hm : m.IsOnWay .all final) : m.ResolvesThis final := by
  obtain ⟨c, cs, hcontexts⟩ := List.exists_cons_of_ne_nil hm.running
  have hhosts : m.Hosts c.function c.lexicalEnv := hm.isScoped.contexts c (hcontexts ▸ List.mem_cons_self)
  have hclosed (n : Machine) (f : ObjectId) (slots : FunctionSlots) (v : Value) (hn : n.Persists .all final)
      (hslots : n.closure? f = some slots) (hmode : slots.thisMode = .lexical)
      (hthis : n.ThisAt slots.environment v) (hf : m.function? = some f) : resolveThis m = .ok v m := by
    have hf : c.function = some f := by simpa [function?, hcontexts] using hf
    obtain ⟨-, slots', hslots', harrow⟩ := hhosts.callee f hf
    -- the two machines meet in the final one, where the arrow closes over one environment
    cases (hn.closures f slots hslots).symm.trans (hm.persists.closures f slots' hslots')
    have hpasses : Relation.ReflTransGen final.Passes c.lexicalEnv slots.environment :=
      ((harrow hmode).lift id fun _ _ => hm.persists.passes).to_reflTransGen
    obtain ⟨v', hv'⟩ := hhosts.this
    obtain rfl : v' = v := (hm.persists.thisAt hv').unique (.of_passes hpasses (hn.thisAt hthis))
    exact resolveThis_eq hcontexts hm.isScoped hv'
  refine ⟨hhosts.this.imp fun v => resolveThis_eq hcontexts hm.isScoped, hm.persists, hclosed, ?_, ?_⟩
  · intro n code name f n' v hcode hnew hthis hn' hf
    obtain ⟨slots, hslots, hmode, hlexical, hmade⟩ := instantiateArrow_ok hcode hnew
    obtain ⟨d, ds, hn, hthis⟩ := thisAt_of_resolveThis hthis
    have hscope : d.lexicalEnv = slots.environment :=
      Except.ok.inj ((lexicalEnv_cons hn).symm.trans hlexical)
    exact hclosed n' f slots v hn' hslots hmode (hmade.thisAt (hscope ▸ hthis)) hf
  · intro n code env privateEnv f n' v hcode hnew hthis hn' hf
    obtain ⟨slots, hslots, hmode, rfl, hmade⟩ := newFunction_ok hcode hnew
    exact hclosed n' f slots v hn' hslots hmode (hmade.thisAt hthis) hf

/-- The global environment of a new realm. -/
def Realm.newGlobal (global : ObjectId) : GlobalRecord where
  scope := { object := global, isWith := false, outer := none }
  declarative := { outer := none, bindings := [] }
  globalThis := global
  varNames := []

/-- The run makes one global environment and one realm with it, and otherwise new objects only. -/
def Machine.Founds (m : Machine) (x : Eval α) : Prop :=
  ∃ m₁ global r, m.Quiet m₁ ∧ r.globalEnv = ⟨m₁.environments.size⟩ ∧
    ((m₁.pushEnv (.global (Realm.newGlobal global))).pushRealm r).Quiet (x.after m)

theorem Machine.Founds.allocate {object : Object} {f : ObjectId → Eval α} (hobject : object.closure? = none)
    (h : (m.pushObject object).Founds (f ⟨m.objects.size⟩)) : m.Founds (allocate object >>= f) := by
  obtain ⟨m₁, global, r, hquiet, hr, hafter⟩ := h
  exact ⟨m₁, global, r, .trans (.pushObject m hobject) hquiet, hr, hafter⟩

theorem newRealm_founds (m : Machine) : m.Founds newRealm := by
  have hconstructor (intrinsics : Intrinsics) (global : ObjectId) (kind : ErrorKind) :
      (Realm.newErrorConstructor intrinsics global kind).Quiet :=
    .of_stays (Realm.newErrorConstructor_stays (holds_of_isFree intrinsics) (holds_of_isFree global) kind)
  unfold newRealm Realm.newErrorPrototype
  -- the standard objects and the global object
  iterate 9 refine .allocate rfl ?_
  have hrest (intrinsics : Intrinsics) (global : ObjectId) (realm : RealmId) :
      Eval.Quiet (do
        global.insert (.name "globalThis") (.hidden (.object global))
        global.insert (.name "undefined") (.frozen .undefined)
        global.insert (.name "NaN") (.frozen (.number .nan))
        global.insert (.name "Infinity") (.frozen (.number (.infinite false)))
        ErrorKind.all.forM (Realm.newErrorConstructor intrinsics global)
        return realm) := by
    refine .bind (by grind) fun _ => .bind (by grind) fun _ => ?_
    refine .bind (by grind) fun _ => .bind (by grind) fun _ => ?_
    exact .bind (.forM (hconstructor _ _) _) fun _ => .pure _
  exact ⟨_, _, _, .refl _, rfl, hrest _ _ _ _⟩

/-- A later scoped machine, with a running context if there was one. -/
structure Machine.Continues (gains : Growth) (m m' : Machine) : Prop where
  later : m.Persists gains m'
  isScoped : m'.IsScoped
  contexts : m.contexts ≠ [] → m'.contexts ≠ []

theorem Machine.Continues.quiet (hm : m.IsScoped) (h : m.Quiet m') : m.Continues gains m' :=
  ⟨(Extends.of_quiet h).toPersists, hm.quiet h, h.contexts ▸ id⟩

theorem Machine.Founds.continues {x : Eval α} (h : m.Founds x) (hm : m.IsScoped) :
    m.Continues gains (x.after m) := by
  obtain ⟨m₁, global, r, hquiet, hr, hafter⟩ := h
  let m₂ := m₁.pushEnv (.global (Realm.newGlobal global))
  have hnew : m₁.Persists gains m₂ := IsScoped.pushEnv_persists m₁ _
  have hrealm : m₂.Persists gains (m₂.pushRealm r) := ⟨fun _ _ => id, fun _ e he => ⟨e, he, .refl e⟩⟩
  have hm₂ : m₂.IsScoped := (hm.quiet hquiet).pushEnv nofun
  have hscoped : (m₂.pushRealm r).IsScoped := by
    refine ⟨fun c hc => hrealm.hosts (hm₂.contexts c hc), fun o slots ho => ?_, fun env e outer he ho => ?_,
      fun id r' hr' => ?_⟩
    · exact (hm₂.closures o slots ho).imp fun _ => hrealm.thisAt
    · obtain ⟨hlt, hthis⟩ := hm₂.outers env e outer he ho
      exact ⟨hlt, hthis.imp fun _ => hrealm.thisAt⟩
    · rw [realm?_pushRealm] at hr'
      split at hr'
      · cases hr'
        exact ⟨Realm.newGlobal global, by simp [hr, m₂, env?, pushRealm, pushEnv]⟩
      · exact hrealm.isGlobal (hm₂.realms id r' hr')
  refine ⟨?_, hscoped.quiet hafter, (hafter.contexts.trans hquiet.contexts).symm ▸ id⟩
  exact (Extends.of_quiet hquiet).toPersists.trans
    ((hnew.trans hrealm).trans (Extends.of_quiet hafter).toPersists)

theorem pushScriptContext_continues (hm : m.IsScoped) (realm : RealmId) (strict : Bool) :
    m.Continues gains ((pushScriptContext realm strict).after m) := by
  cases hcontext : scriptContext realm strict m with
  | error e =>
    rw [show (pushScriptContext realm strict).after m = m from
      Eval.after_error (bind_error (lift_error hcontext))]
    exact .quiet hm (.refl m)
  | ok c =>
    rw [show (pushScriptContext realm strict).after m = (pushContext c).after m from
      Eval.after_bind_ok (lift_ok hcontext)]
    by_cases hfull : m.stackLimit ≤ m.contexts.length
    · have hquiet : m.Quiet ((complain .stackExceeded : Eval Unit).after m) := Eval.Quiet.complain .stackExceeded m
      unfold Eval.after at hquiet ⊢
      rw [pushContext_of_full c hfull]
      exact .quiet hm hquiet
    · rw [Eval.after_ok (pushContext_of_room c hfull)]
      have hhosts : ∀ d ∈ c :: m.contexts, m.Hosts d.function d.lexicalEnv := by
        intro d hd
        rcases List.mem_cons.mp hd with rfl | hd
        · exact hm.scriptContext hcontext
        · exact hm.contexts d hd
      exact ⟨.withContexts m _, hm.withContexts hhosts, fun _ => List.cons_ne_nil _ _⟩

theorem pushScriptContext_contexts {realm : RealmId} {strict : Bool}
    (h : pushScriptContext realm strict m = .ok () m') : m'.contexts ≠ [] := by
  obtain ⟨c, m₁, hcontext, hpush⟩ := bind_eq_ok h
  obtain ⟨-, rfl⟩ := pushContext_eq_ok hpush
  exact List.cons_ne_nil _ _

theorem Machine.IsScoped.new (limit : Nat) : ({ stackLimit := limit } : Machine).IsScoped where
  contexts _ hc := by cases hc
  closures _ _ ho := by cases ho
  outers _ _ _ he := by cases he
  realms _ _ hr := by cases hr

/-- A realm and a script context in it are what running code starts with. -/
theorem startScript_isScoped {limit : Nat} {realm : RealmId} {strict : Bool} {m₁ m₂ : Machine}
    (hrealm : newRealm { stackLimit := limit } = .ok realm m₁)
    (hcontext : pushScriptContext realm strict m₁ = .ok () m₂) : m₂.IsScoped := by
  have hfounded : Machine.Continues .all { stackLimit := limit } m₁ :=
    Eval.after_ok hrealm ▸ (newRealm_founds _).continues (.new limit)
  have hpushed : m₁.Continues .all m₂ :=
    Eval.after_ok hcontext ▸ pushScriptContext_continues hfounded.isScoped realm strict
  exact hpushed.isScoped

/-- The host makes a realm, starts a script or runs code. -/
def Operation.RunsCode : Operation → Prop
  | .newRealm | .pushScriptContext _ _ | .evaluate _ _ | .call _ _ _ _ | .construct _ _ _ _ => True
  | _ => False

theorem Node.gains_all (node : Node) : node.Gains .all := by
  cases node with
  | script body => exact fun _ => ⟨fun _ _ => trivial, fun _ _ => trivial, fun _ _ => trivial⟩
  | _ => trivial

theorem Agree.continues {x y : Eval α} (hx : Agree gains final m x y) (hm : m.IsScoped) :
    m.Continues gains ((Functor.discard x).after m) := by
  rw [Eval.after_discard]
  obtain ⟨-, hlater, hscoped⟩ := hx m (.refl m) hm
  exact ⟨hlater.toPersists, hscoped, hlater.contexts_ne_nil⟩

namespace Operation

/-- Running code leaves a later scoped machine. -/
theorem run_continues {op : Operation} (hop : op.RunsCode) (hm : m.IsScoped) :
    m.Continues .all (op.run.after m) := by
  have hev (level : Nat) : (Evaluator.level level).Agrees .all m (.level level) := Evaluator.level_agrees level
  cases op with
  | newRealm =>
    change m.Continues .all ((discard EcmaEval.newRealm).after m)
    rw [Eval.after_discard]
    exact (newRealm_founds m).continues hm
  | pushScriptContext realm strict => exact pushScriptContext_continues hm realm strict
  | evaluate level node =>
    change m.Continues .all ((discard (EcmaEval.evaluate level node)).after m)
    rw [evaluate_eq]
    exact (Node.evaluateBy_agree (hev level) node.gains_all).continues hm
  | call level f thisValue arguments => exact (Evaluator.call_agree (hev level) _ _ _).continues hm
  | construct level f arguments newTarget => exact (Evaluator.construct_agree (hev level) _ _ _).continues hm
  | _ => cases hop

theorem runAll_continues {ops : List Operation} (hops : ∀ op ∈ ops, op.RunsCode) (hm : m.IsScoped) :
    m.Continues .all (runAll ops m) := by
  induction ops generalizing m with
  | nil => exact .quiet hm (.refl m)
  | cons op ops ih =>
    have hfirst := run_continues (hops op List.mem_cons_self) hm
    have hrest := ih (fun op hop => hops op (List.mem_cons_of_mem _ hop)) hfirst.isScoped
    exact ⟨hfirst.later.trans hrest.later, hrest.isScoped, fun h => hrest.contexts (hfirst.contexts h)⟩

end Operation

/-- Looks before and after each evaluation of an expression or a statement make no difference to what is run,
also if they know the machine that it ends in. -/
structure Machine.Stands (m : Machine) (watch : Machine → Eval Unit) : Prop where
  evaluate : ∀ level node,
    node.evaluateBy (.watched (watch ((evaluate level node).after m)) level) m = evaluate level node m
  call : ∀ level f thisValue arguments,
    let run := (Evaluator.level level).call f thisValue arguments
    (Evaluator.watched (watch (run.after m)) level).call f thisValue arguments m = run m
  construct : ∀ level f arguments newTarget,
    let run := (Evaluator.level level).construct f arguments newTarget
    (Evaluator.watched (watch (run.after m)) level).construct f arguments newTarget m = run m

/-- **`this` always has a value, and arrows inherit it.** Let a host make a realm, push a script context
and then run any code, in whatever way that ends, and also make more realms and start more scripts.
Then `this` has a value, and so it has at every evaluation of every expression and statement in further
code: looks at the machine that only stand this being so, taken before and after each of them, change
nothing. All these machines go on to the one that the code ends in, and so does the machine it starts from.
In the call of an arrow that was made on the way there, `this` is what it was in the context that made the
arrow. -/
theorem runAll_resolvesThis {limit : Nat} {realm : RealmId} {strict : Bool} {m₁ m₂ : Machine}
    (hrealm : newRealm { stackLimit := limit } = .ok realm m₁)
    (hcontext : pushScriptContext realm strict m₁ = .ok () m₂) {ops : List Operation}
    (hops : ∀ op ∈ ops, op.RunsCode) :
    let m := Operation.runAll ops m₂
    m.ResolvesThis m ∧
      (∀ watch : Machine → Eval Unit,
        (∀ final n : Machine, n.ResolvesThis final → watch final n = .ok () n) → m.Stands watch) ∧
      ∀ op : Operation, op.RunsCode → m.Persists .all (op.run.after m) := by
  intro m
  have hm : m₂.Continues .all m := Operation.runAll_continues hops (startScript_isScoped hrealm hcontext)
  have hcontexts : m.contexts ≠ [] := hm.contexts (pushScriptContext_contexts hcontext)
  have hself : m.Persists .all m := (Machine.Extends.refl m).toPersists
  have hstart : m.IsOnWay .all m := ⟨hm.isScoped, hcontexts, hself⟩
  refine ⟨hstart.resolvesThis, fun watch hwatch => ?_, fun op hop => (op.run_continues hop hm.isScoped).later⟩
  have hev (final : Machine) (level : Nat) :
      (Evaluator.level level).Agrees .all final (.watched (watch final) level) :=
    Evaluator.watched_agrees (fun n hn => hwatch final n hn.resolvesThis) level
  have hsame {α : Type} {x y : Eval α} (h : Agree .all (x.after m) m x y) : y m = x m :=
    (h m (.refl m) hm.isScoped).1 hcontexts (Machine.Extends.refl _).toPersists
  refine ⟨fun level node => ?_, fun level _ _ _ => hsame (Evaluator.call_agree (hev _ level) _ _ _),
    fun level _ _ _ => hsame (Evaluator.construct_agree (hev _ level) _ _ _)⟩
  rw [evaluate_eq]
  exact hsame (Node.evaluateBy_agree (hev _ level) node.gains_all)

/-- An arrow, made in a call and called after it. -/
theorem runAll_resolvesThis_arrow :
    let arrow : FunctionCode := ⟨none, .arrow, [], .concise .thisValue, false, false⟩
    let maker : FunctionCode := ⟨none, .normal, [], .block [.returns (some (.arrow arrow))], false, false⟩
    let node := Node.script [.expression (.call (.call (.function maker) []) [])]
    let m₁ := newRealm.after {}
    let m₂ := (pushScriptContext ⟨0⟩ false).after m₁
    let m := Operation.runAll [.evaluate 8 node] m₂
    m₂.objects.size + 2 ≤ m.objects.size ∧ m.ResolvesThis m ∧
      m.Stands (fun _ => discard resolveThis) ∧ m.Persists .all ((Operation.evaluate 8 node).run.after m) := by
  intro arrow maker node m₁ m₂ m
  have hrealm : newRealm { stackLimit := 512 } = .ok ⟨0⟩ m₁ := Eval.eq_ok_after (by decide +kernel)
  have hcontext : pushScriptContext ⟨0⟩ false m₁ = .ok () m₂ := Eval.eq_ok_after (by decide +kernel)
  have hsize : m₂.objects.size + 2 ≤ m.objects.size := by decide +kernel
  have hops : ∀ op ∈ [Operation.evaluate 8 node], op.RunsCode := by simp [Operation.RunsCode]
  have hmain := runAll_resolvesThis hrealm hcontext hops
  refine ⟨hsize, hmain.1, hmain.2.1 (fun _ => discard resolveThis) fun _ n hn => ?_, hmain.2.2 _ trivial⟩
  obtain ⟨v, hv⟩ := hn.value
  rw [discard_eq]
  exact bind_ok hv

end EcmaEval
