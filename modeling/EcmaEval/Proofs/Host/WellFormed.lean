import EcmaEval.Proofs.Host.Operation
import Mathlib.Order.WellFounded

/-!
# Well-formed machines

A host that hands out valid handles only ever sees machines without dangling handles, without cycles
of prototypes, and with environments that lie after their outer ones. So each search along a chain
of prototypes or of scopes ends after at most as many visits as there are objects or environments.
-/
namespace EcmaEval

/-- The handles that the kind of an object holds are in range. -/
def ObjectKind.Within (b : Bounds) : ObjectKind → Prop
  | .function slots =>
    slots.environment.Within b ∧ (∀ env, slots.privateEnv = some env → env.Within b) ∧
      slots.realm.Within b
  | .arguments (some map) => map.env.Within b
  | _ => True

structure Object.Within (b : Bounds) (obj : Object) : Prop where
  prototype : ∀ p, obj.prototype = some p → p.Within b
  properties : ∀ e ∈ obj.properties.entries, e.2.All (Value.Within b)
  kind : obj.kind.Within b

structure DeclarativeRecord.Within (b : Bounds) (r : DeclarativeRecord) : Prop where
  bindings : ∀ e ∈ r.bindings, ∀ v, e.2.value = some v → v.Within b
  call : ∀ slots, r.call = some slots →
    slots.thisValue.Within b ∧ slots.function.Within b ∧ slots.newTarget.Within b
  outer : ∀ env, r.outer = some env → env.Within b

def ObjectScope.Within (b : Bounds) (s : ObjectScope) : Prop :=
  s.object.Within b ∧ ∀ env, s.outer = some env → env.Within b

def Environment.Within (b : Bounds) : Environment → Prop
  | .declarative r => r.Within b
  | .object s => s.Within b
  | .global g => g.scope.Within b ∧ g.declarative.Within b ∧ g.globalThis.Within b

/-- The environments of a scope chain, innermost first. -/
inductive Machine.ScopeChain (m : Machine) : Option EnvId → List EnvId → Prop
  | nil : Machine.ScopeChain m none []
  | cons (he : m.env? env = some e) (h : Machine.ScopeChain m e.outer? l) :
      Machine.ScopeChain m (some env) (env :: l)

/-- Every handle that is stored anywhere names something, no object is among its own prototypes, and
an environment lies after its outer one. -/
structure Machine.WellFormed (m : Machine) : Prop where
  objects : ∀ o obj, m.object? o = some obj → obj.Within m.bounds
  environments : ∀ env e, m.env? env = some e → e.Within m.bounds
  realms : ∀ id realm, m.realm? id = some realm → realm.Within m.bounds
  contexts : ∀ c ∈ m.contexts, c.Within m.bounds
  prototypes : ∀ o, ¬ Relation.TransGen m.IsPrototype o o
  outer : ∀ env e, m.env? env = some e → ∀ out, e.outer? = some out → out.index < env.index

/-- The walks along chains come to their end: a chain of prototypes has at most as many objects as
the machine, a scope chain at most as many environments, and no operation that walks along one of
them runs out of steps. -/
structure Machine.WalksEnd (m : Machine) : Prop where
  prototypes : ∀ o, o.Within m.bounds → ∃ l, m.Chain (some o) l ∧ l.length ≤ m.objects.size
  scopes : ∀ env, env.Within m.bounds → ∃ l, m.ScopeChain (some env) l ∧ l.length ≤ m.environments.size
  get : ∀ (o : ObjectId) key, o.Within m.bounds → o.get key m ≠ .error .exhausted
  hasProperty : ∀ (o : ObjectId) key, o.Within m.bounds → o.hasProperty key m ≠ .error .exhausted
  errorKind : ∀ v : Value, v.Within m.bounds → findErrorKind v m ≠ .error .exhausted
  identifierReference : ∀ (env : EnvId) name strict, env.Within m.bounds →
    identifierReference (some env) name strict m ≠ .error .exhausted
  thisEnvironment : thisEnvironment m ≠ .error .exhausted
  set : ∀ (o : ObjectId) key (value receiver : Value) m', o.Within m.bounds → value.Within m.bounds →
    receiver.Within m.bounds → o.set key value receiver m ≠ .error .exhausted m'
  setPrototype : ∀ (o : ObjectId) prototype m', o.Within m.bounds →
    (∀ p : ObjectId, prototype = some p → p.Within m.bounds) →
    o.setPrototype prototype m ≠ .error .exhausted m'
  hasInstance : ∀ (constructor value : Value) m', constructor.Within m.bounds → value.Within m.bounds →
    hasInstance constructor value m ≠ .error .exhausted m'

namespace Contract

/-- One contract promises no more than another about what is stored. -/
structure Weaker (h g : Contract) : Prop where
  plain : h.plain → g.plain
  guarded : h.guarded → g.guarded
  checked : h.checked → g.checked

variable {g h : Contract} {b : Bounds} {m : Machine}

theorem Stored.weaken (hw : h.Weaker g) {v : Value} (hv : g.Stored b v) : h.Stored b v :=
  ⟨hv.1, fun hp => hv.2 (hw.plain hp)⟩

theorem KindOk.weaken (hw : h.Weaker g) {kind : ObjectKind} (hk : g.KindOk b kind) :
    h.KindOk b kind := by
  cases kind with
  | function slots => exact ⟨hk.1, hk.2.1, hk.2.2.1, fun hc => hk.2.2.2 (hw.checked hc)⟩
  | arguments map =>
    cases map with
    | none => trivial
    | some map => exact hk
  | _ => trivial

theorem ObjectOk.weaken (hw : h.Weaker g) {obj : Object} (ho : g.ObjectOk b obj) :
    h.ObjectOk b obj where
  prototype := ho.prototype
  properties e he := (ho.properties e he).imp fun _ => .weaken hw
  keys := ho.keys
  kind := ho.kind.weaken hw
  length hg := ho.length (hw.guarded hg)

theorem RecordOk.weaken (hw : h.Weaker g) {r : DeclarativeRecord} (hr : g.RecordOk b r) :
    h.RecordOk b r where
  values e he v hv := (hr.values e he v hv).weaken hw
  fixed hc := hr.fixed (hw.checked hc)
  call slots hs :=
    have ⟨hthis, hf, ht⟩ := hr.call slots hs
    ⟨hthis.weaken hw, hf, ht.weaken hw⟩

theorem EnvironmentOk.weaken (hw : h.Weaker g) {env : EnvId} {e : Environment}
    (he : g.EnvironmentOk b env e) : h.EnvironmentOk b env e := by
  cases he with
  | declarative houter hroot hrecord =>
    exact .declarative houter (fun hc => hroot (hw.checked hc)) (hrecord.weaken hw)
  | object houter hroot hobject => exact .object houter (fun hc => hroot (hw.checked hc)) hobject
  | global hscope houter hthis hrecord hrecordOuter =>
    exact .global hscope houter hthis (hrecord.weaken hw) hrecordOuter

/-- A machine that keeps a contract keeps every weaker one. -/
theorem Sound.weaken (hw : h.Weaker g) (hm : g.Sound m) : h.Sound m where
  objects o obj ho := (hm.objects o obj ho).weaken hw
  environments env e he := (hm.environments env e he).weaken hw
  realms := hm.realms
  globals := hm.globals
  contexts := hm.contexts
  prototypes := hm.prototypes
  aliases hg := hm.aliases (hw.guarded hg)

theorem ObjectOk.within {obj : Object} (ho : g.ObjectOk b obj) : obj.Within b where
  prototype := ho.prototype
  properties e he := (ho.properties e he).imp fun _ hv => hv.1
  kind := by
    have hk := ho.kind
    cases hkind : obj.kind with
    | function slots =>
      rw [hkind] at hk
      exact ⟨hk.1, hk.2.1, hk.2.2.1⟩
    | arguments map =>
      cases map with
      | none => trivial
      | some map =>
        rw [hkind] at hk
        exact hk
    | _ => trivial

theorem RecordOk.within {r : DeclarativeRecord} (hr : g.RecordOk b r)
    (houter : ∀ env, r.outer = some env → env.Within b) : r.Within b where
  bindings e he v hv := (hr.values e he v hv).1
  call slots hs :=
    have ⟨hthis, hf, ht⟩ := hr.call slots hs
    ⟨hthis.1, hf, ht.1⟩
  outer := houter

theorem EnvironmentOk.within {env : EnvId} {e : Environment} (he : g.EnvironmentOk b env e)
    (henv : env.Within b) : e.Within b := by
  cases he with
  | declarative houter hroot hrecord =>
    exact hrecord.within fun out hout => Nat.lt_trans (houter out hout) henv
  | object houter hroot hobject => exact ⟨hobject, fun out hout => Nat.lt_trans (houter out hout) henv⟩
  | global hscope houter hthis hrecord hrecordOuter =>
    exact ⟨⟨hscope, by simp [houter]⟩, hrecord.within (by simp [hrecordOuter]), hthis⟩

theorem Sound.wellFormed (hm : g.Sound m) : m.WellFormed where
  objects o obj ho := (hm.objects o obj ho).within
  environments env e he := (hm.environments env e he).within (Machine.within_of_env? he)
  realms := hm.realms
  contexts := hm.contexts
  prototypes o hcycle := hm.prototypes.transGen.irrefl.irrefl o hcycle
  outer env e he _ hout := (hm.environments env e he).outer hout

/-- Outer environments descend, so a scope chain is no longer than its start is high. -/
theorem Sound.scopeChain (hm : g.Sound m) (env : EnvId) (henv : env.Within m.bounds) :
    ∃ l, m.ScopeChain (some env) l ∧ l.length ≤ env.index + 1 := by
  induction hi : env.index using Nat.strongRecOn generalizing env with
  | _ i ih =>
    obtain ⟨e, he⟩ := Machine.exists_env henv
    cases hout : e.outer? with
    | none => exact ⟨[env], .cons he (by rw [hout]; exact .nil), by simp⟩
    | some out =>
      have hlt : out.index < env.index := (hm.environments _ e he).outer hout
      obtain ⟨l, hl, hlength⟩ := ih out.index (hi ▸ hlt) out (Nat.lt_trans hlt henv) rfl
      refine ⟨env :: l, .cons he (by rw [hout]; exact hl), ?_⟩
      simp only [List.length_cons]
      omega

/-- Nothing that is promised not to run out of levels does. -/
theorem Asks.ne_exhausted {q : Query α} {Q : α → Prop} (hq : g.Asks m q Q) (hm : g.Sound m)
    (hbounded : ¬ g.bounded) : q m ≠ .error .exhausted := by
  intro hrun
  have hq := hq hm
  rw [hrun] at hq
  exact hbounded hq

theorem Runs.ne_exhausted {x : Eval α} {Q : Machine → α → Prop} (hx : g.Runs m.grant m x Q)
    (hm : g.Sound m) (hbounded : ¬ g.bounded) (m' : Machine) : x m ≠ .error .exhausted m' :=
  fun hrun => hbounded (hx.error (.refl _) hm hrun).2

/-- The promise of valid handles, for operations that evaluate no code. -/
def walks : Contract := { handles with bounded := False }

theorem walks_weaker (g : Contract) : walks.Weaker g := ⟨False.elim, False.elim, False.elim⟩

theorem Sound.walksEnd (hm : g.Sound m) : m.WalksEnd := by
  have hw : walks.Sound m := hm.weaken (walks_weaker g)
  have hstored {v : Value} (hv : v.Within m.bounds) : walks.Stored m.bounds v := ⟨hv, False.elim⟩
  refine ⟨fun o ho => ?_, fun env henv => ?_, fun o key ho => ?_, fun o key ho => ?_, fun v hv => ?_,
    fun env name strict henv => ?_, ?_, fun o key value receiver m' ho hv hr => ?_,
    fun o prototype m' ho hp => ?_, fun constructor value m' hc hv => ?_⟩
  · obtain ⟨l, hl⟩ := hm.chain (some o) fun p hp => by cases hp; exact ho
    exact ⟨l, hl, hl.length_le⟩
  · obtain ⟨l, hl, hlength⟩ := hm.scopeChain env henv
    exact ⟨l, hl, Nat.le_trans hlength henv⟩
  · exact (ObjectId.get_asks ho).ne_exhausted hw id
  · exact (ObjectId.hasProperty_asks ho).ne_exhausted hw id
  · exact (findErrorKind_asks hv).ne_exhausted hw id
  · exact (identifierReference_asks fun e he => by cases he; exact henv).ne_exhausted hw id
  · exact thisEnvironment_asks.ne_exhausted hw id
  · exact (ObjectId.set_runs ho (hstored hv) hr).ne_exhausted hw id m'
  · exact (ObjectId.setPrototype_runs ho hp).ne_exhausted hw id m'
  · exact (hasInstance_runs hc hv).ne_exhausted hw id m'

end Contract

/-- **Well-formedness of reachable machines.** Whatever a host does with valid handles, in any order
and with any code, no stored handle dangles, no object is among its own prototypes, every environment
lies after its outer one, and the walks along chains end within the size of the machine. -/
theorem reachable_wellFormed {m : Machine} (h : Contract.handles.Reachable m) :
    m.WellFormed ∧ m.WalksEnd :=
  have hm := h.sound Contract.handles_open
  ⟨hm.wellFormed, hm.walksEnd⟩

/-- A machine in which a function was called. -/
theorem reachable_wellFormed_call :
    let code : FunctionCode := ⟨none, .normal, [.identifier "x"], .block [], false, false⟩
    let node := Node.script [.expression (.call (.function code) [.thisValue])]
    let m₁ := Operation.newRealm.run.after {}
    let m₂ := (Operation.pushScriptContext ⟨0⟩ false).run.after m₁
    let m := (Operation.evaluate 6 node).run.after m₂
    Contract.handles.Reachable m ∧ 2 ≤ m.environments.size ∧ m.WellFormed ∧ m.WalksEnd := by
  intro code node m₁ m₂ m
  have hrealm : RealmId.Within m₁.bounds ⟨0⟩ := by decide +kernel
  have hreach : Contract.handles.Reachable m :=
    ⟨512, .tail (.tail (.single (Contract.performs .newRealm trivial))
      (Contract.performs (.pushScriptContext ⟨0⟩ false) hrealm))
      (Contract.performs (.evaluate 6 node) trivial)⟩
  exact ⟨hreach, by decide +kernel, reachable_wellFormed hreach⟩

end EcmaEval
