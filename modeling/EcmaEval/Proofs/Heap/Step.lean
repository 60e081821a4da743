import EcmaEval.Proofs.Heap.Define

/-!
# Steps of a machine

Everything that happens to a machine, one step at a time: parts are added, a property is defined or
deleted, an object takes another prototype, a record of bindings changes, or the context stack does.
A run may declare names in environments and put objects together without checks only where its
*grant* says so; what a run does to the parts that were there before it follows from that.
-/
namespace EcmaEval

/-- What a run may do to environments and objects. -/
structure Grant where
  /-- Names of an environment that checked code may create or give their first value. -/
  declare : EnvId → String → Prop
  /-- Objects that may be put together without checks. -/
  rebuild : ObjectId → Prop

/-- Further names of one environment. -/
def Grant.declaring (A : Grant) (env : EnvId) (names : List String) : Grant :=
  { A with declare := fun e n => A.declare e n ∨ (e = env ∧ n ∈ names) }

/-- A run may do anything to the parts it adds. -/
def Machine.grant (m : Machine) : Grant where
  declare env _ := ¬ env.Within m.bounds
  rebuild o := ¬ o.Within m.bounds

theorem Machine.not_grant_declare {m : Machine} {env : EnvId} (h : env.Within m.bounds) (n : String) :
    ¬ m.grant.declare env n := fun hout => hout h

theorem Machine.grant_declare {m : Machine} {env : EnvId} (h : env.index = m.environments.size)
    (n : String) : m.grant.declare env n := fun hin => Nat.ne_of_lt hin h

namespace Contract

variable (g : Contract)

/-- Whether one grant covers another. Only checked code minds which names it declares. -/
def Covers (B A : Grant) : Prop :=
  (g.checked → ∀ env n, A.declare env n → B.declare env n) ∧ ∀ o, A.rebuild o → B.rebuild o

/-- One step of a machine. -/
inductive Step (A : Grant) (m : Machine) : Machine → Prop
  | contexts (hcs : ∀ c ∈ cs, c.Within m.bounds) : Step A m (m.withContexts cs)
  | symbol : Step A m { m with symbols := m.symbols + 1 }
  | object (hok : g.ObjectOk m.bounds obj) (hmap : obj.parameterMap? = none)
      (horderly : obj.Orderly) : Step A m (m.pushObject obj)
  | environment (hok : g.EnvironmentOk m.bounds ⟨m.environments.size⟩ e) : Step A m (m.pushEnv e)
  | realm (hr : r.Within m.bounds)
      (hglobal : ∃ record, m.env? r.globalEnv = some (.global record)) : Step A m (m.pushRealm r)
  /-- A whole definition; between its moves an array may be in disorder. -/
  | define (hmoves : g.Moves m ((ObjectId.define o key d).after m)) :
      Step A m ((ObjectId.define o key d).after m)
  /-- A property is stored without a check. -/
  | insert (ho : m.object? o = some obj) (hd : d.All (g.Stored m.bounds))
      (hraw : g.guarded → A.rebuild o ∧ obj.isArray = false ∧ obj.parameterMap? = none) :
      Step A m (m.updateObject o (·.insert key d))
  | erase (ho : m.object? o = some obj)
      (hconfigurable : g.guarded → ∀ d, obj.properties.get? key = some d → d.configurable = true) :
      Step A m (m.updateObject o (·.erase key))
  /-- The new prototype is on a chain that the object is not on. -/
  | reparent {S : ObjectId → Prop} (ho : m.object? o = some obj)
      (hp : ∀ p, prototype = some p → p.Within m.bounds) (hSp : ∀ p, prototype = some p → S p)
      (hSo : ¬ S o) (hS : ∀ x y, S x → m.IsPrototype y x → S y)
      (hfree : g.guarded → A.rebuild o ∨ obj.extensible = true) :
      Step A m (m.updateObject o ({ · with prototype := prototype }))
  | freeze (ho : m.object? o = some obj) :
      Step A m (m.updateObject o ({ · with extensible := false }))
  | markConstructor (ho : m.object? o = some obj) :
      Step A m (m.updateObject o Object.markConstructor)
  /-- An arguments object is mapped. -/
  | attach (ho : m.object? o = some obj) (hkind : obj.kind = .arguments none)
      (henv : map.env.Within m.bounds) (hdistinct : map.Distinct) (hmap : map.Declarative m)
      (hraw : g.guarded → A.rebuild o)
      (halias : g.guarded → { obj with kind := .arguments (some map) }.Aliases m) :
      Step A m (m.updateObject o ({ · with kind := .arguments (some map) }))
  | record (he : m.env? env = some e) (h : g.EnvStep m.bounds (A.declare env) e e') :
      Step A m (m.storeEnv env e')

/-- A machine that some steps lead to. -/
abbrev Steps (A : Grant) : Machine → Machine → Prop := Relation.ReflTransGen (g.Step A)

variable {g} {A B : Grant} {m m' : Machine}

namespace Covers

theorem refl (A : Grant) : g.Covers A A := ⟨fun _ _ _ h => h, fun _ h => h⟩

theorem trans {C : Grant} (h₁ : g.Covers A B) (h₂ : g.Covers B C) : g.Covers A C :=
  ⟨fun hc env n h => h₁.1 hc env n (h₂.1 hc env n h), fun o h => h₁.2 o (h₂.2 o h)⟩

theorem declaring (h : g.Covers A B) {env : EnvId} {names : List String}
    (hnames : g.checked → ∀ n ∈ names, A.declare env n) : g.Covers A (B.declaring env names) := by
  refine ⟨fun hc e n hn => ?_, h.2⟩
  obtain hn | ⟨rfl, hn⟩ := hn
  · exact h.1 hc e n hn
  · exact hnames hc n hn

theorem grant (h : m.bounds ≤ m'.bounds) : g.Covers m.grant m'.grant :=
  ⟨fun _ _ _ hout hin => hout (Nat.lt_of_lt_of_le hin h.2.1),
    fun _ hout hin => hout (Nat.lt_of_lt_of_le hin h.1)⟩

theorem declaring_self (A : Grant) (env : EnvId) (names : List String) :
    g.Covers (A.declaring env names) A := ⟨fun _ _ _ h => .inl h, fun _ h => h⟩

end Covers

theorem ObjectOk.markConstructor {b : Bounds} {obj : Object} (h : g.ObjectOk b obj) :
    g.ObjectOk b obj.markConstructor := by
  have hkind := h.kind
  unfold Object.markConstructor
  split
  · rename_i slots hk
    rw [hk] at hkind
    exact ⟨h.prototype, h.properties, h.keys, hkind, fun _ ha => by simp [Object.isArray] at ha⟩
  · exact h

namespace Step

theorem mono (hA : g.Covers B A) (h : g.Step A m m') : g.Step B m m' := by
  cases h with
  | contexts hcs => exact .contexts hcs
  | symbol => exact .symbol
  | object hok hmap horderly => exact .object hok hmap horderly
  | environment hok => exact .environment hok
  | realm hr hglobal => exact .realm hr hglobal
  | define hmoves => exact .define hmoves
  | insert ho hd hraw => exact .insert ho hd fun hg => ⟨hA.2 _ (hraw hg).1, (hraw hg).2⟩
  | erase ho hconfigurable => exact .erase ho hconfigurable
  | reparent ho hp hSp hSo hS hfree =>
    exact .reparent ho hp hSp hSo hS fun hg => (hfree hg).imp_left (hA.2 _)
  | freeze ho => exact .freeze ho
  | markConstructor ho => exact .markConstructor ho
  | attach ho hkind henv hdistinct hmap hraw halias =>
    exact .attach ho hkind henv hdistinct hmap (fun hg => hA.2 _ (hraw hg)) halias
  | record he h => exact .record he (h.mono fun hc => hA.1 hc _)

theorem sound (hm : g.Sound m) (h : g.Step A m m') : g.Sound m' := by
  cases h with
  | contexts hcs => exact hm.withContexts hcs
  | symbol =>
    exact ⟨hm.objects, hm.environments, hm.realms, hm.globals, hm.contexts, hm.prototypes, hm.aliases⟩
  | object hok hmap horderly => exact hm.pushObject hok hmap
  | environment hok => exact hm.pushEnv hok
  | realm hr hglobal => exact hm.pushRealm hr hglobal
  | define hmoves => exact g.moves_motion.sound hm hmoves
  | insert ho hd hraw =>
    refine hm.updateObject ho ((hm.objects _ _ ho).insert hd fun hg ha => ?_) rfl fun hg => ?_
    · simp [(hraw hg).2.1] at ha
    · intro map k name hmap
      simp [(hraw hg).2.2] at hmap
  | erase ho hconfigurable => exact Move.sound hm (.erase ho hconfigurable)
  | reparent ho hp hSp hSo hS hfree => exact hm.reparent ho hp hSp hSo hS
  | @freeze o obj ho =>
    have hok := hm.objects o obj ho
    exact hm.updateObject ho ⟨hok.prototype, hok.properties, hok.keys, hok.kind, hok.length⟩ rfl
      fun hg => hm.aliases hg o obj ho
  | @markConstructor o obj ho =>
    refine hm.updateObject ho (hm.objects o obj ho).markConstructor ?_ fun hg => ?_
    · unfold Object.markConstructor
      split <;> rfl
    · unfold Object.markConstructor
      split
      · intro map key name hmap
        cases hmap
      · exact hm.aliases hg o obj ho
  | @attach o obj map ho hkind henv hdistinct hmap hraw halias =>
    have hok := hm.objects o obj ho
    exact hm.updateObject ho
      ⟨hok.prototype, hok.properties, hok.keys, henv, fun _ ha => by simp [Object.isArray] at ha⟩ rfl halias
  | record he h => exact hm.stepEnv he h

theorem bounds (hm : g.Sound m) (h : g.Step A m m') : m.bounds ≤ m'.bounds := by
  cases h with
  | object hok hmap horderly => exact Move.bounds (.error hok hmap horderly)
  | environment hok =>
    rw [Machine.bounds_pushEnv]
    exact ⟨Nat.le_refl _, Nat.le_succ _, Nat.le_refl _⟩
  | realm hr hglobal =>
    rw [Machine.bounds_pushRealm]
    exact ⟨Nat.le_refl _, Nat.le_refl _, Nat.le_succ _⟩
  | define hmoves => exact g.moves_motion.bounds hm hmoves
  | contexts hcs => exact Bounds.le_refl _
  | symbol => exact Bounds.le_refl _
  | _ => simp [Bounds.le_refl]

/-- What a step leaves of an environment. -/
theorem environments (hm : g.Sound m) (h : g.Step A m m') {env : EnvId} {e : Environment}
    (he : m.env? env = some e) : ∃ e', m'.env? env = some e' ∧ g.Evolves (A.declare env) e e' := by
  cases h with
  | environment hok =>
    exact ⟨e, by rw [Machine.env?_pushEnv_of_within (Machine.within_of_env? he), he], .refl _ _⟩
  | define hmoves => exact moves_environments hm hmoves he
  | @record env' e₁ e₂ he₁ hstep =>
    rw [Machine.env?_storeEnv _ _ _ _ he₁]
    split
    · subst env'
      rw [he] at he₁
      cases he₁
      exact ⟨e₂, rfl, hstep.evolves (hm.environments env e he)⟩
    · exact ⟨e, he, .refl _ _⟩
  | _ => exact ⟨e, he, .refl _ _⟩

theorem realms (h : g.Step A m m') {id : RealmId} {r : Realm} (hr : m.realm? id = some r) :
    m'.realm? id = some r := by
  cases h with
  | realm hr' hglobal =>
    rw [Machine.realm?_pushRealm]
    exact (if_neg (Nat.ne_of_lt (Machine.within_of_realm? hr))).trans hr
  | define hmoves => exact moves_realms hmoves hr
  | _ => exact hr

end Step

namespace Steps

theorem mono (hA : g.Covers B A) (h : g.Steps A m m') : g.Steps B m m' :=
  Relation.ReflTransGen.mono (fun _ _ => Step.mono hA) _ _ h

theorem sound (h : g.Steps A m m') (hm : g.Sound m) : g.Sound m' := by
  induction h with
  | refl => exact hm
  | tail _ hstep ih => exact hstep.sound ih

theorem bounds (h : g.Steps A m m') (hm : g.Sound m) : m.bounds ≤ m'.bounds := by
  induction h with
  | refl => exact Bounds.le_refl _
  | tail hsteps hstep ih => exact Bounds.le_trans ih (hstep.bounds (Steps.sound hsteps hm))

theorem environments (h : g.Steps A m m') (hm : g.Sound m) {env : EnvId} {e : Environment}
    (he : m.env? env = some e) : ∃ e', m'.env? env = some e' ∧ g.Evolves (A.declare env) e e' := by
  induction h with
  | refl => exact ⟨e, he, .refl _ _⟩
  | tail hsteps hstep ih =>
    obtain ⟨e₁, he₁, h₁⟩ := ih
    obtain ⟨e₂, he₂, h₂⟩ := hstep.environments (Steps.sound hsteps hm) he₁
    exact ⟨e₂, he₂, h₁.trans h₂⟩

theorem realms (h : g.Steps A m m') {id : RealmId} {r : Realm} (hr : m.realm? id = some r) :
    m'.realm? id = some r := by
  induction h with
  | refl => exact hr
  | tail _ hstep ih => exact hstep.realms ih

/-- A run may do what its later parts may. -/
theorem covers (h : g.Steps A m m') (hm : g.Sound m) (hB : g.Covers B m.grant) :
    g.Covers B m'.grant := hB.trans (.grant (h.bounds hm))

end Steps

theorem steps_motion (g : Contract) (A : Grant) : g.Motion (g.Steps A) where
  refl _ := .refl
  trans := .trans
  sound hm h := Steps.sound h hm
  bounds hm h := Steps.bounds h hm
  push hok hmap horderly := .single (.object hok hmap horderly)

end Contract

end EcmaEval
