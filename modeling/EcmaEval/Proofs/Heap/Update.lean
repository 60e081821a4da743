import EcmaEval.Proofs.Heap.Sound

/-!
# Updates of a machine

Each way to change one part of a machine, what lookups see of it, and what it takes for the changed
machine to be sound.
-/
namespace EcmaEval

namespace Machine

def pushObject (m : Machine) (obj : Object) : Machine := { m with objects := m.objects.push obj }

def updateObject (m : Machine) (o : ObjectId) (f : Object → Object) : Machine :=
  { m with objects := m.objects.modify o.index f }

def pushEnv (m : Machine) (e : Environment) : Machine :=
  { m with environments := m.environments.push e }

def storeEnv (m : Machine) (env : EnvId) (e : Environment) : Machine :=
  { m with environments := m.environments.setIfInBounds env.index e }

def pushRealm (m : Machine) (r : Realm) : Machine := { m with realms := m.realms.push r }

def withContexts (m : Machine) (contexts : List Context) : Machine := { m with contexts }

variable (m : Machine) (o p : ObjectId) (obj : Object) (f : Object → Object) (env env' : EnvId)
  (e : Environment) (r : Realm)

theorem object?_pushObject :
    (m.pushObject obj).object? o = if o.index = m.objects.size then some obj else m.object? o := by
  simp [object?, pushObject, Array.getElem?_push]

@[simp] theorem env?_pushObject : (m.pushObject obj).env? env = m.env? env := rfl

@[simp] theorem bounds_pushObject :
    (m.pushObject obj).bounds = { m.bounds with objects := m.objects.size + 1 } := by
  simp [bounds, pushObject]

theorem object?_updateObject :
    (m.updateObject p f).object? o = if o = p then (m.object? o).map f else m.object? o := by
  cases o
  cases p
  simp [object?, updateObject, Array.getElem?_modify, eq_comm]

@[simp] theorem env?_updateObject : (m.updateObject o f).env? env = m.env? env := rfl

@[simp] theorem realm?_updateObject (id : RealmId) :
    (m.updateObject o f).realm? id = m.realm? id := rfl

@[simp] theorem contexts_updateObject : (m.updateObject o f).contexts = m.contexts := rfl

@[simp] theorem bounds_updateObject : (m.updateObject o f).bounds = m.bounds := by
  simp [bounds, updateObject]

theorem env?_pushEnv :
    (m.pushEnv e).env? env = if env.index = m.environments.size then some e else m.env? env := by
  simp [env?, pushEnv, Array.getElem?_push]

@[simp] theorem object?_pushEnv : (m.pushEnv e).object? o = m.object? o := rfl

@[simp] theorem bounds_pushEnv :
    (m.pushEnv e).bounds = { m.bounds with environments := m.environments.size + 1 } := by
  simp [bounds, pushEnv]

theorem env?_storeEnv {old : Environment} (h : m.env? env' = some old) :
    (m.storeEnv env' e).env? env = if env = env' then some e else m.env? env := by
  have hin : env'.index < m.environments.size := by
    unfold env? at h
    exact (Array.getElem?_eq_some_iff.mp h).1
  cases env
  cases env'
  simp_all [env?, storeEnv, Array.getElem?_setIfInBounds, eq_comm]

@[simp] theorem object?_storeEnv : (m.storeEnv env e).object? o = m.object? o := rfl

@[simp] theorem realm?_storeEnv (id : RealmId) : (m.storeEnv env e).realm? id = m.realm? id := rfl

@[simp] theorem contexts_storeEnv : (m.storeEnv env e).contexts = m.contexts := rfl

@[simp] theorem bounds_storeEnv : (m.storeEnv env e).bounds = m.bounds := by
  simp [bounds, storeEnv]

theorem storeEnv_storeEnv (e' : Environment) :
    (m.storeEnv env e).storeEnv env e' = m.storeEnv env e' := by
  simp [storeEnv]

@[simp] theorem bounds_withContexts (cs : List Context) : (m.withContexts cs).bounds = m.bounds := rfl

theorem realm?_pushRealm (id : RealmId) :
    (m.pushRealm r).realm? id = if id.index = m.realms.size then some r else m.realm? id := by
  simp [realm?, pushRealm, Array.getElem?_push]

@[simp] theorem bounds_pushRealm :
    (m.pushRealm r).bounds = { m.bounds with realms := m.realms.size + 1 } := by
  simp [bounds, pushRealm]

variable {m o env e}

theorem within_of_object? {obj : Object} (h : m.object? o = some obj) : o.Within m.bounds :=
  (Array.getElem?_eq_some_iff.mp h).1

theorem within_of_env? (h : m.env? env = some e) : env.Within m.bounds :=
  (Array.getElem?_eq_some_iff.mp h).1

theorem within_of_realm? {id : RealmId} {r : Realm} (h : m.realm? id = some r) : id.Within m.bounds :=
  (Array.getElem?_eq_some_iff.mp h).1

theorem object?_updateObject_self {obj : Object} (h : m.object? o = some obj) (f : Object → Object) :
    (m.updateObject o f).object? o = some (f obj) := by
  rw [object?_updateObject, if_pos rfl, h]
  rfl

theorem env?_storeEnv_self (h : m.env? env = some e) (e' : Environment) :
    (m.storeEnv env e').env? env = some e' := by
  rw [env?_storeEnv _ _ _ _ h, if_pos rfl]

theorem object?_pushObject_of_within (h : o.Within m.bounds) :
    (m.pushObject obj).object? o = m.object? o := by
  rw [object?_pushObject]
  exact if_neg (Nat.ne_of_lt h)

theorem env?_pushEnv_of_within (h : env.Within m.bounds) : (m.pushEnv e).env? env = m.env? env := by
  rw [env?_pushEnv]
  exact if_neg (Nat.ne_of_lt h)

theorem exists_object (h : o.Within m.bounds) : ∃ obj, m.object? o = some obj :=
  ⟨_, Array.getElem?_eq_some_iff.mpr ⟨h, rfl⟩⟩

theorem exists_env (h : env.Within m.bounds) : ∃ e, m.env? env = some e :=
  ⟨_, Array.getElem?_eq_some_iff.mpr ⟨h, rfl⟩⟩

theorem exists_realm {id : RealmId} (h : id.Within m.bounds) : ∃ r, m.realm? id = some r :=
  ⟨_, Array.getElem?_eq_some_iff.mpr ⟨h, rfl⟩⟩

end Machine

/-- On a set of objects that two relations agree on and that is closed under predecessors, what is
accessible in one is accessible in the other. -/
theorem acc_of_agree {R R' : α → α → Prop} {S : α → Prop}
    (hS : ∀ x y, S x → R' y x → R y x ∧ S y) {x : α} (hx : Acc R x) (hSx : S x) : Acc R' x := by
  induction hx with
  | intro x _ ih =>
    refine .intro x fun y hy => ?_
    obtain ⟨hR, hSy⟩ := hS x y hSx hy
    exact ih y hR hSy

namespace Contract.Sound

variable {g : Contract} {m : Machine}

theorem prototype_within (h : g.Sound m) {p o : ObjectId} (hp : m.IsPrototype p o) :
    p.Within m.bounds :=
  have ⟨obj, ho, hproto⟩ := hp
  (h.objects o obj ho).prototype p hproto

theorem prototypes_pushObject (h : g.Sound m) {obj : Object} (hok : g.ObjectOk m.bounds obj) :
    WellFounded (m.pushObject obj).IsPrototype := by
  have hold (p o : ObjectId) (ho : o.Within m.bounds) (hp : (m.pushObject obj).IsPrototype p o) :
      m.IsPrototype p o := by
    obtain ⟨obj', hobj', hproto⟩ := hp
    rw [Machine.object?_pushObject_of_within obj ho] at hobj'
    exact ⟨obj', hobj', hproto⟩
  have hacc (o : ObjectId) (ho : o.Within m.bounds) : Acc (m.pushObject obj).IsPrototype o := by
    refine acc_of_agree (S := (·.Within m.bounds)) (fun x y hx hy => ?_) (h.prototypes.apply o) ho
    exact ⟨hold y x hx hy, h.prototype_within (hold y x hx hy)⟩
  refine ⟨fun o => .intro o fun p hp => hacc p ?_⟩
  obtain ⟨obj', hobj', hproto⟩ := hp
  rw [Machine.object?_pushObject] at hobj'
  split at hobj'
  · cases hobj'
    exact hok.prototype p hproto
  · exact (h.objects o obj' hobj').prototype p hproto

theorem pushObject (h : g.Sound m) {obj : Object} (hok : g.ObjectOk m.bounds obj)
    (hmap : obj.parameterMap? = none) : g.Sound (m.pushObject obj) := by
  have hb : m.bounds ≤ (m.pushObject obj).bounds := by
    rw [Machine.bounds_pushObject]
    exact ⟨Nat.le_succ _, Nat.le_refl _, Nat.le_refl _⟩
  refine ⟨fun o obj' ho => ?_, fun env e he => (h.environments env e he).mono hb,
    fun r realm hr => (h.realms r realm hr).mono hb, h.globals,
    fun c hc => (h.contexts c hc).mono hb, h.prototypes_pushObject hok, fun hg o obj' ho => ?_⟩
  · rw [Machine.object?_pushObject] at ho
    split at ho
    · cases ho
      exact hok.mono hb
    · exact (h.objects o obj' ho).mono hb
  · rw [Machine.object?_pushObject] at ho
    split at ho
    · cases ho
      intro map key name hm
      simp [hmap] at hm
    · exact h.aliases hg o obj' ho

theorem pushEnv (h : g.Sound m) {e : Environment}
    (hok : g.EnvironmentOk m.bounds ⟨m.environments.size⟩ e) : g.Sound (m.pushEnv e) := by
  have hb : m.bounds ≤ (m.pushEnv e).bounds := by
    rw [Machine.bounds_pushEnv]
    exact ⟨Nat.le_refl _, Nat.le_succ _, Nat.le_refl _⟩
  have hold {env : EnvId} {e' : Environment} (he : m.env? env = some e') :
      (m.pushEnv e).env? env = some e' := by
    rw [Machine.env?_pushEnv_of_within (Machine.within_of_env? he), he]
  refine ⟨fun o obj ho => (h.objects o obj ho).mono hb, fun env e' he => ?_,
    fun r realm hr => (h.realms r realm hr).mono hb, fun r realm hr => ?_,
    fun c hc => (h.contexts c hc).mono hb, h.prototypes, fun hg o obj ho map key name hm hn => ?_⟩
  · rw [Machine.env?_pushEnv] at he
    split at he
    · cases he
      have henv : env = ⟨m.environments.size⟩ := by
        cases env
        simp_all
      rw [henv]
      exact hok.mono hb
    · exact (h.environments env e' he).mono hb
  · obtain ⟨record, hrecord⟩ := h.globals r realm hr
    exact ⟨record, hold hrecord⟩
  · obtain ⟨⟨r, x, hr, hx⟩, hstored⟩ := h.aliases hg o obj ho map key name hm hn
    exact ⟨⟨r, x, hold hr, hx⟩, hstored⟩

theorem pushRealm (h : g.Sound m) {r : Realm} (hr : r.Within m.bounds)
    (hglobal : ∃ record, m.env? r.globalEnv = some (.global record)) : g.Sound (m.pushRealm r) := by
  have hb : m.bounds ≤ (m.pushRealm r).bounds := by
    rw [Machine.bounds_pushRealm]
    exact ⟨Nat.le_refl _, Nat.le_refl _, Nat.le_succ _⟩
  refine ⟨fun o obj ho => (h.objects o obj ho).mono hb,
    fun env e he => (h.environments env e he).mono hb, fun id realm hid => ?_, fun id realm hid => ?_,
    fun c hc => (h.contexts c hc).mono hb, h.prototypes, h.aliases⟩
  · rw [Machine.realm?_pushRealm] at hid
    split at hid
    · cases hid
      exact hr.mono hb
    · exact (h.realms id realm hid).mono hb
  · rw [Machine.realm?_pushRealm] at hid
    split at hid
    · cases hid
      exact hglobal
    · exact h.globals id realm hid

theorem withContexts (h : g.Sound m) {cs : List Context} (hcs : ∀ c ∈ cs, c.Within m.bounds) :
    g.Sound (m.withContexts cs) :=
  ⟨h.objects, h.environments, h.realms, h.globals, hcs, h.prototypes, h.aliases⟩

/-- An object may change as long as it keeps its prototype. -/
theorem updateObject (h : g.Sound m) {o : ObjectId} {obj : Object} {f : Object → Object}
    (ho : m.object? o = some obj) (hok : g.ObjectOk m.bounds (f obj))
    (hproto : (f obj).prototype = obj.prototype) (halias : g.guarded → (f obj).Aliases m) :
    g.Sound (m.updateObject o f) := by
  have hlookup (o' : ObjectId) (obj' : Object) (hobj : (m.updateObject o f).object? o' = some obj') :
      obj' = f obj ∨ m.object? o' = some obj' := by
    rw [Machine.object?_updateObject] at hobj
    split at hobj
    · simp_all
    · exact .inr hobj
  have hprototype (p q : ObjectId) (hp : (m.updateObject o f).IsPrototype p q) : m.IsPrototype p q := by
    obtain ⟨obj', hobj', hq⟩ := hp
    rw [Machine.object?_updateObject] at hobj'
    split at hobj'
    · subst q
      simp only [ho, Option.map_some, Option.some.injEq] at hobj'
      subst hobj'
      exact ⟨obj, ho, hproto ▸ hq⟩
    · exact ⟨obj', hobj', hq⟩
  refine ⟨fun o' obj' hobj => ?_, by simpa using h.environments, by simpa using h.realms, h.globals,
    by simpa using h.contexts, Subrelation.wf (hprototype _ _) h.prototypes, fun hg o' obj' hobj => ?_⟩
  · rw [Machine.bounds_updateObject]
    rcases hlookup o' obj' hobj with rfl | hobj
    · exact hok
    · exact h.objects o' obj' hobj
  · rcases hlookup o' obj' hobj with rfl | hobj
    · exact halias hg
    · exact h.aliases hg o' obj' hobj

/-- An object may take another prototype if some set of objects that is closed under prototypes has
the new prototype in it but not the object. -/
theorem reparent (h : g.Sound m) {o : ObjectId} {prototype : Option ObjectId} {obj : Object}
    (ho : m.object? o = some obj) (hp : ∀ p, prototype = some p → p.Within m.bounds)
    {S : ObjectId → Prop} (hSp : ∀ p, prototype = some p → S p) (hSo : ¬ S o)
    (hS : ∀ x y, S x → m.IsPrototype y x → S y) :
    g.Sound (m.updateObject o ({ · with prototype })) := by
  have hok := h.objects o obj ho
  let m' := m.updateObject o ({ · with prototype })
  have hother (x y : ObjectId) (hx : x ≠ o) (hy : m'.IsPrototype y x) : m.IsPrototype y x := by
    obtain ⟨obj', hobj', hproto⟩ := hy
    rw [Machine.object?_updateObject, if_neg hx] at hobj'
    exact ⟨obj', hobj', hproto⟩
  -- inside `S` no prototype changes, so chains from there end as before
  have hSacc (x : ObjectId) (hx : S x) : Acc m'.IsPrototype x := by
    refine acc_of_agree (S := S) (fun x y hx hy => ?_) (h.prototypes.apply x) hx
    have hxy := hother x y (fun hxo => hSo (hxo ▸ hx)) hy
    exact ⟨hxy, hS x y hx hxy⟩
  have hoacc : Acc m'.IsPrototype o := by
    refine .intro o fun y hy => ?_
    obtain ⟨obj', hobj', hproto⟩ := hy
    rw [Machine.object?_updateObject, if_pos rfl, ho] at hobj'
    cases hobj'
    exact hSacc y (hSp y hproto)
  have hwf : WellFounded m'.IsPrototype := by
    refine ⟨fun x => ?_⟩
    -- a chain of the old machine is followed until it meets the object, and from there it enters `S`
    induction h.prototypes.apply x with
    | intro x _ ih =>
      by_cases hx : x = o
      · exact hx ▸ hoacc
      · exact .intro x fun y hy => ih y (hother x y hx hy)
  have hnew : g.ObjectOk m.bounds { obj with prototype } :=
    ⟨hp, hok.properties, hok.keys, hok.kind, hok.length⟩
  have hlookup (o' : ObjectId) (obj' : Object) (hobj : m'.object? o' = some obj') :
      obj' = { obj with prototype } ∨ m.object? o' = some obj' := by
    rw [Machine.object?_updateObject] at hobj
    split at hobj
    · simp_all
    · exact .inr hobj
  refine ⟨fun o' obj' hobj => ?_, by simpa using h.environments, by simpa using h.realms, h.globals,
    by simpa using h.contexts, hwf, fun hg o' obj' hobj => ?_⟩
  · rw [Machine.bounds_updateObject]
    rcases hlookup o' obj' hobj with rfl | hobj
    · exact hnew
    · exact h.objects o' obj' hobj
  · rcases hlookup o' obj' hobj with rfl | hobj
    · exact h.aliases hg o obj ho
    · exact h.aliases hg o' obj' hobj

/-- An environment may change as long as it stays global if it is, and keeps its variables. -/
theorem storeEnv (h : g.Sound m) {env : EnvId} {e e' : Environment} (he : m.env? env = some e)
    (hok : g.EnvironmentOk m.bounds env e')
    (hglobal : ∀ r, e = .global r → ∃ r', e' = .global r')
    (hvariable : g.guarded → ∀ name, m.IsVariable env name → (m.storeEnv env e').IsVariable env name) :
    g.Sound (m.storeEnv env e') := by
  have hlookup := fun env' => m.env?_storeEnv env' env e' he
  refine ⟨by simpa using h.objects, fun env' e'' hobj => ?_, by simpa using h.realms,
    fun r realm hr => ?_, by simpa using h.contexts, h.prototypes,
    fun hg o obj ho map key name hm hn => ?_⟩
  · rw [hlookup] at hobj
    rw [Machine.bounds_storeEnv]
    split at hobj
    · cases hobj
      subst env'
      exact hok
    · exact h.environments env' e'' hobj
  · obtain ⟨record, hrecord⟩ := h.globals r realm hr
    rw [hlookup]
    split
    · rename_i henv
      rw [henv, he] at hrecord
      cases hrecord
      obtain ⟨r', rfl⟩ := hglobal record rfl
      exact ⟨r', rfl⟩
    · exact ⟨record, hrecord⟩
  · obtain ⟨hvar, hstored⟩ := h.aliases hg o obj ho map key name hm hn
    refine ⟨?_, hstored⟩
    by_cases henv : map.env = env
    · rw [henv] at hvar ⊢
      exact hvariable hg name hvar
    · obtain ⟨r, x, hr, hx⟩ := hvar
      exact ⟨r, x, by rw [hlookup, if_neg henv, hr], hx⟩

end Contract.Sound

section Primitives

variable {m : Machine} {o : ObjectId} {obj : Object}

theorem ObjectId.load_eq (ho : m.object? o = some obj) : o.load m = .ok obj := by
  unfold Machine.object? at ho
  simp [ObjectId.load, ho]

theorem ObjectId.load_eq_error (ho : m.object? o = none) :
    o.load m = .error (.fault (.invalidObject o)) := by
  unfold Machine.object? at ho
  simp [ObjectId.load, ho]

theorem ObjectId.load_ok (h : o.load m = .ok obj) : m.object? o = some obj := by
  cases ho : m.object? o with
  | some obj' =>
    cases (load_eq ho).symm.trans h
    rfl
  | none => cases (load_eq_error ho).symm.trans h

theorem EnvId.load_eq {env : EnvId} {e : Environment} (he : m.env? env = some e) :
    env.load m = .ok e := by
  unfold Machine.env? at he
  simp [EnvId.load, he]

theorem EnvId.load_eq_error {env : EnvId} (he : m.env? env = none) :
    env.load m = .error (.fault (.invalidEnvironment env)) := by
  unfold Machine.env? at he
  simp [EnvId.load, he]

theorem EnvId.load_ok {env : EnvId} {e : Environment} (h : env.load m = .ok e) : m.env? env = some e := by
  cases he : m.env? env with
  | some e' =>
    cases (load_eq he).symm.trans h
    rfl
  | none => cases (load_eq_error he).symm.trans h

theorem ObjectId.modify_eq (ho : o.Within m.bounds) (f : Object → Object) :
    o.modify f m = .ok () (m.updateObject o f) := by
  unfold ObjectId.modify Machine.updateObject
  exact if_pos ho

theorem EnvId.store_eq {env : EnvId} (henv : env.Within m.bounds) (e : Environment) :
    env.store e m = .ok () (m.storeEnv env e) := by
  unfold EnvId.store Machine.storeEnv
  exact if_pos henv

theorem Machine.object?_pushObject_self (m : Machine) (obj : Object) :
    (m.pushObject obj).object? ⟨m.objects.size⟩ = some obj := by
  rw [object?_pushObject, if_pos rfl]

theorem Machine.within_pushObject_self (m : Machine) (obj : Object) :
    ObjectId.Within (m.pushObject obj).bounds ⟨m.objects.size⟩ :=
  within_of_object? (m.object?_pushObject_self obj)

/-- A new object that is changed is as good as new. -/
theorem Machine.updateObject_pushObject (m : Machine) (obj : Object) (f : Object → Object) :
    (m.pushObject obj).updateObject ⟨m.objects.size⟩ f = m.pushObject (f obj) := by
  have hobjects : (m.objects.push obj).modify m.objects.size f = m.objects.push (f obj) := by
    refine Array.ext_getElem? fun i => ?_
    rw [Array.getElem?_modify, Array.getElem?_push, Array.getElem?_push]
    by_cases h : m.objects.size = i
    · simp [h]
    · simp [h, Ne.symm h]
  simp [pushObject, updateObject, hobjects]

end Primitives

end EcmaEval
