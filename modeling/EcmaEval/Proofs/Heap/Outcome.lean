import EcmaEval.Proofs.Heap.Record
import EcmaEval.Proofs.Stack.Restore

/-!
# Outcomes under a contract

How a query or an evaluation may end on a machine that keeps its contract. Values thrown are in
range, faults of checked code are unsupported constructs only, and a run moves the machine along a
relation that keeps it sound. One rule for sequencing composes such facts.
-/
namespace EcmaEval

namespace Contract

variable (g : Contract)

/-- How an operation may fail. A fault of checked code is an unsupported construct, unless no context
is running. -/
def Fails (m : Machine) : Abrupt → Prop
  | .thrown v => g.Stored m.bounds v
  | .fault f => g.checked →
    (∃ feature, f = .notImplemented feature) ∨ (f = .noRunningContext ∧ m.contexts = [])
  | .exhausted => g.bounded

/-- The query gives an answer with property `Q`, or fails as it may. -/
def Asks (m : Machine) (q : Query α) (Q : α → Prop) : Prop :=
  g.Sound m →
    match q m with
    | .ok a => Q a
    | .error e => g.Fails m e

/-- The evaluation moves the machine along `R` and gives a result with property `Q`, or fails as it
may. -/
def Yields (R : Machine → Machine → Prop) (m : Machine) (x : Eval α) (Q : Machine → α → Prop) :
    Prop :=
  g.Sound m →
    match x m with
    | .ok a m' => R m m' ∧ Q m' a
    | .error e m' => R m m' ∧ g.Fails m' e

/-- A relation along which runs may move a machine. -/
structure Motion (R : Machine → Machine → Prop) : Prop where
  refl : ∀ m, R m m
  trans : ∀ {m m' m''}, R m m' → R m' m'' → R m m''
  sound : ∀ {m m'}, g.Sound m → R m m' → g.Sound m'
  bounds : ∀ {m m'}, g.Sound m → R m m' → m.bounds ≤ m'.bounds
  push : ∀ {m obj}, g.ObjectOk m.bounds obj → obj.parameterMap? = none → obj.Orderly →
    R m (m.pushObject obj)

variable {g} {m : Machine}

namespace Asks

variable {q : Query α} {f : α → Query β} {Q : α → Prop} {Q' : β → Prop}

theorem pure {a : α} (h : Q a) : g.Asks m (pure a) Q := fun _ => h

theorem imp {P : α → Prop} (hq : g.Asks m q Q) (h : ∀ a, Q a → P a) : g.Asks m q P := by
  intro hm
  have hq := hq hm
  cases hr : q m with
  | ok a =>
    rw [hr] at hq
    exact h a hq
  | error e =>
    rw [hr] at hq
    exact hq

theorem bind (hq : g.Asks m q Q) (hf : ∀ a, q m = .ok a → Q a → g.Asks m (f a) Q') :
    g.Asks m (q >>= f) Q' := by
  intro hm
  have hq := hq hm
  cases hr : q m with
  | ok a =>
    rw [hr] at hq
    rw [Query.bind_ok hr]
    exact hf a hr hq hm
  | error e =>
    rw [hr] at hq
    rw [Query.bind_error hr]
    exact hq

theorem unsupported (feature : Feature) : g.Asks m (unsupported feature : Query α) Q :=
  fun _ _ => .inl ⟨feature, rfl⟩

theorem breach (b : Breach) (h : ¬ g.checked) : g.Asks m (breach b : Query α) Q :=
  fun _ hc => absurd hc h

/-- What a query may assume of the machine. -/
theorem of_sound (h : g.Sound m → g.Asks m q Q) : g.Asks m q Q := fun hm => h hm hm

end Asks

namespace Yields

variable {R : Machine → Machine → Prop} {x : Eval α} {f : α → Eval β} {Q : Machine → α → Prop}
  {Q' : Machine → β → Prop}

theorem of_sound (h : g.Sound m → g.Yields R m x Q) : g.Yields R m x Q := fun hm => h hm hm

/-- A run whose result is known. -/
theorem of_ok {a : α} {m' : Machine} (hrun : x m = .ok a m') (hR : R m m') (hQ : Q m' a) :
    g.Yields R m x Q := by
  intro _
  rw [hrun]
  exact ⟨hR, hQ⟩

theorem pure (hR : g.Motion R) {a : α} (h : Q m a) : g.Yields R m (pure a) Q :=
  fun _ => ⟨hR.refl m, h⟩

theorem throw (hR : g.Motion R) {e : Abrupt} (h : g.Fails m e) :
    g.Yields R m (throw e : Eval α) Q := fun _ => ⟨hR.refl m, h⟩

theorem unsupported (hR : g.Motion R) (feature : Feature) :
    g.Yields R m (unsupported feature : Eval α) Q := .throw hR fun _ => .inl ⟨feature, rfl⟩

theorem breach (hR : g.Motion R) (b : Breach) (h : ¬ g.checked) :
    g.Yields R m (breach b : Eval α) Q := .throw hR fun hc => absurd hc h

theorem imp {Q' : Machine → α → Prop} (hx : g.Yields R m x Q)
    (h : ∀ m' a, x m = .ok a m' → R m m' → Q m' a → Q' m' a) : g.Yields R m x Q' := by
  intro hm
  have hx := hx hm
  cases hr : x m with
  | ok a m' =>
    rw [hr] at hx
    exact ⟨hx.1, h m' a hr hx.1 hx.2⟩
  | error e m' =>
    rw [hr] at hx
    exact hx

theorem bind (hR : g.Motion R) (hx : g.Yields R m x Q)
    (hf : ∀ a m', x m = .ok a m' → R m m' → g.Sound m' → Q m' a → g.Yields R m' (f a) Q') :
    g.Yields R m (x >>= f) Q' := by
  intro hm
  have hx := hx hm
  cases hr : x m with
  | ok a m' =>
    rw [hr] at hx
    rw [bind_ok hr]
    have hsound := hR.sound hm hx.1
    have hrest := hf a m' hr hx.1 hsound hx.2 hsound
    cases hr' : f a m' with
    | ok c m'' =>
      rw [hr'] at hrest
      exact ⟨hR.trans hx.1 hrest.1, hrest.2⟩
    | error e m'' =>
      rw [hr'] at hrest
      exact ⟨hR.trans hx.1 hrest.1, hrest.2⟩
  | error e m' =>
    rw [hr] at hx
    rw [bind_error hr]
    exact hx

/-- What follows a query starts from the same machine. -/
theorem query {q : Query α} {P : α → Prop} (hR : g.Motion R) (hq : g.Asks m q P)
    (hf : ∀ a, q m = .ok a → P a → g.Yields R m (f a) Q') :
    g.Yields R m ((liftM q : Eval α) >>= f) Q' := by
  intro hm
  have hq := hq hm
  cases hr : q m with
  | ok a =>
    rw [hr] at hq
    rw [bind_ok (lift_ok hr)]
    exact hf a hr hq hm
  | error e =>
    rw [hr] at hq
    rw [bind_error (lift_error hr)]
    exact ⟨hR.refl m, hq⟩

/-- A larger relation. -/
theorem mono {R' : Machine → Machine → Prop} (hx : g.Yields R m x Q)
    (hRR : ∀ m', R m m' → R' m m') : g.Yields R' m x Q := by
  intro hm
  have hx := hx hm
  cases hr : x m with
  | ok a m' =>
    rw [hr] at hx
    exact ⟨hRR m' hx.1, hx.2⟩
  | error e m' =>
    rw [hr] at hx
    exact ⟨hRR m' hx.1, hx.2⟩

/-- Where the run ends, whatever it ends with. -/
theorem after (hx : g.Yields R m x Q) (hm : g.Sound m) : R m (x.after m) := by
  have hx := hx hm
  unfold Eval.after
  cases hr : x m with
  | ok a m' =>
    rw [hr] at hx
    exact hx.1
  | error e m' =>
    rw [hr] at hx
    exact hx.1

end Yields

theorem Sound.head (hm : g.Sound m) {c : Context} {cs : List Context} (hc : m.contexts = c :: cs) :
    c.Within m.bounds := hm.contexts c (by simp [hc])

end Contract

variable {g : Contract} {m : Machine}

theorem ObjectId.load_asks {o : ObjectId} (ho : o.Within m.bounds) :
    g.Asks m o.load fun obj => m.object? o = some obj := by
  intro _
  obtain ⟨obj, hobj⟩ := Machine.exists_object ho
  unfold Machine.object? at hobj
  unfold ObjectId.load Machine.object?
  simp [hobj]

theorem EnvId.load_asks {env : EnvId} (henv : env.Within m.bounds) :
    g.Asks m env.load fun e => m.env? env = some e := by
  intro _
  obtain ⟨e, he⟩ := Machine.exists_env henv
  unfold Machine.env? at he
  unfold EnvId.load Machine.env?
  simp [he]

theorem RealmId.load_asks {id : RealmId} (hid : id.Within m.bounds) :
    g.Asks m id.load fun r => m.realm? id = some r := by
  intro _
  obtain ⟨r, hr⟩ := Machine.exists_realm hid
  unfold Machine.realm? at hr
  unfold RealmId.load Machine.realm?
  simp [hr]

theorem runningContext_asks : g.Asks m runningContext fun c => ∃ cs, m.contexts = c :: cs := by
  intro _
  unfold runningContext
  cases hc : m.contexts with
  | nil => exact fun _ => .inr ⟨rfl, hc⟩
  | cons c cs => exact ⟨cs, rfl⟩

theorem currentRealm_asks : g.Asks m currentRealm fun id => id.Within m.bounds :=
  .of_sound fun hm => .bind runningContext_asks fun _ _ ⟨_, hc⟩ => .pure (hm.head hc).realm

theorem lexicalEnv_asks : g.Asks m lexicalEnv fun env => env.Within m.bounds :=
  .of_sound fun hm => .bind runningContext_asks fun _ _ ⟨_, hc⟩ => .pure (hm.head hc).lexicalEnv

theorem isStrict_asks : g.Asks m isStrict fun _ => True :=
  .bind runningContext_asks fun _ _ _ => .pure trivial

theorem intrinsics_asks : g.Asks m intrinsics fun i => i.Within m.bounds :=
  .of_sound fun hm => .bind currentRealm_asks fun _ _ hid =>
    .bind (RealmId.load_asks hid) fun _ _ hr => .pure (hm.realms _ _ hr).intrinsics

section

variable {R : Machine → Machine → Prop} (hR : g.Motion R)

include hR

theorem allocate_yields {obj : Object} (hok : g.ObjectOk m.bounds obj)
    (hmap : obj.parameterMap? = none) (horderly : obj.Orderly) :
    g.Yields R m (allocate obj) fun m' o => m' = m.pushObject obj ∧ o = ⟨m.objects.size⟩ :=
  fun _ => ⟨hR.push hok hmap horderly, rfl, rfl⟩

omit hR in
theorem Machine.size_within (obj : Object) :
    ObjectId.Within (m.pushObject obj).bounds ⟨m.objects.size⟩ := by
  simp [ObjectId.Within]

theorem newError_yields (kind : ErrorKind) (message : Option String) :
    g.Yields R m (newError kind message) fun m' o =>
      o = ⟨m.objects.size⟩ ∧
        ∃ obj, m' = m.pushObject obj ∧ obj.extensible = true ∧ g.ObjectOk m.bounds obj := by
  refine .query hR intrinsics_asks fun i _ hi => ?_
  have hempty : g.ObjectOk m.bounds { prototype := some (i.errorPrototype kind), kind := .error } :=
    .empty (fun p hp => by cases hp; exact hi.errorPrototype kind) trivial (by simp)
  cases message with
  | none =>
    exact (allocate_yields hR hempty rfl (.of_isArray rfl)).imp
      fun m' o _ _ h => ⟨h.2, _, h.1, rfl, hempty⟩
  | some text =>
    have htext : (Descriptor.hidden (.ofString text)).All (g.Stored m.bounds) :=
      ⟨trivial, fun _ => rfl⟩
    have hok := hempty.insert_plain rfl (.name "message") htext
    exact (allocate_yields hR hok rfl (.of_isArray rfl)).imp
      fun m' o _ _ h => ⟨h.2, _, h.1, rfl, hok⟩

/-- A complaint throws a new error object. -/
theorem complain_yields {Q : Machine → α → Prop} (c : Complaint) :
    g.Yields R m (complain c) Q := by
  refine .bind hR (newError_yields hR _ _) fun o m' _ _ _ ⟨ho, obj, hm', _⟩ => ?_
  subst ho hm'
  exact .throw hR ⟨Machine.size_within obj, fun _ => rfl⟩

/-- The result of an operation that knows no machine. In checked code it must not be a fault. -/
theorem settle_yields {Q : Machine → α → Prop} {r : Except Failure α} (hok : ∀ a, r = .ok a → Q m a)
    (hfault : g.checked → ∀ f, r ≠ .error (.fault f)) : g.Yields R m (settle r) Q := by
  cases r with
  | ok a => exact .pure hR (hok a rfl)
  | error e =>
    cases e with
    | complaint c => exact complain_yields hR c
    | fault f => exact .throw hR fun hc => absurd rfl (hfault hc f)

theorem Value.toNumber_yields {v : Value} (hv : g.Stored m.bounds v) :
    g.Yields R m v.toNumber fun m' _ => m' = m := by
  have hreference (r : Reference) (h : v = .reference r) : ¬ g.checked := by
    subst h
    exact fun hc => absurd (hv.2 (g.plain_of_checked hc)) (by simp [Value.isReference])
  cases v with
  | symbol s => exact complain_yields hR _
  | bigint n => exact complain_yields hR _
  | object o => exact .unsupported hR _
  | reference r => exact .breach hR _ (hreference r rfl)
  | _ => exact .pure hR rfl

end

end EcmaEval
