import EcmaEval.Proofs.Remit.Record
import EcmaEval.Proofs.Run

/-!
# Runs within a remit

A machine is closed in a remit if what may be read in it is within the remit. A run from such a machine
stays in the remit if it makes only changes that are open to it, and gives and throws nothing outside it.
Whatever is new may be named. Such runs compose along `bind`, so nothing about the order of evaluation
has to be said, and what one remit leaves alone is read off from the changes that it allows.
-/
namespace EcmaEval

theorem Object.code?_eq (obj : Object) : obj.code? = obj.closure?.map (·.code) := by
  unfold code? closure? ObjectKind.code?
  split <;> simp_all

namespace Machine

/-- What the remit owns mentions nothing outside it, nor does the stack or a realm. -/
structure ClosedIn (m : Machine) (R : Remit) : Prop where
  objects : ∀ o obj, R.Owns o → m.object? o = some obj → R.Holds obj
  environments : ∀ env e, R.Holds env → m.env? env = some e → R.Holds e
  realms : ∀ id r, m.realm? id = some r → R.Holds r
  contexts : ∀ c ∈ m.contexts, R.Holds c
  fresh : ∀ h : Handle, ¬ h.Within m.bounds → R.mentions h

/-- One change that is open to the remit. -/
inductive Touch (R : Remit) (m : Machine) : Machine → Prop
  | symbols (symbols : Nat) : Touch R m { m with symbols }
  | move (hmoves : R.moves) (hcs : m.contexts = c :: cs) (hc : R.Holds c') :
      Touch R m (m.withContexts (c' :: cs))
  | enter (hcalls : R.calls) (hc : R.Holds c) : Touch R m (m.withContexts (c :: m.contexts))
  | leave (hcalls : R.calls) : Touch R m (m.withContexts m.contexts.tail)
  | object (hobj : R.Holds obj) (hcode : ∀ slots, obj.closure? = some slots → R.codes slots.code) :
      Touch R m (m.pushObject obj)
  | update (ho : m.object? o = some obj) (howns : R.Owns o) (hobj : R.Holds (f obj))
      (hclosure : (f obj).closure? = obj.closure?)
      (hprototype : R.prototypes ∨ (f obj).prototype = obj.prototype) : Touch R m (m.updateObject o f)
  | environment (hscopes : R.scopes) (he : R.Holds e) : Touch R m (m.pushEnv e)
  | realm (hrealms : R.realms) (hr : R.Holds r) : Touch R m (m.pushRealm r)
  | record (he : m.env? env = some e) (henv : R.Holds env) (hr : e.record? = some r) (h : r.Change r')
      (hr' : R.Holds (e.withRecord r')) (hquiet : R.scopes ∨ e.Quiet (e.withRecord r')) :
      Touch R m (m.storeEnv env (e.withRecord r'))
  | varNames (he : m.env? env = some (.global g)) (henv : R.Holds env)
      (hnames : R.scopes ∨ varNames ⊆ g.varNames) :
      Touch R m (m.storeEnv env (.global { g with varNames }))

/-- Changes that are open to the remit, one after the other. -/
abbrev Touches (R : Remit) : Machine → Machine → Prop := Relation.ReflTransGen (Touch R)

variable {R : Remit} {m m' : Machine}

namespace ClosedIn

theorem pushObject (hm : m.ClosedIn R) {obj : Object} (hobj : R.Holds obj) :
    (m.pushObject obj).ClosedIn R where
  objects o obj' hown ho := by
    rw [object?_pushObject] at ho
    split at ho
    · cases ho
      exact hobj
    · exact hm.objects o obj' hown ho
  environments := hm.environments
  realms := hm.realms
  contexts := hm.contexts
  fresh h hout := by
    refine hm.fresh h fun hin => hout ?_
    cases h with
    | object o =>
      rw [bounds_pushObject]
      exact Nat.lt_succ_of_lt hin
    | environment env => exact hin

theorem updateObject (hm : m.ClosedIn R) {o : ObjectId} {obj : Object} (ho : m.object? o = some obj)
    {f : Object → Object} (hobj : R.Holds (f obj)) : (m.updateObject o f).ClosedIn R where
  objects o' obj' hown ho' := by
    rw [object?_updateObject] at ho'
    split at ho'
    · subst o'
      rw [ho] at ho'
      cases ho'
      exact hobj
    · exact hm.objects o' obj' hown ho'
  environments := hm.environments
  realms := hm.realms
  contexts := hm.contexts
  fresh h hout := hm.fresh h (by simpa using hout)

theorem pushEnv (hm : m.ClosedIn R) {e : Environment} (he : R.Holds e) : (m.pushEnv e).ClosedIn R where
  objects := hm.objects
  environments env e' hown henv := by
    rw [env?_pushEnv] at henv
    split at henv
    · cases henv
      exact he
    · exact hm.environments env e' hown henv
  realms := hm.realms
  contexts := hm.contexts
  fresh h hout := by
    refine hm.fresh h fun hin => hout ?_
    cases h with
    | object o => exact hin
    | environment env =>
      rw [bounds_pushEnv]
      exact Nat.lt_succ_of_lt hin

theorem storeEnv (hm : m.ClosedIn R) {env : EnvId} {old e : Environment} (hold : m.env? env = some old)
    (he : R.Holds e) : (m.storeEnv env e).ClosedIn R where
  objects := hm.objects
  environments env' e' hown henv := by
    rw [env?_storeEnv m env' env e hold] at henv
    split at henv
    · cases henv
      exact he
    · exact hm.environments env' e' hown henv
  realms := hm.realms
  contexts := hm.contexts
  fresh h hout := hm.fresh h (by simpa using hout)

theorem withContexts (hm : m.ClosedIn R) {cs : List Context} (hcs : ∀ c ∈ cs, R.Holds c) :
    (m.withContexts cs).ClosedIn R :=
  ⟨hm.objects, hm.environments, hm.realms, hcs, hm.fresh⟩

theorem pushRealm (hm : m.ClosedIn R) {r : Realm} (hr : R.Holds r) : (m.pushRealm r).ClosedIn R where
  objects := hm.objects
  environments := hm.environments
  realms id r' h := by
    rw [realm?_pushRealm] at h
    split at h
    · cases h
      exact hr
    · exact hm.realms id r' h
  contexts := hm.contexts
  fresh := hm.fresh

theorem touch (hm : m.ClosedIn R) (h : m.Touch R m') : m'.ClosedIn R := by
  cases h with
  | symbols symbols => exact ⟨hm.objects, hm.environments, hm.realms, hm.contexts, hm.fresh⟩
  | move _ hcs hc =>
    refine hm.withContexts (List.forall_mem_cons.mpr ⟨hc, fun c h => hm.contexts c ?_⟩)
    rw [hcs]
    exact List.mem_cons_of_mem _ h
  | enter _ hc => exact hm.withContexts (List.forall_mem_cons.mpr ⟨hc, hm.contexts⟩)
  | leave _ => exact hm.withContexts fun c h => hm.contexts c (List.mem_of_mem_tail h)
  | object hobj _ => exact hm.pushObject hobj
  | update ho _ hobj _ _ => exact hm.updateObject ho hobj
  | environment _ he => exact hm.pushEnv he
  | realm _ hr => exact hm.pushRealm hr
  | record he _ _ _ hr' _ => exact hm.storeEnv he hr'
  | varNames he henv _ =>
    have hg := hm.environments _ _ henv he
    exact hm.storeEnv he ((holds_congr rfl Iff.rfl).mp hg)

theorem touches (hm : m.ClosedIn R) (h : m.Touches R m') : m'.ClosedIn R := by
  induction h with
  | refl => exact hm
  | tail _ hlast ih => exact ih.touch hlast

/-- The next object belongs to the remit. -/
theorem nextObject (hm : m.ClosedIn R) : R.Holds (⟨m.objects.size⟩ : ObjectId) :=
  (holds_objectId _).mpr (hm.fresh _ (Nat.lt_irrefl _))

/-- The next environment belongs to the remit. -/
theorem nextEnv (hm : m.ClosedIn R) : R.Holds (⟨m.environments.size⟩ : EnvId) :=
  (holds_envId _).mpr (hm.fresh _ (Nat.lt_irrefl _))

end ClosedIn

theorem closedIn_of_isFree [hR : R.IsFree] (m : Machine) : m.ClosedIn R where
  objects _ _ _ _ := holds_of_isFree _
  environments _ _ _ _ := holds_of_isFree _
  realms _ _ _ := holds_of_isFree _
  contexts _ _ := holds_of_isFree _
  fresh h _ := hR.mentions h

theorem Touch.change (h : m.Touch R m') : m.Change m' := by
  cases h with
  | symbols symbols => exact .symbols symbols
  | move | enter | leave => exact .contexts _
  | object _ _ => exact .object _
  | update ho _ _ hclosure _ => exact .update ho (by rw [Object.code?_eq, hclosure, Object.code?_eq])
  | environment _ _ => exact .environment _
  | realm _ _ => exact .realm _
  | record he _ hr h _ _ => exact .record he hr h
  | varNames he _ _ => exact .varNames he _

/-- What is open to a remit is a series of changes. -/
theorem Touches.changes (h : m.Touches R m') : m.Changes m' := by
  induction h with
  | refl => exact .refl
  | tail _ hlast ih => exact ih.tail hlast.change

end Machine

/-- An answer with a property, or a failure within the remit that is no escaped jump. -/
def Query.Answered (R : Remit) (Q : α → Prop) : Except Abrupt α → Prop
  | .ok a => Q a
  | .error e => R.Holds e ∧ e.isEscape = false

/-- A query whose answer has a property, on every machine that is closed in the remit. -/
def Query.StaysIn (R : Remit) (q : Query α) (Q : α → Prop) : Prop :=
  ∀ m : Machine, m.ClosedIn R → Query.Answered R Q (q m)

/-- The changes are open to the remit, and the result has a property or the failure is within the remit.
It is an escaped jump only if there is a function with a stray one. -/
def Eval.Ended (R : Remit) (m : Machine) (Q : α → Prop) : EStateM.Result Abrupt Machine α → Prop
  | .ok a m' => m.Touches R m' ∧ Q a
  | .error e m' => m.Touches R m' ∧ R.Holds e ∧ (e.isEscape = true → m'.HasStrayJump)

/-- A run from one machine that stays in the remit and whose result has a property. -/
def Machine.Permits (m : Machine) (R : Remit) (x : Eval α) (Q : α → Prop) : Prop :=
  m.ClosedIn R → Eval.Ended R m Q (x m)

/-- A run that stays in the remit and whose result has a property. -/
def Eval.StaysIn (R : Remit) (x : Eval α) (Q : α → Prop) : Prop := ∀ m : Machine, m.Permits R x Q

namespace Query.StaysIn

variable {R : Remit} {q : Query α} {f : α → Query β} {P : α → Prop} {Q : β → Prop}

theorem bind (hq : q.StaysIn R P) (hf : ∀ a, P a → (f a).StaysIn R Q) :
    Query.StaysIn R (q >>= f) Q := by
  intro m hm
  have hfirst := hq m hm
  cases h : q m with
  | ok a =>
    rw [h] at hfirst
    rw [Query.bind_ok h]
    exact hf a hfirst m hm
  | error e =>
    rw [h] at hfirst
    rw [Query.bind_error h]
    exact hfirst

@[grind ←] theorem bind_holds [Tracked α] [Carrier α] (hq : q.StaysIn R R.Holds)
    (hf : ∀ a, R.Holds a → (f a).StaysIn R Q) : Query.StaysIn R (q >>= f) Q := bind hq hf

@[grind ←] theorem pure {a : α} (ha : P a) : Query.StaysIn R (pure a) P := fun _ _ => ha

@[grind ←] theorem read : Query.StaysIn R (read : Query Machine) R.Holds := fun _ _ => holds_empty _

theorem throw {e : Abrupt} (he : R.Holds e) (hescape : e.isEscape = false) :
    Query.StaysIn R (throw e) P := fun _ _ => ⟨he, hescape⟩

@[grind ←] theorem exhausted : Query.StaysIn R (MonadExcept.throw .exhausted) P :=
  throw (holds_exhausted.mpr trivial) rfl

@[grind ←] theorem fault {f : Fault} (hf : f.isPlain = true) : Query.StaysIn R (fault f) P := by
  simp only [Fault.isPlain, Bool.and_eq_true, Bool.not_eq_true'] at hf
  exact throw ((holds_fault f).mpr (.inr hf.1)) hf.2

@[grind ←] theorem breach {b : Breach} (hb : (Fault.assertion b).isPlain = true) :
    Query.StaysIn R (breach b) P := fault hb

/-- Where references may be stored, one may be met in the place of a value. -/
theorem misused (hr : R.references) {b : Breach} (hb : b.isEscape = false) :
    Query.StaysIn R (EcmaEval.breach b) P := throw ((holds_fault _).mpr (.inl hr)) hb

@[grind ←] theorem unsupported (f : Feature) : Query.StaysIn R (unsupported f) P := fault rfl

end Query.StaysIn

namespace Machine.Permits

variable {R : Remit} {m m' : Machine} {x : Eval α} {f : α → Eval β} {P : α → Prop} {Q : β → Prop}

theorem of_ok {a : α} (h : x m = .ok a m') (hm : m.ClosedIn R → m.Touches R m') (ha : P a) :
    m.Permits R x P := by
  intro hclosed
  rw [h]
  exact ⟨hm hclosed, ha⟩

/-- A fault that leaves the machine as it was. -/
theorem of_fault {f : Fault} (h : x m = .error (.fault f) m) (hf : f.isPlain = true) : m.Permits R x P := by
  simp only [Fault.isPlain, Bool.and_eq_true, Bool.not_eq_true'] at hf
  intro _
  rw [h]
  exact ⟨.refl, (holds_fault f).mpr (.inr hf.1), fun he => absurd (hf.2.symm.trans he) Bool.false_ne_true⟩

theorem congr {y : Eval α} (h : x m = y m) (hy : m.Permits R y P) : m.Permits R x P := by
  intro hm
  rw [h]
  exact hy hm

/-- A run followed by another that may rely on its success. -/
theorem bind (hx : m.Permits R x P)
    (hf : ∀ a m', x m = .ok a m' → m'.ClosedIn R → P a → m'.Permits R (f a) Q) :
    m.Permits R (x >>= f) Q := by
  intro hm
  have hfirst := hx hm
  cases h : x m with
  | ok a m' =>
    rw [h] at hfirst
    rw [bind_ok h]
    have hm' := hm.touches hfirst.1
    have hsecond := hf a m' h hm' hfirst.2 hm'
    cases h' : f a m' with
    | ok b m'' =>
      rw [h'] at hsecond
      exact ⟨hfirst.1.trans hsecond.1, hsecond.2⟩
    | error e m'' =>
      rw [h'] at hsecond
      exact ⟨hfirst.1.trans hsecond.1, hsecond.2⟩
  | error e m' =>
    rw [h] at hfirst
    rw [bind_error h]
    exact hfirst

end Machine.Permits

namespace Eval.StaysIn

variable {R : Remit} {x : Eval α} {y : Eval β} {f : α → Eval β} {P P' : α → Prop} {Q : β → Prop}

theorem bind (hx : x.StaysIn R P) (hf : ∀ a, P a → (f a).StaysIn R Q) : Eval.StaysIn R (x >>= f) Q :=
  fun m => (hx m).bind fun a m' _ _ ha => hf a ha m'

@[grind ←] theorem bind_holds [Tracked α] [Carrier α] (hx : x.StaysIn R R.Holds)
    (hf : ∀ a, R.Holds a → (f a).StaysIn R Q) : Eval.StaysIn R (x >>= f) Q := bind hx hf

@[grind ←] theorem bind_admits {x : Eval Value} {f : Value → Eval β} (hx : x.StaysIn R R.Admits)
    (hf : ∀ v, R.Admits v → (f v).StaysIn R Q) : Eval.StaysIn R (x >>= f) Q := bind hx hf

theorem touches (hx : x.StaysIn R P) {m m' : Machine} (hm : m.ClosedIn R) {a : α} (h : x m = .ok a m') :
    m.Touches R m' := by
  have hrun := hx m hm
  rw [h] at hrun
  exact hrun.1

theorem touches_after (hx : x.StaysIn R P) {m : Machine} (hm : m.ClosedIn R) :
    m.Touches R (x.after m) := by
  have hrun := hx m hm
  unfold after
  cases h : x m with
  | ok a m' =>
    rw [h] at hrun
    exact hrun.1
  | error e m' =>
    rw [h] at hrun
    exact hrun.1

/-- A failure for an escaped jump leaves a function with a stray one behind. -/
theorem escapes (hx : x.StaysIn R P) {m m' : Machine} (hm : m.ClosedIn R) {e : Abrupt} (h : x m = .error e m')
    (he : e.isEscape = true) : m'.HasStrayJump := by
  have hrun := hx m hm
  rw [h] at hrun
  exact hrun.2.2 he

theorem imp (hx : x.StaysIn R P) (h : ∀ a, P a → P' a) : x.StaysIn R P' := by
  intro m hm
  have hrun := hx m hm
  cases hrunx : x m with
  | ok a m' =>
    rw [hrunx] at hrun
    exact ⟨hrun.1, h a hrun.2⟩
  | error e m' =>
    rw [hrunx] at hrun
    exact hrun

@[grind ←] theorem pure {a : α} (ha : P a) : Eval.StaysIn R (pure a) P := fun _ _ => ⟨.refl, ha⟩

theorem throw {e : Abrupt} (he : R.Holds e) (hescape : e.isEscape = false) :
    Eval.StaysIn R (throw e) P :=
  fun _ _ => ⟨.refl, he, fun h => absurd (hescape.symm.trans h) Bool.false_ne_true⟩

@[grind ←] theorem thrown {v : Value} (hv : R.Holds v) :
    Eval.StaysIn R (MonadExcept.throw (Abrupt.thrown v)) P := throw hv rfl

@[grind ←] theorem exhausted : Eval.StaysIn R (MonadExcept.throw .exhausted) P :=
  throw (holds_exhausted.mpr trivial) rfl

@[grind ←] theorem lift {q : Query α} (hq : q.StaysIn R P) : Eval.StaysIn R (liftM q : Eval α) P := by
  intro m hm
  have hanswer := hq m hm
  cases h : q m with
  | ok a =>
    rw [h] at hanswer
    rw [lift_ok h]
    exact ⟨.refl, hanswer⟩
  | error e =>
    rw [h] at hanswer
    rw [lift_error h]
    exact ⟨.refl, hanswer.1, fun he => absurd (hanswer.2.symm.trans he) Bool.false_ne_true⟩

@[grind ←] theorem fault {f : Fault} (hf : f.isPlain = true) : Eval.StaysIn R (fault f) P :=
  fun _ => .of_fault rfl hf

@[grind ←] theorem breach {b : Breach} (hb : (Fault.assertion b).isPlain = true) :
    Eval.StaysIn R (breach b) P := fault hb

/-- Where references may be stored, one may be met in the place of a value. -/
theorem misused (hr : R.references) {b : Breach} (hb : b.isEscape = false) :
    Eval.StaysIn R (EcmaEval.breach b) P := throw ((holds_fault _).mpr (.inl hr)) hb

@[grind ←] theorem unsupported (f : Feature) : Eval.StaysIn R (unsupported f) P := fault rfl

@[grind ←] theorem discard [Tracked α] [Carrier α] (hx : x.StaysIn R R.Holds) :
    Eval.StaysIn R (discard x) R.Holds := by
  rw [discard_eq]
  exact bind hx fun _ _ => .pure (holds_empty _)

/-- What was thrown becomes the value of a completion. -/
@[grind ←] theorem completing {x : Eval Completion} (hx : x.StaysIn R R.Holds) :
    Eval.StaysIn R (completing x) R.Holds := by
  intro m hm
  have hrun := hx m hm
  unfold EcmaEval.completing
  cases h : x m with
  | ok c m' =>
    rw [h] at hrun
    exact hrun
  | error e m' =>
    rw [h] at hrun
    cases e with
    | thrown v => exact ⟨hrun.1, (Completion.holds_thrown v).mpr ((holds_thrown v).mp hrun.2.1)⟩
    | _ => exact hrun

theorem forM {g : γ → Eval PUnit} {l : List γ} (h : ∀ a ∈ l, (g a).StaysIn R R.Holds) :
    Eval.StaysIn R (l.forM g) R.Holds := by
  induction l with
  | nil => exact .pure (holds_empty _)
  | cons a l ih =>
    exact bind (h a List.mem_cons_self) fun _ _ => ih fun b hb => h b (List.mem_cons_of_mem a hb)

/-- A finalizer adds its own changes, and its failure takes the place of an earlier one. -/
@[grind ←] theorem tryFinally [Tracked β] [Carrier β] (hx : x.StaysIn R P) (hy : y.StaysIn R R.Holds) :
    Eval.StaysIn R (tryFinally x y) P := by
  intro m hm
  rw [tryFinally_eq]
  have hfirst := hx m hm
  cases h : x m with
  | ok a m' =>
    rw [h] at hfirst
    have hlast := hy m' (hm.touches hfirst.1)
    cases h' : y m' with
    | ok b m'' =>
      rw [h'] at hlast
      simpa only [h'] using ⟨hfirst.1.trans hlast.1, hfirst.2⟩
    | error e m'' =>
      rw [h'] at hlast
      simpa only [h'] using ⟨hfirst.1.trans hlast.1, hlast.2⟩
  | error e m' =>
    rw [h] at hfirst
    have hlast := hy m' (hm.touches hfirst.1)
    cases h' : y m' with
    | ok b m'' =>
      rw [h'] at hlast
      simpa only [h'] using
        ⟨hfirst.1.trans hlast.1, hfirst.2.1, fun he => (hfirst.2.2 he).changes hlast.1.changes⟩
    | error e' m'' =>
      rw [h'] at hlast
      simpa only [h'] using ⟨hfirst.1.trans hlast.1, hlast.2⟩

end Eval.StaysIn

/-- Whatever handles and values it is given, the run takes a series of changes. -/
def Eval.Proceeds (x : Eval α) : Prop := ∀ m : Machine, m.Changes (x.after m)

namespace Eval.Proceeds

variable {R : Remit} {x : Eval α} {f : α → Eval β}

theorem of_stays [R.IsFree] {P : α → Prop} (hx : x.StaysIn R P) : x.Proceeds :=
  fun m => (hx.touches_after m.closedIn_of_isFree).changes

@[grind ←] theorem of_whole [Tracked α] [Carrier α] (hx : x.StaysIn .whole Remit.whole.Holds) : x.Proceeds :=
  .of_stays hx

theorem changes_ok (hx : x.Proceeds) {m m' : Machine} {a : α} (h : x m = .ok a m') : m.Changes m' :=
  after_ok h ▸ hx m

theorem pure (a : α) : Eval.Proceeds (pure a : Eval α) := fun _ => .refl

theorem lift (q : Query α) : Eval.Proceeds (liftM q : Eval α) := by
  intro m
  have hsame : (liftM q : Eval α).after m = m := (Eval.Fixes.lift q : Eval.Fixes id _) m
  rw [hsame]

theorem bind (hx : x.Proceeds) (hf : ∀ a, (f a).Proceeds) : Eval.Proceeds (x >>= f) := by
  intro m
  have hfirst := hx m
  cases h : x m with
  | ok a m' =>
    rw [after_bind_ok h]
    exact (hx.changes_ok h).trans (hf a m')
  | error e m' =>
    rw [after_error h] at hfirst
    rwa [after_error (bind_error h)]

theorem forM {g : γ → Eval PUnit} (h : ∀ a, (g a).Proceeds) (l : List γ) : Eval.Proceeds (l.forM g) := by
  induction l with
  | nil => exact .pure _
  | cons a l ih => exact .bind (h a) fun _ => ih

end Eval.Proceeds

end EcmaEval
