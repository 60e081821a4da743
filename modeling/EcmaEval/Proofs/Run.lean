import EcmaEval.Evaluate

/-!
# Running evaluations

What a run leaves behind, however it ends, and the views of the machine that a run does not change.
Such views compose along `bind`, so an evaluation fixes a view as soon as its parts do.
-/
namespace EcmaEval

namespace Eval

/-- The machine a run leaves behind, whether it succeeds or fails. -/
def after (x : Eval α) (m : Machine) : Machine :=
  match x m with
  | .ok _ m' => m'
  | .error _ m' => m'

theorem after_ok {x : Eval α} (h : x m = .ok a m') : x.after m = m' := by
  simp [after, h]

theorem after_error {x : Eval α} (h : x m = .error e m') : x.after m = m' := by
  simp [after, h]

theorem after_congr {x y : Eval α} (h : x m = y m') : x.after m = y.after m' := by
  unfold after
  rw [h]

/-- A run that can be seen to succeed does. -/
theorem exists_ok {x : Eval α} (h : (match x m with | .ok _ _ => true | .error _ _ => false) = true) :
    ∃ a m', x m = .ok a m' := by
  cases hx : x m with
  | ok a m' => exact ⟨a, m', rfl⟩
  | error e m' => simp [hx] at h

/-- A run that can be seen to fail does. -/
theorem exists_error {x : Eval α} (h : (match x m with | .ok _ _ => true | .error _ _ => false) = false) :
    ∃ e m', x m = .error e m' := by
  cases hx : x m with
  | ok a m' => simp [hx] at h
  | error e m' => exact ⟨e, m', rfl⟩

/-- A run that can be seen to end with a result does. -/
theorem eq_ok_after {x : Eval α} {a : α}
    (h : (match x m with | .ok b _ => some b | .error _ _ => none) = some a) :
    x m = .ok a (x.after m) := by
  cases hx : x m with
  | ok b m' =>
    rw [hx] at h
    cases h
    rw [after_ok hx]
  | error e m' =>
    rw [hx] at h
    cases h

/-- Every run leaves the view as it was. -/
def Fixes (view : Machine → β) (x : Eval α) : Prop := ∀ m, view (x.after m) = view m

end Eval

@[simp] theorem bind_ok {x : Eval α} {f : α → Eval β} (h : x m = .ok a m') :
    (x >>= f) m = f a m' := by
  simp [Bind.bind, EStateM.bind, h]

@[simp] theorem bind_error {x : Eval α} {f : α → Eval β} (h : x m = .error e m') :
    (x >>= f) m = .error e m' := by
  simp [Bind.bind, EStateM.bind, h]

/-- A sequence succeeds only if its parts do. -/
theorem bind_eq_ok {x : Eval α} {f : α → Eval β} (h : (x >>= f) m = .ok b m') :
    ∃ a m₁, x m = .ok a m₁ ∧ f a m₁ = .ok b m' := by
  cases hx : x m with
  | ok a m₁ => exact ⟨a, m₁, rfl, (bind_ok hx).symm.trans h⟩
  | error e m₁ =>
    rw [bind_error hx] at h
    cases h

theorem Eval.after_bind_ok {x : Eval α} {f : α → Eval β} (h : x m = .ok a m') :
    (x >>= f).after m = (f a).after m' := by
  simp [Eval.after, bind_ok h]

theorem lift_ok {q : Query α} (h : q m = .ok a) : (liftM q : Eval α) m = .ok a m := by
  change q.run m = _
  simp [Query.run, h]

theorem lift_error {q : Query α} (h : q m = .error e) : (liftM q : Eval α) m = .error e m := by
  change q.run m = _
  simp [Query.run, h]

/-- A query that can be seen to give an answer does. -/
theorem Query.eq_ok {q : Query α} {a : α} (h : (q m).toOption = some a) : q m = .ok a := by
  cases hq : q m with
  | ok b =>
    rw [hq] at h
    cases h
    rfl
  | error e =>
    rw [hq] at h
    cases h

theorem Query.bind_ok {q : Query α} {f : α → Query β} (h : q m = .ok a) : (q >>= f) m = f a m := by
  change (q m >>= fun a => f a m) = _
  rw [h]
  rfl

theorem Query.bind_error {q : Query α} {f : α → Query β} (h : q m = .error e) :
    (q >>= f) m = .error e := by
  change (q m >>= fun a => f a m) = _
  rw [h]
  rfl

/-- A sequence of queries gives an answer only if its parts do. -/
theorem Query.bind_eq_ok {q : Query α} {f : α → Query β} (h : (q >>= f) m = .ok b) :
    ∃ a, q m = .ok a ∧ f a m = .ok b := by
  cases hq : q m with
  | ok a => exact ⟨a, rfl, (Query.bind_ok hq).symm.trans h⟩
  | error e =>
    rw [Query.bind_error hq] at h
    cases h

/-- A finalizer that succeeds after every end of a run keeps how the run ended. -/
theorem tryFinally_eq (x : Eval α) (y : Eval β) (m : Machine) :
    (tryFinally x y) m =
      match x m with
      | .ok a m' =>
        match y m' with
        | .ok _ m'' => .ok a m''
        | .error e m'' => .error e m''
      | .error e m' =>
        match y m' with
        | .ok _ m'' => .error e m''
        | .error e' m'' => .error e' m'' := by
  simp only [tryFinally, Functor.map, EStateM.map, tryFinally']
  cases hx : x m with
  | ok a m' => cases hy : y m' <;> simp [hy]
  | error e m' => cases hy : y m' <;> simp [hy]

theorem Eval.after_tryFinally (x : Eval α) (y : Eval β) (m : Machine) :
    Eval.after (tryFinally x y) m = y.after (x.after m) := by
  unfold Eval.after
  rw [tryFinally_eq]
  cases x m with
  | ok a m' => cases h : y m' <;> simp only [h]
  | error e m' => cases h : y m' <;> simp only [h]

theorem discard_eq (x : Eval α) : discard x = x >>= fun _ => pure () := by
  funext m
  change EStateM.map _ x m = EStateM.bind x _ m
  simp only [EStateM.map, EStateM.bind]
  cases x m <;> rfl

/-- A complaint never returns. -/
theorem complain_fails (c : Complaint) (m : Machine) :
    ∃ e m', (complain c : Eval α) m = .error e m' := by
  unfold complain
  cases h : newError c.kind (some c.message) m with
  | ok o m' => exact ⟨_, m', bind_ok h⟩
  | error e m' => exact ⟨e, m', bind_error h⟩

theorem complain_ne_ok {c : Complaint} {a : α} : (complain c : Eval α) m ≠ .ok a m' := by
  obtain ⟨e, m₁, hfails⟩ := complain_fails (α := α) c m
  rw [hfails]
  nofun

/-- An operation on a record succeeds on the machine only if it did by itself. -/
theorem settle_eq_ok {result : Except Failure α} (h : settle result m = .ok a m') : result = .ok a ∧ m' = m := by
  cases result with
  | ok b =>
    cases h
    exact ⟨rfl, rfl⟩
  | error failure =>
    cases failure with
    | complaint c => exact absurd h complain_ne_ok
    | fault f => cases h

theorem completing_after (x : Eval Completion) (m : Machine) :
    (completing x).after m = x.after m := by
  cases hx : x m with
  | ok c m' => simp [Eval.after, completing, hx]
  | error e m' => cases e <;> simp [Eval.after, completing, hx]

/-- Evaluates a node by an evaluator. -/
def Node.evaluateBy (ev : Evaluator) : Node → Eval Completion
  | .script body => ev.script body
  | .statement s => ev.statement s
  | .expression e => completing do return .normal (some (← ev.value e))

theorem evaluate_eq (level : Nat) (node : Node) : evaluate level node = node.evaluateBy (.level level) := by
  cases node <;> rfl

namespace Eval.Fixes

variable {view : Machine → β} {x : Eval α} {f : α → Eval γ}

theorem of_ok (hx : x.Fixes view) (h : x m = .ok a m') : view m' = view m := by
  rw [← hx m, after_ok h]

theorem of_error (hx : x.Fixes view) (h : x m = .error e m') : view m' = view m := by
  rw [← hx m, after_error h]

/-- A coarser view is fixed too. -/
theorem map (hx : x.Fixes view) (g : β → δ) : x.Fixes (fun m => g (view m)) :=
  fun m => congrArg g (hx m)

@[grind ←] theorem pure (a : α) : Eval.Fixes view (pure a : Eval α) := fun _ => rfl

@[grind ←] theorem throw (e : Abrupt) : Eval.Fixes view (throw e : Eval α) := fun _ => rfl

@[grind ←] theorem lift (q : Query α) : Eval.Fixes view (liftM q : Eval α) := by
  intro m
  cases h : q m with
  | ok a => rw [after_ok (lift_ok h)]
  | error e => rw [after_error (lift_error h)]

@[grind ←] theorem bind (hx : x.Fixes view) (hf : ∀ a, (f a).Fixes view) :
    Eval.Fixes view (x >>= f) := by
  intro m
  cases h : x m with
  | ok a m' =>
    calc view ((x >>= f).after m) = view ((f a).after m') := by rw [after_bind_ok h]
      _ = view m' := hf a m'
      _ = view m := hx.of_ok h
  | error e m' => rw [after_error (bind_error h), hx.of_error h]

@[grind ←] theorem fault (e : Fault) : Eval.Fixes view (fault e : Eval α) := .throw _

@[grind ←] theorem breach (b : Breach) : Eval.Fixes view (breach b : Eval α) := .throw _

@[grind ←] theorem unsupported (f : Feature) : Eval.Fixes view (unsupported f : Eval α) := .throw _

@[grind ←] theorem discard (hx : x.Fixes view) : Eval.Fixes view (discard x) := by
  rw [discard_eq]
  exact .bind hx fun _ => .pure _

@[grind ←] theorem completing {x : Eval Completion} (hx : x.Fixes view) :
    Eval.Fixes view (completing x) := by
  intro m
  rw [completing_after, hx m]

@[grind ←] theorem forM {g : δ → Eval PUnit} (h : ∀ a, (g a).Fixes view) (l : List δ) :
    Eval.Fixes view (l.forM g) := by
  induction l with
  | nil => exact .pure _
  | cons a l ih => exact .bind (h a) fun _ => ih

end Eval.Fixes

/-- A query that succeeds inside an evaluation succeeds by itself. -/
theorem lift_eq_ok {q : Query α} {m m' : Machine} {a : α}
    (h : (liftM q : Eval α) m = .ok a m') : m' = m ∧ q m = .ok a := by
  cases hq : q m with
  | ok b =>
    rw [lift_ok hq] at h
    cases h
    exact ⟨rfl, rfl⟩
  | error e =>
    rw [lift_error hq] at h
    cases h

theorem modifyContext_cons {m : Machine} (h : m.contexts = c :: cs) (f : Context → Context) :
    modifyContext f m = .ok () { m with contexts := f c :: cs } := by
  simp [modifyContext, h]

theorem modifyContext_nil {m : Machine} (h : m.contexts = []) (f : Context → Context) :
    modifyContext f m = .error (.fault .noRunningContext) m := by
  simp [modifyContext, h]

theorem lexicalEnv_cons {m : Machine} (h : m.contexts = c :: cs) :
    lexicalEnv m = .ok c.lexicalEnv :=
  Query.bind_ok (by simp [runningContext, h])

theorem lexicalEnv_nil {m : Machine} (h : m.contexts = []) :
    lexicalEnv m = .error (.fault .noRunningContext) :=
  Query.bind_error (by simp [runningContext, h])

theorem pushContext_of_full {m : Machine} (context : Context)
    (h : m.stackLimit ≤ m.contexts.length) :
    pushContext context m = complain (α := Unit) .stackExceeded m := by
  have hget : (get : Eval Machine) m = .ok m m := rfl
  unfold pushContext
  rw [bind_ok hget, if_pos h]

theorem pushContext_of_room {m : Machine} (context : Context)
    (h : ¬ m.stackLimit ≤ m.contexts.length) :
    pushContext context m = .ok () { m with contexts := context :: m.contexts } := by
  have hget : (get : Eval Machine) m = .ok m m := rfl
  unfold pushContext
  rw [bind_ok hget, if_neg h]
  rfl

end EcmaEval
