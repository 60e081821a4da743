import EcmaEval.Proofs.Remit.Scope

/-!
# Quiet operations

Most operations leave the scopes of a machine alone. Conversions, the operations on objects, and the
use of bindings and references make no function and no environment, declare nothing in a global
environment, change no `this` and no prototype, and put the running contexts back as they were. This is
read off from a remit to which only objects and the values of bindings are open. What is left are the few
operations that make functions and scopes.
-/
namespace EcmaEval

/-- The closure of a function of a machine. -/
def Machine.closure? (m : Machine) (o : ObjectId) : Option FunctionSlots :=
  (m.object? o).bind Object.closure?

/-- The machine keeps its contexts, its functions and its scopes. -/
structure Machine.Quiet (m m' : Machine) : Prop where
  contexts : m'.contexts = m.contexts
  realms : m'.realms = m.realms
  stackLimit : m'.stackLimit = m.stackLimit
  closures : ∀ o, m'.closure? o = m.closure? o
  prototypes : ∀ o obj, m.object? o = some obj →
    ∃ obj', m'.object? o = some obj' ∧ obj'.prototype = obj.prototype
  size : m'.environments.size = m.environments.size
  environments : ∀ env e, m.env? env = some e → ∃ e', m'.env? env = some e' ∧ e.Quiet e'

namespace Machine.Quiet

variable {m m' m'' : Machine}

@[refl] theorem refl (m : Machine) : m.Quiet m :=
  ⟨rfl, rfl, rfl, fun _ => rfl, fun _ obj ho => ⟨obj, ho, rfl⟩, rfl, fun _ e he => ⟨e, he, .refl e⟩⟩

theorem trans (h : m.Quiet m') (h' : m'.Quiet m'') : m.Quiet m'' where
  contexts := h'.contexts.trans h.contexts
  realms := h'.realms.trans h.realms
  stackLimit := h'.stackLimit.trans h.stackLimit
  closures o := (h'.closures o).trans (h.closures o)
  prototypes o obj ho := by
    obtain ⟨obj', ho', hfirst⟩ := h.prototypes o obj ho
    obtain ⟨obj'', ho'', hsecond⟩ := h'.prototypes o obj' ho'
    exact ⟨obj'', ho'', hsecond.trans hfirst⟩
  size := h'.size.trans h.size
  environments env e he := by
    obtain ⟨e', he', hfirst⟩ := h.environments env e he
    obtain ⟨e'', he'', hsecond⟩ := h'.environments env e' he'
    exact ⟨e'', he'', hfirst.trans hsecond⟩

/-- A new object that is no function. -/
theorem pushObject (m : Machine) {obj : Object} (h : obj.closure? = none) :
    m.Quiet (m.pushObject obj) where
  contexts := rfl
  realms := rfl
  stackLimit := rfl
  closures o := by
    unfold closure?
    rw [object?_pushObject]
    split
    · rename_i hnew
      have hnone : m.object? o = none := Array.getElem?_eq_none (Nat.le_of_eq hnew.symm)
      simp [hnone, h]
    · rfl
  prototypes o old ho := ⟨old, (object?_pushObject_of_within obj (within_of_object? ho)).trans ho, rfl⟩
  size := rfl
  environments _ e he := ⟨e, he, .refl e⟩

/-- An object keeps its closure and its prototype. -/
theorem updateObject {o : ObjectId} {f : Object → Object}
    (h : ∀ obj, m.object? o = some obj → (f obj).closure? = obj.closure? ∧
      (f obj).prototype = obj.prototype) : m.Quiet (m.updateObject o f) where
  contexts := rfl
  realms := rfl
  stackLimit := rfl
  closures p := by
    unfold closure?
    rw [object?_updateObject]
    split
    · subst p
      cases ho : m.object? o with
      | none => rfl
      | some obj => exact (h obj ho).1
    · rfl
  prototypes p obj hp := by
    rw [object?_updateObject]
    split
    · subst p
      exact ⟨f obj, by rw [hp]; rfl, (h obj hp).2⟩
    · exact ⟨obj, hp, rfl⟩
  size := rfl
  environments _ e he := ⟨e, he, .refl e⟩

theorem storeEnv {env : EnvId} {e e' : Environment} (he : m.env? env = some e) (h : e.Quiet e') :
    m.Quiet (m.storeEnv env e') where
  contexts := rfl
  realms := rfl
  stackLimit := rfl
  closures _ := rfl
  prototypes _ obj ho := ⟨obj, ho, rfl⟩
  size := Array.size_setIfInBounds ..
  environments env' old hold := by
    rw [env?_storeEnv _ _ _ _ he]
    split
    · subst env'
      rw [he] at hold
      cases hold
      exact ⟨e', rfl, h⟩
    · exact ⟨old, hold, .refl old⟩

end Machine.Quiet

/-- Objects and the values of bindings may change, and nothing else. -/
def Remit.still : Remit where
  mentions _ := True
  builds _ := False
  references := True
  prototypes := False
  scopes := False
  realms := False
  codes _ := False
  moves := False
  calls := False

instance : Remit.still.IsFree := ⟨fun _ => trivial, trivial⟩

theorem Machine.Touches.quiet {m m' : Machine} (h : m.Touches .still m') : m.Quiet m' := by
  induction h with
  | refl => exact .refl m
  | tail _ hlast ih =>
    refine ih.trans ?_
    cases hlast with
    | symbols symbols =>
      exact ⟨rfl, rfl, rfl, fun _ => rfl, fun _ obj ho => ⟨obj, ho, rfl⟩, rfl, fun _ e he => ⟨e, he, .refl e⟩⟩
    | move hmoves => exact hmoves.elim
    | enter hcalls => exact hcalls.elim
    | leave hcalls => exact hcalls.elim
    | object _ hcode => exact .pushObject _ (Option.eq_none_iff_forall_ne_some.mpr hcode)
    | update ho _ _ hclosure hprototype =>
      refine .updateObject fun obj hobj => ?_
      cases ho.symm.trans hobj
      exact ⟨hclosure, hprototype.resolve_left id⟩
    | environment hscopes => exact hscopes.elim
    | realm hrealms => exact hrealms.elim
    | record he _ _ _ _ hquiet => exact .storeEnv he (hquiet.resolve_left id)
    | varNames he _ hnames => exact .storeEnv he (.global rfl (fun _ => id) (hnames.resolve_left id))

/-- The run leaves the scopes of this machine alone. -/
def Machine.Rests (m : Machine) (x : Eval α) : Prop := m.Quiet (x.after m)

/-- The run leaves the scopes of every machine alone. -/
def Eval.Quiet (x : Eval α) : Prop := ∀ m : Machine, m.Rests x

namespace Machine.Rests

variable {m m' : Machine} {x : Eval α} {f : α → Eval β}

theorem of_ok {a : α} (h : x m = .ok a m') (hm : m.Quiet m') : m.Rests x := by
  unfold Rests
  rwa [Eval.after_ok h]

theorem of_error {e : Abrupt} (h : x m = .error e m') (hm : m.Quiet m') : m.Rests x := by
  unfold Rests
  rwa [Eval.after_error h]

theorem ok {a : α} (hx : m.Rests x) (h : x m = .ok a m') : m.Quiet m' := Eval.after_ok h ▸ hx

theorem error {e : Abrupt} (hx : m.Rests x) (h : x m = .error e m') : m.Quiet m' :=
  Eval.after_error h ▸ hx

theorem pure (a : α) : m.Rests (pure a : Eval α) := .of_ok rfl (.refl m)

theorem bind (hx : m.Rests x) (hf : ∀ a m', x m = .ok a m' → m'.Rests (f a)) :
    m.Rests (x >>= f) := by
  cases h : x m with
  | ok a m' =>
    unfold Rests
    rw [Eval.after_bind_ok h]
    exact (hx.ok h).trans (hf a m' h)
  | error e m' => exact .of_error (bind_error h) (hx.error h)

end Machine.Rests

namespace Eval.Quiet

variable {x : Eval α} {f : α → Eval β}

@[grind ←] theorem of_stays [Tracked α] [Carrier α] (hx : x.StaysIn .still Remit.still.Holds) : x.Quiet :=
  fun m => (hx.touches_after m.closedIn_of_isFree).quiet

theorem quiet_ok (hx : x.Quiet) {m m' : Machine} {a : α} (h : x m = .ok a m') : m.Quiet m' := (hx m).ok h

@[grind ←] theorem pure (a : α) : Eval.Quiet (pure a : Eval α) := fun _ => .pure a

@[grind ←] theorem throw (e : Abrupt) : Eval.Quiet (throw e : Eval α) :=
  fun m => .of_error rfl (.refl m)

@[grind ←] theorem lift (q : Query α) : Eval.Quiet (liftM q : Eval α) := by
  intro m
  cases h : q m with
  | ok a => exact .of_ok (lift_ok h) (.refl m)
  | error e => exact .of_error (lift_error h) (.refl m)

@[grind ←] theorem fault (f : Fault) : Eval.Quiet (fault f : Eval α) := .throw _

@[grind ←] theorem breach (b : Breach) : Eval.Quiet (breach b : Eval α) := .throw _

@[grind ←] theorem unsupported (f : Feature) : Eval.Quiet (unsupported f : Eval α) := .throw _

theorem complain (c : Complaint) : Eval.Quiet (complain c : Eval α) := .of_stays (complain_stays c _)

@[grind ←] theorem settle (result : Except Failure α) : Eval.Quiet (settle result) := by
  unfold EcmaEval.settle
  split
  · exact .pure _
  · exact .complain _
  · exact .fault _

@[grind ←] theorem bind (hx : x.Quiet) (hf : ∀ a, (f a).Quiet) : Eval.Quiet (x >>= f) :=
  fun m => (hx m).bind fun a m' _ => hf a m'

@[grind ←] theorem forM {g : γ → Eval PUnit} (h : ∀ a, (g a).Quiet) (l : List γ) :
    Eval.Quiet (l.forM g) := by
  induction l with
  | nil => exact .pure _
  | cons a l ih => exact .bind (h a) fun _ => ih

end Eval.Quiet

end EcmaEval
