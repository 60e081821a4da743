import EcmaEval.Proofs.Remit.Scope

/-!
# Changes of the context stack

A run may change the stack as long as it puts back what it changed. Weaker views say what is put
back: the contexts below the running one, the stack up to the labels of the running context, and the
stack up to its labels and its lexical environment. Running with a context of one's own, or with
another lexical environment, turns a weak view into a strong one.
-/
namespace EcmaEval

/-- The run ends with the stack of contexts it started with. -/
abbrev Eval.KeepsStack (x : Eval α) : Prop := x.Fixes Machine.contexts

/-- Everything but the context stack may change. -/
def Remit.inFrame : Remit := { Remit.whole with moves := False, calls := False }

namespace Remit

instance : inFrame.IsFree := ⟨fun _ => trivial, trivial⟩

@[grind ←] theorem inFrame_scopes : inFrame.scopes := trivial

@[grind ←] theorem inFrame_codes (code : FunctionCode) : inFrame.codes code := trivial

end Remit

theorem Machine.Touches.contexts {m m' : Machine} (h : m.Touches .inFrame m') :
    m'.contexts = m.contexts := by
  induction h with
  | refl => rfl
  | tail _ hlast ih =>
    rw [← ih]
    cases hlast with
    | move hmoves => exact hmoves.elim
    | enter hcalls => exact hcalls.elim
    | leave hcalls => exact hcalls.elim
    | _ => rfl

/-- A run that does not need the context stack gives it back. -/
@[grind ←] theorem Eval.StaysIn.keepsStack [Tracked α] [Carrier α] {x : Eval α}
    (hx : x.StaysIn .inFrame Remit.inFrame.Holds) : x.KeepsStack :=
  fun m => (hx.touches_after m.closedIn_of_isFree).contexts

namespace Context

/-- The context without the labels before the next statement. -/
def unlabelled (c : Context) : Context := { c with labels := [] }

/-- The context without its labels and its lexical environment. -/
def unscoped (c : Context) : Context := { c with labels := [], lexicalEnv := ⟨0⟩ }

end Context

namespace Machine

/-- The contexts that wait for the running one. -/
def callers (m : Machine) : List Context := m.contexts.tail

/-- The stack up to the labels of the running context. -/
def frame (m : Machine) : List Context := m.contexts.modifyHead Context.unlabelled

/-- The stack up to the labels and the lexical environment of the running context. -/
def outerFrame (m : Machine) : List Context := m.contexts.modifyHead Context.unscoped

/-- The labels directly before the statement about to run. -/
def labels (m : Machine) : List String := (m.contexts.head?.map Context.labels).getD []

theorem outerFrame_of_frame {m m' : Machine} (h : m'.frame = m.frame) :
    m'.outerFrame = m.outerFrame := by
  have hunscoped (c : Context) : c.unlabelled.unscoped = c.unscoped := rfl
  unfold frame outerFrame at *
  cases hm : m.contexts with
  | nil => cases hm' : m'.contexts <;> simp_all
  | cons c cs =>
    cases hm' : m'.contexts with
    | nil => simp_all
    | cons d ds =>
      simp only [hm, hm', List.modifyHead_cons, List.cons.injEq] at h ⊢
      exact ⟨by rw [← hunscoped d, h.1, hunscoped], h.2⟩

theorem callers_of_outerFrame {m m' : Machine} (h : m'.outerFrame = m.outerFrame) :
    m'.callers = m.callers := by
  unfold outerFrame callers at *
  cases hm : m.contexts <;> cases hm' : m'.contexts <;> simp_all

end Machine

namespace Eval.Fixes

variable {x : Eval α}

theorem frame (hx : x.KeepsStack) : x.Fixes Machine.frame :=
  hx.map fun contexts => contexts.modifyHead Context.unlabelled

theorem outerFrame (hx : x.Fixes Machine.frame) : x.Fixes Machine.outerFrame :=
  fun m => Machine.outerFrame_of_frame (hx m)

theorem callers (hx : x.Fixes Machine.outerFrame) : x.Fixes Machine.callers :=
  fun m => Machine.callers_of_outerFrame (hx m)

end Eval.Fixes

theorem Eval.KeepsStack.callers {x : Eval α} (hx : x.KeepsStack) : x.Fixes Machine.callers :=
  Eval.Fixes.callers (Eval.Fixes.outerFrame (Eval.Fixes.frame hx))

/-- What a change of the running context leaves alone is a view of the stack that the change does
not see. -/
theorem modifyContext_fixes {view : List Context → β} {f : Context → Context}
    (h : ∀ c cs, view (f c :: cs) = view (c :: cs)) :
    (modifyContext f).Fixes fun m => view m.contexts := by
  intro m
  cases hm : m.contexts with
  | nil => rw [Eval.after_error (modifyContext_nil hm f)]
  | cons c cs =>
    rw [Eval.after_ok (modifyContext_cons hm f)]
    simpa only [hm] using h c cs

theorem modifyContext_fixes_callers (f : Context → Context) :
    (modifyContext f).Fixes Machine.callers :=
  modifyContext_fixes fun _ _ => rfl

theorem setLexicalEnv_fixes_outerFrame (env : EnvId) :
    (setLexicalEnv env).Fixes Machine.outerFrame :=
  modifyContext_fixes fun _ _ => rfl

theorem setLexicalEnv_fixes_callers (env : EnvId) : (setLexicalEnv env).Fixes Machine.callers :=
  modifyContext_fixes_callers _

theorem setLexicalEnv_fixes_labels (env : EnvId) : (setLexicalEnv env).Fixes Machine.labels := by
  let view (cs : List Context) : List String := (cs.head?.map Context.labels).getD []
  have hview (c : Context) (cs : List Context) :
      view ({ c with lexicalEnv := env } :: cs) = view (c :: cs) := rfl
  exact modifyContext_fixes hview

/-- Stacks that agree up to the scope of the running context have the same callers and contexts that
agree up to their scope. -/
theorem outerFrame_cons {m m' : Machine} (h : m'.outerFrame = m.outerFrame)
    (hm : m.contexts = c :: cs) : ∃ d, m'.contexts = d :: cs ∧ d.unscoped = c.unscoped := by
  unfold Machine.outerFrame at h
  cases hm' : m'.contexts with
  | nil => simp [hm, hm'] at h
  | cons d ds =>
    simp only [hm, hm', List.modifyHead_cons, List.cons.injEq] at h
    exact ⟨d, by rw [h.2], h.1⟩

/-- A run with another lexical environment, once there is a running context. -/
theorem withLexicalEnv_eq {m : Machine} (h : m.contexts = c :: cs) (env : EnvId) (x : Eval α) :
    withLexicalEnv env x m = (tryFinally x (setLexicalEnv c.lexicalEnv))
      { m with contexts := { c with lexicalEnv := env } :: cs } := by
  have hset : setLexicalEnv env m = _ := modifyContext_cons h _
  unfold withLexicalEnv
  rw [bind_ok (lift_ok (lexicalEnv_cons h)), bind_ok hset]

/-- A run with another lexical environment ends as the run itself does, with the old environment put
back. -/
theorem withLexicalEnv_after {x : Eval α} (env : EnvId) (hx : x.Fixes Machine.outerFrame)
    {m : Machine} (h : m.contexts = c :: cs) :
    let m₁ : Machine := { m with contexts := { c with lexicalEnv := env } :: cs }
    ∃ d : Context, d.unscoped = c.unscoped ∧ d.lexicalEnv = c.lexicalEnv ∧
      d.labels = (x.after m₁).labels ∧
      withLexicalEnv env x m =
        match x m₁ with
        | .ok a m' => .ok a { m' with contexts := d :: cs }
        | .error e m' => .error e { m' with contexts := d :: cs } := by
  intro m₁
  obtain ⟨d, hd, hc⟩ := outerFrame_cons (c := { c with lexicalEnv := env }) (hx m₁) rfl
  refine ⟨{ d with lexicalEnv := c.lexicalEnv }, hc, rfl, by simp [Machine.labels, hd], ?_⟩
  have hset := modifyContext_cons hd ({ · with lexicalEnv := c.lexicalEnv })
  rw [withLexicalEnv_eq h, tryFinally_eq]
  unfold Eval.after at hset
  cases hr : x m₁ with
  | ok a m₂ => simp_all [setLexicalEnv, m₁]
  | error e m₂ => simp_all [setLexicalEnv, m₁]

/-- A run with another lexical environment gives back the stack up to labels. -/
theorem withLexicalEnv_fixes_frame {x : Eval α} (env : EnvId) (hx : x.Fixes Machine.outerFrame) :
    (withLexicalEnv env x).Fixes Machine.frame := by
  intro m
  cases hm : m.contexts with
  | nil =>
    have hrun : withLexicalEnv env x m = .error _ m := bind_error (lift_error (lexicalEnv_nil hm))
    rw [Eval.after_error hrun]
  | cons c cs =>
    obtain ⟨d, hd, henv, -, hrun⟩ := withLexicalEnv_after env hx hm
    have hframe : d.unlabelled = c.unlabelled := by
      cases c
      cases d
      simp_all [Context.unscoped, Context.unlabelled]
    unfold Eval.after
    rw [hrun]
    cases x { m with contexts := { c with lexicalEnv := env } :: cs } with
    | ok a m' => simp [Machine.frame, hm, hframe]
    | error e m' => simp [Machine.frame, hm, hframe]

/-- The run does not run out of levels. -/
def Eval.Ends (x : Eval α) (m : Machine) : Prop := ∀ m', x m ≠ .error .exhausted m'

/-- The run gives back a view of the stack and, unless it runs out of levels, adds no labels to a
running context without labels. -/
structure Eval.Settles (view : Machine → β) (x : Eval α) : Prop where
  fixes : x.Fixes view
  labels : ∀ m, m.labels = [] → x.Ends m → (x.after m).labels = []

theorem Eval.KeepsStack.labels {x : Eval α} (hx : x.KeepsStack) : x.Fixes Machine.labels :=
  hx.map fun contexts => (contexts.head?.map Context.labels).getD []

namespace Eval.Settles

variable {view : Machine → β} {x : Eval α} {f : α → Eval γ}

theorem of_fixes (hx : x.Fixes view) (hlabels : x.Fixes Machine.labels) : x.Settles view :=
  ⟨hx, fun m hm _ => (hlabels m).trans hm⟩

theorem keeps (hx : x.KeepsStack) : x.Settles Machine.frame := .of_fixes hx.frame hx.labels

theorem outerFrame (hx : x.Settles Machine.frame) : x.Settles Machine.outerFrame :=
  ⟨hx.fixes.outerFrame, hx.labels⟩

theorem pure (a : α) : Eval.Settles view (pure a : Eval α) := .of_fixes (.pure a) (.pure a)

theorem throw (e : Abrupt) : Eval.Settles view (throw e : Eval α) := .of_fixes (.throw e) (.throw e)

theorem bind (hx : x.Settles view) (hf : ∀ a, (f a).Settles view) :
    Eval.Settles view (x >>= f) := by
  refine ⟨.bind hx.fixes fun a => (hf a).fixes, fun m hm hends => ?_⟩
  have hxm : x.Ends m := fun m' h => hends m' (bind_error h)
  have hlabels := hx.labels m hm hxm
  cases h : x m with
  | ok a m' =>
    rw [after_ok h] at hlabels
    have hfm : (f a).Ends m' := fun m'' hf => hends m'' ((bind_ok h).trans hf)
    rw [after_bind_ok h]
    exact (hf a).labels m' hlabels hfm
  | error e m' =>
    rw [after_error h] at hlabels
    rwa [after_error (bind_error h)]

theorem completing {x : Eval Completion} (hx : x.Settles view) :
    Eval.Settles view (completing x) := by
  refine ⟨.completing hx.fixes, fun m hm hends => ?_⟩
  rw [completing_after]
  exact hx.labels m hm fun m' h => hends m' (by simp [EcmaEval.completing, h])

/-- With another lexical environment, what is given back up to the scope is given back. -/
theorem withLexicalEnv (hx : x.Settles Machine.outerFrame) (env : EnvId) :
    (withLexicalEnv env x).Settles Machine.frame := by
  refine ⟨withLexicalEnv_fixes_frame env hx.fixes, fun m hm hends => ?_⟩
  cases hc : m.contexts with
  | nil =>
    have hrun : EcmaEval.withLexicalEnv env x m = .error _ m :=
      bind_error (lift_error (lexicalEnv_nil hc))
    rwa [after_error hrun]
  | cons c cs =>
    let m₁ : Machine := { m with contexts := { c with lexicalEnv := env } :: cs }
    obtain ⟨d, -, -, hd, hrun⟩ := withLexicalEnv_after env hx.fixes hc
    have hm₁ : m₁.labels = [] := by simpa [m₁, Machine.labels, hc] using hm
    have hends₁ : x.Ends m₁ := by
      intro m' h
      rw [h] at hrun
      exact hends _ hrun
    have hlabels : d.labels = [] := hd.trans (hx.labels m₁ hm₁ hends₁)
    unfold after
    rw [hrun]
    cases x { m with contexts := { c with lexicalEnv := env } :: cs } with
    | ok a m' => simpa [Machine.labels] using hlabels
    | error e m' => simpa [Machine.labels] using hlabels

end Eval.Settles

theorem pushContext_eq_ok {m m' : Machine} {context : Context} {u : Unit}
    (h : pushContext context m = .ok u m') :
    ¬ m.stackLimit ≤ m.contexts.length ∧ m' = { m with contexts := context :: m.contexts } := by
  by_cases hfull : m.stackLimit ≤ m.contexts.length
  · exact absurd ((pushContext_of_full context hfull).symm.trans h) complain_ne_ok
  · cases (pushContext_of_room context hfull).symm.trans h
    exact ⟨hfull, rfl⟩

/-- A run with a context of its own, once there is room for it. -/
theorem withContext_eq {m : Machine} (context : Context) (x : Eval α)
    (h : ¬ m.stackLimit ≤ m.contexts.length) :
    withContext context x m = match x { m with contexts := context :: m.contexts } with
      | .ok a m' => .ok a { m' with contexts := m'.contexts.tail }
      | .error e m' => .error e { m' with contexts := m'.contexts.tail } := by
  have hpop (m' : Machine) :
      (discard popContext) m' = .ok () { m' with contexts := m'.contexts.tail } := rfl
  unfold withContext
  rw [bind_ok (pushContext_of_room context h), tryFinally_eq]
  cases x { m with contexts := context :: m.contexts } <;> simp [hpop]

/-- Without room for the context nothing is run in it. -/
theorem withContext_of_full {m : Machine} (context : Context) (h : m.stackLimit ≤ m.contexts.length) :
    ∃ e m', complain (α := Unit) .stackExceeded m = .error e m' ∧
      ∀ {α : Type} (x : Eval α), withContext context x m = .error e m' := by
  obtain ⟨e, m', hfails⟩ := complain_fails (α := Unit) .stackExceeded m
  exact ⟨e, m', hfails, fun x => bind_error ((pushContext_of_full context h).trans hfails)⟩

/-- A run with a context of its own gives back the stack. -/
theorem withContext_keepsStack {x : Eval α} (context : Context) (hx : x.Fixes Machine.callers) :
    (withContext context x).KeepsStack := by
  intro m
  by_cases h : m.stackLimit ≤ m.contexts.length
  · obtain ⟨e, m', hfails, hrun⟩ := withContext_of_full context h
    rw [Eval.after_error (hrun x)]
    exact (Eval.StaysIn.keepsStack (complain_stays (α := Unit) _ _)).of_error hfails
  · have htail := hx { m with contexts := context :: m.contexts }
    unfold Eval.after Machine.callers at htail
    unfold Eval.after
    rw [withContext_eq context x h]
    cases hr : x { m with contexts := context :: m.contexts } <;> simpa [hr] using htail

end EcmaEval
