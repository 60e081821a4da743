import EcmaEval.Proofs.Halt.Calm
import Mathlib.Order.Filter.AtTopBot.Basic

/-!
# Evaluations that converge

A machine is *tame* if its functions have code without loops. On tame machines with a given stack limit
and depth, an evaluation *converges* to what it is by some evaluator if by all sufficiently high levels
it does the same, and if that is calm. It need not where the evaluator runs out of levels itself. This
composes along `bind`, since what follows a run starts from one machine, from some level on. A new
context is one step closer to the limit of the stack: what runs in it has to converge one deeper.
-/
namespace EcmaEval

open Filter

/-- The functions of the machine have code without loops; its stack has the given limit and depth. -/
structure Machine.Tame (limit depth : Nat) (m : Machine) : Prop where
  closures : ∀ o slots, m.closure? o = some slots → slots.code.LoopFree
  stackLimit : m.stackLimit = limit
  depth : m.contexts.length = depth

theorem Machine.Tame.calm {limit depth : Nat} {m m' : Machine} (h : m.Tame limit depth)
    (hm : m.Calm m') : m'.Tame limit depth where
  closures o slots ho := (hm.closures o slots ho).elim (h.closures o slots) id
  stackLimit := hm.stackLimit.trans h.stackLimit
  depth := hm.depth.trans h.depth

namespace Evaluator

/-- Unless the run by the evaluator runs out of levels, from some level on the run is the same. -/
def Approaches (lim : Evaluator) (x : Evaluator → Eval α) (m : Machine) : Prop :=
  (x lim).Ends m → ∀ᶠ n in atTop, x (level n) m = x lim m

/-- The runs on the machine approach one that is calm. -/
def ConvergesAt (lim : Evaluator) (m : Machine) (x : Evaluator → Eval α) : Prop :=
  lim.Approaches x m ∧ m.Calm ((x lim).after m)

/-- The evaluation converges on every tame machine with the given limit and depth of its stack. -/
def Converges (lim : Evaluator) (limit depth : Nat) (x : Evaluator → Eval α) : Prop :=
  ∀ m, m.Tame limit depth → lim.ConvergesAt m x

variable {lim : Evaluator} {limit depth : Nat} {m : Machine}

/-- What a run does may depend on another run only. -/
theorem Approaches.transfer {x : Evaluator → Eval α} {y : Evaluator → Eval β} {m₁ : Machine}
    (hx : lim.Approaches x m₁) (hends : (y lim).Ends m → (x lim).Ends m₁)
    (hsame : ∀ ev : Evaluator, x ev m₁ = x lim m₁ → y ev m = y lim m) : lim.Approaches y m :=
  fun h => (hx (hends h)).mono fun n => hsame (level n)

/-- A finalizer that succeeds after exhaustion passes it on. -/
theorem Approaches.tryFinally {x : Evaluator → Eval α} {y : Eval β} (hx : lim.Approaches x m)
    (hy : ∀ m', x lim m = .error .exhausted m' → ∃ b m'', y m' = .ok b m'') :
    lim.Approaches (fun ev => tryFinally (x ev) y) m := by
  refine hx.transfer (fun hends m' hm' => ?_) fun ev hev => ?_
  · obtain ⟨b, m'', hrun⟩ := hy m' hm'
    refine hends m'' ?_
    rw [tryFinally_eq, hm']
    simp only [hrun]
  · rw [tryFinally_eq, tryFinally_eq, hev]

theorem ConvergesAt.bind {x : Evaluator → Eval α} {f : Evaluator → α → Eval β}
    (hx : lim.ConvergesAt m x)
    (hf : ∀ a m', x lim m = .ok a m' → m.Calm m' → lim.ConvergesAt m' fun ev => f ev a) :
    lim.ConvergesAt m fun ev => x ev >>= f ev := by
  obtain ⟨happroaches, hcalm⟩ := hx
  cases h : x lim m with
  | error e m' =>
    rw [Eval.after_error h] at hcalm
    refine ⟨happroaches.transfer (fun hends m'' hm'' => hends m'' (bind_error hm'')) fun ev hev => ?_, ?_⟩
    · rw [bind_error h, bind_error (hev.trans h)]
    · rwa [Eval.after_error (bind_error h)]
  | ok a m' =>
    rw [Eval.after_ok h] at hcalm
    obtain ⟨hrest, hcalm'⟩ := hf a m' h hcalm
    refine ⟨fun hends => ?_, ?_⟩
    · have hfirst := happroaches fun m'' hm'' => by cases h.symm.trans hm''
      have hsecond := hrest fun m'' hm'' => hends m'' ((bind_ok h).trans hm'')
      filter_upwards [hfirst, hsecond] with n hn hn'
      rw [bind_ok h, bind_ok (hn.trans h), hn']
    · rw [Eval.after_bind_ok h]
      exact hcalm.trans hcalm'

namespace Converges

variable {x : Evaluator → Eval α} {f : Evaluator → α → Eval β}

theorem const {x : Eval α} (h : x.Calm) : lim.Converges limit depth fun _ => x :=
  fun m _ => ⟨fun _ => .of_forall fun _ => rfl, h m⟩

theorem quiet {x : Eval α} (h : x.Quiet) : lim.Converges limit depth fun _ => x := .const (.quiet h)

theorem pure (a : α) : lim.Converges limit depth fun _ => (pure a : Eval α) := .quiet (.pure a)

/-- What follows a run may rely on what it gave on a tame machine. -/
theorem bind_of (hx : lim.Converges limit depth x)
    (hf : ∀ a m m', m.Tame limit depth → x lim m = .ok a m' → lim.Converges limit depth fun ev => f ev a) :
    lim.Converges limit depth fun ev => x ev >>= f ev :=
  fun m hm => (hx m hm).bind fun a m' hrun hcalm => hf a m m' hm hrun m' (hm.calm hcalm)

theorem bind (hx : lim.Converges limit depth x)
    (hf : ∀ a, lim.Converges limit depth fun ev => f ev a) :
    lim.Converges limit depth fun ev => x ev >>= f ev := .bind_of hx fun a _ _ _ _ => hf a

theorem query {q : Query α} (hf : ∀ a, lim.Converges limit depth fun ev => f ev a) :
    lim.Converges limit depth fun ev => (liftM q : Eval α) >>= f ev := .bind (.quiet (.lift q)) hf

theorem map (hx : lim.Converges limit depth x) {g : α → β} :
    lim.Converges limit depth fun ev => x ev >>= fun a => Pure.pure (g a) := .bind hx fun _ => .pure _

theorem ite {c : Prop} [Decidable c] {y : Evaluator → Eval α} (hx : lim.Converges limit depth x)
    (hy : lim.Converges limit depth y) : lim.Converges limit depth fun ev => if c then x ev else y ev := by
  by_cases h : c
  · simpa only [if_pos h] using hx
  · simpa only [if_neg h] using hy

theorem forM {g : Evaluator → γ → Eval PUnit} {l : List γ}
    (h : ∀ a ∈ l, lim.Converges limit depth fun ev => g ev a) :
    lim.Converges limit depth fun ev => l.forM (g ev) := by
  induction l with
  | nil => exact .pure _
  | cons a l ih =>
    exact .bind (h a List.mem_cons_self) fun _ => ih fun b hb => h b (List.mem_cons_of_mem a hb)

theorem completing {x : Evaluator → Eval Completion} (hx : lim.Converges limit depth x) :
    lim.Converges limit depth fun ev => completing (x ev) := by
  intro m hm
  obtain ⟨happroaches, hcalm⟩ := hx m hm
  refine ⟨happroaches.transfer (fun hends m' hm' => hends m' ?_) fun ev hev => ?_, ?_⟩
  · unfold EcmaEval.completing
    rw [hm']
  · unfold EcmaEval.completing
    rw [hev]
  · rwa [completing_after]

/-- A run in another scope. Putting the old one back succeeds, for the stack is as deep as before. -/
theorem withLexicalEnv (env : EnvId) (hx : lim.Converges limit depth x) :
    lim.Converges limit depth fun ev => withLexicalEnv env (x ev) := by
  have hset (env : EnvId) : (setLexicalEnv env).Calm := by grind
  intro m hm
  refine ConvergesAt.bind (Converges.quiet (.lift lexicalEnv) m hm) fun old m₁ hold hcalm₁ => ?_
  obtain ⟨rfl, hlexical⟩ := lift_eq_ok hold
  refine ConvergesAt.bind (Converges.const (hset env) m₁ hm) fun _ m₂ _ hcalm₂ => ?_
  obtain ⟨happroaches, hcalm₃⟩ := hx m₂ (hm.calm hcalm₂)
  refine ⟨happroaches.tryFinally fun m₃ hexhausted => ?_, ?_⟩
  · rw [Eval.after_error hexhausted] at hcalm₃
    cases hc : m₃.contexts with
    | nil =>
      have hdepth := hcalm₃.depth.trans hcalm₂.depth
      rw [hc] at hdepth
      rw [lexicalEnv_nil (List.eq_nil_of_length_eq_zero hdepth.symm)] at hlexical
      cases hlexical
    | cons c cs => exact ⟨_, _, modifyContext_cons hc _⟩
  · rw [Eval.after_tryFinally]
    exact hcalm₃.trans (hset old _)

/-- A run in a context of its own. On a full stack there is none. -/
theorem withContext (context : Context) (hx : depth < limit → lim.Converges limit (depth + 1) x) :
    lim.Converges limit depth fun ev => withContext context (x ev) := by
  intro m hm
  by_cases hfull : m.stackLimit ≤ m.contexts.length
  · obtain ⟨e, m', hfails, hrun⟩ := withContext_of_full context hfull
    refine ⟨fun _ => .of_forall fun n => (hrun _).trans (hrun (x lim)).symm, ?_⟩
    rw [Eval.after_error (hrun (x lim)), ← Eval.after_error hfails]
    exact .of_quiet (Eval.Quiet.complain _ m)
  · have hroom : depth < limit := by
      rw [← hm.stackLimit, ← hm.depth]
      exact Nat.lt_of_not_le hfull
    have hpushed : (m.withContexts (context :: m.contexts)).Tame limit (depth + 1) :=
      ⟨hm.closures, hm.stackLimit, congrArg (· + 1) hm.depth⟩
    have hpush : pushContext context m = .ok () (m.withContexts (context :: m.contexts)) :=
      pushContext_of_room context hfull
    obtain ⟨happroaches, hcalm⟩ := hx hroom _ hpushed
    have hpop : lim.Approaches (fun ev => tryFinally (x ev) (discard popContext)) _ :=
      happroaches.tryFinally fun m' _ => ⟨(), _, rfl⟩
    refine ⟨hpop.transfer (fun hends m' hm' => hends m' ((bind_ok hpush).trans hm')) fun ev hev => ?_, ?_⟩
    · unfold EcmaEval.withContext
      rw [bind_ok hpush, bind_ok hpush]
      exact hev
    · unfold EcmaEval.withContext
      rw [Eval.after_bind_ok hpush, Eval.after_tryFinally]
      exact hcalm.pop

end Converges

end Evaluator

end EcmaEval
