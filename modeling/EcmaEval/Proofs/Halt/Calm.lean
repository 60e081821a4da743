import EcmaEval.Proofs.Halt.Syntax
import EcmaEval.Proofs.Remit.Spared
import EcmaEval.Proofs.Scope.Script

/-!
# Calm operations

What a calm operation leaves alone is what bounds a run of code without loops: the stack of contexts is
as deep as before, the functions that are new have code without loops, and objects keep their
prototypes. A run is calm if it stays in the remit for this. Apart from evaluations of code that is every
operation, if the functions that it makes have such code.
-/
namespace EcmaEval

namespace Machine

/-- The stack has its depth and its limit, new functions have code without loops, and objects keep their
prototypes. -/
structure Calm (m m' : Machine) : Prop where
  stackLimit : m'.stackLimit = m.stackLimit
  depth : m'.contexts.length = m.contexts.length
  closures : ∀ o slots, m'.closure? o = some slots → m.closure? o = some slots ∨ slots.code.LoopFree
  prototypes : ∀ o obj, m.object? o = some obj →
    ∃ obj', m'.object? o = some obj' ∧ obj'.prototype = obj.prototype

namespace Calm

variable {m m' m'' : Machine}

theorem of_quiet (h : m.Quiet m') : m.Calm m' where
  stackLimit := h.stackLimit
  depth := by rw [h.contexts]
  closures o slots ho := .inl ((h.closures o).symm.trans ho)
  prototypes := h.prototypes

@[refl] theorem refl (m : Machine) : m.Calm m := .of_quiet (.refl m)

theorem trans (h : m.Calm m') (h' : m'.Calm m'') : m.Calm m'' where
  stackLimit := h'.stackLimit.trans h.stackLimit
  depth := h'.depth.trans h.depth
  closures o slots ho := (h'.closures o slots ho).elim (h.closures o slots) .inr
  prototypes o obj ho := by
    obtain ⟨obj', ho', hfirst⟩ := h.prototypes o obj ho
    obtain ⟨obj'', ho'', hsecond⟩ := h'.prototypes o obj' ho'
    exact ⟨obj'', ho'', hsecond.trans hfirst⟩

/-- Other contexts, as many as before. -/
theorem withContexts (m : Machine) {cs : List Context} (h : cs.length = m.contexts.length) :
    m.Calm (m.withContexts cs) :=
  ⟨rfl, h, fun _ _ => .inl, fun _ obj ho => ⟨obj, ho, rfl⟩⟩

/-- A context and what is calm on top of it. -/
theorem pop {c : Context} (h : (m.withContexts (c :: m.contexts)).Calm m') :
    m.Calm (m'.withContexts m'.contexts.tail) where
  stackLimit := h.stackLimit
  depth := by
    have hdepth : m'.contexts.length = m.contexts.length + 1 := h.depth
    exact (List.length_tail ..).trans (by omega)
  closures := h.closures
  prototypes := h.prototypes

/-- A new object that is no function with a loop. -/
theorem pushObject (m : Machine) {obj : Object}
    (h : ∀ slots, obj.closure? = some slots → slots.code.LoopFree) : m.Calm (m.pushObject obj) where
  stackLimit := rfl
  depth := rfl
  closures o slots ho := by
    unfold closure? at ho
    rw [object?_pushObject] at ho
    split at ho
    · exact .inr (h slots ho)
    · exact .inl ho
  prototypes o old ho := ⟨old, (object?_pushObject_of_within obj (within_of_object? ho)).trans ho, rfl⟩

/-- The chain of prototypes from an object stays. -/
theorem chain (h : m.Calm m') {start : Option ObjectId} {l : List ObjectId} (hl : m.Chain start l) :
    m'.Chain start l := by
  induction hl with
  | nil => exact .nil
  | cons ho _ ih =>
    obtain ⟨obj', ho', hprototype⟩ := h.prototypes _ _ ho
    exact .cons ho' (hprototype ▸ ih)

end Calm

end Machine

/-- No context is entered or left, no prototype is set, and functions that are made have code without
loops. -/
def Remit.calm : Remit where
  mentions _ := True
  builds _ := False
  references := True
  prototypes := False
  scopes := True
  realms := False
  codes := FunctionCode.LoopFree
  moves := True
  calls := False

namespace Remit

instance : calm.IsFree := ⟨fun _ => trivial, trivial⟩

@[grind ←] theorem calm_scopes : calm.scopes := trivial

@[grind ←] theorem calm_moves : calm.moves := trivial

@[grind ←] theorem calm_codes {code : FunctionCode} (h : code.LoopFree) : calm.codes code := h

end Remit

theorem Machine.Touches.calm {m m' : Machine} (h : m.Touches .calm m') : m.Calm m' := by
  induction h with
  | refl => exact .refl m
  | tail _ hlast ih =>
    refine ih.trans ?_
    have hprototypes (o : ObjectId) (obj : Object) (ho : _ = some obj) := hlast.prototype (o := o) id ho
    cases hlast with
    | symbols | environment | record | varNames => exact ⟨rfl, rfl, fun _ _ => .inl, hprototypes⟩
    | move _ hcs _ => exact .withContexts _ (by rw [hcs]; rfl)
    | enter hcalls => exact hcalls.elim
    | leave hcalls => exact hcalls.elim
    | object _ hcode => exact .pushObject _ hcode
    | update ho _ _ hclosure hprototype =>
      refine .of_quiet (.updateObject fun obj hobj => ?_)
      cases ho.symm.trans hobj
      exact ⟨hclosure, hprototype.resolve_left id⟩
    | realm hrealms => exact hrealms.elim

/-- The run is calm on every machine. -/
def Eval.Calm (x : Eval α) : Prop := ∀ m : Machine, m.Calm (x.after m)

namespace Eval.Calm

variable {x : Eval α} {f : α → Eval β}

@[grind ←] theorem of_stays [Tracked α] [Carrier α] (hx : x.StaysIn .calm Remit.calm.Holds) : x.Calm :=
  fun m => (hx.touches_after m.closedIn_of_isFree).calm

theorem quiet (h : x.Quiet) : x.Calm := fun m => .of_quiet (h m)

theorem bind (hx : x.Calm) (hf : ∀ a, (f a).Calm) : Eval.Calm (x >>= f) := by
  intro m
  have hfirst := hx m
  cases h : x m with
  | ok a m' =>
    rw [after_ok h] at hfirst
    rw [after_bind_ok h]
    exact hfirst.trans (hf a m')
  | error e m' =>
    rw [after_error h] at hfirst
    rw [after_error (bind_error h)]
    exact hfirst

theorem forM {g : γ → Eval PUnit} {l : List γ} (h : ∀ a ∈ l, (g a).Calm) : Eval.Calm (l.forM g) := by
  induction l with
  | nil => exact .quiet (.pure _)
  | cons a l ih =>
    exact .bind (h a List.mem_cons_self) fun _ => ih fun b hb => h b (List.mem_cons_of_mem a hb)

end Eval.Calm

end EcmaEval
