import EcmaEval.Proofs.Stack.Statement

/-!
# Evaluation restores the context stack

Every evaluation, call and construction ends with the stack of contexts it started with, whether it
completes, throws or fails. The one difference is in the labels of the running context: a statement
takes the labels before it.
-/
namespace EcmaEval

theorem takeLabels_fixes_frame (s : Statement) : (takeLabels s).Fixes Machine.frame := by
  have htake : Eval.Fixes Machine.frame (do
      let labels := (← runningContext).labels
      modifyContext ({ · with labels := [] })
      return labels) :=
    .bind (.lift _) fun _ => .bind (modifyContext_fixes fun _ _ => rfl) fun _ => .pure _
  unfold takeLabels
  split
  · exact .pure _
  · exact htake

/-- No labels are left where they are taken. -/
theorem takeLabels_labels {s : Statement} (hs : ∀ label body, s ≠ .labelled label body)
    (m : Machine) : ((takeLabels s).after m).labels = [] := by
  unfold takeLabels
  split
  · exact absurd rfl (hs _ _)
  · cases hm : m.contexts with
    | nil =>
      have hrun : runningContext m = .error (.fault .noRunningContext) := by simp [runningContext, hm]
      rw [Eval.after_error (bind_error (lift_error hrun))]
      simp [Machine.labels, hm]
    | cons c cs =>
      have hrun : runningContext m = .ok c := by simp [runningContext, hm]
      rw [Eval.after_bind_ok (lift_ok hrun), Eval.after_bind_ok (modifyContext_cons hm _)]
      rfl

namespace Evaluator

variable {ev : Evaluator} (hev : ev.Restores)

include hev

theorem execute_fixes_frame (steps : Nat) (s : Statement) :
    (ev.execute steps s).Fixes Machine.frame :=
  .completing (.bind (takeLabels_fixes_frame s) fun labels =>
    (executeWith_settles hev steps labels s).fixes)

theorem execute_labels (steps : Nat) (s : Statement) (m : Machine)
    (hends : (ev.execute steps s).Ends m) : ((ev.execute steps s).after m).labels = [] := by
  unfold execute at *
  rw [completing_after]
  have hends' : Eval.Ends (do ev.executeWith steps (← takeLabels s) s) m :=
    fun m' h => hends m' (by simp [completing, h])
  by_cases hs : ∃ label body, s = .labelled label body
  · obtain ⟨label, body, rfl⟩ := hs
    exact labelledStatement_labels hev label body m hends'
  · have hlabels := takeLabels_labels (fun label body h => hs ⟨label, body, h⟩) m
    cases ht : takeLabels s m with
    | ok labels m₁ =>
      rw [Eval.after_ok ht] at hlabels
      rw [Eval.after_bind_ok ht]
      refine (executeWith_settles hev steps labels s).labels m₁ hlabels fun m' h => ?_
      exact hends' m' ((bind_ok ht).trans h)
    | error e m₁ =>
      rw [Eval.after_error ht] at hlabels
      rwa [Eval.after_error (bind_error ht)]

omit hev in
theorem instantiateGlobal_keepsStack (body : List Statement) (env : EnvId) :
    (instantiateGlobal body env).KeepsStack :=
  (instantiateGlobal_stays (R := .inFrame) (holds_of_isFree env) trivial fun _ _ => trivial).keepsStack

theorem script_keepsStack (body : List Statement) : (ev.script body).KeepsStack := by
  refine .bind (.lift _) fun realm => .bind (.lift _) fun r => ?_
  refine .bind (.completing (.bind (.lift _) fun context => ?_)) fun result => ?_
  · refine withContext_keepsStack context ?_
    refine .bind (instantiateGlobal_keepsStack body _).callers fun _ => ?_
    exact .callers (.outerFrame (statements_fixes_frame hev body none))
  · split <;> exact .pure _

end Evaluator

/-- An evaluator made from one that gives back the stack gives it back too. -/
theorem Evaluator.level_restores (n : Nat) : (Evaluator.level n).Restores := by
  induction n with
  | zero =>
    exact ⟨fun _ => .throw _, fun _ => .throw _, fun _ m hends => absurd rfl (hends m)⟩
  | succ n ih =>
    exact ⟨fun e => evaluate_keepsStack ih e, fun s => execute_fixes_frame ih n s,
      fun s m hends => execute_labels ih n s m hends⟩

namespace Context

/-- The contexts agree in everything but their labels. -/
structure AgreesWith (d c : Context) : Prop where
  realm : d.realm = c.realm
  function : d.function = c.function
  lexicalEnv : d.lexicalEnv = c.lexicalEnv
  variableEnv : d.variableEnv = c.variableEnv
  privateEnv : d.privateEnv = c.privateEnv
  strict : d.strict = c.strict

theorem agreesWith_of_unlabelled {c d : Context} (h : d.unlabelled = c.unlabelled) :
    d.AgreesWith c := by
  cases c
  cases d
  simp only [unlabelled, mk.injEq] at h
  obtain ⟨hrealm, hfunction, hlexical, hvariable, hprivate, -, hstrict⟩ := h
  exact ⟨hrealm, hfunction, hlexical, hvariable, hprivate, hstrict⟩

end Context

/-- What the stack `after` an evaluation of a node has in common with the stack before it: the
contexts that wait, the running context up to its labels, and the labels unless the node is a
statement. -/
def Node.Restores (node : Node) (before after : List Context) : Prop :=
  match before, after with
  | [], [] => True
  | c :: below, d :: below' =>
    below' = below ∧ d.AgreesWith c ∧
      match node with
      | .statement _ => d.labels = []
      | .script _ | .expression _ => d.labels = c.labels
  | _, _ => False

theorem Node.restores_of_eq {node : Node} (hnode : ∀ s, node ≠ .statement s) {before after : List Context}
    (h : after = before) : node.Restores before after := by
  subst h
  cases after with
  | nil => trivial
  | cons c below =>
    refine ⟨rfl, ⟨rfl, rfl, rfl, rfl, rfl, rfl⟩, ?_⟩
    cases node with
    | statement s => exact absurd rfl (hnode s)
    | script body => rfl
    | expression e => rfl

/-- **Restoration of the context stack.** However an evaluation that ends does end, the stack is as
long as before, the contexts below the running one are the same, and the running one differs at most
in its labels, which only a statement changes: it leaves none. Calls and constructions give back the
same stack. -/
theorem evaluate_restores_contexts (level : Nat) (m : Machine) :
    (∀ node, (evaluate level node).Ends m →
      node.Restores m.contexts ((evaluate level node).after m).contexts) ∧
    (∀ f thisValue arguments,
      (((Evaluator.level level).call f thisValue arguments).after m).contexts = m.contexts) ∧
    (∀ f arguments newTarget,
      (((Evaluator.level level).construct f arguments newTarget).after m).contexts = m.contexts) := by
  have hev := Evaluator.level_restores level
  refine ⟨fun node hends => ?_, fun f thisValue arguments => ?_, fun f arguments newTarget => ?_⟩
  · cases node with
    | script body =>
      exact Node.restores_of_eq (fun s => by simp) (Evaluator.script_keepsStack hev body m)
    | expression e =>
      refine Node.restores_of_eq (fun s => by simp) (Eval.Fixes.completing ?_ m)
      exact .bind (Evaluator.value_keepsStack hev e) fun _ => .pure _
    | statement s =>
      have hframe := hev.statement s m
      have hlabels := hev.labels s m hends
      change Node.Restores _ _ (((Evaluator.level level).statement s).after m).contexts
      unfold Machine.frame Machine.labels at *
      generalize (((Evaluator.level level).statement s).after m).contexts = after at *
      cases hm : m.contexts with
      | nil => cases after <;> simp_all [Node.Restores]
      | cons c below =>
        cases after with
        | nil => simp_all
        | cons d below' =>
          rw [hm] at hframe
          simp only [List.modifyHead_cons, List.cons.injEq] at hframe
          exact ⟨hframe.2, Context.agreesWith_of_unlabelled hframe.1, by simpa using hlabels⟩
  · exact Evaluator.call_keepsStack hev f thisValue arguments m
  · exact Evaluator.construct_keepsStack hev f arguments newTarget m

/-- A labelled statement that runs on top of two contexts and takes the labels before it. -/
theorem evaluate_restores_contexts_labelled :
    let c : Context :=
      { realm := ⟨0⟩, function := none, lexicalEnv := ⟨1⟩, variableEnv := ⟨0⟩, privateEnv := none,
        labels := ["outer"], strict := false }
    let m : Machine := { contexts := [c, { c with strict := true }] }
    let node := Node.statement (.labelled "inner" (.breaks (some "inner")))
    node.Restores m.contexts ((evaluate 3 node).after m).contexts := by
  intro c m node
  exact (evaluate_restores_contexts 3 m).1 node fun _ h => nomatch h

end EcmaEval
