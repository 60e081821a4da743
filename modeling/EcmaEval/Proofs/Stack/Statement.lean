import EcmaEval.Proofs.Stack.Expression

/-!
# Statements give back the context stack

A statement that opens a scope runs its parts with another lexical environment and puts the old one
back, also when a part throws or fails. Labels are the one thing a statement takes from the running
context; it leaves none behind.
-/
namespace EcmaEval

theorem withBlockScope_settles (declarations : List LexicalDeclaration) {x : Eval Completion}
    (hx : x.Settles Machine.frame) : (withBlockScope declarations x).Settles Machine.frame := by
  refine .bind (.keeps (.lift _)) fun outer => ?_
  refine .bind (.keeps (by grind)) fun env => ?_
  have hblock : (instantiateBlock env declarations []).KeepsStack :=
    (instantiateBlock_stays (R := .inFrame) trivial (holds_of_isFree env) (fun _ _ => trivial) []).keepsStack
  refine .bind (.keeps hblock) fun _ => ?_
  exact .withLexicalEnv hx.outerFrame env

/-- A copy of the iteration environment only moves the scope. -/
theorem copyIterationEnv_settles (names : List String) :
    (copyIterationEnv names).Settles Machine.outerFrame := by
  have hcopy (last env : EnvId) : (declareInitialized env (last.read · true) names).KeepsStack :=
    (declareInitialized_stays (R := .inFrame) trivial (holds_of_isFree env) (by grind) names).keepsStack
  have hset (env : EnvId) : (setLexicalEnv env).Settles Machine.outerFrame :=
    .of_fixes (setLexicalEnv_fixes_outerFrame env) (setLexicalEnv_fixes_labels env)
  unfold copyIterationEnv
  split
  · exact .pure _
  refine .bind (.outerFrame (.keeps (.lift _))) fun last => ?_
  refine .bind (.outerFrame (.keeps (.lift _))) fun e => ?_
  split
  · exact .throw _
  · refine .bind (.outerFrame (.keeps (by grind))) fun env => ?_
    exact .bind (.outerFrame (.keeps (hcopy last env))) fun _ => hset env

namespace Evaluator

variable {ev : Evaluator} (hev : ev.Restores)

include hev

theorem statement_settles (s : Statement) : (ev.statement s).Settles Machine.frame :=
  ⟨hev.statement s, fun m _ hends => hev.labels s m hends⟩

theorem statements_settles (body : List Statement) (last : Option Value) :
    (ev.statements body last).Settles Machine.frame := by
  induction body generalizing last with
  | nil => exact .pure _
  | cons s rest ih =>
    refine .bind (statement_settles hev s) fun completion => ?_
    cases completion with
    | normal value => exact ih _
    | _ => exact .pure _

theorem block_settles (body : List Statement) : (ev.block body).Settles Machine.frame := by
  refine .completing ?_
  split
  · exact .pure _
  · exact withBlockScope_settles _ (statements_settles hev body none)

theorem declarator_keepsStack (kind : DeclarationKind) (d : Declarator) :
    (ev.declarator kind d).KeepsStack := by
  unfold declarator
  split
  · exact .pure _
  · refine .bind (.lift _) fun target => ?_
    split <;> grind
  · have hpattern (env : Option EnvId) (value : Value) := bindPattern_keepsStack hev env d.pattern value
    refine .bind (value_keepsStack hev _) fun value => ?_
    split <;> grind
  · exact .breach _

theorem declare_keepsStack (kind : DeclarationKind) (declarators : List Declarator) :
    (ev.declare kind declarators).KeepsStack :=
  .forM (declarator_keepsStack hev kind) declarators

theorem ifStatement_settles (test : Expression) (consequent : Statement)
    (alternate : Option Statement) :
    (ev.ifStatement test consequent alternate).Settles Machine.frame := by
  refine .bind (.keeps (value_keepsStack hev test)) fun value => ?_
  split
  · exact .bind (statement_settles hev consequent) fun _ => .pure _
  · cases alternate with
    | some s => exact .bind (statement_settles hev s) fun _ => .pure _
    | none => exact .pure _

theorem matchingClauses_keepsStack (input : Value) (clauses : List SwitchClause) :
    (ev.matchingClauses input clauses).KeepsStack := by
  induction clauses with
  | nil => exact .pure _
  | cons clause rest ih =>
    unfold matchingClauses
    grind

theorem runClauses_settles (clauses : List SwitchClause) (last : Value) :
    (ev.runClauses clauses last).Settles Machine.frame := by
  induction clauses generalizing last with
  | nil => exact .pure _
  | cons clause rest ih =>
    refine .bind (statements_settles hev clause.body none) fun result => ?_
    dsimp only
    split
    · exact .pure _
    · exact ih _

theorem caseBlock_settles (clauses : List SwitchClause) (input : Value) :
    (ev.caseBlock clauses input).Settles Machine.frame := by
  refine .bind (.keeps (matchingClauses_keepsStack hev input clauses)) fun selected => ?_
  cases selected with
  | some selected => exact runClauses_settles hev _ _
  | none => exact runClauses_settles hev _ _

theorem switchStatement_settles (discriminant : Expression) (clauses : List SwitchClause) :
    (ev.switchStatement discriminant clauses).Settles Machine.frame :=
  .bind (.keeps (value_keepsStack hev discriminant)) fun input =>
    withBlockScope_settles _ (caseBlock_settles hev clauses input)

theorem catchClause_settles (handler : CatchClause) (value : Value) :
    (ev.catchClause handler value).Settles Machine.frame := by
  refine .completing ?_
  cases handler.parameter with
  | none => exact block_settles hev handler.body
  | some parameter =>
    refine .bind (.keeps (.lift _)) fun outer => ?_
    refine .bind (.keeps (by grind)) fun env => ?_
    refine .bind (.keeps (.forM (fun _ => by grind) _)) fun _ => ?_
    refine .withLexicalEnv (.outerFrame ?_) env
    refine .bind (.keeps (bindPattern_keepsStack hev _ parameter value)) fun _ => ?_
    exact block_settles hev handler.body

theorem guarded_settles (body : List Statement) (handler : Option CatchClause) :
    (ev.guarded body handler).Settles Machine.frame := by
  refine .bind (block_settles hev body) fun completion => ?_
  split
  · exact catchClause_settles hev _ _
  · exact .pure _

theorem tryStatement_settles (body : List Statement) (handler : Option CatchClause)
    (finalizer : Option (List Statement)) :
    (ev.tryStatement body handler finalizer).Settles Machine.frame := by
  refine .bind (guarded_settles hev body handler) fun completion => ?_
  cases finalizer with
  | none => exact .bind (.pure _) fun _ => .pure _
  | some last =>
    refine .bind (block_settles hev last) fun completion => ?_
    split <;> exact .bind (.pure _) fun _ => .pure _

theorem withStatement_settles (object : Expression) (body : Statement) :
    (ev.withStatement object body).Settles Machine.frame := by
  refine .bind (.keeps (value_keepsStack hev object)) fun value => ?_
  refine .bind (.keeps (by grind)) fun o => ?_
  refine .bind (.keeps (.lift _)) fun outer => ?_
  refine .bind (.keeps (by grind)) fun env => ?_
  exact .bind (.withLexicalEnv (statement_settles hev body).outerFrame env) fun _ => .pure _

theorem whileLoop_settles (test : Expression) (body : Statement) (labels : List String)
    (steps : Nat) (last : Value) :
    (ev.whileLoop test body labels steps last).Settles Machine.frame := by
  induction steps generalizing last with
  | zero => exact .throw _
  | succ steps ih =>
    refine .bind (.keeps (value_keepsStack hev test)) fun value => ?_
    split
    · exact .pure _
    refine .bind (statement_settles hev body) fun result => ?_
    split
    · exact .pure _
    · exact ih _

theorem doWhileLoop_settles (body : Statement) (test : Expression) (labels : List String)
    (steps : Nat) (last : Value) :
    (ev.doWhileLoop body test labels steps last).Settles Machine.frame := by
  induction steps generalizing last with
  | zero => exact .throw _
  | succ steps ih =>
    refine .bind (statement_settles hev body) fun result => ?_
    split
    · exact .pure _
    refine .bind (.keeps (value_keepsStack hev test)) fun value => ?_
    split
    · exact .pure _
    · exact ih _

omit hev in
/-- The iterations of a for loop give back what its parts and the copies of its environment do. -/
theorem forIterations_settles {view : Machine → β} (test update : Option Expression)
    (body : Statement) (names labels : List String)
    (hvalue : ∀ e, (ev.value e).Settles view) (hbody : (ev.statement body).Settles view)
    (hcopy : (copyIterationEnv names).Settles view) (steps : Nat) (last : Value) :
    (ev.forIterations test update body names labels steps last).Settles view := by
  have hholds : (ev.holds test).Settles view := by
    cases test with
    | some test => exact .bind (hvalue test) fun _ => .pure _
    | none => exact .pure _
  induction steps generalizing last with
  | zero => exact .throw _
  | succ steps ih =>
    refine .bind hholds fun holds => ?_
    split
    · exact .pure _
    refine .bind hbody fun result => ?_
    split
    · exact .pure _
    refine .bind hcopy fun _ => ?_
    cases update with
    | some e =>
      refine .bind ?_ fun _ => ih _
      rw [discard_eq]
      exact .bind (hvalue e) fun _ => .pure _
    | none => exact ih _

theorem forBody_settles (steps : Nat) (test update : Option Expression) (body : Statement)
    (labels : List String) :
    (ev.forBody steps test update body [] labels).Settles Machine.frame :=
  .bind (.pure ()) fun _ => forIterations_settles _ _ _ _ _
    (fun e => .keeps (value_keepsStack hev e)) (statement_settles hev body) (.pure ()) _ _

/-- The iterations of a `let` loop move the scope as the copies of its environment do. -/
theorem forBody_settles_outerFrame (steps : Nat) (test update : Option Expression) (body : Statement)
    (names labels : List String) :
    (ev.forBody steps test update body names labels).Settles Machine.outerFrame :=
  .bind (copyIterationEnv_settles _) fun _ => forIterations_settles _ _ _ _ _
    (fun e => .outerFrame (.keeps (value_keepsStack hev e))) (statement_settles hev body).outerFrame
    (copyIterationEnv_settles _) _ _

theorem forLexical_settles (steps : Nat) (constant : Bool) (declarators : List Declarator)
    (test update : Option Expression) (body : Statement) (labels : List String) :
    (ev.forLexical steps constant declarators test update body labels).Settles Machine.frame := by
  refine .bind (.keeps (.lift _)) fun outer => ?_
  refine .bind (.keeps (by grind)) fun env => ?_
  refine .bind (.keeps (.forM (fun _ => by grind) _)) fun _ => ?_
  refine .withLexicalEnv ?_ env
  refine .bind (.outerFrame (.keeps (declare_keepsStack hev _ declarators))) fun _ => ?_
  exact forBody_settles_outerFrame hev _ _ _ _ _ _

theorem forLoop_settles (steps : Nat) (init : Option ForInit) (test update : Option Expression)
    (body : Statement) (labels : List String) :
    (ev.forLoop steps init test update body labels).Settles Machine.frame := by
  unfold forLoop
  split
  · exact forLexical_settles hev _ _ _ _ _ _ _
  · exact .bind (.keeps (declare_keepsStack hev _ _)) fun _ => forBody_settles hev _ _ _ _ _
  · exact .bind (.keeps (value_keepsStack hev _)) fun _ => forBody_settles hev _ _ _ _ _
  · exact forBody_settles hev _ _ _ _ _

theorem forInSource_settles (target : ForTarget) (source : Expression) :
    (ev.forInSource target source).Settles Machine.frame := by
  have hsource := Eval.Settles.keeps (value_keepsStack hev source)
  refine .bind (.keeps (.lift _)) fun outer => ?_
  dsimp only
  split
  · exact .withLexicalEnv hsource.outerFrame outer
  · refine .bind (.keeps (by grind)) fun env => ?_
    refine .bind (.keeps (.forM (fun _ => by grind) _)) fun _ => ?_
    exact .withLexicalEnv hsource.outerFrame env

theorem bindForTarget_settles (outer : EnvId) (target : ForTarget) (value : Value) :
    (ev.bindForTarget outer target value).Settles Machine.outerFrame := by
  have hset (env : EnvId) : (setLexicalEnv env).Settles Machine.outerFrame :=
    .of_fixes (setLexicalEnv_fixes_outerFrame env) (setLexicalEnv_fixes_labels env)
  unfold bindForTarget
  split
  · exact .outerFrame (.keeps (bindPattern_keepsStack hev _ _ _))
  · refine .bind (.outerFrame (.keeps (by grind))) fun env => ?_
    refine .bind (.outerFrame (.keeps (.forM (fun _ => by grind) _))) fun _ => ?_
    exact .bind (hset env) fun _ => .outerFrame (.keeps (bindPattern_keepsStack hev _ _ _))
  · refine .bind (.outerFrame (.keeps (.lift _))) fun reference => ?_
    exact .outerFrame (.keeps (by grind))
  · exact .throw _

theorem forInIterations_settles (target : ForTarget) (body : Statement) (labels : List String)
    (outer : EnvId) (steps : Nat) (it : KeyIterator) (last : Value) :
    (ev.forInIterations target body labels outer steps it last).Settles Machine.frame := by
  induction steps generalizing it last with
  | zero => exact .throw _
  | succ steps ih =>
    refine .bind (.keeps (.lift _)) fun next => ?_
    split
    · exact .pure _
    refine .bind (.withLexicalEnv (.bind (bindForTarget_settles hev _ _ _) fun _ => ?_) outer)
      fun result => ?_
    · exact (statement_settles hev body).outerFrame
    split
    · exact .pure _
    · exact ih _ _

theorem forIn_settles (steps : Nat) (target : ForTarget) (source : Expression) (body : Statement)
    (labels : List String) : (ev.forIn steps target source body labels).Settles Machine.frame := by
  refine .bind (.keeps (.lift _)) fun outer => ?_
  refine .bind (forInSource_settles hev target source) fun value => ?_
  split
  · exact .pure _
  · refine .bind (.keeps (by grind)) fun o => ?_
    exact forInIterations_settles hev _ _ _ _ _ _ _

omit hev in
/-- What a labelled statement does after its body only looks at the completion. -/
theorem labelledStatement_rest {view : Machine → β} (label : String) (completion : Completion) :
    Eval.Fixes view (match completion with
      | .broke (some target) value =>
        if target == label then return .normal value else return .broke (some target) value
      | other => return other : Eval Completion) := by
  split
  · split <;> exact .pure _
  · exact .pure _

theorem labelledStatement_fixes_frame (label : String) (body : Statement) :
    (ev.labelledStatement label body).Fixes Machine.frame :=
  .bind (modifyContext_fixes fun _ _ => rfl) fun _ =>
    .bind (hev.statement body) fun completion => labelledStatement_rest label completion

/-- A labelled statement leaves the labels to the statement after them, which takes them. -/
theorem labelledStatement_labels (label : String) (body : Statement) (m : Machine)
    (hends : (ev.labelledStatement label body).Ends m) :
    ((ev.labelledStatement label body).after m).labels = [] := by
  cases hm : m.contexts with
  | nil =>
    have hrun : ev.labelledStatement label body m = .error _ m :=
      bind_error (modifyContext_nil hm _)
    rw [Eval.after_error hrun]
    simp [Machine.labels, hm]
  | cons c cs =>
    have hpush := modifyContext_cons hm fun c => { c with labels := c.labels ++ [label] }
    unfold labelledStatement Eval.Ends at *
    rw [bind_ok hpush] at hends
    rw [Eval.after_bind_ok hpush]
    generalize { m with contexts := { c with labels := c.labels ++ [label] } :: cs } = m₁ at *
    have hlabels := hev.labels body m₁ fun m' h => hends m' (bind_error h)
    cases hr : ev.statement body m₁ with
    | ok completion m' =>
      rw [Eval.after_ok hr] at hlabels
      rw [Eval.after_bind_ok hr, ← hlabels]
      exact labelledStatement_rest label completion m'
    | error e m' =>
      rw [Eval.after_error hr] at hlabels
      rwa [Eval.after_error (bind_error hr)]

/-- A statement, with the labels before it taken, gives back the stack. -/
theorem executeWith_settles (steps : Nat) (labels : List String) (s : Statement) :
    (ev.executeWith steps labels s).Settles Machine.frame := by
  have hvalue (e : Expression) := Eval.Settles.keeps (value_keepsStack hev e)
  cases s with
  | empty => exact .pure _
  | debugger => exact .pure _
  | function code => exact .pure _
  | expression e => exact .bind (hvalue e) fun _ => .pure _
  | block body => exact block_settles hev body
  | declare kind declarators =>
    exact .bind (.keeps (declare_keepsStack hev kind declarators)) fun _ => .pure _
  | conditional test consequent alternate => exact ifStatement_settles hev _ _ _
  | whileLoop test body => exact .bind (whileLoop_settles hev _ _ _ _ _) fun _ => .pure _
  | doWhileLoop body test => exact .bind (doWhileLoop_settles hev _ _ _ _ _) fun _ => .pure _
  | forLoop init test update body => exact .bind (forLoop_settles hev _ _ _ _ _ _) fun _ => .pure _
  | forIn target source body => exact .bind (forIn_settles hev _ _ _ _ _) fun _ => .pure _
  | forOf target source body => exact .throw _
  | returns value =>
    cases value with
    | none => exact .pure _
    | some e => exact .bind (hvalue e) fun _ => .pure _
  | breaks label => exact .pure _
  | continues label => exact .pure _
  | throws e => exact .bind (hvalue e) fun _ => .pure _
  | tryCatch body handler finalizer => exact tryStatement_settles hev _ _ _
  | switch discriminant clauses => exact .bind (switchStatement_settles hev _ _) fun _ => .pure _
  | labelled label body =>
    exact ⟨labelledStatement_fixes_frame hev label body,
      fun m _ hends => labelledStatement_labels hev label body m hends⟩
  | withObject object body => exact withStatement_settles hev _ _

end Evaluator

end EcmaEval
