import EcmaEval.Proofs.Static
import EcmaEval.Proofs.Stack.Context

/-!
# Jumps

A statement never completes with a `break`, `continue` or `return` that something in it consumes.
Labels reach a loop through the running context: a labelled statement adds its label there and the loop
takes all that have collected. So a loop consumes at least the `continue`s to the labels directly before
it, whatever else the context held.
-/
namespace EcmaEval

namespace Completion

/-- The jump a completion makes. -/
def jump? : Completion → Option Jump
  | .normal _ | .thrown _ => none
  | .returned _ => some .returned
  | .broke target _ => some (.broke target)
  | .continued target _ => some (.continued target)

@[simp] theorem jump?_updateEmpty (c : Completion) (fill : Option Value) :
    (c.updateEmpty fill).jump? = c.jump? := by
  unfold updateEmpty
  split <;> rfl

theorem jump?_absorbBreak {c : Completion} {j : Jump} (h : c.absorbBreak.jump? = some j) :
    c.jump? = some j ∧ j ≠ .broke none := by
  unfold absorbBreak at h
  split at h
  · cases h
  · rename_i hother
    refine ⟨h, ?_⟩
    rintro rfl
    cases c <;> cases h
    exact hother _ rfl

/-- A loop that does not go on was left by a jump that is no `continue` to it. -/
theorem stays_of_loopContinues {c : Completion} {j : Jump} {labels : List String}
    (h : c.loopContinues labels = false) (hj : c.jump? = some j) (hstays : j.StaysInLoop labels) :
    j = .broke none := by
  cases c with
  | normal value => cases hj
  | thrown value => cases hj
  | returned value =>
    cases hj
    exact hstays.elim
  | broke target value =>
    cases hj
    cases target with
    | none => rfl
    | some label => exact hstays.elim
  | continued target value =>
    cases hj
    cases target with
    | none => cases h
    | some label =>
      have hmem : label ∈ labels := hstays
      simp [loopContinues, hmem] at h

end Completion

/-- A run that returns a completion jumps only in the given ways. -/
def Eval.JumpsBy (P : Jump → Prop) (x : Eval Completion) : Prop :=
  ∀ m c m', x m = .ok c m' → ∀ j, c.jump? = some j → P j

/-- Turning throws into completions adds no jump. -/
theorem completing_jumps {x : Eval Completion} {m m' : Machine} {c : Completion} {j : Jump}
    (hrun : completing x m = .ok c m') (hj : c.jump? = some j) : x m = .ok c m' := by
  unfold completing at hrun
  split at hrun
  · cases hrun
    cases hj
  · exact hrun

namespace Eval.JumpsBy

variable {P Q : Jump → Prop} {x : Eval Completion}

theorem mono (hx : x.JumpsBy P) (h : ∀ j, P j → Q j) : x.JumpsBy Q :=
  fun m c m' hrun j hj => h j (hx m c m' hrun j hj)

theorem pure {c : Completion} (h : ∀ j, c.jump? = some j → P j) :
    Eval.JumpsBy P (pure c : Eval Completion) := by
  intro m c' m' hrun
  cases hrun
  exact h

theorem throw (e : Abrupt) : Eval.JumpsBy P (throw e : Eval Completion) :=
  fun _ _ _ hrun => nomatch hrun

/-- The jump of a sequence is that of its last part. -/
theorem seq {y : Eval α} {f : α → Eval Completion} (hf : ∀ a, (f a).JumpsBy P) :
    Eval.JumpsBy P (y >>= f) := by
  intro m c m' hrun
  obtain ⟨a, m₁, -, hlast⟩ := bind_eq_ok hrun
  exact hf a m₁ c m' hlast

/-- What follows a completion may make use of how that one jumps. -/
theorem bind {f : Completion → Eval Completion} (hx : x.JumpsBy P)
    (hf : ∀ c, (∀ j, c.jump? = some j → P j) → (f c).JumpsBy Q) : Eval.JumpsBy Q (x >>= f) := by
  intro m c m' hrun
  obtain ⟨c₁, m₁, hfirst, hlast⟩ := bind_eq_ok hrun
  exact hf c₁ (hx m c₁ m₁ hfirst) m₁ c m' hlast

theorem completing (hx : x.JumpsBy P) : Eval.JumpsBy P (completing x) :=
  fun m c m' hrun j hj => hx m c m' (completing_jumps hrun hj) j hj

theorem tryFinally (hx : x.JumpsBy P) (y : Eval α) : Eval.JumpsBy P (tryFinally x y) := by
  intro m c m' hrun
  rw [tryFinally_eq] at hrun
  cases hrun₁ : x m with
  | error e m₁ =>
    simp only [hrun₁] at hrun
    split at hrun <;> cases hrun
  | ok c₁ m₁ =>
    simp only [hrun₁] at hrun
    split at hrun
    · cases hrun
      exact hx m c m₁ hrun₁
    · cases hrun

theorem withLexicalEnv (hx : x.JumpsBy P) (env : EnvId) : Eval.JumpsBy P (withLexicalEnv env x) :=
  .seq fun _ => .seq fun _ => hx.tryFinally _

theorem withContext (hx : x.JumpsBy P) (context : Context) : Eval.JumpsBy P (withContext context x) :=
  .seq fun _ => hx.tryFinally _

end Eval.JumpsBy

/-- A statement jumps out only by a jump that it contains and that, with the labels collected before
it, it does not consume. -/
def Evaluator.JumpsSoundly (ev : Evaluator) : Prop :=
  ∀ s m c m', ev.statement s m = .ok c m' → ∀ j, c.jump? = some j → s.Exits m.labels j

namespace Evaluator

variable {ev : Evaluator} (hev : ev.JumpsSoundly)

include hev

theorem statement_jumpsBy (s : Statement) : (ev.statement s).JumpsBy (s.Exits []) :=
  fun m c m' hrun j hj => (hev s m c m' hrun j hj).antitone (List.nil_subset _)

theorem statements_jumpsBy (body : List Statement) (last : Option Value) :
    (ev.statements body last).JumpsBy fun j => ∃ s ∈ body, s.Exits [] j := by
  induction body generalizing last with
  | nil => exact .pure fun j hj => by cases hj
  | cons s rest ih =>
    refine .bind (statement_jumpsBy hev s) fun c hc => ?_
    cases c with
    | normal value => exact (ih _).mono fun j ⟨t, ht, hj⟩ => ⟨t, List.mem_cons_of_mem _ ht, hj⟩
    | _ => exact .pure fun j hj => ⟨s, List.mem_cons_self, hc j (by simpa using hj)⟩

theorem block_jumpsBy (body : List Statement) :
    (ev.block body).JumpsBy fun j => ∃ s ∈ body, s.Exits [] j := by
  refine .completing ?_
  split
  · exact .pure fun j hj => by cases hj
  · exact .seq fun _ => .seq fun _ => .seq fun _ => .withLexicalEnv (statements_jumpsBy hev body none) _

theorem ifStatement_jumpsBy (labels : List String) (test : Expression) (consequent : Statement)
    (alternate : Option Statement) : (ev.ifStatement test consequent alternate).JumpsBy
      ((Statement.conditional test consequent alternate).Exits labels) := by
  refine .seq fun value => ?_
  split
  · exact .bind (statement_jumpsBy hev consequent) fun c hc =>
      .pure fun j hj => .consequent (hc j (by simpa using hj))
  · cases alternate with
    | none => exact .pure fun j hj => by cases hj
    | some s =>
      exact .bind (statement_jumpsBy hev s) fun c hc =>
        .pure fun j hj => .alternate (hc j (by simpa using hj))

theorem runClauses_jumpsBy (clauses : List SwitchClause) (last : Value) :
    (ev.runClauses clauses last).JumpsBy fun j => ∃ clause ∈ clauses, ∃ s ∈ clause.body, s.Exits [] j := by
  induction clauses generalizing last with
  | nil => exact .pure fun j hj => by cases hj
  | cons clause rest ih =>
    refine .bind (statements_jumpsBy hev clause.body none) fun c hc => ?_
    dsimp only
    split
    · exact .pure fun j hj => ⟨clause, List.mem_cons_self, hc j (by simpa using hj)⟩
    · exact (ih _).mono fun j ⟨t, ht, hj⟩ => ⟨t, List.mem_cons_of_mem _ ht, hj⟩

omit hev in
theorem matchingClauses_sub {input : Value} {clauses selected : List SwitchClause} {m m' : Machine}
    (h : ev.matchingClauses input clauses m = .ok (some selected) m') : selected ⊆ clauses := by
  induction clauses generalizing m with
  | nil => cases h
  | cons clause rest ih =>
    unfold matchingClauses at h
    cases ht : clause.test with
    | none =>
      simp only [ht] at h
      exact List.Subset.trans (ih h) (List.subset_cons_self _ _)
    | some test =>
      simp only [ht] at h
      obtain ⟨value, m₁, -, h⟩ := bind_eq_ok h
      split at h
      · cases h
        exact List.Subset.refl _
      · exact List.Subset.trans (ih h) (List.subset_cons_self _ _)

theorem caseBlock_jumpsBy (clauses : List SwitchClause) (input : Value) :
    (ev.caseBlock clauses input).JumpsBy fun j => ∃ clause ∈ clauses, ∃ s ∈ clause.body, s.Exits [] j := by
  intro m c m' hrun
  obtain ⟨selected, m₁, hselected, hrun⟩ := bind_eq_ok hrun
  cases selected with
  | some selected =>
    exact ((runClauses_jumpsBy hev selected _).mono fun j ⟨clause, hclause, hj⟩ =>
      ⟨clause, matchingClauses_sub hselected hclause, hj⟩) m₁ c m' hrun
  | none =>
    exact ((runClauses_jumpsBy hev _ _).mono fun j ⟨clause, hclause, hj⟩ =>
      ⟨clause, (List.dropWhile_sublist _).subset hclause, hj⟩) m₁ c m' hrun

theorem switch_jumpsBy (steps : Nat) (labels : List String) (discriminant : Expression)
    (clauses : List SwitchClause) : (ev.executeWith steps labels (.switch discriminant clauses)).JumpsBy
      ((Statement.switch discriminant clauses).Exits labels) := by
  have hrun : (ev.switchStatement discriminant clauses).JumpsBy
      fun j => ∃ clause ∈ clauses, ∃ s ∈ clause.body, s.Exits [] j :=
    .seq fun input => .seq fun _ => .seq fun _ => .seq fun _ =>
      .withLexicalEnv (caseBlock_jumpsBy hev clauses input) _
  refine .bind hrun fun c hc => .pure fun j hj => ?_
  obtain ⟨hj, hne⟩ := Completion.jump?_absorbBreak hj
  obtain ⟨clause, hclause, s, hs, hexits⟩ := hc j hj
  exact .switch hclause hs hexits hne

theorem tryStatement_jumpsBy (labels : List String) (body : List Statement)
    (handler : Option CatchClause) (finalizer : Option (List Statement)) :
    (ev.tryStatement body handler finalizer).JumpsBy
      ((Statement.tryCatch body handler finalizer).Exits labels) := by
  have hcatch (clause : CatchClause) (value : Value) : (ev.catchClause clause value).JumpsBy
      fun j => ∃ s ∈ clause.body, s.Exits [] j := by
    have hblock := block_jumpsBy hev clause.body
    refine .completing ?_
    split
    · exact hblock
    · exact .seq fun _ => .seq fun _ => .seq fun _ => .withLexicalEnv (.seq fun _ => hblock) _
  have hguarded : (ev.guarded body handler).JumpsBy
      ((Statement.tryCatch body handler finalizer).Exits labels) := by
    refine .bind (block_jumpsBy hev body) fun c hc => ?_
    split
    · exact (hcatch _ _).mono fun j ⟨s, hs, hj⟩ => .handler hs hj
    · refine .pure fun j hj => ?_
      obtain ⟨s, hs, hj⟩ := hc j hj
      exact .tryBlock hs hj
  refine .bind hguarded fun c hc => ?_
  cases finalizer with
  | none => exact .pure fun j hj => hc j (by simpa using hj)
  | some last =>
    refine .bind (block_jumpsBy hev last) fun d hd => ?_
    split
    · exact .bind (.pure hc) fun d hd => .pure fun j hj => hd j (by simpa using hj)
    · refine .pure fun j hj => ?_
      obtain ⟨s, hs, hj⟩ := hd j (by simpa using hj)
      exact .finalizer hs hj

/-- What a loop lets out of its body before it looks for a `break`: one without a label, or a jump
that does not stay in the loop. -/
def LoopExits (body : Statement) (labels : List String) (j : Jump) : Prop :=
  j = .broke none ∨ body.Exits [] j ∧ ¬ j.StaysInLoop labels

omit hev in
/-- A loop that ends with the completion of its body lets out what is no `continue` to it. -/
theorem leaveLoop_jumpsBy {body : Statement} {labels : List String} {c : Completion} {last : Value}
    (hc : ∀ j, c.jump? = some j → body.Exits [] j) (hleaves : (!c.loopContinues labels) = true) :
    Eval.JumpsBy (LoopExits body labels) (pure (c.updateEmpty (some last)) : Eval Completion) := by
  refine .pure fun j hj => ?_
  rw [Completion.jump?_updateEmpty] at hj
  by_cases hstays : j.StaysInLoop labels
  · exact .inl (Completion.stays_of_loopContinues (by simpa using hleaves) hj hstays)
  · exact .inr ⟨hc j hj, hstays⟩

omit hev in
/-- A loop consumes a `break` without a label, also one of its own making. -/
theorem absorbBreak_jumpsBy {x : Eval Completion} {body : Statement} {labels : List String}
    (hx : x.JumpsBy (LoopExits body labels)) :
    Eval.JumpsBy (fun j => body.Exits [] j ∧ ¬ j.StaysInLoop labels) (do return (← x).absorbBreak) := by
  refine .bind hx fun c hc => .pure fun j hj => ?_
  obtain ⟨hj, hne⟩ := Completion.jump?_absorbBreak hj
  exact (hc j hj).resolve_left hne

theorem whileLoop_jumpsBy (test : Expression) (body : Statement) (labels : List String)
    (steps : Nat) (last : Value) :
    (ev.whileLoop test body labels steps last).JumpsBy (LoopExits body labels) := by
  induction steps generalizing last with
  | zero => exact .throw _
  | succ steps ih =>
    refine .seq fun holds => ?_
    split
    · exact .pure fun j hj => by cases hj
    refine .bind (statement_jumpsBy hev body) fun c hc => ?_
    split
    · exact leaveLoop_jumpsBy hc ‹_›
    · exact ih _

theorem doWhileLoop_jumpsBy (body : Statement) (test : Expression) (labels : List String)
    (steps : Nat) (last : Value) :
    (ev.doWhileLoop body test labels steps last).JumpsBy (LoopExits body labels) := by
  induction steps generalizing last with
  | zero => exact .throw _
  | succ steps ih =>
    refine .bind (statement_jumpsBy hev body) fun c hc => ?_
    split
    · exact leaveLoop_jumpsBy hc ‹_›
    refine .seq fun holds => ?_
    split
    · exact .pure fun j hj => by cases hj
    · exact ih _

theorem forIterations_jumpsBy (test update : Option Expression) (body : Statement)
    (names labels : List String) (steps : Nat) (last : Value) :
    (ev.forIterations test update body names labels steps last).JumpsBy (LoopExits body labels) := by
  induction steps generalizing last with
  | zero => exact .throw _
  | succ steps ih =>
    refine .seq fun holds => ?_
    split
    · exact .pure fun j hj => by cases hj
    refine .bind (statement_jumpsBy hev body) fun c hc => ?_
    split
    · exact leaveLoop_jumpsBy hc ‹_›
    refine .seq fun _ => ?_
    split
    · exact .seq fun _ => ih _
    · exact ih _

theorem forLoop_jumpsBy (steps : Nat) (init : Option ForInit) (test update : Option Expression)
    (body : Statement) (labels : List String) :
    (ev.forLoop steps init test update body labels).JumpsBy (LoopExits body labels) := by
  have hbody (names : List String) :
      (ev.forBody steps test update body names labels).JumpsBy (LoopExits body labels) :=
    .seq fun _ => forIterations_jumpsBy hev test update body names labels steps _
  unfold forLoop
  split
  · exact .seq fun _ => .seq fun _ => .seq fun _ => .withLexicalEnv (.seq fun _ => hbody _) _
  · exact .seq fun _ => hbody _
  · exact .seq fun _ => hbody _
  · exact hbody _

theorem forIn_jumpsBy (steps : Nat) (target : ForTarget) (source : Expression) (body : Statement)
    (labels : List String) :
    (ev.forIn steps target source body labels).JumpsBy (LoopExits body labels) := by
  have hiterations (outer : EnvId) (steps : Nat) (it : KeyIterator) (last : Value) :
      (ev.forInIterations target body labels outer steps it last).JumpsBy (LoopExits body labels) := by
    induction steps generalizing it last with
    | zero => exact .throw _
    | succ steps ih =>
      refine .seq fun next => ?_
      split
      · exact .pure fun j hj => by cases hj
      · refine .bind (.withLexicalEnv (.seq fun _ => statement_jumpsBy hev body) outer) fun c hc => ?_
        split
        · exact leaveLoop_jumpsBy hc ‹_›
        · exact ih _ _
  refine .seq fun outer => .seq fun value => ?_
  split
  · exact .pure fun j hj => .inl (by cases hj; rfl)
  · exact .seq fun o => hiterations outer steps _ _

/-- A statement other than a labelled one, with the labels it took. -/
theorem executeWith_jumpsBy (steps : Nat) (labels : List String) {s : Statement}
    (hs : ∀ label body, s ≠ .labelled label body) :
    (ev.executeWith steps labels s).JumpsBy (s.Exits labels) := by
  cases s with
  | empty => exact .pure fun j hj => by cases hj
  | debugger => exact .pure fun j hj => by cases hj
  | function code => exact .pure fun j hj => by cases hj
  | expression e => exact .seq fun _ => .pure fun j hj => by cases hj
  | block body => exact (block_jumpsBy hev body).mono fun j ⟨s, hs, hj⟩ => .block hs hj
  | declare kind declarators => exact .seq fun _ => .pure fun j hj => by cases hj
  | conditional test consequent alternate => exact ifStatement_jumpsBy hev labels _ _ _
  | whileLoop test body =>
    exact (absorbBreak_jumpsBy (whileLoop_jumpsBy hev test body labels steps _)).mono
      fun j hj => .whileLoop hj.1 hj.2
  | doWhileLoop body test =>
    exact (absorbBreak_jumpsBy (doWhileLoop_jumpsBy hev body test labels steps _)).mono
      fun j hj => .doWhileLoop hj.1 hj.2
  | forLoop init test update body =>
    exact (absorbBreak_jumpsBy (forLoop_jumpsBy hev steps init test update body labels)).mono
      fun j hj => .forLoop hj.1 hj.2
  | forIn target source body =>
    exact (absorbBreak_jumpsBy (forIn_jumpsBy hev steps target source body labels)).mono
      fun j hj => .forIn hj.1 hj.2
  | forOf target source body => exact .throw _
  | returns value =>
    cases value with
    | none => exact .pure fun j hj => by cases hj; exact .returns
    | some e => exact .seq fun _ => .pure fun j hj => by cases hj; exact .returns
  | breaks label => exact .pure fun j hj => by cases hj; exact .breaks
  | continues label => exact .pure fun j hj => by cases hj; exact .continues
  | throws e => exact .seq fun _ => .pure fun j hj => by cases hj
  | tryCatch body handler finalizer => exact tryStatement_jumpsBy hev labels _ _ _
  | switch discriminant clauses => exact switch_jumpsBy hev steps labels _ _
  | labelled label body => exact absurd rfl (hs label body)
  | withObject object body =>
    refine .seq fun _ => .seq fun _ => .seq fun _ => .seq fun env => ?_
    exact .bind (.withLexicalEnv (statement_jumpsBy hev body) env) fun c hc =>
      .pure fun j hj => .withObject (hc j (by simpa using hj))

omit hev in
theorem takeLabels_eq {s : Statement} (hs : ∀ label body, s ≠ .labelled label body) {m m' : Machine}
    {labels : List String} (h : takeLabels s m = .ok labels m') : labels = m.labels := by
  unfold takeLabels at h
  split at h
  · exact absurd rfl (hs _ _)
  obtain ⟨c, m₁, hc, h⟩ := bind_eq_ok h
  obtain ⟨-, m₂, -, h⟩ := bind_eq_ok h
  cases h
  cases hm : m.contexts with
  | nil =>
    rw [lift_error (e := .fault .noRunningContext) (by simp [runningContext, hm])] at hc
    cases hc
  | cons c₀ cs =>
    rw [lift_ok (a := c₀) (by simp [runningContext, hm])] at hc
    cases hc
    simp [Machine.labels, hm]

/-- The label is one of those directly before the body, and a `break` to it goes no further. -/
theorem labelledStatement_exits (label : String) (body : Statement) {m m' : Machine} {c : Completion}
    (hrun : ev.labelledStatement label body m = .ok c m') {j : Jump} (hj : c.jump? = some j) :
    (Statement.labelled label body).Exits m.labels j := by
  obtain ⟨_, m₁, hadd, hrun⟩ := bind_eq_ok hrun
  obtain ⟨d, m₂, hbody, hrun⟩ := bind_eq_ok hrun
  have hlabels : m₁.labels = m.labels ++ [label] := by
    cases hm : m.contexts with
    | nil =>
      rw [modifyContext_nil hm] at hadd
      cases hadd
    | cons c₀ cs =>
      rw [modifyContext_cons hm] at hadd
      cases hadd
      simp [Machine.labels, hm]
  have hexits := hev body m₁ d m₂ hbody
  rw [hlabels] at hexits
  split at hrun
  · split at hrun
    · cases hrun
      cases hj
    · rename_i target value hne
      cases hrun
      cases hj
      refine .labelled (hexits _ rfl) fun hsame => hne ?_
      cases hsame
      exact beq_self_eq_true label
  · rename_i hother
    cases hrun
    refine .labelled (hexits j hj) ?_
    rintro rfl
    cases c <;> cases hj
    exact hother _ _ rfl

theorem execute_exits (steps : Nat) (s : Statement) {m m' : Machine} {c : Completion}
    (hrun : ev.execute steps s m = .ok c m') {j : Jump} (hj : c.jump? = some j) :
    s.Exits m.labels j := by
  obtain ⟨labels, m₁, htake, hrun⟩ := bind_eq_ok (completing_jumps hrun hj)
  by_cases hs : ∃ label body, s = .labelled label body
  · obtain ⟨label, body, rfl⟩ := hs
    cases htake
    exact labelledStatement_exits hev label body hrun hj
  · have hs : ∀ label body, s ≠ .labelled label body := fun label body h => hs ⟨label, body, h⟩
    rw [← takeLabels_eq hs htake]
    exact executeWith_jumpsBy hev steps labels hs m₁ c m' hrun j hj

/-- A function body completes only with a `return` or with a jump that is not bound in it. -/
theorem runFunction_jumpsBy (f : ObjectId) (slots : FunctionSlots) (thisValue : Value)
    (arguments : List Value) (newTarget : Value) :
    (ev.runFunction f slots thisValue arguments newTarget).JumpsBy
      fun j => j = .returned ∨ ∃ s ∈ slots.code.statements, s.Exits [] j := by
  refine .seq fun env => .withContext (.seq fun _ => .completing (.seq fun _ => ?_)) _
  cases hbody : slots.code.body with
  | block body =>
    have hstatements : slots.code.statements = body := by simp [FunctionCode.statements, hbody]
    rw [hstatements]
    exact (statements_jumpsBy hev body none).mono fun j hj => .inr hj
  | concise e => exact .seq fun _ => .pure fun j hj => .inl (by cases hj; rfl)

end Evaluator

/-- **Jumps of statements.** A statement jumps out only by a jump that it contains and does not
consume. -/
theorem Evaluator.level_jumpsSoundly (n : Nat) : (Evaluator.level n).JumpsSoundly := by
  induction n with
  | zero => exact fun s m c m' hrun => nomatch hrun
  | succ n ih => exact fun s m c m' hrun j hj => execute_exits ih n s hrun hj

end EcmaEval
