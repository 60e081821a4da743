import EcmaEval.Proofs.Halt.Expression

/-!
# Statements and scripts converge

The evaluation of a statement without loops converges if that of its parts does. For a for-in loop this
holds of each number of iterations that it is given.
-/
namespace EcmaEval

namespace Evaluator

variable {lim : Evaluator} {limit depth : Nat}

theorem withBlockScope_converges {declarations : List LexicalDeclaration}
    (h : ∀ code, .function code ∈ declarations → code.LoopFree) {x : Evaluator → Eval Completion}
    (hx : lim.Converges limit depth x) :
    lim.Converges limit depth fun ev => withBlockScope declarations (x ev) := by
  refine .query fun outer => .bind (.const (by grind)) fun env => ?_
  exact .bind (.const (by grind)) fun _ => .withLexicalEnv env hx

/-- The statements of the list have no loops and converge. -/
structure ManagesBody (lim : Evaluator) (limit depth : Nat) (body : List Statement) : Prop where
  loopFree : ∀ s ∈ body, s.LoopFree
  converges : ∀ s ∈ body, lim.Converges limit depth (·.statement s)

theorem ManagesBody.block {body : List Statement} (h : lim.ManagesBody limit depth body) :
    lim.Converges limit depth (·.block body) := by
  refine .completing (.ite (.pure _) (withBlockScope_converges (fun code hcode => ?_) ?_))
  · exact Body.lexicallyScoped_loopFree h.loopFree hcode
  · exact statements_converges h.converges none

theorem storeDeclared_quiet (kind : DeclarationKind) (target v : Value) :
    Eval.Quiet (match kind with
      | .var => target.putValue v
      | .lexical _ => target.initReferenced v) := by
  cases kind with
  | var => grind
  | lexical constant => grind

theorem bindDeclared_converges {pattern : Pattern} (hp : lim.Binds limit depth pattern)
    (kind : DeclarationKind) (v : Value) :
    lim.Converges limit depth (fun ev => do
      let env ← match kind with
        | .var => pure none
        | .lexical _ => do pure (some (← lexicalEnv))
      ev.bindPattern env pattern v) := by
  cases kind with
  | var => exact .bind (.pure _) fun env => hp env v
  | lexical constant => exact .query fun env => .bind (.pure _) fun env => hp env v

theorem declarator_converges {d : Declarator} (hp : lim.Binds limit depth d.pattern)
    (hi : ∀ e, d.init = some e → lim.Manages limit depth e) (kind : DeclarationKind) :
    lim.Converges limit depth (·.declarator kind d) := by
  have hstore := storeDeclared_quiet kind
  obtain ⟨pattern, init⟩ := d
  cases init with
  | none =>
    cases pattern with
    | identifier name =>
      cases kind with
      | var => exact .pure _
      | lexical constant => exact .query fun target => .bind (.pure _) fun v => .quiet (hstore target v)
    | _ => exact .quiet (.breach _)
  | some e =>
    have he := hi e rfl
    have hbind := bindDeclared_converges hp kind
    cases pattern with
    | identifier name =>
      exact .query fun target => .bind (he.valueNamed _) fun v => .quiet (hstore target v)
    | _ => exact .bind he.value hbind

theorem ifStatement_converges {test : Expression} {consequent : Statement} {alternate : Option Statement}
    (ht : lim.Converges limit depth (·.expression test))
    (hc : lim.Converges limit depth (·.statement consequent))
    (ha : ∀ s, alternate = some s → lim.Converges limit depth (·.statement s)) :
    lim.Converges limit depth (·.ifStatement test consequent alternate) := by
  refine .bind (value_converges ht) fun v => .ite (.map hc) ?_
  cases alternate with
  | none => exact .pure _
  | some s => exact .map (ha s rfl)

/-- The parts of the clause converge. -/
structure ManagesClause (lim : Evaluator) (limit depth : Nat) (clause : SwitchClause) : Prop where
  test : ∀ e, clause.test = some e → lim.Converges limit depth (·.expression e)
  body : lim.ManagesBody limit depth clause.body

section Switch

variable {clauses : List SwitchClause} (h : ∀ clause ∈ clauses, lim.ManagesClause limit depth clause)

include h

theorem matchingClauses_converges (input : Value) :
    lim.Converges limit depth (·.matchingClauses input clauses) := by
  induction clauses with
  | nil => exact .pure _
  | cons clause rest ih =>
    have hrest := ih fun clause' hclause' => h clause' (List.mem_cons_of_mem clause hclause')
    have hclause := h clause List.mem_cons_self
    unfold matchingClauses
    cases htest : clause.test with
    | none => exact hrest
    | some test =>
      exact .bind (value_converges (hclause.test test htest)) fun v => .ite (.pure _) hrest

theorem runClauses_converges (last : Value) : lim.Converges limit depth (·.runClauses clauses last) := by
  induction clauses generalizing last with
  | nil => exact .pure _
  | cons clause rest ih =>
    have hrest := ih fun clause' hclause' => h clause' (List.mem_cons_of_mem clause hclause')
    have hclause := h clause List.mem_cons_self
    exact .bind (statements_converges hclause.body.converges none) fun c => .ite (.pure _) (hrest _)

omit h in
/-- The clauses that a match selects are among all. -/
theorem mem_of_matchingClauses {ev : Evaluator} {input : Value} {selected : List SwitchClause}
    {m m' : Machine} (hrun : ev.matchingClauses input clauses m = .ok (some selected) m') :
    ∀ clause ∈ selected, clause ∈ clauses := by
  induction clauses generalizing m with
  | nil => cases hrun
  | cons clause rest ih =>
    unfold matchingClauses at hrun
    cases htest : clause.test with
    | none =>
      rw [htest] at hrun
      exact fun c hc => List.mem_cons_of_mem clause (ih hrun c hc)
    | some test =>
      rw [htest] at hrun
      obtain ⟨v, m₁, -, hrest⟩ := bind_eq_ok hrun
      split at hrest
      · cases hrest
        exact fun c hc => hc
      · exact fun c hc => List.mem_cons_of_mem clause (ih hrest c hc)

theorem caseBlock_converges (input : Value) : lim.Converges limit depth (·.caseBlock clauses input) := by
  refine .bind_of (matchingClauses_converges h input) fun selected m m' _ hrun => ?_
  cases selected with
  | none => exact runClauses_converges (fun clause hclause => h clause ((List.dropWhile_sublist _).mem hclause)) _
  | some selected =>
    exact runClauses_converges (fun clause hclause => h clause (mem_of_matchingClauses hrun clause hclause)) _

theorem switchStatement_converges {discriminant : Expression}
    (hd : lim.Converges limit depth (·.expression discriminant)) :
    lim.Converges limit depth (·.switchStatement discriminant clauses) := by
  refine .bind (value_converges hd) fun input => withBlockScope_converges (fun code hcode => ?_) ?_
  · obtain ⟨clause, hclause, hmem⟩ := List.mem_flatMap.mp hcode
    exact Body.lexicallyScoped_loopFree (h clause hclause).body.loopFree hmem
  · exact caseBlock_converges h input

end Switch

/-- The parts of the handler converge. -/
structure ManagesHandler (lim : Evaluator) (limit depth : Nat) (handler : CatchClause) : Prop where
  parameter : ∀ p, handler.parameter = some p → lim.Binds limit depth p
  body : lim.ManagesBody limit depth handler.body

theorem catchClause_converges {handler : CatchClause} (h : lim.ManagesHandler limit depth handler)
    (value : Value) : lim.Converges limit depth (·.catchClause handler value) := by
  obtain ⟨parameter, body⟩ := handler
  refine .completing ?_
  cases parameter with
  | none => exact h.body.block
  | some p =>
    refine .query fun outer => .bind (.const (by grind)) fun env => ?_
    refine .bind (.const (.forM fun name _ => by grind)) fun _ => ?_
    exact .withLexicalEnv env (.bind (h.parameter p rfl (some env) value) fun _ => h.body.block)

theorem tryStatement_converges {body : List Statement} {handler : Option CatchClause}
    {finalizer : Option (List Statement)} (hb : lim.ManagesBody limit depth body)
    (hh : ∀ clause, handler = some clause → lim.ManagesHandler limit depth clause)
    (hf : ∀ last, finalizer = some last → lim.ManagesBody limit depth last) :
    lim.Converges limit depth (·.tryStatement body handler finalizer) := by
  have hguarded : lim.Converges limit depth (·.guarded body handler) := by
    refine .bind hb.block fun c => ?_
    cases handler with
    | none => cases c <;> exact .pure _
    | some clause =>
      cases c with
      | thrown v => exact catchClause_converges (hh clause rfl) v
      | _ => exact .pure _
  refine .bind hguarded fun c => ?_
  cases finalizer with
  | none => exact .bind (.pure _) fun _ => .pure _
  | some last =>
    refine .bind (hf last rfl).block fun c' => ?_
    cases c' <;> exact .bind (.pure _) fun _ => .pure _

theorem withStatement_converges {object : Expression} {body : Statement}
    (ho : lim.Converges limit depth (·.expression object))
    (hb : lim.Converges limit depth (·.statement body)) :
    lim.Converges limit depth (·.withStatement object body) := by
  refine .bind (value_converges ho) fun v => .bind (.quiet (by grind)) fun o => .query fun outer => ?_
  refine .bind (.const (by grind)) fun env => ?_
  exact .map (.withLexicalEnv env hb)

theorem labelledStatement_converges {body : Statement}
    (hb : lim.Converges limit depth (·.statement body)) (label : String) :
    lim.Converges limit depth (·.labelledStatement label body) := by
  refine .bind (.const (by grind)) fun _ => .bind hb fun c => .quiet ?_
  split
  · split <;> exact .pure _
  · exact .pure _

/-- Binding a key in the head of a loop converges. -/
def BindsTarget (lim : Evaluator) (limit depth : Nat) (target : ForTarget) : Prop :=
  ∀ outer v, lim.Converges limit depth (·.bindForTarget outer target v)

theorem declare_bindsTarget {p : Pattern} (h : lim.Binds limit depth p) (kind : DeclarationKind) :
    lim.BindsTarget limit depth (.declare kind p) := by
  intro outer v
  cases kind with
  | var => exact h none v
  | lexical constant =>
    refine .bind (.const (by grind)) fun env => ?_
    refine .bind (.const (.forM fun name _ => by grind)) fun _ => ?_
    exact .bind (.const (by grind)) fun _ => h (some env) v

theorem pattern_bindsTarget (p : Pattern) : lim.BindsTarget limit depth (.pattern p) := by
  intro outer v
  cases p with
  | identifier name => exact .query fun target => .quiet (by grind)
  | _ => exact .quiet (.unsupported _)

theorem forInSource_converges {source : Expression} (h : lim.Converges limit depth (·.expression source))
    (target : ForTarget) : lim.Converges limit depth (·.forInSource target source) := by
  refine .query fun outer => .ite (.withLexicalEnv outer (value_converges h)) ?_
  refine .bind (.const (by grind)) fun env => ?_
  refine .bind (.const (.forM fun name _ => by grind)) fun _ => ?_
  exact .withLexicalEnv env (value_converges h)

section ForIn

variable {target : ForTarget} {source : Expression} {body : Statement}
  (ht : lim.BindsTarget limit depth target) (hb : lim.Converges limit depth (·.statement body))

include ht hb

/-- One iteration, without what comes after it. -/
theorem forInIteration_converges (outer : EnvId) (key : Text) :
    lim.Converges limit depth (fun ev => withLexicalEnv outer do
      ev.bindForTarget outer target (.string key)
      ev.statement body) :=
  .withLexicalEnv outer (.bind (ht outer _) fun _ => hb)

theorem forInIterations_converges (labels : List String) (outer : EnvId) (steps : Nat)
    (it : KeyIterator) (last : Value) :
    lim.Converges limit depth (·.forInIterations target body labels outer steps it last) := by
  induction steps generalizing it last with
  | zero => exact .quiet (.throw _)
  | succ steps ih =>
    refine .query fun next => ?_
    cases next with
    | none => exact .pure _
    | some next =>
      refine .bind (forInIteration_converges ht hb outer next.1) fun c => ?_
      exact .ite (.pure _) (ih next.2 _)

theorem forIn_converges (hs : lim.Converges limit depth (·.expression source)) (steps : Nat)
    (labels : List String) :
    lim.Converges limit depth (·.forIn steps target source body labels) := by
  refine .query fun outer => .bind (forInSource_converges hs target) fun v => .ite (.pure _) ?_
  exact .bind (.quiet (by grind)) fun o => forInIterations_converges ht hb labels outer steps _ _

end ForIn

theorem execute_converges {steps : Nat} {s : Statement}
    (h : ∀ labels, lim.Converges limit depth (·.executeWith steps labels s)) :
    lim.Converges limit depth (·.execute steps s) :=
  .completing (.bind (.const (by grind)) h)

theorem script_converges {body : List Statement} (hbody : ∀ s ∈ body, s.LoopFree)
    (hdeep : depth < limit → lim.ManagesAll limit (depth + 1)) :
    lim.Converges limit depth (·.script body) := by
  have hfunctions (code) (hcode : code ∈ Body.functions body) : code.LoopFree :=
    Body.functions_loopFree hbody hcode
  have hglobal (env : EnvId) : (instantiateGlobal body env).Calm :=
    .of_stays (instantiateGlobal_stays (holds_of_isFree env) trivial hfunctions)
  refine .query fun realm => .query fun r => .bind (.completing (.query fun context => ?_)) fun c => ?_
  · refine .withContext context fun hroom => .bind (.const (hglobal _)) fun _ => ?_
    exact statements_converges (fun s hs => (hdeep hroom).statement s (hbody s hs)) none
  · refine .quiet ?_
    split <;> exact .pure _

end Evaluator

end EcmaEval
