import EcmaEval.Proofs.Remit.Expression

/-!
# Statements and scripts within a remit

One step of statement evaluation and the running of scripts. With the steps of expressions this covers
the evaluators of every level: an evaluation stays in every open remit that the machine is closed in.
-/
namespace EcmaEval

variable {R : Remit}

namespace Evaluator

variable {ev : Evaluator} (hev : ev.StaysIn R)

include hev

@[grind ←] theorem block_stays (body : List Statement) : (ev.block body).StaysIn R R.Holds := by
  unfold block
  grind

theorem declarator_stays (kind : DeclarationKind) (d : Declarator) :
    (ev.declarator kind d).StaysIn R R.Holds := by
  unfold declarator
  split
  · exact .pure (holds_empty _)
  · refine .bind (.lift (resolveBinding_stays _ (holds_none.mpr trivial))) fun target ht => ?_
    split <;> grind
  · refine .bind (value_stays hev _) fun value hv => ?_
    have hpattern (env : Option EnvId) (henv : R.Holds env) := bindPattern_stays hev henv d.pattern hv
    split <;> grind
  · exact .breach rfl

@[grind ←] theorem declare_stays (kind : DeclarationKind) (declarators : List Declarator) :
    (ev.declare kind declarators).StaysIn R R.Holds :=
  .forM fun d _ => declarator_stays hev kind d

theorem ifStatement_stays (test : Expression) (consequent : Statement) (alternate : Option Statement) :
    (ev.ifStatement test consequent alternate).StaysIn R R.Holds := by
  have hstatement := hev.statement
  unfold ifStatement
  grind

@[grind ←] theorem matchingClauses_stays (input : Value) (clauses : List SwitchClause) :
    (ev.matchingClauses input clauses).StaysIn R R.Holds := by
  induction clauses with
  | nil => exact .pure (holds_empty _)
  | cons clause rest ih =>
    unfold matchingClauses
    grind

@[grind ←] theorem runClauses_stays (clauses : List SwitchClause) {last : Value}
    (hlast : R.Holds last) : (ev.runClauses clauses last).StaysIn R R.Holds := by
  induction clauses generalizing last with
  | nil => exact .pure ((holds_some last).mpr hlast)
  | cons clause rest ih =>
    unfold runClauses
    grind

theorem switchStatement_stays (discriminant : Expression) (clauses : List SwitchClause) :
    (ev.switchStatement discriminant clauses).StaysIn R R.Holds := by
  have hcases (input : Value) : (ev.caseBlock clauses input).StaysIn R R.Holds := by
    unfold caseBlock
    grind
  unfold switchStatement
  grind

theorem catchClause_stays (handler : CatchClause) {value : Value} (hv : R.Holds value) :
    (ev.catchClause handler value).StaysIn R R.Holds := by
  refine .completing ?_
  split
  · exact block_stays hev _
  · refine .bind (.lift lexicalEnv_stays) fun outer houter => ?_
    refine .bind (newDeclarativeEnvironment_stays hev.scopes ((holds_some outer).mpr houter)) fun env henv => ?_
    refine .bind (.forM fun _ _ => EnvId.createMutable_stays henv hev.scopes _ _) fun _ _ =>
      withLexicalEnv_stays hev.moves henv ?_
    exact .bind (bindPattern_stays hev ((holds_some env).mpr henv) _ hv) fun _ _ => block_stays hev _

theorem tryStatement_stays (body : List Statement) (handler : Option CatchClause)
    (finalizer : Option (List Statement)) :
    (ev.tryStatement body handler finalizer).StaysIn R R.Holds := by
  have hguarded : (ev.guarded body handler).StaysIn R R.Holds := by
    have hcatch (handler : CatchClause) (value : Value) (hv : R.Holds value) :=
      catchClause_stays hev handler hv
    unfold guarded
    grind
  unfold tryStatement
  refine .bind hguarded fun completion hc => ?_
  cases finalizer with
  | none => grind
  | some last =>
    refine .bind (block_stays hev last) fun ending he => ?_
    cases ending <;> grind

theorem withStatement_stays (object : Expression) (body : Statement) :
    (ev.withStatement object body).StaysIn R R.Holds := by
  refine .bind (value_stays hev object) fun value hv => .bind (Value.toObject_stays hv) fun o ho => ?_
  refine .bind (.lift lexicalEnv_stays) fun outer houter => ?_
  refine .bind (newObjectEnvironment_stays hev.scopes ho true ((holds_some outer).mpr houter)) fun env henv => ?_
  refine .bind (withLexicalEnv_stays hev.moves henv (hev.statement body)) fun result hr => ?_
  exact .pure (Completion.updateEmpty_holds hr ((holds_some _).mpr (holds_primitive rfl)))

theorem labelledStatement_stays (label : String) (body : Statement) :
    (ev.labelledStatement label body).StaysIn R R.Holds := by
  have hstatement := hev.statement
  unfold labelledStatement
  grind

variable {last : Value} (hlast : R.Holds last)

include hlast

theorem whileLoop_stays (test : Expression) (body : Statement) (labels : List String) (steps : Nat) :
    (ev.whileLoop test body labels steps last).StaysIn R R.Holds := by
  induction steps generalizing last with
  | zero => exact .exhausted
  | succ steps ih =>
    refine .bind (value_stays hev test) fun holds _ => ?_
    split
    · exact .pure ((holds_some last).mpr hlast)
    refine .bind (hev.statement body) fun result hr => ?_
    split
    · exact .pure (Completion.updateEmpty_holds hr ((holds_some last).mpr hlast))
    · exact ih (getD_holds hr hlast)

theorem doWhileLoop_stays (body : Statement) (test : Expression) (labels : List String) (steps : Nat) :
    (ev.doWhileLoop body test labels steps last).StaysIn R R.Holds := by
  induction steps generalizing last with
  | zero => exact .exhausted
  | succ steps ih =>
    refine .bind (hev.statement body) fun result hr => ?_
    have hnext : R.Holds (result.value?.getD last) := getD_holds hr hlast
    split
    · exact .pure (Completion.updateEmpty_holds hr ((holds_some last).mpr hlast))
    refine .bind (value_stays hev test) fun holds _ => ?_
    split
    · exact .pure ((holds_some _).mpr hnext)
    · exact ih hnext

theorem forIterations_stays (test update : Option Expression) (body : Statement)
    (names labels : List String) (steps : Nat) :
    (ev.forIterations test update body names labels steps last).StaysIn R R.Holds := by
  have hholds : (ev.holds test).StaysIn R R.Holds := by
    unfold holds
    grind
  induction steps generalizing last with
  | zero => exact .exhausted
  | succ steps ih =>
    refine .bind hholds fun holds _ => ?_
    split
    · exact .pure ((holds_some last).mpr hlast)
    refine .bind (hev.statement body) fun result hr => ?_
    split
    · exact .pure (Completion.updateEmpty_holds hr ((holds_some last).mpr hlast))
    refine .bind (copyIterationEnv_stays hev.scopes hev.moves names) fun _ _ => ?_
    cases update with
    | none => exact ih (getD_holds hr hlast)
    | some e => exact .bind (.discard (value_stays hev e)) fun _ _ => ih (getD_holds hr hlast)

theorem forInIterations_stays (target : ForTarget) (body : Statement) (labels : List String)
    {outer : EnvId} (houter : R.Holds outer) (steps : Nat) {it : KeyIterator} (hit : R.Holds it) :
    (ev.forInIterations target body labels outer steps it last).StaysIn R R.Holds := by
  have htarget (key : Text) : (ev.bindForTarget outer target (.string key)).StaysIn R R.Holds := by
    have hkey : R.Holds (Value.string key) := holds_primitive rfl
    have hnames (env : EnvId) (henv : R.Holds env) (constant : Bool) (names : List String) :
        Eval.StaysIn R (names.forM (env.createLexical constant)) R.Holds :=
      .forM fun _ _ => EnvId.createLexical_stays henv hev.scopes _ _
    have hpattern (env : Option EnvId) (henv : R.Holds env) (p : Pattern) :
        (ev.bindPattern env p (.string key)).StaysIn R R.Holds := bindPattern_stays hev henv p hkey
    unfold bindForTarget
    grind
  induction steps generalizing it last with
  | zero => exact .exhausted
  | succ steps ih =>
    refine .bind (.lift (KeyIterator.next_stays hit)) fun next hnext => ?_
    cases next with
    | none => exact .pure ((holds_some last).mpr hlast)
    | some next =>
      have hround := Eval.StaysIn.bind (htarget next.1) fun _ _ => hev.statement body
      refine .bind (withLexicalEnv_stays hev.moves houter hround) fun result hr => ?_
      split
      · exact .pure (Completion.updateEmpty_holds hr ((holds_some last).mpr hlast))
      · exact ih (getD_holds hr hlast) ((holds_pair next).mp ((holds_some next).mp hnext)).2

omit hlast

theorem forLoop_stays (steps : Nat) (init : Option ForInit) (test update : Option Expression)
    (body : Statement) (labels : List String) :
    (ev.forLoop steps init test update body labels).StaysIn R R.Holds := by
  have hbody (names : List String) :
      (ev.forBody steps test update body names labels).StaysIn R R.Holds :=
    .bind (copyIterationEnv_stays hev.scopes hev.moves _) fun _ _ =>
      forIterations_stays hev (holds_primitive rfl) _ _ _ _ _ _
  have hlexical (constant : Bool) (declarators : List Declarator) :
      (ev.forLexical steps constant declarators test update body labels).StaysIn R R.Holds := by
    have hnames (env : EnvId) (henv : R.Holds env) (names : List String) :
        Eval.StaysIn R (names.forM (env.createLexical constant)) R.Holds :=
      .forM fun _ _ => EnvId.createLexical_stays henv hev.scopes _ _
    unfold forLexical
    grind
  unfold forLoop
  grind

theorem forIn_stays (steps : Nat) (target : ForTarget) (source : Expression) (body : Statement)
    (labels : List String) : (ev.forIn steps target source body labels).StaysIn R R.Holds := by
  have hsource : (ev.forInSource target source).StaysIn R R.Holds := by
    refine .bind (.lift lexicalEnv_stays) fun outer houter => ?_
    dsimp only
    split
    · exact withLexicalEnv_stays hev.moves houter (value_stays hev source)
    · refine .bind (newDeclarativeEnvironment_stays hev.scopes ((holds_some outer).mpr houter)) fun env henv => ?_
      refine .bind (.forM fun _ _ => EnvId.createMutable_stays henv hev.scopes _ _) fun _ _ => ?_
      exact withLexicalEnv_stays hev.moves henv (value_stays hev source)
  refine .bind (.lift lexicalEnv_stays) fun outer houter => .bind hsource fun value hv => ?_
  split
  · exact .pure ((Completion.holds_broke _ _).mpr (holds_none.mpr trivial))
  · refine .bind (Value.toObject_stays hv) fun o ho => ?_
    exact forInIterations_stays hev (holds_primitive rfl) target body labels houter steps ho

theorem executeWith_stays (steps : Nat) (labels : List String) (s : Statement) :
    (ev.executeWith steps labels s).StaysIn R R.Holds := by
  have hundefined : R.Holds Value.undefined := holds_primitive rfl
  cases s with
  | conditional test consequent alternate => exact ifStatement_stays hev _ _ _
  | whileLoop test body =>
    exact .bind (whileLoop_stays hev hundefined _ _ _ _) fun _ hc => .pure (Completion.absorbBreak_holds hc)
  | doWhileLoop body test =>
    exact .bind (doWhileLoop_stays hev hundefined _ _ _ _) fun _ hc => .pure (Completion.absorbBreak_holds hc)
  | forLoop init test update body =>
    exact .bind (forLoop_stays hev _ _ _ _ _ _) fun _ hc => .pure (Completion.absorbBreak_holds hc)
  | forIn target source body =>
    exact .bind (forIn_stays hev _ _ _ _ _) fun _ hc => .pure (Completion.absorbBreak_holds hc)
  | tryCatch body handler finalizer => exact tryStatement_stays hev _ _ _
  | switch discriminant clauses =>
    exact .bind (switchStatement_stays hev _ _) fun _ hc => .pure (Completion.absorbBreak_holds hc)
  | labelled label body => exact labelledStatement_stays hev _ _
  | withObject object body => exact withStatement_stays hev _ _
  | returns value =>
    unfold executeWith
    cases value <;> grind
  | _ =>
    unfold executeWith
    grind

theorem script_stays (body : List Statement) : (ev.script body).StaysIn R R.Holds := by
  refine .bind (.lift currentRealm_stays) fun realm _ => .bind (.lift realm.load_stays) fun r hr => ?_
  refine .bind (.completing (.bind (.lift (scriptContext_stays _ _)) fun context hc => ?_)) fun result hres => ?_
  · have hglobal : (instantiateGlobal body r.globalEnv).StaysIn R R.Holds :=
      instantiateGlobal_stays ((holds_realm r).mp hr).2 hev.scopes fun code _ => hev.codes code
    exact withContext_stays hev.calls hc (.bind hglobal fun _ _ => statements_stays hev body (holds_none.mpr trivial))
  · split
    · exact .pure ((Completion.holds_normal _).mpr ((holds_some _).mpr (holds_primitive rfl)))
    · exact .pure hres

end Evaluator

variable (hR : R.IsOpen)

include hR

/-- At every level evaluation stays in every open remit. -/
theorem Evaluator.level_stays (n : Nat) : (Evaluator.level n).StaysIn R := by
  induction n with
  | zero => exact ⟨hR, fun _ => .exhausted, fun _ => .exhausted, level_jumpsSoundly 0⟩
  | succ n ih =>
    refine ⟨hR, fun e => evaluate_stays ih e, fun s => ?_, level_jumpsSoundly (n + 1)⟩
    exact .completing (.bind (takeLabels_stays hR.moves s) fun labels _ => executeWith_stays ih n labels s)

theorem evaluate_stays (level : Nat) (node : Node) : (evaluate level node).StaysIn R R.Holds := by
  have hev := Evaluator.level_stays hR level
  cases node with
  | script body => exact Evaluator.script_stays hev body
  | statement s => exact hev.statement s
  | expression e =>
    exact .completing (.bind (Evaluator.value_stays hev e) fun _ hv => .pure ((holds_some _).mpr hv))

end EcmaEval
