import EcmaEval.Proofs.Scope.Function

/-!
# Evaluation in scoped machines

One step of the evaluation of expressions and statements, for two evaluators that agree on the parts. A
block, a handler, a `with` statement and each round of a loop run in an environment nested in the one
before, which is put back.
-/
namespace EcmaEval

variable {gains : Growth} {final m m' m₀ : Machine}

namespace Evaluator

section Expressions

variable {ev ev' : Evaluator} (hev : ev.Agrees gains final ev')

include hev

theorem templateParts_agree (es : List Expression) (strings : List String) (text : Text) :
    Agree gains final m₀ (ev.templateParts es strings text) (ev'.templateParts es strings text) := by
  induction es generalizing m₀ strings text with
  | nil => exact .pure _
  | cons e rest ih =>
    unfold templateParts
    grind

theorem arrayElements_agree (array : ObjectId) (index : Nat) (elements : List (Option Expression)) :
    Agree gains final m₀ (ev.arrayElements array index elements) (ev'.arrayElements array index elements) := by
  induction elements generalizing m₀ index with
  | nil => exact .pure _
  | cons element rest ih =>
    unfold arrayElements
    cases element <;> grind

theorem array_agree (elements : List (Option Expression)) :
    Agree gains final m₀ (ev.array elements) (ev'.array elements) := by
  have helements (m₁ : Machine) (array : ObjectId) :
      Agree gains final m₁ (ev.arrayElements array 0 elements) (ev'.arrayElements array 0 elements) :=
    arrayElements_agree hev array 0 elements
  unfold Evaluator.array
  grind

theorem member_agree (o : ObjectId) (entry : Member) :
    Agree gains final m₀ (ev.member o entry) (ev'.member o entry) := by
  unfold member
  refine .bind (memberKey_agree hev _) fun m₁ key h₁ => ?_
  cases entry.kind with
  | value => grind
  | getter => cases entry.value <;> grind
  | setter => cases entry.value <;> grind

theorem object_agree (members : List Member) :
    Agree gains final m₀ (ev.object members) (ev'.object members) := by
  have hmembers (m₁ : Machine) (o : ObjectId) : Agree gains final m₁ (members.forM (ev.member o))
      (members.forM (ev'.member o)) := .forM fun entry _ _ _ => member_agree hev o entry
  unfold object
  grind

theorem update_agree (op : UpdateOp) (returnsNew : Bool) (target : Expression) :
    Agree gains final m₀ (ev.update op returnsNew target) (ev'.update op returnsNew target) := by
  unfold update
  grind

@[grind ←] theorem assignedValue_agree (target value : Expression) :
    Agree gains final m₀ (ev.assignedValue target value) (ev'.assignedValue target value) := by
  unfold assignedValue
  cases target <;> grind

theorem assign_agree (op : AssignOp) (target value : Expression) :
    Agree gains final m₀ (ev.assign op target value) (ev'.assign op target value) := by
  unfold Evaluator.assign
  split
  · exact .quiet (.unsupported _)
  refine .bind (hev.expression m₀ target) fun m₁ reference h₁ => ?_
  cases op <;> grind

theorem typeOf_agree (operand : Expression) :
    Agree gains final m₀ (ev.typeOf operand) (ev'.typeOf operand) := by
  refine .bind (hev.expression m₀ operand) fun m₁ v h₁ => .quiet ?_
  split <;> grind

theorem delete_agree (operand : Expression) :
    Agree gains final m₀ (ev.delete operand) (ev'.delete operand) := by
  refine .bind (hev.expression m₀ operand) fun m₁ v h₁ => .quiet ?_
  split <;> grind

theorem sequence_agree (es : List Expression) (last : Value) :
    Agree gains final m₀ (ev.sequence es last) (ev'.sequence es last) := by
  induction es generalizing m₀ last with
  | nil => exact .pure _
  | cons e rest ih =>
    unfold sequence
    grind

theorem callExpression_agree (callee : Expression) (arguments : List Expression) :
    Agree gains final m₀ (ev.callExpression callee arguments) (ev'.callExpression callee arguments) := by
  unfold callExpression
  refine .bind (hev.expression m₀ callee) fun m₁ reference h₁ => ?_
  refine .bind (.quiet (.lift _)) fun m₂ receiver h₂ => .bind (.quiet (by grind)) fun m₃ f h₃ => ?_
  refine .bind (values_agree hev arguments) fun m₄ values h₄ => ?_
  grind

theorem newExpression_agree (callee : Expression) (arguments : List Expression) :
    Agree gains final m₀ (ev.newExpression callee arguments) (ev'.newExpression callee arguments) := by
  unfold newExpression
  grind

theorem evaluate_agree (e : Expression) : Agree gains final m₀ (ev.evaluate e) (ev'.evaluate e) := by
  cases e with
  | array elements => exact array_agree hev elements
  | object members => exact object_agree hev members
  | update op returnsNew target => exact update_agree hev op returnsNew target
  | assign op target value => exact assign_agree hev op target value
  | call callee arguments => exact callExpression_agree hev callee arguments
  | new callee arguments => exact newExpression_agree hev callee arguments
  | template strings expressions =>
    exact .bind (templateParts_agree hev _ _ _) fun _ _ _ => .pure _
  | typeOf operand => exact typeOf_agree hev operand
  | delete operand => exact delete_agree hev operand
  | sequence expressions => exact sequence_agree hev expressions .undefined
  | unary op operand =>
    unfold Evaluator.evaluate unary
    grind
  | binary op left right =>
    unfold Evaluator.evaluate binary
    grind
  | logical op left right =>
    unfold Evaluator.evaluate logical
    grind
  | conditional test consequent alternate =>
    unfold Evaluator.evaluate conditional
    grind
  | member object name =>
    unfold Evaluator.evaluate memberAccess
    grind
  | index object key =>
    unfold Evaluator.evaluate indexAccess
    grind
  | _ =>
    unfold Evaluator.evaluate
    grind

end Expressions

section Blocks

variable {env : EnvId}

theorem bindBlockFunction_agree (henv : m₀.HasThisAt env) (code : FunctionCode) (isFirst : Bool) :
    Agree gains final m₀ (bindBlockFunction env code isFirst) (bindBlockFunction env code isFirst) := by
  unfold bindBlockFunction
  grind

theorem declareBlockName_agree (henv : m₀.IsLocal env) (constant : Bool) (name : String) :
    Agree gains final m₀ (declareBlockName env constant name) (declareBlockName env constant name) := by
  unfold declareBlockName
  grind

theorem instantiateBlock_agree (henv : m₀.HasThisAt env) (hlocal : m₀.IsLocal env)
    (declarations : List LexicalDeclaration) (bound : List String) :
    Agree gains final m₀ (instantiateBlock env declarations bound) (instantiateBlock env declarations bound) := by
  induction declarations generalizing m₀ bound with
  | nil => exact .pure _
  | cons d rest ih =>
    refine .bind (.forM fun name _ m₁ h₁ => declareBlockName_agree (hlocal.later h₁) _ name) fun m₁ _ h₁ => ?_
    cases d with
    | binding constant pattern => exact ih (henv.later h₁) (hlocal.later h₁) bound
    | function code =>
      refine .bind (bindBlockFunction_agree (henv.later h₁) code _) fun m₂ _ h₂ => ?_
      exact ih ((henv.later h₁).later h₂) ((hlocal.later h₁).later h₂) _

@[grind ←] theorem withBlockScope_agree (declarations : List LexicalDeclaration) {x x' : Eval Completion}
    (hx : ∀ m₁, m₀.Extends gains m₁ → Agree gains final m₁ x x') :
    Agree gains final m₀ (withBlockScope declarations x) (withBlockScope declarations x') := by
  refine .lexicalEnv_bind fun m₁ outer h₁ houter => ?_
  refine .newDeclarativeEnvironment_bind houter.isOuter fun m₂ env h₂ henv hlocal => ?_
  refine .bind (instantiateBlock_agree henv.hasThisAt hlocal declarations []) fun m₃ _ h₃ => ?_
  exact .withLexicalEnv (henv.later h₃) fun m₄ h₄ => hx m₄ (((h₁.trans h₂).trans h₃).trans h₄)

end Blocks

section Statements

variable {ev ev' : Evaluator} (hev : ev.Agrees gains final ev')

include hev

@[grind ←] theorem block_agree (body : List Statement) : Agree gains final m₀ (ev.block body) (ev'.block body) := by
  unfold block
  grind

theorem declarator_agree (kind : DeclarationKind) (d : Declarator) :
    Agree gains final m₀ (ev.declarator kind d) (ev'.declarator kind d) := by
  have hpattern := bindPattern_agree hev
  obtain ⟨pattern, init⟩ := d
  unfold declarator
  cases pattern with
  | identifier name =>
    cases init with
    | none => cases kind <;> grind
    | some e => cases kind <;> grind
  | _ =>
    cases init with
    | none => exact .quiet (.breach _)
    | some e => cases kind <;> grind

@[grind ←] theorem declare_agree (kind : DeclarationKind) (declarators : List Declarator) :
    Agree gains final m₀ (ev.declare kind declarators) (ev'.declare kind declarators) :=
  .forM fun d _ _ _ => declarator_agree hev kind d

theorem ifStatement_agree (test : Expression) (consequent : Statement) (alternate : Option Statement) :
    Agree gains final m₀ (ev.ifStatement test consequent alternate)
      (ev'.ifStatement test consequent alternate) := by
  unfold ifStatement
  cases alternate <;> grind

@[grind ←] theorem matchingClauses_agree (input : Value) (clauses : List SwitchClause) :
    Agree gains final m₀ (ev.matchingClauses input clauses) (ev'.matchingClauses input clauses) := by
  induction clauses generalizing m₀ with
  | nil => exact .pure _
  | cons clause rest ih =>
    unfold matchingClauses
    cases clause.test <;> grind

@[grind ←] theorem runClauses_agree (clauses : List SwitchClause) (last : Value) :
    Agree gains final m₀ (ev.runClauses clauses last) (ev'.runClauses clauses last) := by
  induction clauses generalizing m₀ last with
  | nil => exact .pure _
  | cons clause rest ih =>
    unfold runClauses
    grind

theorem switchStatement_agree (discriminant : Expression) (clauses : List SwitchClause) :
    Agree gains final m₀ (ev.switchStatement discriminant clauses)
      (ev'.switchStatement discriminant clauses) := by
  have hcases (m₁ : Machine) (input : Value) :
      Agree gains final m₁ (ev.caseBlock clauses input) (ev'.caseBlock clauses input) := by
    refine .bind (matchingClauses_agree hev input clauses) fun m₂ selected h₂ => ?_
    cases selected with
    | none => exact runClauses_agree hev _ _
    | some selected => exact runClauses_agree hev _ _
  unfold switchStatement
  grind

theorem catchClause_agree (handler : CatchClause) (value : Value) :
    Agree gains final m₀ (ev.catchClause handler value) (ev'.catchClause handler value) := by
  refine .completing ?_
  cases handler.parameter with
  | none => exact block_agree hev _
  | some parameter =>
    refine .lexicalEnv_bind fun m₁ outer h₁ houter => ?_
    refine .newDeclarativeEnvironment_bind houter.isOuter fun m₂ env h₂ henv hlocal => ?_
    refine .bind (.forM fun _ _ m₃ h₃ => env.createMutable_agree _ (.inl (hlocal.later h₃))) fun m₃ _ h₃ => ?_
    refine .withLexicalEnv (henv.later h₃) fun m₄ h₄ => ?_
    exact .bind (bindPattern_agree hev _ _ _ _) fun _ _ _ => block_agree hev _

theorem tryStatement_agree (body : List Statement) (handler : Option CatchClause)
    (finalizer : Option (List Statement)) :
    Agree gains final m₀ (ev.tryStatement body handler finalizer) (ev'.tryStatement body handler finalizer) := by
  have hguarded : Agree gains final m₀ (ev.guarded body handler) (ev'.guarded body handler) := by
    refine .bind (block_agree hev body) fun m₁ completion h₁ => ?_
    have hcatch (handler : CatchClause) (value : Value) :
        Agree gains final m₁ (ev.catchClause handler value) (ev'.catchClause handler value) :=
      catchClause_agree hev handler value
    cases completion <;> cases handler <;> grind
  refine .bind hguarded fun m₁ completion h₁ => ?_
  cases finalizer with
  | none => exact .pure _
  | some last =>
    refine .bind (block_agree hev last) fun m₂ ending h₂ => .quiet ?_
    split <;> grind

theorem withStatement_agree (object : Expression) (body : Statement) :
    Agree gains final m₀ (ev.withStatement object body) (ev'.withStatement object body) := by
  refine .bind (value_agree hev object) fun m₁ value h₁ => .bind (.quiet (by grind)) fun m₂ o h₂ => ?_
  refine .lexicalEnv_bind fun m₃ outer h₃ houter => ?_
  refine .newObjectEnvironment_bind houter.isOuter o true fun m₄ env h₄ henv _ => ?_
  exact .bind (.withLexicalEnv henv fun m₅ _ => hev.statement m₅ body) fun _ _ _ => .pure _

theorem labelledStatement_agree (label : String) (body : Statement) :
    Agree gains final m₀ (ev.labelledStatement label body) (ev'.labelledStatement label body) := by
  refine .bind (.modifyContext (fun _ => rfl) fun _ _ _ => id) fun m₁ _ h₁ => ?_
  refine .bind (hev.statement m₁ body) fun m₂ completion h₂ => .quiet ?_
  split <;> grind

theorem whileLoop_agree (test : Expression) (body : Statement) (labels : List String) (steps : Nat)
    (last : Value) :
    Agree gains final m₀ (ev.whileLoop test body labels steps last)
      (ev'.whileLoop test body labels steps last) := by
  induction steps generalizing m₀ last with
  | zero => exact .quiet (.throw _)
  | succ steps ih =>
    unfold whileLoop
    grind

theorem doWhileLoop_agree (body : Statement) (test : Expression) (labels : List String) (steps : Nat)
    (last : Value) :
    Agree gains final m₀ (ev.doWhileLoop body test labels steps last)
      (ev'.doWhileLoop body test labels steps last) := by
  induction steps generalizing m₀ last with
  | zero => exact .quiet (.throw _)
  | succ steps ih =>
    unfold doWhileLoop
    grind

omit hev in
/-- The environment of the next round is nested where that of the last one is. -/
@[grind ←] theorem copyIterationEnv_agree (names : List String) :
    Agree gains final m₀ (copyIterationEnv names) (copyIterationEnv names) := by
  unfold copyIterationEnv
  split
  · exact .pure _
  refine .lexicalEnv_bind fun m₁ last h₁ hlast => ?_
  refine .bind_of (.quiet (.lift _)) fun e m m₂ hm₁ hm hrun _ => ?_
  obtain ⟨rfl, hload⟩ := lift_eq_ok hrun
  have he := EnvId.load_ok hload
  cases houter : e.outer? with
  | none => exact .quiet (.breach _)
  | some outer =>
    have hnests : m₂.IsOuter outer := by
      obtain ⟨-, hthis⟩ := hm.outers last e outer he houter
      refine ⟨hthis, fun o ho => ?_⟩
      obtain ⟨-, slots, hslots, harrow⟩ := (hlast.later hm₁).callee o ho
      refine ⟨slots, hslots, fun hlexical => ?_⟩
      obtain ⟨env, hpasses, hrest⟩ := Relation.TransGen.head'_iff.mp (harrow hlexical)
      obtain ⟨e', he', -, houter'⟩ := hpasses
      cases he.symm.trans he'
      cases houter.symm.trans houter'
      exact hrest
    refine .newDeclarativeEnvironment_bind hnests fun m₃ env h₃ henv hlocal => ?_
    refine .bind (declareInitialized_agree hlocal (by grind) names) fun m₄ _ h₄ => ?_
    exact .setLexicalEnv (henv.later h₄)

theorem forIterations_agree (test update : Option Expression) (body : Statement)
    (names labels : List String) (steps : Nat) (last : Value) :
    Agree gains final m₀ (ev.forIterations test update body names labels steps last)
      (ev'.forIterations test update body names labels steps last) := by
  have hholds (m₁ : Machine) : Agree gains final m₁ (ev.holds test) (ev'.holds test) := by
    unfold holds
    cases test <;> grind
  induction steps generalizing m₀ last with
  | zero => exact .quiet (.throw _)
  | succ steps ih =>
    unfold forIterations
    refine .bind (hholds m₀) fun m₁ holds h₁ => ?_
    split
    · exact .pure _
    refine .bind (hev.statement m₁ body) fun m₂ result h₂ => ?_
    split
    · exact .pure _
    refine .bind (copyIterationEnv_agree names) fun m₃ _ h₃ => ?_
    cases update with
    | none => exact ih _
    | some e => exact .bind (.discard (value_agree hev e)) fun _ _ _ => ih _

theorem forLoop_agree (steps : Nat) (init : Option ForInit) (test update : Option Expression)
    (body : Statement) (labels : List String) :
    Agree gains final m₀ (ev.forLoop steps init test update body labels)
      (ev'.forLoop steps init test update body labels) := by
  have hbody (m₁ : Machine) (names : List String) :
      Agree gains final m₁ (ev.forBody steps test update body names labels)
        (ev'.forBody steps test update body names labels) :=
    .bind (copyIterationEnv_agree names) fun _ _ _ => forIterations_agree hev _ _ _ _ _ _ _
  have hlexical (constant : Bool) (declarators : List Declarator) :
      Agree gains final m₀ (ev.forLexical steps constant declarators test update body labels)
        (ev'.forLexical steps constant declarators test update body labels) := by
    refine .lexicalEnv_bind fun m₁ outer h₁ houter => ?_
    refine .newDeclarativeEnvironment_bind houter.isOuter fun m₂ env h₂ henv hlocal => ?_
    refine .bind (.forM fun _ _ m₃ h₃ => env.createLexical_agree _ (.inl (hlocal.later h₃))) fun m₃ _ h₃ => ?_
    refine .withLexicalEnv (henv.later h₃) fun m₄ h₄ => ?_
    exact .bind (declare_agree hev _ _) fun m₅ _ _ => hbody m₅ _
  unfold forLoop
  cases init with
  | none => exact hbody m₀ []
  | some init =>
    cases init with
    | expression e => exact .bind (value_agree hev e) fun m₁ _ _ => hbody m₁ []
    | declare kind declarators =>
      cases kind with
      | var => exact .bind (declare_agree hev _ _) fun m₁ _ _ => hbody m₁ []
      | lexical constant => exact hlexical constant declarators

theorem bindForTarget_agree {outer : EnvId} (houter : m₀.IsScope outer) (target : ForTarget)
    (value : Value) :
    Agree gains final m₀ (ev.bindForTarget outer target value) (ev'.bindForTarget outer target value) := by
  unfold bindForTarget
  cases target with
  | pattern p => cases p <;> grind
  | declare kind pattern =>
    cases kind with
    | var => exact bindPattern_agree hev _ _ _ _
    | lexical constant =>
      refine .newDeclarativeEnvironment_bind houter.isOuter fun m₁ env h₁ henv hlocal => ?_
      refine .bind (.forM fun _ _ m₂ h₂ => env.createLexical_agree _ (.inl (hlocal.later h₂))) fun m₂ _ h₂ => ?_
      exact .bind (.setLexicalEnv (henv.later h₂)) fun _ _ _ => bindPattern_agree hev _ _ _ _

theorem forInIterations_agree {outer : EnvId} (houter : m₀.IsScope outer) (target : ForTarget)
    (body : Statement) (labels : List String) (steps : Nat) (it : KeyIterator) (last : Value) :
    Agree gains final m₀ (ev.forInIterations target body labels outer steps it last)
      (ev'.forInIterations target body labels outer steps it last) := by
  induction steps generalizing m₀ it last with
  | zero => exact .quiet (.throw _)
  | succ steps ih =>
    unfold forInIterations
    refine .bind (.quiet (.lift _)) fun m₁ next h₁ => ?_
    cases next with
    | none => exact .pure _
    | some next =>
      have houter₁ := houter.later h₁
      refine .bind (.withLexicalEnv houter₁ fun m₂ h₂ => ?_) fun m₂ result h₂ => ?_
      · exact .bind (bindForTarget_agree hev (houter₁.later h₂) target _) fun m₃ _ _ => hev.statement m₃ body
      · split
        · exact .pure _
        · exact ih (houter₁.later h₂) _ _

theorem forIn_agree (steps : Nat) (target : ForTarget) (source : Expression) (body : Statement)
    (labels : List String) :
    Agree gains final m₀ (ev.forIn steps target source body labels)
      (ev'.forIn steps target source body labels) := by
  have hsource (m₁ : Machine) :
      Agree gains final m₁ (ev.forInSource target source) (ev'.forInSource target source) := by
    refine .lexicalEnv_bind fun m₂ outer h₂ houter => ?_
    dsimp only
    split
    · exact .withLexicalEnv houter fun _ _ => value_agree hev source
    · refine .newDeclarativeEnvironment_bind houter.isOuter fun m₃ env h₃ henv hlocal => ?_
      refine .bind (.forM fun _ _ m₄ h₄ => env.createMutable_agree _ (.inl (hlocal.later h₄))) fun m₄ _ h₄ => ?_
      exact .withLexicalEnv (henv.later h₄) fun _ _ => value_agree hev source
  refine .lexicalEnv_bind fun m₁ outer h₁ houter => .bind (hsource m₁) fun m₂ value h₂ => ?_
  split
  · exact .pure _
  refine .bind (.quiet (by grind)) fun m₃ o h₃ => ?_
  exact forInIterations_agree hev ((houter.later h₂).later h₃) _ _ _ _ _ _

theorem executeWith_agree (steps : Nat) (labels : List String) (s : Statement) :
    Agree gains final m₀ (ev.executeWith steps labels s) (ev'.executeWith steps labels s) := by
  cases s with
  | conditional test consequent alternate => exact ifStatement_agree hev _ _ _
  | whileLoop test body => exact .bind (whileLoop_agree hev _ _ _ _ _) fun _ _ _ => .pure _
  | doWhileLoop body test => exact .bind (doWhileLoop_agree hev _ _ _ _ _) fun _ _ _ => .pure _
  | forLoop init test update body => exact .bind (forLoop_agree hev _ _ _ _ _ _) fun _ _ _ => .pure _
  | forIn target source body => exact .bind (forIn_agree hev _ _ _ _ _) fun _ _ _ => .pure _
  | tryCatch body handler finalizer => exact tryStatement_agree hev _ _ _
  | switch discriminant clauses => exact .bind (switchStatement_agree hev _ _) fun _ _ _ => .pure _
  | labelled label body => exact labelledStatement_agree hev _ _
  | withObject object body => exact withStatement_agree hev _ _
  | returns value =>
    unfold executeWith
    cases value <;> grind
  | _ =>
    unfold executeWith
    grind

theorem execute_agree (steps : Nat) (s : Statement) :
    Agree gains final m₀ (ev.execute steps s) (ev'.execute steps s) := by
  have hlabels : Agree gains final m₀ (takeLabels s) (takeLabels s) := by
    have hclear (m₁ : Machine) :
        Agree gains final m₁ (modifyContext ({ · with labels := [] })) (modifyContext ({ · with labels := [] })) :=
      .modifyContext (fun _ => rfl) fun _ _ _ => id
    unfold takeLabels
    grind
  exact .completing (.bind hlabels fun _ labels _ => executeWith_agree hev steps labels s)

end Statements

end Evaluator

end EcmaEval
