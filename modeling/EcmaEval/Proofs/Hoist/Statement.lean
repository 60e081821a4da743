import EcmaEval.Proofs.Hoist.Evaluate
import EcmaEval.Proofs.Jump

/-!
# Observed statements

One step of the execution of statements in a frame. A block, a handler, a `with` statement and a loop open
their scopes inside the running one, so the variable environment stays on the scope chain. A round of a `let`
loop begins beside the last one; its environment is nested where that is, and since both are apart from the
variable environment, that is still inside it.

With looks before each moment the evaluators of all levels do the same in the frame, as long as the looks do
nothing where the variables of the call are as they should be.
-/
namespace EcmaEval

variable {F : Frame} {apart : Prop} {m m₀ : Machine} {look : Look}

/-- Only a `let` loop copies its environment, and it runs apart from the variable environment. -/
theorem copyIterationEnv_same (names : List String) :
    F.Same True m₀ (copyIterationEnv names) (copyIterationEnv names) := by
  unfold copyIterationEnv
  split
  · exact .pure _
  refine .lexicalEnv_bind fun m₁ last h₁ hlast => ?_
  refine .bind_of (.lift _) fun e m m₂ hm₁ _ hrun _ => ?_
  obtain ⟨rfl, hload⟩ := lift_eq_ok hrun
  have he := EnvId.load_ok hload
  cases houter : e.outer? with
  | none => exact .breach _
  | some outer =>
    have hadmits : F.Admits False m₂ outer := by
      intro hrunning
      obtain ⟨hinside, hapart⟩ := (hlast.later hm₁) hrunning
      refine ⟨?_, nofun⟩
      rcases Relation.ReflTransGen.cases_head hinside with hsame | ⟨next, ⟨e', he', hnext, -⟩, hrest⟩
      · exact absurd hsame (hapart trivial)
      · cases he.symm.trans he'
        cases houter.symm.trans hnext
        exact hrest
    refine .newDeclarativeEnvironment_bind hadmits fun m₃ env h₃ henv => ?_
    refine .bind (.of_stays ?_) fun m₄ _ h₄ => .setLexicalEnv (henv.later h₄)
    exact declareInitialized_stays trivial (holds_of_isFree env) (by grind) names

theorem withBlockScope_same (declarations : List LexicalDeclaration) {x x' : Eval Completion}
    (hx : ∀ m₁, m₀.Follows m₁ → F.Same True m₁ x x') :
    F.Same apart m₀ (withBlockScope declarations x) (withBlockScope declarations x') := by
  refine .lexicalEnv_bind fun m₁ outer h₁ houter => ?_
  refine .newDeclarativeEnvironment_bind houter fun m₂ env h₂ henv => ?_
  refine .bind (by grind) fun m₃ _ h₃ => ?_
  exact .withLexicalEnv (henv.later h₃) fun m₄ h₄ => hx m₄ (((h₁.trans h₂).trans h₃).trans h₄)

/-- A variable of the call is given its value the same way. -/
theorem bindVar_same (hlook : F.Spares look) {name : String} (hname : F.Covers m₀ (· = name)) (value : Value) :
    F.Same apart m₀ (bindVar .none name value) (bindVar look name value) :=
  .resolve_bind hlook hname fun _ _ _ => by grind

namespace Evaluator

variable {ev ev' : Evaluator} (hev : F.Relates ev ev')

include hev

theorem block_same (body : List Statement) (hbody : F.Covers m₀ (Body.DeclaresVar body)) :
    F.Same apart m₀ (ev.block body) (ev'.block body) := by
  refine .completing ?_
  split
  · exact .pure _
  · exact withBlockScope_same _ fun m₁ h₁ => statements_same hev body (hbody.later h₁) none

theorem declarator_same (constant : Bool) (d : Declarator) :
    F.Same apart m₀ (ev.declarator (.lexical constant) d) (ev'.declarator (.lexical constant) d) := by
  have hpattern (m₁ : Machine) (env : Option EnvId) (p : Pattern) (value : Value) :
      F.Same apart m₁ (ev.bindPattern env p value) (ev'.bindPattern env p value) :=
    bindPattern_same hev env p value m₁
  obtain ⟨pattern, init⟩ := d
  unfold declarator
  cases pattern with
  | identifier name => cases init <;> grind
  | _ =>
    cases init with
    | none => exact .breach _
    | some e => grind

theorem varDeclarator_same (hlook : F.Spares look) (d : Declarator) (hd : F.Covers m₀ d.pattern.Binds) :
    F.Same apart m₀ (ev.varDeclarator .none d) (ev'.varDeclarator look d) := by
  obtain ⟨pattern, init⟩ := d
  unfold varDeclarator
  cases init with
  | none =>
    cases pattern with
    | identifier name => exact .pure _
    | _ => exact .breach _
  | some e =>
    cases pattern with
    | identifier name =>
      refine .resolve_bind hlook (hd.imp ?_) fun m₁ target h₁ => ?_
      · rintro _ rfl
        exact .identifier
      · exact .bind (valueNamed_same hev e _) fun _ _ _ => by grind
    | _ =>
      refine .bind (value_same hev e) fun m₁ value h₁ => ?_
      refine bindPatternBy_same hev _ value m₁ fun name hname v => ?_
      refine bindVar_same hlook ((hd.imp ?_).later h₁) v
      rintro _ rfl
      exact hname

theorem varDeclarators_same (hlook : F.Spares look) (declarators : List Declarator)
    (hd : ∀ d ∈ declarators, F.Covers m₀ d.pattern.Binds) :
    F.Same apart m₀ (declarators.forM (ev.varDeclarator .none)) (declarators.forM (ev'.varDeclarator look)) :=
  .forM fun d hmem _ h₁ => varDeclarator_same hev hlook d ((hd d hmem).later h₁)

theorem ifStatement_same (test : Expression) (consequent : Statement) (alternate : Option Statement)
    (hconsequent : F.Covers m₀ consequent.DeclaresVar)
    (halternate : ∀ s, alternate = some s → F.Covers m₀ s.DeclaresVar) :
    F.Same apart m₀ (ev.ifStatement test consequent alternate) (ev'.ifStatement test consequent alternate) := by
  refine .bind (value_same hev test) fun m₁ value h₁ => ?_
  split
  · exact .bind (hev.statement apart m₁ consequent (hconsequent.later h₁)) fun _ _ _ => .pure _
  · cases alternate with
    | none => exact .pure _
    | some s => exact .bind (hev.statement apart m₁ s ((halternate s rfl).later h₁)) fun _ _ _ => .pure _

theorem matchingClauses_same (input : Value) (clauses : List SwitchClause) :
    F.Same apart m₀ (ev.matchingClauses input clauses) (ev'.matchingClauses input clauses) := by
  induction clauses generalizing m₀ with
  | nil => exact .pure _
  | cons clause rest ih =>
    unfold matchingClauses
    cases clause.test <;> grind

theorem runClauses_same (clauses : List SwitchClause) (last : Value)
    (hclauses : ∀ clause ∈ clauses, F.Covers m₀ (Body.DeclaresVar clause.body)) :
    F.Same apart m₀ (ev.runClauses clauses last) (ev'.runClauses clauses last) := by
  induction clauses generalizing m₀ last with
  | nil => exact .pure _
  | cons clause rest ih =>
    refine .bind (statements_same hev clause.body (hclauses clause List.mem_cons_self) none) fun m₁ result h₁ => ?_
    dsimp only
    split
    · exact .pure _
    · exact ih _ fun clause' hmem => (hclauses clause' (List.mem_cons_of_mem clause hmem)).later h₁

theorem switchStatement_same (discriminant : Expression) (clauses : List SwitchClause)
    (hclauses : ∀ clause ∈ clauses, F.Covers m₀ (Body.DeclaresVar clause.body)) :
    F.Same apart m₀ (ev.switchStatement discriminant clauses) (ev'.switchStatement discriminant clauses) := by
  refine .bind (value_same hev discriminant) fun m₁ input h₁ => withBlockScope_same _ fun m₂ h₂ => ?_
  have hrest {m₃ : Machine} (h₃ : m₂.Follows m₃) (selected : List SwitchClause) (hsub : selected ⊆ clauses) :
      F.Same True m₃ (ev.runClauses selected .undefined) (ev'.runClauses selected .undefined) :=
    runClauses_same hev selected _ fun clause hmem => (hclauses clause (hsub hmem)).later ((h₁.trans h₂).trans h₃)
  refine .bind_of (matchingClauses_same hev input clauses) fun selected m m₃ hm₂ _ hrun hfollows => ?_
  cases selected with
  | none => exact hrest (hm₂.trans hfollows) _ (List.dropWhile_sublist _).subset
  | some selected => exact hrest (hm₂.trans hfollows) selected (matchingClauses_sub hrun)

theorem catchClause_same (handler : CatchClause) (value : Value)
    (hbody : F.Covers m₀ (Body.DeclaresVar handler.body)) :
    F.Same apart m₀ (ev.catchClause handler value) (ev'.catchClause handler value) := by
  refine .completing ?_
  cases handler.parameter with
  | none => exact block_same hev _ hbody
  | some parameter =>
    refine .lexicalEnv_bind fun m₁ outer h₁ houter => ?_
    refine .newDeclarativeEnvironment_bind houter fun m₂ env h₂ henv => ?_
    refine .bind (.forM fun _ _ _ _ => by grind) fun m₃ _ h₃ => ?_
    refine .withLexicalEnv (henv.later h₃) fun m₄ h₄ => ?_
    refine .bind (bindPattern_same hev _ _ _ m₄) fun m₅ _ h₅ => ?_
    exact block_same hev _ (hbody.later ((((h₁.trans h₂).trans h₃).trans h₄).trans h₅))

theorem tryStatement_same (body : List Statement) (handler : Option CatchClause)
    (finalizer : Option (List Statement)) (hbody : F.Covers m₀ (Body.DeclaresVar body))
    (hhandler : ∀ clause, handler = some clause → F.Covers m₀ (Body.DeclaresVar clause.body))
    (hfinalizer : ∀ last, finalizer = some last → F.Covers m₀ (Body.DeclaresVar last)) :
    F.Same apart m₀ (ev.tryStatement body handler finalizer) (ev'.tryStatement body handler finalizer) := by
  have hguarded : F.Same apart m₀ (ev.guarded body handler) (ev'.guarded body handler) := by
    refine .bind (block_same hev body hbody) fun m₁ completion h₁ => ?_
    split
    · exact catchClause_same hev _ _ ((hhandler _ rfl).later h₁)
    · exact .pure _
  refine .bind hguarded fun m₁ completion h₁ => ?_
  cases finalizer with
  | none => exact .pure _
  | some last =>
    refine .bind (block_same hev last ((hfinalizer last rfl).later h₁)) fun m₂ ending h₂ => ?_
    split <;> exact .pure _

theorem withStatement_same (object : Expression) (body : Statement) (hbody : F.Covers m₀ body.DeclaresVar) :
    F.Same apart m₀ (ev.withStatement object body) (ev'.withStatement object body) := by
  refine .bind (value_same hev object) fun m₁ value h₁ => .bind (by grind) fun m₂ o h₂ => ?_
  refine .lexicalEnv_bind fun m₃ outer h₃ houter => ?_
  refine .newObjectEnvironment_bind houter o true fun m₄ env h₄ henv => ?_
  refine .bind (.withLexicalEnv henv fun m₅ h₅ => ?_) fun _ _ _ => .pure _
  exact hev.statement True m₅ body (hbody.later ((((h₁.trans h₂).trans h₃).trans h₄).trans h₅))

theorem labelledStatement_same (label : String) (body : Statement) (hbody : F.Covers m₀ body.DeclaresVar) :
    F.Same apart m₀ (ev.labelledStatement label body) (ev'.labelledStatement label body) := by
  refine .bind (.modifyContext (fun _ => rfl) fun _ _ _ => id) fun m₁ _ h₁ => ?_
  refine .bind (hev.statement apart m₁ body (hbody.later h₁)) fun m₂ completion h₂ => ?_
  split <;> grind

theorem whileLoop_same (test : Expression) (body : Statement) (labels : List String)
    (hbody : F.Covers m₀ body.DeclaresVar) (steps : Nat) (last : Value) :
    F.Same apart m₀ (ev.whileLoop test body labels steps last) (ev'.whileLoop test body labels steps last) := by
  induction steps generalizing m₀ last with
  | zero => exact .throw _
  | succ steps ih =>
    unfold whileLoop
    refine .bind (value_same hev test) fun m₁ value h₁ => ?_
    split
    · exact .pure _
    refine .bind (hev.statement apart m₁ body (hbody.later h₁)) fun m₂ result h₂ => ?_
    split
    · exact .pure _
    · exact ih (hbody.later (h₁.trans h₂)) _

theorem doWhileLoop_same (body : Statement) (test : Expression) (labels : List String)
    (hbody : F.Covers m₀ body.DeclaresVar) (steps : Nat) (last : Value) :
    F.Same apart m₀ (ev.doWhileLoop body test labels steps last)
      (ev'.doWhileLoop body test labels steps last) := by
  induction steps generalizing m₀ last with
  | zero => exact .throw _
  | succ steps ih =>
    unfold doWhileLoop
    refine .bind (hev.statement apart m₀ body hbody) fun m₁ result h₁ => ?_
    split
    · exact .pure _
    refine .bind (value_same hev test) fun m₂ value h₂ => ?_
    split
    · exact .pure _
    · exact ih (hbody.later (h₁.trans h₂)) _

theorem forIterations_same (test update : Option Expression) (body : Statement) (names labels : List String)
    (hcopy : ∀ m₁, F.Same apart m₁ (copyIterationEnv names) (copyIterationEnv names))
    (hbody : F.Covers m₀ body.DeclaresVar) (steps : Nat) (last : Value) :
    F.Same apart m₀ (ev.forIterations test update body names labels steps last)
      (ev'.forIterations test update body names labels steps last) := by
  have hholds (m₁ : Machine) : F.Same apart m₁ (ev.holds test) (ev'.holds test) := by
    unfold holds
    cases test <;> grind
  induction steps generalizing m₀ last with
  | zero => exact .throw _
  | succ steps ih =>
    unfold forIterations
    refine .bind (hholds m₀) fun m₁ holds h₁ => ?_
    split
    · exact .pure _
    refine .bind (hev.statement apart m₁ body (hbody.later h₁)) fun m₂ result h₂ => ?_
    split
    · exact .pure _
    refine .bind (hcopy m₂) fun m₃ _ h₃ => ?_
    have hbody₃ := hbody.later ((h₁.trans h₂).trans h₃)
    cases update with
    | none => exact ih hbody₃ _
    | some e => exact .bind (.discard (value_same hev e)) fun m₄ _ h₄ => ih (hbody₃.later h₄) _

theorem forBody_same (steps : Nat) (test update : Option Expression) (body : Statement)
    (names labels : List String)
    (hcopy : ∀ m₁, F.Same apart m₁ (copyIterationEnv names) (copyIterationEnv names))
    (hbody : F.Covers m₀ body.DeclaresVar) :
    F.Same apart m₀ (ev.forBody steps test update body names labels)
      (ev'.forBody steps test update body names labels) :=
  .bind (hcopy m₀) fun _ _ h₁ => forIterations_same hev _ _ _ _ _ hcopy (hbody.later h₁) _ _

/-- The rounds of a loop whose head binds nothing for them. -/
theorem forBody_nil_same (steps : Nat) (test update : Option Expression) (body : Statement)
    (labels : List String) (hbody : F.Covers m₀ body.DeclaresVar) :
    F.Same apart m₀ (ev.forBody steps test update body [] labels)
      (ev'.forBody steps test update body [] labels) :=
  forBody_same hev steps test update body [] labels (fun _ => .pure _) hbody

theorem forLexical_same (steps : Nat) (constant : Bool) (declarators : List Declarator)
    (test update : Option Expression) (body : Statement) (labels : List String)
    (hbody : F.Covers m₀ body.DeclaresVar) :
    F.Same apart m₀ (ev.forLexical steps constant declarators test update body labels)
      (ev'.forLexical steps constant declarators test update body labels) := by
  refine .lexicalEnv_bind fun m₁ outer h₁ houter => ?_
  refine .newDeclarativeEnvironment_bind houter fun m₂ env h₂ henv => ?_
  refine .bind (.forM fun _ _ _ _ => by grind) fun m₃ _ h₃ => ?_
  refine .withLexicalEnv (henv.later h₃) fun m₄ h₄ => ?_
  refine .bind (.forM fun d _ _ _ => declarator_same hev constant d) fun m₅ _ h₅ => ?_
  refine forBody_same hev _ _ _ _ _ _ (fun _ => copyIterationEnv_same _) ?_
  exact hbody.later ((((h₁.trans h₂).trans h₃).trans h₄).trans h₅)

theorem bindForTarget_same {outer : EnvId} (houter : F.Admits apart m₀ outer) (target : ForTarget)
    (htarget : ∀ p, target ≠ .declare .var p) (value : Value) :
    F.Same apart m₀ (ev.bindForTarget outer target value) (ev'.bindForTarget outer target value) := by
  unfold bindForTarget
  cases target with
  | pattern p => cases p <;> grind
  | declare kind pattern =>
    cases kind with
    | var => exact absurd rfl (htarget pattern)
    | lexical constant =>
      refine .newDeclarativeEnvironment_bind houter fun m₁ env h₁ henv => ?_
      refine .bind (.forM fun _ _ _ _ => by grind) fun m₂ _ h₂ => ?_
      exact .bind (.setLexicalEnv (henv.later h₂).weaken) fun m₃ _ _ => bindPattern_same hev _ _ _ m₃

theorem forKeys_same {outer : EnvId} {bind bind' : Value → Eval Unit} (houter : F.Admits apart m₀ outer)
    (hbind : ∀ m₁ value, m₀.Follows m₁ → F.Same apart m₁ (bind value) (bind' value)) (body : Statement)
    (labels : List String) (hbody : F.Covers m₀ body.DeclaresVar) (steps : Nat) (it : KeyIterator)
    (last : Value) :
    F.Same apart m₀ (ev.forKeys bind body labels outer steps it last)
      (ev'.forKeys bind' body labels outer steps it last) := by
  induction steps generalizing m₀ it last with
  | zero => exact .throw _
  | succ steps ih =>
    unfold forKeys
    refine .bind (.lift _) fun m₁ next h₁ => ?_
    cases next with
    | none => exact .pure _
    | some next =>
      refine .bind (.withLexicalEnv (houter.later h₁) fun m₂ h₂ => ?_) fun m₂ result h₂ => ?_
      · have h₀₂ := h₁.trans h₂
        refine .bind (hbind m₂ _ h₀₂) fun m₃ _ h₃ => ?_
        exact hev.statement apart m₃ body (hbody.later (h₀₂.trans h₃))
      · have h₀₂ := h₁.trans h₂
        split
        · exact .pure _
        · refine ih (houter.later h₀₂) (fun m₃ value h₃ => hbind m₃ value (h₀₂.trans h₃)) ?_ _ _
          exact hbody.later h₀₂

theorem forInSource_same (target : ForTarget) (source : Expression) :
    F.Same apart m₀ (ev.forInSource target source) (ev'.forInSource target source) := by
  refine .lexicalEnv_bind fun m₁ outer h₁ houter => ?_
  dsimp only
  split
  · exact .withLexicalEnv houter fun _ _ => value_same hev source
  · refine .newDeclarativeEnvironment_bind houter fun m₂ env h₂ henv => ?_
    refine .bind (.forM fun _ _ _ _ => by grind) fun m₃ _ h₃ => ?_
    exact .withLexicalEnv (henv.later h₃) fun _ _ => value_same hev source

theorem forIn_same (steps : Nat) (target : ForTarget) (htarget : ∀ p, target ≠ .declare .var p)
    (source : Expression) (body : Statement) (labels : List String) (hbody : F.Covers m₀ body.DeclaresVar) :
    F.Same apart m₀ (ev.forIn steps target source body labels) (ev'.forIn steps target source body labels) := by
  refine .lexicalEnv_bind fun m₁ outer h₁ houter => ?_
  refine .bind (forInSource_same hev target source) fun m₂ value h₂ => ?_
  split
  · exact .pure _
  refine .bind (by grind) fun m₃ o h₃ => ?_
  have houter₃ := houter.later (h₂.trans h₃)
  rw [← forKeys_bindForTarget, ← forKeys_bindForTarget]
  refine forKeys_same hev houter₃ (fun m₄ v h₄ => ?_) _ _ (hbody.later ((h₁.trans h₂).trans h₃)) _ _ _
  exact bindForTarget_same hev (houter₃.later h₄) target htarget v

theorem forVarIn_same (hlook : F.Spares look) (steps : Nat) (p : Pattern) (hp : F.Covers m₀ p.Binds)
    (source : Expression) (body : Statement) (labels : List String) (hbody : F.Covers m₀ body.DeclaresVar) :
    F.Same apart m₀ (ev.forVarIn .none steps p source body labels)
      (ev'.forVarIn look steps p source body labels) := by
  refine .lexicalEnv_bind fun m₁ outer h₁ houter => ?_
  refine .bind (forInSource_same hev _ source) fun m₂ value h₂ => ?_
  split
  · exact .pure _
  refine .bind (by grind) fun m₃ o h₃ => ?_
  have h₀₃ := (h₁.trans h₂).trans h₃
  refine forKeys_same hev (houter.later (h₂.trans h₃)) (fun m₄ v h₄ => ?_) _ _ (hbody.later h₀₃) _ _ _
  refine bindPatternBy_same hev p v m₄ fun name hname value => ?_
  refine bindVar_same hlook ((hp.imp ?_).later (h₀₃.trans h₄)) value
  rintro _ rfl
  exact hname

/-- A statement without variables in its head. -/
theorem executeWith_same (steps : Nat) (labels : List String) (s : Statement)
    (hdeclare : ∀ declarators, s ≠ .declare .var declarators)
    (hforLoop : ∀ declarators test update body,
      s ≠ .forLoop (some (.declare .var declarators)) test update body)
    (hforIn : ∀ p source body, s ≠ .forIn (.declare .var p) source body)
    (hs : F.Covers m₀ s.DeclaresVar) :
    F.Same apart m₀ (ev.executeWith steps labels s) (ev'.executeWith steps labels s) := by
  cases s with
  | block body => exact block_same hev body (hs.imp fun _ ⟨_, hmem, h⟩ => .block hmem h)
  | declare kind declarators =>
    cases kind with
    | var => exact absurd rfl (hdeclare declarators)
    | lexical constant =>
      exact .bind (.forM fun d _ _ _ => declarator_same hev constant d) fun _ _ _ => .pure _
  | conditional test consequent alternate =>
    refine ifStatement_same hev _ _ _ (hs.imp fun _ h => .consequent h) fun s hs' => ?_
    subst hs'
    exact hs.imp fun _ h => .alternate h
  | whileLoop test body =>
    exact .bind (whileLoop_same hev _ _ _ (hs.imp fun _ h => .whileLoop h) _ _) fun _ _ _ => .pure _
  | doWhileLoop body test =>
    exact .bind (doWhileLoop_same hev _ _ _ (hs.imp fun _ h => .doWhileLoop h) _ _) fun _ _ _ => .pure _
  | forLoop init test update body =>
    have hbody : F.Covers m₀ body.DeclaresVar := hs.imp fun _ h => .forLoop h
    refine .bind ?_ fun _ _ _ => .pure _
    cases init with
    | none => exact forBody_nil_same hev _ _ _ _ _ hbody
    | some init =>
      cases init with
      | expression e =>
        exact .bind (value_same hev e) fun m₁ _ h₁ => forBody_nil_same hev _ _ _ _ _ (hbody.later h₁)
      | declare kind declarators =>
        cases kind with
        | var => exact absurd rfl (hforLoop declarators test update body)
        | lexical constant => exact forLexical_same hev _ _ _ _ _ _ _ hbody
  | forIn target source body =>
    refine .bind (forIn_same hev _ _ (fun p hp => ?_) _ _ _ (hs.imp fun _ h => .forIn h)) fun _ _ _ => .pure _
    exact hforIn p source body (hp ▸ rfl)
  | tryCatch body handler finalizer =>
    refine tryStatement_same hev _ _ _ (hs.imp fun _ ⟨_, hmem, h⟩ => .tryBlock hmem h) ?_ ?_
    · rintro ⟨parameter, handlerBody⟩ rfl
      exact hs.imp fun _ ⟨_, hmem, h⟩ => .handler hmem h
    · rintro last rfl
      exact hs.imp fun _ ⟨_, hmem, h⟩ => .finalizer hmem h
  | switch discriminant clauses =>
    refine .bind (switchStatement_same hev _ _ fun clause hclause => ?_) fun _ _ _ => .pure _
    exact hs.imp fun _ ⟨_, hmem, h⟩ => .clause hclause hmem h
  | labelled label body => exact labelledStatement_same hev _ _ (hs.imp fun _ h => .labelled h)
  | withObject object body => exact withStatement_same hev _ _ (hs.imp fun _ h => .withObject h)
  | returns value =>
    unfold executeWith
    cases value <;> grind
  | _ =>
    unfold executeWith
    grind

theorem observeWith_same (hlook : F.Spares look) (steps : Nat) (labels : List String) (s : Statement)
    (hs : F.Covers m₀ s.DeclaresVar) :
    F.Same apart m₀ (ev.observeWith .none steps labels s) (ev'.observeWith look steps labels s) := by
  unfold observeWith
  split
  · refine .bind (varDeclarators_same hev hlook _ fun d hd => ?_) fun _ _ _ => .pure _
    exact hs.imp fun _ h => .declare hd h
  · refine .bind (varDeclarators_same hev hlook _ fun d hd => ?_) fun m₁ _ h₁ => ?_
    · exact hs.imp fun _ h => .forHead hd h
    · refine .bind (forBody_nil_same hev _ _ _ _ _ ?_) fun _ _ _ => .pure _
      exact (hs.imp fun _ h => .forLoop h).later h₁
  · refine .bind (forVarIn_same hev hlook _ _ ?_ _ _ _ ?_) fun _ _ _ => .pure _
    · exact hs.imp fun _ h => .forInHead h
    · exact hs.imp fun _ h => .forIn h
  · exact executeWith_same hev steps labels s ‹_› ‹_› ‹_› hs

theorem observe_same (hlook : F.Spares look) (steps : Nat) (s : Statement) (hs : F.Covers m₀ s.DeclaresVar) :
    F.Same apart m₀ (ev.observe .none steps s) (ev'.observe look steps s) := by
  have hlabels : F.Same apart m₀ (takeLabels s) (takeLabels s) := by
    have hclear (m₁ : Machine) : F.Same apart m₁ (modifyContext ({ · with labels := [] }))
        (modifyContext ({ · with labels := [] })) := .modifyContext (fun _ => rfl) fun _ _ _ => id
    unfold takeLabels
    grind
  exact .completing (.bind hlabels fun m₁ labels h₁ => observeWith_same hev hlook steps labels s (hs.later h₁))

end Evaluator

/-- **Looks that do nothing where the variables are in place change no evaluation.** -/
theorem Frame.Spares.relates (hlook : F.Spares look) (n : Nat) :
    F.Relates (.level n) (Evaluator.observed look n) := by
  induction n with
  | zero => exact ⟨fun _ _ _ => .throw _, fun _ _ _ _ => .throw _⟩
  | succ n ih =>
    refine ⟨fun apart m₀ e => ?_, fun apart m₀ s hs => ?_⟩
    · exact .looking hlook (by simp) (Evaluator.evaluate_same ih e)
    · refine .looking hlook (by simp) ?_
      change F.Same apart m₀ ((Evaluator.level n).execute n s) _
      rw [← Evaluator.observe_none]
      exact Evaluator.observe_same ih hlook n s hs

end EcmaEval
