import EcmaEval.Proofs.Sound.Expression

/-!
# Declarations and branches keep a machine sound

A declaration gives the names that wait in the running scope their values, from left to right. The
branching statements pass on how their parts end, and take the jumps that are meant for them.
-/
namespace EcmaEval

variable {g : Contract} {A : Grant} {m m' : Machine} {env : EnvId} {j : Jumps}

/-- An environment has the names that its own record binds. -/
theorem EnvId.hasBinding_of_bound {name : String} (h : m.Bound env name) : env.hasBinding name m = .ok true := by
  obtain ⟨r, hr, hname⟩ := h
  obtain ⟨e, he, hrecord⟩ := Machine.record?_some hr
  unfold EnvId.hasBinding
  rw [Query.bind_ok (EnvId.load_eq he)]
  cases e with
  | declarative r' =>
    cases hrecord
    exact congrArg Except.ok hname
  | object scope => cases hrecord
  | global r' =>
    cases hrecord
    dsimp only
    rw [if_pos hname]
    rfl

/-- A name bound in the running scope resolves there. -/
theorem resolveBinding_of_bound {name : String} (hscope : lexicalEnv m = .ok env)
    (hbound : m.Bound env name) :
    ∃ strict, resolveBinding name none m = .ok (.reference (.binding env name strict)) := by
  obtain ⟨c, cs, hcontexts, rfl⟩ := lexicalEnv_ok hscope
  exact ⟨c.strict, resolveBinding_here hcontexts (EnvId.hasBinding_of_bound hbound)⟩

theorem Contract.Hoists.right {ns ms : List String} (h : g.Hoists A m env (ns ++ ms)) :
    g.Hoists A m env ms where
  scope := h.scope
  binds hc :=
    have hbinds := h.binds hc
    { within := hbinds.within
      nodup := fun hc he => (List.nodup_append.mp (hbinds.nodup hc he)).2.1
      waiting := fun hc e he n hn => hbinds.waiting hc e he n (List.mem_append_right _ hn)
      declare := fun hc e he n hn => hbinds.declare hc e he n (List.mem_append_right _ hn) }

theorem Contract.Ends.absorbBreak {c : Completion} (h : g.Ends m j.switch c) :
    g.Ends m j c.absorbBreak := by
  cases c with
  | broke target v =>
    cases target with
    | none =>
      refine fun w hw => ?_
      cases hw
      exact h.1.getD ⟨trivial, fun _ => rfl⟩
    | some l => exact h
  | _ => exact h

/-- What a label does not take goes on. -/
theorem Contract.Ends.unlabel {l : String} {c : Completion} (h : g.Ends m (j.label l) c)
    (hc : ∀ v, c ≠ .broke (some l) v) : g.Ends m j c := by
  cases c with
  | broke target v =>
    refine ⟨h.1, fun hchecked => ?_⟩
    have hjump := h.2 hchecked
    cases target with
    | none => exact hjump
    | some target =>
      refine (List.mem_cons.mp hjump).resolve_left fun heq => ?_
      exact hc v (by rw [heq])
  | _ => exact h

theorem Machine.labels_cons {c : Context} {cs : List Context} (h : m.contexts = c :: cs) :
    m.labels = c.labels := by simp [Machine.labels, h]

namespace Evaluator

variable {ev : Evaluator} (hev : ev.Keeps g)

include hev

/-- A statement that is not an item of a list needs to know the running scope only. -/
theorem inner_runs {s : Statement} (hs : g.checked → s.Valid j []) (hnames : g.checked → s.letNames = [])
    (hscope : g.checked → lexicalEnv m = .ok env) :
    g.Runs A m (ev.statement s) fun m' c => g.Ends m' j c := by
  refine .of_sound fun hm => hev.statement A m env j [] s hs (by simp) ⟨hscope, fun hc => ?_⟩
  rw [hnames hc]
  exact (Contract.Hoists.nil hscope hm).binds hc

/-- Evaluating an expression keeps the running scope. -/
theorem value_scope {e : Expression} {v : Value} (hrun : ev.value e m = .ok v m')
    (hscope : g.checked → lexicalEnv m = .ok env) : g.checked → lexicalEnv m' = .ok env :=
  fun hc => ((value_keepsStack hev.restores e).lexicalEnv hrun).trans (hscope hc)

omit hev in
/-- A declared name resolves to the binding that waits for its value. -/
theorem resolveDeclared_asks {name : String} (hnames : g.Hoists A m env [name]) :
    g.Asks m (resolveBinding name none) fun target => target.Within m.bounds ∧
      (g.checked → ∃ strict, target = .reference (.binding env name strict)) := by
  intro hm
  have hasks : g.Asks m (resolveBinding name none) (g.Operand m) := resolveBinding_asks (by simp)
  have hoperand := hasks hm
  cases hr : resolveBinding name none m with
  | error e =>
    rw [hr] at hoperand
    exact hoperand
  | ok target =>
    rw [hr] at hoperand
    refine ⟨hoperand.within, fun hc => ?_⟩
    have hwaiting := (hnames.binds hc).waiting hc env rfl name (by simp)
    obtain ⟨strict, hbinding⟩ := resolveBinding_of_bound (hnames.scope hc) hwaiting.bound
    rw [hr] at hbinding
    cases hbinding
    exact ⟨strict, rfl⟩

omit hev in
/-- Whatever was evaluated in between, a declared name takes its first value. -/
theorem initDeclared_runs {name : String} {target v : Value} (hm : g.Sound m)
    (hnames : g.Hoists A m env [name]) (hwithin : target.Within m.bounds)
    (htarget : g.checked → ∃ strict, target = .reference (.binding env name strict))
    (hsteps : g.Steps m.grant m m') (hv : g.Stored m'.bounds v) :
    g.Runs A m' (target.initReferenced v) fun _ _ => True := by
  refine Value.initReferenced_runs (hwithin.mono (hsteps.bounds hm)) hv fun hc => ?_
  obtain ⟨strict, rfl⟩ := htarget hc
  have hbinds := (hnames.binds hc).steps hm hsteps
  exact ⟨env, name, strict, rfl, hbinds.declare hc env rfl name (by simp),
    hbinds.waiting hc env rfl name (by simp)⟩

theorem declareIdentifier_runs {kind : DeclarationKind} {name : String} {init : Option Expression}
    (hinit : g.checked → ∀ e, init = some e → e.Valid)
    (hnames : ∀ constant, kind = .lexical constant → g.Hoists A m env [name]) :
    g.Runs A m (ev.declarator kind ⟨.identifier name, init⟩) fun _ _ => True := by
  refine .of_sound fun hm => ?_
  cases kind with
  | var =>
    cases init with
    | none => exact .pure trivial
    | some e =>
      refine .query (resolveBinding_asks (by simp)) fun target _ htarget => ?_
      refine .bind (valueNamed_runs hev fun hc => hinit hc e rfl) fun v m₁ _ hsteps _ hv => ?_
      exact Value.putValue_runs (hsteps.operand hm htarget) hv
  | lexical constant =>
    have hnames := hnames constant rfl
    cases init with
    | none =>
      refine .query (resolveDeclared_asks hnames) fun target _ ⟨hwithin, htarget⟩ => ?_
      exact initDeclared_runs hm hnames hwithin htarget .refl (.undefined _)
    | some e =>
      refine .query (resolveDeclared_asks hnames) fun target _ ⟨hwithin, htarget⟩ => ?_
      exact .bind (valueNamed_runs hev fun hc => hinit hc e rfl)
        fun v m₁ _ hsteps _ hv => initDeclared_runs hm hnames hwithin htarget hsteps hv

omit hev in
theorem declarator_of_pattern {pattern : Pattern} (hidentifier : pattern.isIdentifier = false)
    (kind : DeclarationKind) (e : Expression) :
    ev.declarator kind ⟨pattern, some e⟩ = (do
      let value ← ev.value e
      let env ←
        match kind with
        | .var => pure none
        | .lexical _ => do pure (some (← lexicalEnv))
      ev.bindPattern env pattern value) := by
  cases pattern with
  | identifier name => cases hidentifier
  | _ => rfl

theorem declarePattern_runs {kind : DeclarationKind} {pattern : Pattern} {e : Expression}
    (hidentifier : pattern.isIdentifier = false) (hpattern : g.checked → pattern.Valid)
    (he : g.checked → e.Valid)
    (hnames : ∀ constant, kind = .lexical constant → g.Hoists A m env pattern.boundNames) :
    g.Runs A m (ev.declarator kind ⟨pattern, some e⟩) fun _ _ => True := by
  refine .of_sound fun hm => ?_
  rw [declarator_of_pattern hidentifier]
  refine .bind (value_runs hev he) fun v m₁ hrun hsteps hm₁ hv => ?_
  cases kind with
  | var => exact bindPattern_runs hev A m₁ none pattern v hpattern (.none g A m₁ _) hv
  | lexical constant =>
    have hhoists := (hnames constant rfl).steps hm hsteps
      ((value_keepsStack hev.restores e).lexicalEnv hrun)
    refine .query (lexicalEnv_asks) fun env' hrun' hwithin => ?_
    refine bindPattern_runs hev A m₁ (some env') pattern v hpattern ?_ hv
    by_cases hc : g.checked
    · rw [hhoists.scope hc] at hrun'
      cases hrun'
      exact hhoists.binds hc
    · exact ⟨fun e he => by cases he; exact hwithin, (absurd · hc), (absurd · hc), (absurd · hc)⟩

theorem declarator_runs {kind : DeclarationKind} {d : Declarator} (hd : g.checked → d.Valid)
    (hnames : ∀ constant, kind = .lexical constant → g.Hoists A m env d.pattern.boundNames) :
    g.Runs A m (ev.declarator kind d) fun _ _ => True := by
  obtain ⟨pattern, init⟩ := d
  have hpattern (hc : g.checked) : pattern.Valid := by
    cases hd hc
    assumption
  have hinit (hc : g.checked) : ∀ e, init = some e → e.Valid := by
    cases hd hc
    assumption
  have hsome (hc : g.checked) : pattern.isIdentifier = false → init.isSome = true := by
    cases hd hc
    assumption
  cases hidentifier : pattern.isIdentifier with
  | true =>
    cases pattern with
    | identifier name =>
      unfold Pattern.boundNames at hnames
      exact declareIdentifier_runs hev hinit hnames
    | _ => cases hidentifier
  | false =>
    cases init with
    | some e => exact declarePattern_runs hev hidentifier hpattern (fun hc => hinit hc e rfl) hnames
    | none =>
      cases pattern with
      | identifier name => cases hidentifier
      | _ => exact .breach _ fun hc => by simpa using hsome hc hidentifier

/-- The names of a declaration get their values from left to right. -/
theorem declare_runs {kind : DeclarationKind} {declarators : List Declarator}
    (hds : g.checked → ∀ d ∈ declarators, d.Valid)
    (hnames : ∀ constant, kind = .lexical constant →
      g.Hoists A m env (declarators.flatMap (·.pattern.boundNames))) :
    g.Runs A m (ev.declare kind declarators) fun _ _ => True := by
  induction declarators generalizing m with
  | nil => exact .pure trivial
  | cons d rest ih =>
    have hd (hc : g.checked) : d.Valid := hds hc d (by simp)
    have hrest (hc : g.checked) (d' : Declarator) (hd' : d' ∈ rest) : d'.Valid :=
      hds hc d' (by simp [hd'])
    cases kind with
    | var =>
      have hnone (constant : Bool) (h : DeclarationKind.var = .lexical constant) :
          g.Hoists m.grant m env d.pattern.boundNames := by cases h
      exact .bind (declarator_runs hev hd hnone) fun _ m₁ _ _ _ _ => ih hrest (by simp)
    | lexical constant =>
      have hnames := hnames constant rfl
      rw [List.flatMap_cons] at hnames
      refine .bindHoisted hnames (fun B hB => declarator_runs hev hd fun _ _ => hB)
        (declarator_keepsStack hev.restores _ d).frame fun _ m₁ _ _ _ _ hnames₁ => ?_
      exact ih hrest fun _ _ => hnames₁

theorem ifStatement_runs {test : Expression} {consequent : Statement} {alternate : Option Statement}
    (ht : g.checked → test.Valid) (hc : g.checked → consequent.Valid j [])
    (hcn : g.checked → consequent.letNames = [])
    (ha : g.checked → ∀ s, alternate = some s → s.Valid j [])
    (han : g.checked → ∀ s, alternate = some s → s.letNames = [])
    (hscope : g.checked → lexicalEnv m = .ok env) :
    g.Runs A m (ev.ifStatement test consequent alternate) fun m' c => g.Ends m' j c := by
  refine .bind (value_runs hev ht) fun v m₁ hrun _ _ _ => ?_
  have hscope₁ := value_scope hev hrun hscope
  split
  · refine .seq (inner_runs hev hc hcn hscope₁) fun c m₂ _ _ _ hends => ?_
    exact .pure (hends.updateEmpty (.undefined g _))
  · cases alternate with
    | none => exact .pure (.undefined g _)
    | some s =>
      refine .seq (inner_runs hev (fun hc => ha hc s rfl) (fun hc => han hc s rfl) hscope₁) ?_
      exact fun c m₂ _ _ _ hends => .pure (hends.updateEmpty (.undefined g _))

theorem matchingClauses_runs {input : Value} {clauses : List SwitchClause}
    (hclauses : g.checked → ∀ clause ∈ clauses, clause.Valid j) :
    g.Runs A m (ev.matchingClauses input clauses) fun _ r => ∀ selected, r = some selected →
      selected <:+ clauses := by
  induction clauses generalizing m with
  | nil => exact .pure (by simp)
  | cons clause rest ih =>
    have hrest (hc : g.checked) (clause : SwitchClause) (h : clause ∈ rest) : clause.Valid j :=
      hclauses hc clause (by simp [h])
    have hlater : g.Runs A m (ev.matchingClauses input rest) fun _ r => ∀ selected,
        r = some selected → selected <:+ clause :: rest :=
      (ih hrest).imp fun _ _ _ _ h selected hs => (h selected hs).trans (List.suffix_cons _ _)
    obtain ⟨test, body⟩ := clause
    cases test with
    | none => exact hlater
    | some test =>
      have htest (hc : g.checked) : test.Valid := by
        cases hclauses hc ⟨some test, body⟩ (by simp) with
        | mk ht hb => exact ht test rfl
      refine .bind (value_runs hev htest) fun v m₁ _ _ _ _ => ?_
      split
      · refine .pure fun selected hs => ?_
        cases hs
        exact List.suffix_refl _
      · exact (ih hrest).imp fun _ _ _ _ h selected hs => (h selected hs).trans (List.suffix_cons _ _)

/-- The clauses of a switch declare the names of their bodies one after the other. -/
theorem runClauses_runs {clauses : List SwitchClause} {last : Value}
    (hclauses : g.checked → ∀ clause ∈ clauses, clause.Valid j)
    (hnames : g.Hoists A m env (clauses.flatMap fun clause => clause.body.flatMap Statement.letNames))
    (hlast : g.Stored m.bounds last) :
    g.Runs A m (ev.runClauses clauses last) fun m' c => g.Ends m' j.switch c := by
  induction clauses generalizing m last with
  | nil => exact .pure fun _ h => by cases h; exact hlast
  | cons clause rest ih =>
    have hbody (hc : g.checked) : ∀ s ∈ clause.body, s.Valid j.switch [] := by
      cases hclauses hc clause (by simp)
      assumption
    rw [List.flatMap_cons] at hnames
    refine .bindHoisted hnames (fun B hB => statements_runs hev hbody hB fun _ h => by cases h)
      (statements_fixes_frame hev.restores _ _) fun c m₁ _ _ hb hends hnames₁ => ?_
    have hlast₁ : g.Stored m₁.bounds (c.value?.getD last) := hends.value.getD (hlast.mono hb)
    dsimp only
    split
    · exact .pure (hends.updateEmpty fun _ h => by cases h; exact hlast₁)
    · exact ih (fun hc clause h => hclauses hc clause (by simp [h])) hnames₁ hlast₁

theorem caseBlock_runs {clauses : List SwitchClause} {input : Value}
    (hclauses : g.checked → ∀ clause ∈ clauses, clause.Valid j)
    (hnames : g.Hoists A m env (clauses.flatMap fun clause => clause.body.flatMap Statement.letNames)) :
    g.Runs A m (ev.caseBlock clauses input) fun m' c => g.Ends m' j.switch c := by
  refine .of_sound fun hm => .bind (matchingClauses_runs hev hclauses) fun r m₁ hrun hsteps _ hr => ?_
  have hscope := (matchingClauses_keepsStack hev.restores input clauses).lexicalEnv hrun
  have hnames₁ := hnames.steps hm hsteps hscope
  have hselected (selected : List SwitchClause) (hs : selected <:+ clauses) :
      g.Runs A m₁ (ev.runClauses selected .undefined) fun m' c => g.Ends m' j.switch c := by
    obtain ⟨skipped, rfl⟩ := hs
    rw [List.flatMap_append] at hnames₁
    exact runClauses_runs hev (fun hc clause h => hclauses hc clause (by simp [h])) hnames₁.right
      (.undefined _)
  cases r with
  | some selected => exact hselected selected (hr selected rfl)
  | none => exact hselected _ (List.dropWhile_suffix _)

theorem switchStatement_runs {discriminant : Expression} {clauses : List SwitchClause}
    (hd : g.checked → discriminant.Valid)
    (hclauses : g.checked → ∀ clause ∈ clauses, clause.Valid j)
    (hdistinct : g.checked → LexicalDeclaration.Distinct
      (clauses.flatMap fun clause => Body.lexicallyScoped clause.body false)) :
    g.Runs A m (ev.switchStatement discriminant clauses) fun m' c => g.Ends m' j.switch c := by
  have hnames : LexicalDeclaration.letNames
      (clauses.flatMap fun clause => Body.lexicallyScoped clause.body false) =
      clauses.flatMap fun clause => clause.body.flatMap Statement.letNames := by
    simp only [LexicalDeclaration.letNames, List.filter_flatMap, List.flatMap_assoc, Body.flatMap_letNames]
  refine .bind (value_runs hev hd) fun input m₁ _ _ _ _ => ?_
  refine withBlockScope_runs (fun hc code hcode => ?_) hdistinct (fun m₂ env _ hhoists => ?_)
    fun m' c cs h => h.withContexts cs
  · obtain ⟨clause, hclause, hmem⟩ := List.mem_flatMap.mp hcode
    obtain ⟨s, hs, hfunction⟩ := List.mem_flatMap.mp hmem
    cases hclauses hc clause hclause with
    | mk ht hb => exact (hb s hs).lexicalFunction hfunction
  · rw [hnames] at hhoists
    exact caseBlock_runs hev hclauses hhoists

theorem catchClause_runs {handler : CatchClause} {value : Value} (hh : g.checked → handler.Valid j)
    (hv : g.Stored m.bounds value) :
    g.Runs A m (ev.catchClause handler value) fun m' c => g.Ends m' j c := by
  obtain ⟨parameter, body⟩ := handler
  have hbody (hc : g.checked) : ∀ s ∈ body, s.Valid j [] := by
    cases hh hc
    assumption
  have hdistinct (hc : g.checked) : LexicalDeclaration.Distinct (Body.lexicallyScoped body false) := by
    cases hh hc
    assumption
  refine .completing ?_ fun m' v hv => hv
  cases parameter with
  | none => exact block_runs hev hbody hdistinct
  | some p =>
    have hp (hc : g.checked) : p.Valid := by
      cases hh hc with
      | mk hp hnames hb hdistinct => exact hp p rfl
    have hnodup (hc : g.checked) : p.boundNames.Nodup := by
      cases hh hc with
      | mk hp hnames hb hdistinct => exact hnames p rfl
    refine .of_sound fun hm => .query lexicalEnv_asks fun outer _ houter => ?_
    refine .seq (newDeclarativeEnvironment_opens houter) fun env m₁ _ hsteps₁ hm₁ ⟨hopen, _⟩ => ?_
    refine .seq (Contract.Creates.forM g.lasts_free env.createMutable_creates hnodup A m₁ hopen.within
      (fun hc n _ => hopen.declare hc n) fun _ n _ => hopen.free n) fun _ m₂ _ hsteps₂ hm₂ hwaiting => ?_
    have hb₂ := Bounds.le_trans (hsteps₁.bounds hm) (hsteps₂.bounds hm₁)
    refine withScope_runs (hopen.binds hm₁ hsteps₂ hnodup hwaiting) (fun m₃ hb₃ _ hbinds => ?_)
      fun m' c cs h => h.withContexts cs
    refine .seq (bindPattern_runs hev A m₃ (some env) p value hp hbinds (hb₃ ▸ hv.mono hb₂)) ?_
    exact fun _ m₄ _ _ _ _ => block_runs hev hbody hdistinct

theorem guarded_runs {body : List Statement} {handler : Option CatchClause}
    (hbody : g.checked → ∀ s ∈ body, s.Valid j [])
    (hdistinct : g.checked → LexicalDeclaration.Distinct (Body.lexicallyScoped body false))
    (hh : g.checked → ∀ clause, handler = some clause → clause.Valid j) :
    g.Runs A m (ev.guarded body handler) fun m' c => g.Ends m' j c := by
  refine .bind (block_runs hev hbody hdistinct) fun c m₁ _ _ _ hends => ?_
  cases c with
  | thrown v =>
    cases handler with
    | none => exact .pure hends
    | some clause => exact catchClause_runs hev (fun hc => hh hc clause rfl) hends
  | _ => exact .pure hends

theorem tryStatement_runs {body : List Statement} {handler : Option CatchClause}
    {finalizer : Option (List Statement)} (hbody : g.checked → ∀ s ∈ body, s.Valid j [])
    (hdistinct : g.checked → LexicalDeclaration.Distinct (Body.lexicallyScoped body false))
    (hh : g.checked → ∀ clause, handler = some clause → clause.Valid j)
    (hf : g.checked → ∀ last, finalizer = some last → ∀ s ∈ last, s.Valid j [])
    (hfdistinct : g.checked → ∀ last, finalizer = some last →
      LexicalDeclaration.Distinct (Body.lexicallyScoped last false)) :
    g.Runs A m (ev.tryStatement body handler finalizer) fun m' c => g.Ends m' j c := by
  refine .bind (guarded_runs hev hbody hdistinct hh) fun c m₁ _ _ hm₁ hends => ?_
  cases finalizer with
  | none => exact .pure (hends.updateEmpty (.undefined g _))
  | some last =>
    refine .bind (block_runs hev (fun hc => hf hc last rfl) fun hc => hfdistinct hc last rfl)
      fun c₂ m₂ _ hsteps _ hends₂ => ?_
    cases c₂ with
    | normal v => exact .pure ((hends.mono (hsteps.bounds hm₁)).updateEmpty (.undefined g _))
    | _ => exact .pure (hends₂.updateEmpty (.undefined g _))

theorem withStatement_runs {object : Expression} {body : Statement} (ho : g.checked → object.Valid)
    (hb : g.checked → body.Valid j []) (hnames : g.checked → body.letNames = []) :
    g.Runs A m (ev.withStatement object body) fun m' c => g.Ends m' j c := by
  refine .bind (value_runs hev ho) fun v m₁ _ _ hm₁ hv => ?_
  refine .bind (Value.toObject_runs hv.1) fun o _ _ _ _ hobject => ?_
  obtain ⟨hm', ho⟩ := hobject
  subst hm'
  refine .query lexicalEnv_asks fun outer _ houter => ?_
  refine .bind (newObjectEnvironment_runs ho (fun e he => by cases he; exact houter) fun _ => rfl) ?_
  rintro env m₂ - - - ⟨hm₂, henv⟩
  have hwithin : env.Within m₂.bounds := by
    subst hm₂ henv
    exact Machine.within_of_env? (by rw [Machine.env?_pushEnv, if_pos rfl])
  have hbinds : g.Binds A m₂ (some env) [] := .nil hwithin
  refine .seq (withScope_runs hbinds (fun m₃ _ hscope _ => inner_runs hev hb hnames fun _ => hscope)
    fun m' c cs h => h.withContexts cs) fun c m₄ _ _ _ hends => ?_
  exact .pure (hends.updateEmpty (.undefined g _))

/-- A labelled statement adds its label to those before the statement it labels. -/
theorem labelledStatement_runs {label : String} {body : Statement} {attached : List String}
    (hbody : g.checked → body.Valid (j.label label) (attached ++ [label]))
    (hlabels : g.checked → ∀ l ∈ attached, l ∈ m.labels) (hnames : g.Hoists A m env body.letNames) :
    g.Runs A m (ev.labelledStatement label body) fun m' c => g.Ends m' j c := by
  refine .bind (modifyContext_runs fun c hc =>
    ⟨hc.realm, hc.function, hc.lexicalEnv, hc.variableEnv, hc.privateEnv⟩) ?_
  rintro _ m₁ - - hm₁ ⟨c, cs, hcontexts, rfl⟩
  have hscope (hc : g.checked) : lexicalEnv m = .ok c.lexicalEnv := lexicalEnv_cons hcontexts
  have hnames₁ : g.Hoists A (m.withContexts ({ c with labels := c.labels ++ [label] } :: cs)) env
      body.letNames := by
    refine ⟨fun hc => ?_, fun hc => (hnames.binds hc).withContexts _⟩
    rw [← hnames.scope hc, hscope hc]
    exact lexicalEnv_cons (c := { c with labels := c.labels ++ [label] }) (show _ = _ :: cs from rfl)
  refine .seq (hev.statement A _ env (j.label label) (attached ++ [label]) body hbody (fun hc l hl => ?_)
    hnames₁) fun c₂ m₂ _ _ _ hends => ?_
  · rw [Machine.labels_cons (c := { c with labels := c.labels ++ [label] }) (show _ = _ :: cs from rfl)]
    rcases List.mem_append.mp hl with hl | hl
    · have hmem := hlabels hc l hl
      rw [Machine.labels_cons hcontexts] at hmem
      exact List.mem_append_left _ hmem
    · exact List.mem_append_right _ hl
  cases c₂ with
  | broke target v =>
    cases target with
    | none => exact .pure (hends.unlabel (by simp))
    | some target =>
      dsimp only
      split
      · exact .pure hends.1
      · rename_i hne
        exact .pure (hends.unlabel fun w h => hne (by cases h; simp))
  | _ => exact .pure (hends.unlabel (by simp))

end Evaluator

end EcmaEval
