import EcmaEval.Proofs.Scope.Basic

/-!
# Functions in scoped machines

Declaring names, making functions and calling them. A function closes over an environment with a
`this`. Between the start of a call and the setting of its `this`, the machine is scoped but for the
context of the call; nothing but the setting of `this` runs there.
-/
namespace EcmaEval

variable {gains : Growth} {final m m' m₀ : Machine}

namespace EnvId

variable {env : EnvId} {name : String}

/-- A new name in a record. Only a global environment has to be allowed to gain it. -/
theorem create_advances (hm : m.IsScoped) {e : Environment} {r : DeclarativeRecord}
    (he : m.env? env = some e) (hr : e.record? = some r) (h : m.IsLocal env ∨ gains.lexical env name)
    (isMutable deletable strict : Bool) :
    m.Advances gains
      (settle (r.create name isMutable deletable strict) >>= fun r' => env.store (e.withRecord r')) := by
  refine .settle_bind hm fun r' hr' => .store hm he ?_
  obtain ⟨-, rfl⟩ := DeclarativeRecord.create_ok hr'
  cases e with
  | declarative r =>
    cases hr
    exact .declarative rfl (.inl rfl)
  | object s => cases hr
  | global g =>
    cases hr
    refine .global rfl (fun key hkey => ?_) fun _ => .inl
    by_cases hname : key = name
    · exact .inr (hname ▸ h.resolve_left fun hlocal => hlocal ⟨g, he⟩)
    · simp only [DeclarativeRecord.has, DeclarativeRecord.get?_cons, if_neg hname] at hkey
      exact .inl hkey

@[grind ←] theorem createMutable_agree (deletable : Bool) (h : m₀.IsLocal env ∨ gains.lexical env name) :
    Agree gains final m₀ (env.createMutable name deletable) (env.createMutable name deletable) := by
  refine .of_advances fun m hlater hm => .load_bind hm fun e he => ?_
  have hname := h.imp_left (·.later hlater)
  cases e with
  | declarative r => exact create_advances hm he rfl hname _ _ _
  | object s =>
    have hstays := ObjectScope.createMutable_stays (R := .still) (holds_of_isFree s) name deletable
    exact .quiet hm (Eval.Quiet.of_stays hstays m)
  | global g =>
    dsimp only
    split
    · exact .quiet hm (Eval.Quiet.complain _ m)
    · exact create_advances hm he rfl hname _ _ _

@[grind ←] theorem createImmutable_agree (strict : Bool) (h : m₀.IsLocal env ∨ gains.lexical env name) :
    Agree gains final m₀ (env.createImmutable name strict) (env.createImmutable name strict) := by
  refine .of_advances fun m hlater hm => .load_bind hm fun e he => ?_
  have hname := h.imp_left (·.later hlater)
  cases e with
  | declarative r => exact create_advances hm he rfl hname _ _ _
  | object s => exact .quiet hm (Eval.Quiet.breach _ m)
  | global g =>
    dsimp only
    split
    · exact .quiet hm (Eval.Quiet.complain _ m)
    · exact create_advances hm he rfl hname _ _ _

@[grind ←] theorem createLexical_agree (constant : Bool) (h : m₀.IsLocal env ∨ gains.lexical env name) :
    Agree gains final m₀ (env.createLexical constant name) (env.createLexical constant name) := by
  unfold createLexical
  grind

end EnvId

section Declare

variable {env : EnvId}

theorem declareLexical_agree {declarations : List LexicalDeclaration}
    (h : m₀.IsLocal env ∨ ∀ d ∈ declarations, ∀ name ∈ d.boundNames, gains.lexical env name) :
    Agree gains final m₀ (declareLexical env declarations) (declareLexical env declarations) := by
  refine .forM fun d hd m₁ h₁ => .forM fun name hname m₂ h₂ => env.createLexical_agree _ ?_
  exact h.imp (fun hlocal => (hlocal.later h₁).later h₂) fun hnames => hnames d hd name hname

theorem declareParameters_agree (henv : m₀.IsLocal env) (repeated : Bool) (names : List String) :
    Agree gains final m₀ (declareParameters env repeated names) (declareParameters env repeated names) := by
  refine .forM fun name _ m₁ h₁ => ?_
  grind

theorem declareInitialized_agree (henv : m₀.IsLocal env) {initial : String → Eval Value}
    (hinitial : ∀ name, (initial name).Quiet) (names : List String) :
    Agree gains final m₀ (declareInitialized env initial names) (declareInitialized env initial names) := by
  refine .forM fun name _ m₁ h₁ => ?_
  refine .bind (env.createMutable_agree _ (.inl (henv.later h₁))) fun _ _ _ => ?_
  exact .bind (.quiet (hinitial name)) fun _ _ _ => .quiet (by grind)

end Declare

@[grind ←] theorem newFunction_agree (code : FunctionCode) {env : EnvId} (henv : m₀.HasThisAt env)
    (privateEnv : Option EnvId) :
    Agree gains final m₀ (newFunction code env privateEnv) (newFunction code env privateEnv) := by
  have hallocate (m₁ : Machine) (h₁ : m₀.Extends gains m₁) (object : Object)
      (hobject : ∀ slots, object.closure? = some slots → slots.environment = env) :
      Agree gains final m₁ (allocate object) (allocate object) := by
    refine .of_advances fun m h hm => .of_ok rfl (Machine.IsScoped.pushObject_extends m object) ?_
    refine hm.pushObject fun slots hslots => ?_
    rw [hobject slots hslots]
    exact (henv.later h₁).later h
  unfold newFunction
  refine .bind (.quiet (.lift _)) fun m₁ realm h₁ => .bind (.quiet (.lift _)) fun m₂ r h₂ => ?_
  refine .bind (.quiet (.lift _)) fun m₃ strict h₃ => .bind (hallocate m₃ ((h₁.trans h₂).trans h₃) _ ?_) ?_
  · rintro slots ⟨⟩
    rfl
  · exact fun m₄ f _ => .bind (.quiet (by grind)) fun _ _ _ => .pure _

@[grind ←] theorem instantiateDeclaration_agree (code : FunctionCode) {env : EnvId}
    (henv : m₀.HasThisAt env) (privateEnv : Option EnvId) :
    Agree gains final m₀ (instantiateDeclaration code env privateEnv)
      (instantiateDeclaration code env privateEnv) := by
  unfold instantiateDeclaration
  grind

@[grind ←] theorem instantiateExpression_agree (code : FunctionCode) (name : Option Key) :
    Agree gains final m₀ (instantiateExpression code name) (instantiateExpression code name) := by
  unfold instantiateExpression
  cases code.ownName? with
  | none => grind
  | some ownName =>
    refine .lexicalEnv_bind fun m₁ scope h₁ hscope => .bind (.quiet (.lift _)) fun m₂ c h₂ => ?_
    refine .newDeclarativeEnvironment_bind (hscope.later h₂).isOuter fun m₃ env h₃ henv hlocal => ?_
    refine .bind (env.createImmutable_agree _ (.inl hlocal)) fun m₄ _ h₄ => ?_
    refine .bind (newFunction_agree code (henv.later h₄).hasThisAt _) fun m₅ f h₅ => ?_
    exact .quiet (.bind (by grind) fun _ => .bind (by grind) fun _ => .pure _)

@[grind ←] theorem instantiateMethod_agree (code : FunctionCode) (name : String) :
    Agree gains final m₀ (instantiateMethod code name) (instantiateMethod code name) := by
  unfold instantiateMethod
  grind

@[grind ←] theorem instantiateArrow_agree (code : FunctionCode) (name : Option Key) :
    Agree gains final m₀ (instantiateArrow code name) (instantiateArrow code name) :=
  instantiateMethod_agree _ _

/-- The evaluators do the same for every part, under way to the final machine. -/
structure Evaluator.Agrees (gains : Growth) (final : Machine) (ev ev' : Evaluator) : Prop where
  expression : ∀ m₀ e, Agree gains final m₀ (ev.expression e) (ev'.expression e)
  statement : ∀ m₀ s, Agree gains final m₀ (ev.statement s) (ev'.statement s)

namespace Evaluator

variable {ev ev' : Evaluator} (hev : ev.Agrees gains final ev')

include hev

@[grind ←] theorem expression_agree (e : Expression) :
    Agree gains final m₀ (ev.expression e) (ev'.expression e) := hev.expression m₀ e

@[grind ←] theorem statement_agree (s : Statement) :
    Agree gains final m₀ (ev.statement s) (ev'.statement s) := hev.statement m₀ s

@[grind ←] theorem value_agree (e : Expression) : Agree gains final m₀ (ev.value e) (ev'.value e) := by
  unfold value
  grind

@[grind ←] theorem valueNamed_agree (e : Expression) (name : Key) :
    Agree gains final m₀ (ev.valueNamed e name) (ev'.valueNamed e name) := by
  unfold valueNamed
  cases e <;> grind

@[grind ←] theorem values_agree (es : List Expression) :
    Agree gains final m₀ (ev.values es) (ev'.values es) := by
  induction es generalizing m₀ with
  | nil => exact .pure _
  | cons e rest ih =>
    unfold values
    grind

@[grind ←] theorem statements_agree (body : List Statement) (last : Option Value) :
    Agree gains final m₀ (ev.statements body last) (ev'.statements body last) := by
  induction body generalizing m₀ last with
  | nil => exact .pure _
  | cons s rest ih =>
    refine .bind (hev.statement m₀ s) fun m₁ completion h₁ => ?_
    cases completion with
    | normal value => exact ih _
    | _ => exact .pure _

@[grind ←] theorem memberKey_agree (name : MemberName) :
    Agree gains final m₀ (ev.memberKey name) (ev'.memberKey name) := by
  unfold memberKey
  cases name <;> grind

mutual

theorem bindPattern_agree (env : Option EnvId) (p : Pattern) (value : Value) (m₀ : Machine) :
    Agree gains final m₀ (ev.bindPattern env p value) (ev'.bindPattern env p value) := by
  cases p with
  | identifier name =>
    have hquiet : (bindName env name value).Quiet := by grind
    exact .quiet hquiet
  | array elements => exact .quiet (.unsupported _)
  | object members =>
    have hmembers (source : ObjectId) := bindMembers_agree env source members []
    unfold bindPattern
    grind
  | withDefault target default =>
    have htarget := bindPattern_agree env target
    unfold bindPattern
    split
    · cases target <;> grind
    · grind
  | rest target => exact .quiet (.breach _)

theorem bindMembers_agree (env : Option EnvId) (source : ObjectId) (members : List PatternMember)
    (taken : List Key) (m₀ : Machine) :
    Agree gains final m₀ (ev.bindMembers env source members taken) (ev'.bindMembers env source members taken) := by
  cases members with
  | nil => exact .pure _
  | cons member rest =>
    have hrest := bindMembers_agree env source rest
    cases member with
    | keyed name target =>
      have htarget := bindPattern_agree env target
      unfold bindMembers
      grind
    | shorthand name default =>
      unfold bindMembers
      cases default <;> grind
    | rest name =>
      unfold bindMembers
      grind

end

theorem bindParameters_agree (env : Option EnvId) (parameters : List Pattern) (arguments : List Value) :
    Agree gains final m₀ (ev.bindParameters env parameters arguments)
      (ev'.bindParameters env parameters arguments) := by
  induction parameters generalizing m₀ arguments with
  | nil => exact .pure _
  | cons p rest ih =>
    have hpattern := bindPattern_agree hev env
    unfold bindParameters
    cases p <;> grind

omit hev in
theorem bindArguments_agree {env : EnvId} (henv : m₀.IsLocal env) (f : ObjectId)
    (slots : FunctionSlots) (arguments : List Value) :
    Agree gains final m₀ (bindArguments f slots env arguments) (bindArguments f slots env arguments) := by
  unfold bindArguments
  refine .bind (.quiet (by grind)) fun m₁ o h₁ => ?_
  grind

theorem bindCall_agree {env : EnvId} (henv : m₀.IsLocal env) (f : ObjectId) (slots : FunctionSlots)
    (arguments : List Value) :
    Agree gains final m₀ (ev.bindCall f slots env arguments) (ev'.bindCall f slots env arguments) := by
  have hparameters (m₁ : Machine) (env : Option EnvId) :
      Agree gains final m₁ (ev.bindParameters env slots.code.parameters arguments)
        (ev'.bindParameters env slots.code.parameters arguments) := bindParameters_agree hev _ _ _
  unfold bindCall
  refine .bind (declareParameters_agree henv _ _) fun m₁ _ h₁ => ?_
  have harguments : Agree gains final m₁ (bindArguments f slots env arguments) _ :=
    bindArguments_agree (henv.later h₁) f slots arguments
  grind

omit hev in
theorem parameterEnv_bind {o : ObjectId} (ho : m₀.function? = some o) (slots : FunctionSlots)
    {f f' : EnvId → Eval β}
    (hf : ∀ m₁ env, m₀.Extends gains m₁ → m₁.IsScope env → m₁.IsLocal env →
      Agree gains final m₁ (f env) (f' env)) :
    Agree gains final m₀ (parameterEnv slots >>= f) (parameterEnv slots >>= f') := by
  unfold parameterEnv
  simp only [bind_assoc]
  refine .lexicalEnv_bind fun m₁ callee h₁ hcallee => ?_
  split
  · simp only [pure_bind]
    exact hf m₁ callee h₁ hcallee (hcallee.isLocal (h₁.function?.trans ho))
  · simp only [bind_assoc, pure_bind]
    refine .newDeclarativeEnvironment_bind hcallee.isOuter fun m₂ env h₂ henv hlocal => ?_
    refine .bind (.setLexicalEnv henv) fun m₃ _ h₃ => ?_
    exact hf m₃ env ((h₁.trans h₂).trans h₃) (henv.later h₃) (hlocal.later h₃)

omit hev in
theorem bindVariables_bind {env : EnvId} (henv : m₀.IsScope env) (hlocal : m₀.IsLocal env)
    (slots : FunctionSlots) (names : List String) {f f' : EnvId → Eval β}
    (hf : ∀ m₁ env, m₀.Extends gains m₁ → m₁.IsScope env → m₁.IsLocal env →
      Agree gains final m₁ (f env) (f' env)) :
    Agree gains final m₀ (bindVariables slots env names >>= f) (bindVariables slots env names >>= f') := by
  unfold bindVariables
  dsimp only
  split
  · simp only [bind_assoc, pure_bind]
    refine .bind (declareInitialized_agree hlocal (fun _ => .pure _) _) fun m₁ _ h₁ => ?_
    exact hf m₁ env h₁ (henv.later h₁) (hlocal.later h₁)
  · simp only [bind_assoc, pure_bind]
    refine .newDeclarativeEnvironment_bind henv.isOuter fun m₁ varEnv h₁ hvarEnv hvarLocal => ?_
    refine .bind (.modifyContext (fun _ => rfl) fun _ _ _ => id) fun m₂ _ h₂ => ?_
    refine .bind (declareInitialized_agree (hvarLocal.later h₂)
      (by grind) _) fun m₃ _ h₃ => ?_
    exact hf m₃ varEnv ((h₁.trans h₂).trans h₃) ((hvarEnv.later h₂).later h₃)
      ((hvarLocal.later h₂).later h₃)

omit hev in
theorem enterBody_agree {varEnv : EnvId} (henv : m₀.IsScope varEnv) (hlocal : m₀.IsLocal varEnv)
    (slots : FunctionSlots) :
    Agree gains final m₀ (enterBody slots varEnv) (enterBody slots varEnv) := by
  have hrest (m₁ : Machine) (lexEnv : EnvId) (hlexEnv : m₁.IsScope lexEnv)
      (hlexLocal : m₁.IsLocal lexEnv) : Agree gains final m₁
      (do setLexicalEnv lexEnv
          declareLexical lexEnv (Body.lexicallyScoped slots.code.statements true)
          bindFunctions slots lexEnv varEnv)
      (do setLexicalEnv lexEnv
          declareLexical lexEnv (Body.lexicallyScoped slots.code.statements true)
          bindFunctions slots lexEnv varEnv) := by
    refine .bind (.setLexicalEnv hlexEnv) fun m₂ _ h₂ => ?_
    refine .bind (declareLexical_agree (.inl (hlexLocal.later h₂))) fun m₃ _ h₃ => ?_
    refine .bind (.quiet (.lift _)) fun m₄ c h₄ => .forM fun code _ m₅ h₅ => ?_
    have hthis := (((hlexEnv.later h₂).later h₃).later h₄).later h₅ |>.hasThisAt
    exact .bind (instantiateDeclaration_agree code hthis _) fun _ f _ => .quiet (by grind)
  unfold enterBody
  split
  · simp only [pure_bind]
    exact hrest m₀ varEnv henv hlocal
  · exact .newDeclarativeEnvironment_bind henv.isOuter fun m₁ lexEnv _ => hrest m₁ lexEnv

theorem functionBody_agree {f : ObjectId} (hf : m₀.function? = some f) (slots : FunctionSlots)
    (arguments : List Value) :
    Agree gains final m₀ (ev.functionBody f slots arguments) (ev'.functionBody f slots arguments) := by
  have henter : Agree gains final m₀ (ev.instantiateFunction f slots arguments)
      (ev'.instantiateFunction f slots arguments) := by
    refine parameterEnv_bind hf slots fun m₁ env h₁ henv hlocal => ?_
    refine .bind (bindCall_agree hev hlocal f slots arguments) fun m₂ _ h₂ => ?_
    refine bindVariables_bind (henv.later h₂) (hlocal.later h₂) slots _ fun m₃ varEnv h₃ hvarEnv hvarLocal => ?_
    exact enterBody_agree hvarEnv hvarLocal slots
  refine .completing (.bind henter fun m₁ _ h₁ => ?_)
  cases slots.code.body with
  | block body => exact statements_agree hev body none
  | concise e => exact .bind (value_agree hev e) fun _ _ _ => .pure _

end Evaluator

/-- The environment of a call of a function. -/
def FunctionSlots.callEnvironment (slots : FunctionSlots) (f : ObjectId) (newTarget : Value) :
    DeclarativeRecord where
  outer := some slots.environment
  call := some
    { thisValue := .undefined
      thisStatus := if slots.thisMode == .lexical then .lexical else .uninitialized
      function := f
      newTarget }

/-- The function has these slots, up to whether it is a constructor. -/
def Machine.Closes (m : Machine) (f : ObjectId) (slots : FunctionSlots) : Prop :=
  m.closure? f = some { slots with isConstructor := false }

@[grind →] theorem Machine.Closes.later {f : ObjectId} {slots : FunctionSlots} (h : m.Closes f slots)
    (hm : m.Extends gains m') : m'.Closes f slots := hm.closures f _ h

theorem newFunctionEnvironment_eq {f : ObjectId} {slots : FunctionSlots} (hf : m.Closes f slots)
    (newTarget : Value) :
    newFunctionEnvironment f newTarget m =
      .ok ⟨m.environments.size⟩ (m.pushEnv (.declarative (slots.callEnvironment f newTarget))) := by
  obtain ⟨obj, hobj, hslots⟩ := Option.bind_eq_some_iff.mp hf
  unfold newFunctionEnvironment
  rw [bind_ok (lift_ok (ObjectId.load_eq hobj))]
  unfold Object.closure? at hslots
  split at hslots
  · rename_i slots' hkind
    simp only [Option.some.injEq, FunctionSlots.mk.injEq] at hslots
    obtain ⟨-, henv, -, -, hmode, -⟩ := hslots
    simp only [hkind, FunctionSlots.callEnvironment, henv, hmode]
    rfl
  · cases hslots

/-- The machine without its running context. -/
def Machine.popped (m : Machine) : Machine := m.withContexts m.callers

theorem Machine.Extends.popped (h : m.Extends gains m') : m.popped.Extends gains m'.popped where
  closures := h.closures
  environments := h.environments
  functions := by
    have htails := congrArg List.tail h.functions
    rw [← List.map_tail, ← List.map_tail] at htails
    exact htails
  realms := h.realms
  globals := h.globals

theorem Machine.IsScoped.popped (hm : m.IsScoped) : m.popped.IsScoped :=
  hm.withContexts fun c hc => hm.contexts c (List.mem_of_mem_tail hc)

/-- What is run in the context is left without the context. -/
theorem withContext_after (context : Context) (x : Eval α) (h : ¬ m.stackLimit ≤ m.contexts.length) :
    (withContext context x).after m = (x.after (m.withContexts (context :: m.contexts))).popped := by
  unfold Eval.after
  rw [withContext_eq context x h]
  cases hrun : x { m with contexts := context :: m.contexts } <;>
    simp [Machine.withContexts, Machine.popped, Machine.callers, hrun]

section WithContext

variable (hm : m.IsScoped) (context : Context) {x x' : Eval α}

include hm

theorem withContext_advances (hx : m.Extends gains (x.after (m.withContexts (context :: m.contexts))).popped ∧
      (x.after (m.withContexts (context :: m.contexts))).popped.IsScoped) :
    m.Advances gains (withContext context x) := by
  by_cases hfull : m.stackLimit ≤ m.contexts.length
  · obtain ⟨e, m', hfails, hrun⟩ := withContext_of_full context hfull
    have hquiet : m.Quiet m' := (Eval.Quiet.complain _ m).error hfails
    exact .of_error (hrun x) (.of_quiet hquiet) (hm.quiet hquiet)
  · unfold Machine.Advances
    rwa [withContext_after context x hfull]

/-- A run with a context of its own, from what the run does there. -/
theorem withContext_agree (hx : let m₁ := m.withContexts (context :: m.contexts)
      ((x.after m₁).popped.Persists gains final → x' m₁ = x m₁) ∧
        m.Extends gains (x.after m₁).popped ∧ (x.after m₁).popped.IsScoped) :
    (((withContext context x).after m).Persists gains final →
        withContext context x' m = withContext context x m) ∧ m.Advances gains (withContext context x) := by
  refine ⟨fun hfinal => ?_, withContext_advances hm context hx.2⟩
  by_cases hfull : m.stackLimit ≤ m.contexts.length
  · obtain ⟨e, m', -, hrun⟩ := withContext_of_full context hfull
    rw [hrun, hrun]
  · rw [withContext_after context x hfull] at hfinal
    have hsame : x' { m with contexts := context :: m.contexts } =
      x { m with contexts := context :: m.contexts } := hx.1 hfinal
    rw [withContext_eq context x' hfull, withContext_eq context x hfull, hsame]

end WithContext

theorem Machine.Quiet.popped (h : m.Quiet m') : m.popped.Quiet m'.popped where
  contexts := congrArg List.tail h.contexts
  realms := h.realms
  stackLimit := h.stackLimit
  closures := h.closures
  prototypes := h.prototypes
  size := h.size
  environments := h.environments

/-- What holds while a call has no `this` yet: without its context the machine is a later scoped one. -/
structure Machine.Opens (gains : Growth) (m : Machine) (context : Context) (n : Machine) : Prop where
  contexts : n.contexts = context :: m.contexts
  later : m.Extends gains n.popped
  isScoped : n.popped.IsScoped

namespace Machine.Opens

variable {context : Context} {n n' : Machine}

theorem quiet (h : m.Opens gains context n) (hn : n.Quiet n') : m.Opens gains context n' where
  contexts := hn.contexts.trans h.contexts
  later := h.later.trans (.of_quiet hn.popped)
  isScoped := h.isScoped.quiet hn.popped

/-- With an environment for its code, the context of the call belongs to a scoped machine. -/
theorem close (h : m.Opens gains context n)
    (hhosts : n.popped.Hosts context.function context.lexicalEnv) : n.IsScoped := by
  have hself : n.popped.withContexts (context :: m.contexts) = n := by
    rw [← h.contexts]
    rfl
  have hcallers : n.popped.contexts = m.contexts := congrArg List.tail h.contexts
  rw [← hself]
  refine h.isScoped.withContexts fun c hc => ?_
  rcases List.mem_cons.mp hc with rfl | hc
  · exact hhosts
  · exact h.isScoped.contexts c (hcallers ▸ hc)

/-- What runs in the context of a call, once it is closed. -/
theorem run (h : m.Opens gains context n) (hn : n.IsScoped) {x x' : Eval α}
    (hx : Agree gains final n x x') :
    ((x.after n).popped.Persists gains final → x' n = x n) ∧
      m.Extends gains (x.after n).popped ∧ (x.after n).popped.IsScoped := by
  obtain ⟨hsame, hlater, hscoped⟩ := hx n (.refl n) hn
  have hcontexts : n.contexts ≠ [] := by simp [h.contexts]
  refine ⟨fun hfinal => ?_, h.later.trans hlater.popped, hscoped.popped⟩
  exact hsame hcontexts ⟨hfinal.closures, hfinal.environments⟩

end Machine.Opens

section Call

variable {f : ObjectId} {slots : FunctionSlots} {context : Context} {n : Machine}
  {r : DeclarativeRecord} {call : CallSlots}

/-- Setting the `this` of a call that waits for it. -/
theorem bindThis_opens (h : m.Opens gains context n)
    (hr : n.env? context.lexicalEnv = some (.declarative r)) (hcall : r.call = some call)
    (hstatus : call.thisStatus = .uninitialized) (value : Value) :
    ∃ n', (liftM lexicalEnv >>= fun env => env.bindThis value : Eval Unit) n = .ok () n' ∧
      m.Opens gains context n' ∧ n'.popped.ThisAt context.lexicalEnv value ∧
      ¬ n'.popped.IsGlobal context.lexicalEnv := by
  let e' : Environment :=
    .declarative { r with call := some { call with thisValue := value, thisStatus := .initialized } }
  have hrun : (liftM lexicalEnv >>= fun env => env.bindThis value : Eval Unit) n =
      .ok () (n.storeEnv context.lexicalEnv e') := by
    rw [bind_ok (lift_ok (lexicalEnv_cons h.contexts))]
    unfold EnvId.bindThis
    rw [bind_ok (lift_ok (EnvId.load_eq hr))]
    obtain ⟨outer, bindings, slots⟩ := r
    cases hcall
    simp only [hstatus]
    exact EnvId.store_eq (Machine.within_of_env? hr) _
  have hlater : Environment.Later gains context.lexicalEnv (.declarative r) e' :=
    .declarative rfl (.inr ⟨call, hcall, hstatus⟩)
  have hr' : n.popped.env? context.lexicalEnv = some (.declarative r) := hr
  have hself : (n.popped.storeEnv context.lexicalEnv e').env? context.lexicalEnv = some e' :=
    Machine.env?_storeEnv_self hr' e'
  refine ⟨_, hrun, ⟨h.contexts, ?_, h.isScoped.storeEnv hr' hlater⟩, .call hself rfl rfl, ?_⟩
  · exact h.later.trans (Machine.IsScoped.storeEnv_extends hr' hlater)
  · rintro ⟨g, hg⟩
    have hkind : e' = .global g := Option.some.inj (hself.symm.trans hg)
    simp [e'] at hkind

/-- Setting `this` ends the time in which a call has none. -/
theorem bindCallThis_opens (h : m.Opens gains context n) (hf : m.Closes f slots)
    (hfunction : context.function = some f) (hr : n.env? context.lexicalEnv = some (.declarative r))
    (houter : r.outer = some slots.environment) (hcall : r.call = some call)
    (hstatus : call.thisStatus = if slots.thisMode == .lexical then .lexical else .uninitialized)
    (thisValue : Value) :
    m.Opens gains context ((bindCallThis slots thisValue).after n) ∧
      ∀ u n', bindCallThis slots thisValue n = .ok u n' →
        n'.popped.Hosts context.function context.lexicalEnv := by
  have hset (n₁ : Machine) (hn : n.Quiet n₁) (hmode : slots.thisMode ≠ .lexical) (value : Value) :
      ∃ n', (liftM lexicalEnv >>= fun env => env.bindThis value : Eval Unit) n₁ = .ok () n' ∧
        m.Opens gains context n' ∧ n'.popped.Hosts context.function context.lexicalEnv := by
    obtain ⟨e, he, hquiet⟩ := hn.environments _ _ hr
    cases hquiet with
    | declarative houter' hcall' =>
      have hpending : call.thisStatus = .uninitialized := by simp [hstatus, hmode]
      obtain ⟨n', hrun, hopens, hthis, hlocal⟩ :=
        bindThis_opens (h.quiet hn) he (hcall'.trans hcall) hpending value
      refine ⟨n', hrun, hopens, ⟨value, hthis⟩, fun o ho => ?_⟩
      cases hfunction.symm.trans ho
      exact ⟨hlocal, _, hopens.later.closures f _ hf, fun hlexical => absurd hlexical hmode⟩
  -- the value to set may have to be worked out first, and that may fail
  have hcompute (x : Eval Value) (hx : x.Quiet) (hmode : slots.thisMode ≠ .lexical) :
      let y : Eval Unit := x >>= fun value => liftM lexicalEnv >>= fun env => env.bindThis value
      m.Opens gains context (y.after n) ∧
        ∀ u n', y n = .ok u n' → n'.popped.Hosts context.function context.lexicalEnv := by
    cases hfirst : x n with
    | error e n₁ =>
      refine ⟨?_, fun u n' hrun => ?_⟩
      · rw [Eval.after_error (bind_error hfirst)]
        exact h.quiet ((hx n).error hfirst)
      · rw [bind_error hfirst] at hrun
        cases hrun
    | ok value n₁ =>
      obtain ⟨n', hrun, hopens, hhosts⟩ := hset n₁ ((hx n).ok hfirst) hmode value
      refine ⟨?_, fun u n'' hrun' => ?_⟩
      · rw [Eval.after_ok ((bind_ok hfirst).trans hrun)]
        exact hopens
      · cases ((bind_ok hfirst).trans hrun).symm.trans hrun'
        exact hhosts
  unfold bindCallThis
  cases hmode : slots.thisMode with
  | lexical =>
    refine ⟨h, fun u n' hrun => ?_⟩
    cases hrun
    have hpasses : n.popped.Passes context.lexicalEnv slots.environment := by
      refine ⟨_, hr, ?_, houter⟩
      simp [Environment.hasThis, DeclarativeRecord.hasThis, hcall, hstatus, hmode]
    have hclosure := h.later.closures f _ hf
    refine ⟨(h.isScoped.closures f _ hclosure).imp fun _ => .outer hpasses, fun o ho => ?_⟩
    cases hfunction.symm.trans ho
    refine ⟨?_, _, hclosure, fun _ => .single hpasses⟩
    rintro ⟨g, hg⟩
    cases hr.symm.trans hg
  | strict =>
    have hstrict := hcompute (pure thisValue) (.pure _) (by simp [hmode])
    simpa only [pure_bind] using hstrict
  | global =>
    dsimp only
    split
    · rw [← bind_assoc]
      exact hcompute _ (.bind (.lift _) fun r => by grind) (by simp [hmode])
    · rw [← bind_assoc]
      exact hcompute _ (.bind (by grind) fun _ => .pure _) (by simp [hmode])

end Call

namespace Evaluator

variable {ev ev' : Evaluator} (hev : ev.Agrees gains final ev') {f : ObjectId} {slots : FunctionSlots}

include hev

@[grind ←] theorem runFunction_agree (hf : m₀.Closes f slots) (thisValue : Value)
    (arguments : List Value) (newTarget : Value) :
    Agree gains final m₀ (ev.runFunction f slots thisValue arguments newTarget)
      (ev'.runFunction f slots thisValue arguments newTarget) := by
  intro m hm₀ hm
  have hclosure : m.Closes f slots := hm₀.closures f _ hf
  obtain ⟨v, hv⟩ := hm.closures f _ hclosure
  let r := slots.callEnvironment f newTarget
  let m₁ := m.pushEnv (.declarative r)
  have hlater : m.Extends gains m₁ := Machine.IsScoped.pushEnv_extends m nofun
  have hm₁ : m₁.IsScoped := by
    refine hm.pushEnv fun outer houter => ?_
    cases houter
    exact ⟨v, hv⟩
  have hself : m₁.env? ⟨m.environments.size⟩ = some (.declarative r) := by
    simp [m₁, Machine.env?_pushEnv]
  let context : Context :=
    { realm := slots.realm, function := some f, lexicalEnv := ⟨m.environments.size⟩,
      variableEnv := ⟨m.environments.size⟩, privateEnv := slots.privateEnv, labels := [],
      strict := slots.strict }
  have hnew := newFunctionEnvironment_eq hclosure newTarget
  let n := m₁.withContexts (context :: m₁.contexts)
  have hopens : m₁.Opens gains context n := ⟨rfl, .refl m₁, hm₁⟩
  obtain ⟨hafter, hhosts⟩ := bindCallThis_opens (n := n) hopens (hlater.closures f _ hclosure) rfl hself
    rfl rfl rfl thisValue
  -- the context is hosted only once `this` is bound, and from there the bodies agree
  have hbody : let x := bindCallThis slots thisValue >>= fun _ => ev.functionBody f slots arguments
      let x' := bindCallThis slots thisValue >>= fun _ => ev'.functionBody f slots arguments
      ((x.after n).popped.Persists gains final → x' n = x n) ∧
        m₁.Extends gains (x.after n).popped ∧ (x.after n).popped.IsScoped := by
    dsimp only
    cases hrun : bindCallThis slots thisValue n with
    | error e n₁ =>
      rw [Eval.after_error hrun] at hafter
      rw [bind_error hrun, bind_error hrun, Eval.after_error (bind_error hrun)]
      exact ⟨fun _ => rfl, hafter.later, hafter.isScoped⟩
    | ok u n₁ =>
      rw [Eval.after_ok hrun] at hafter
      rw [bind_ok hrun, bind_ok hrun, Eval.after_bind_ok hrun]
      have hfunction : n₁.function? = some f := by simp [Machine.function?, hafter.contexts, context]
      exact hafter.run (hafter.close (hhosts u n₁ hrun)) (functionBody_agree hev hfunction slots arguments)
  obtain ⟨hsame, hadvances⟩ := withContext_agree hm₁ context hbody
  have hrun (ev : Evaluator) : ev.runFunction f slots thisValue arguments newTarget m = _ := bind_ok hnew
  unfold Machine.Advances
  rw [show (ev.runFunction f slots thisValue arguments newTarget).after m = _ from Eval.after_bind_ok hnew]
  refine ⟨fun _ hfinal => ?_, hlater.trans hadvances.1, hadvances.2⟩
  exact (hrun ev').trans ((hsame hfinal).trans (hrun ev).symm)

@[grind ←] theorem callFunction_agree (hf : m₀.Closes f slots) (thisValue : Value)
    (arguments : List Value) :
    Agree gains final m₀ (ev.callFunction f slots thisValue arguments)
      (ev'.callFunction f slots thisValue arguments) := by
  unfold callFunction
  grind

@[grind ←] theorem constructFunction_agree (hf : m₀.Closes f slots) (arguments : List Value)
    (newTarget : Value) :
    Agree gains final m₀ (ev.constructFunction f slots arguments newTarget)
      (ev'.constructFunction f slots arguments newTarget) := by
  unfold constructFunction
  grind

omit hev in
/-- What follows the reading of an object may rely on what the object closes over. -/
theorem load_bind_agree {o : ObjectId} {g g' : Object → Eval β}
    (h : ∀ (m₁ : Machine) obj, m₀.Extends gains m₁ →
      (∀ slots, obj.kind = .function slots → m₁.Closes o slots) → Agree gains final m₁ (g obj) (g' obj)) :
    Agree gains final m₀ (liftM o.load >>= g) (liftM o.load >>= g') := by
  refine .bind_of (.quiet (.lift _)) fun obj m m₁ hm₀ hm hrun _ => ?_
  obtain ⟨rfl, hload⟩ := lift_eq_ok hrun
  refine h m₁ obj hm₀ fun slots hkind => ?_
  simp [Machine.Closes, Machine.closure?, ObjectId.load_ok hload, Object.closure?, hkind]

@[grind ←] theorem call_agree (f thisValue : Value) (arguments : List Value) :
    Agree gains final m₀ (ev.call f thisValue arguments) (ev'.call f thisValue arguments) := by
  unfold call
  cases f with
  | object o =>
    refine load_bind_agree fun m₁ obj h₁ hslots => ?_
    cases hkind : obj.kind with
    | function slots => exact callFunction_agree hev (hslots slots hkind) thisValue arguments
    | errorConstructor kind => exact .quiet (by grind)
    | _ => exact .quiet (by grind)
  | _ => exact .quiet (by grind)

@[grind ←] theorem construct_agree (f : Value) (arguments : List Value) (newTarget : Option Value) :
    Agree gains final m₀ (ev.construct f arguments newTarget) (ev'.construct f arguments newTarget) := by
  unfold construct
  cases f with
  | object o =>
    refine load_bind_agree fun m₁ obj h₁ hslots => ?_
    cases hkind : obj.kind with
    | function slots =>
      have hclosure := hslots slots hkind
      dsimp only
      grind
    | errorConstructor kind => exact .quiet (by grind)
    | _ => exact .quiet (by grind)
  | _ => exact .quiet (by grind)

end Evaluator

end EcmaEval
