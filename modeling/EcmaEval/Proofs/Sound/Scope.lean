import EcmaEval.Proofs.Declarations
import EcmaEval.Proofs.Sound.Pattern

/-!
# Scopes of statement lists

Before a statement list runs, the names it declares are created in a new environment, where those of
`let` and `const` wait until their declaration is reached. Functions of a block are bound at once, and
several of them may share a name.
-/
namespace EcmaEval

variable {g : Contract} {A : Grant} {m m' : Machine} {env : EnvId}

/-- A declarative environment without a binding of the name. -/
def Machine.Vacant (m : Machine) (env : EnvId) (name : String) : Prop :=
  ∃ r, m.env? env = some (.declarative r) ∧ r.get? name = none

theorem Machine.Vacant.free {name : String} (h : m.Vacant env name) : m.Free env name :=
  have ⟨r, he, hname⟩ := h
  .inl ⟨r, record?_eq he, hname⟩

theorem Contract.Opened.vacant (h : g.Opened A m env) (name : String) : m.Vacant env name := by
  obtain ⟨r, he, hr⟩ := h.empty
  exact ⟨r, he, by simp [DeclarativeRecord.get?, hr]⟩

/-- A property of a name that only its declaration can end. -/
def Contract.Lasts (g : Contract) (free : Machine → EnvId → String → Prop) : Prop :=
  ∀ {A m m' env name}, g.Steps A m m' → g.Sound m → g.checked → ¬ A.declare env name →
    free m env name → free m' env name

theorem Contract.lasts_free (g : Contract) : g.Lasts Machine.Free :=
  fun hsteps hm hc hA hfree => hfree.imp (hsteps.unbound hm hc hA) (hsteps.isGlobal hm)

theorem Contract.lasts_vacant (g : Contract) : g.Lasts Machine.Vacant := by
  intro A m m' env name hsteps hm hc hA ⟨r, he, hname⟩
  obtain ⟨e', he', hevolves⟩ := hsteps.environments hm he
  obtain ⟨r', rfl⟩ := hevolves.declarative r rfl
  exact ⟨r', he', (hevolves.unbound hc name r r' rfl rfl hname).resolve_right hA⟩

/-- Names that one run declares are not among the others of an environment that was there before. -/
theorem Machine.not_declaring {names : List String} {name : String} (henv : env.Within m.bounds)
    (hname : name ∉ names) : ¬ (m.grant.declaring env names).declare env name := by
  rintro (hgrant | ⟨-, hmem⟩)
  · exact not_grant_declare henv name hgrant
  · exact hname hmem

/-- The evaluation creates bindings of the given names, if they are free, and they wait for their
values. -/
def Contract.Creates (g : Contract) (free : Machine → EnvId → String → Prop) (env : EnvId)
    (names : List String) (x : Eval Unit) : Prop :=
  ∀ (A : Grant) (m : Machine), env.Within m.bounds → (g.checked → ∀ n ∈ names, A.declare env n) →
    (g.checked → ∀ n ∈ names, free m env n) →
    g.Runs A m x fun m' _ => g.checked → ∀ n ∈ names, m'.Waiting env n

namespace Contract.Creates

variable {x y : Eval Unit} {ns ms names : List String} {free : Machine → EnvId → String → Prop}

theorem nil (g : Contract) (free : Machine → EnvId → String → Prop) (env : EnvId) :
    g.Creates free env [] (pure ()) :=
  fun _ _ _ _ _ => .pure (by simp)

theorem append (hlasts : g.Lasts free) (hx : g.Creates free env ns x) (hy : g.Creates free env ms y)
    (hdisjoint : g.checked → ∀ n ∈ ns, n ∉ ms) : g.Creates free env (ns ++ ms) (do x; y) := by
  intro A m henv hdeclare hfree
  refine .of_sound fun hm => ?_
  refine .bindDeclaring ns (fun hc n hn => hdeclare hc n (List.mem_append_left _ hn))
    (hx _ m henv (fun _ n hn => .inr ⟨rfl, hn⟩) fun hc n hn => hfree hc n (List.mem_append_left _ hn))
    fun _ m₁ _ hsteps₁ hm₁ hwaiting => ?_
  have henv₁ := Nat.lt_of_lt_of_le henv (hsteps₁.bounds hm).2.1
  have hfree₁ (hc : g.checked) (n : String) (hn : n ∈ ms) : free m₁ env n :=
    hlasts hsteps₁ hm hc (Machine.not_declaring henv fun h => hdisjoint hc n h hn)
      (hfree hc n (List.mem_append_right _ hn))
  refine .declaring ms (fun hc n hn => hdeclare hc n (List.mem_append_right _ hn))
    (hy _ m₁ henv₁ (fun _ n hn => .inr ⟨rfl, hn⟩) hfree₁) fun m₂ _ _ hsteps₂ hwaiting₂ hc n hn => ?_
  rcases List.mem_append.mp hn with hn | hn
  · exact hsteps₂.waiting hm₁ hc (Machine.not_declaring henv₁ (hdisjoint hc n hn)) (hwaiting hc n hn)
  · exact hwaiting₂ hc n hn

theorem forM (hlasts : g.Lasts free) {f : String → Eval Unit}
    (hf : ∀ name, g.Creates free env [name] (f name)) (hnodup : g.checked → names.Nodup) :
    g.Creates free env names (names.forM f) := by
  induction names with
  | nil => exact .nil g free env
  | cons name rest ih =>
    refine append hlasts (hf name) (ih fun hc => (List.nodup_cons.mp (hnodup hc)).2) fun hc n hn => ?_
    obtain rfl := List.mem_singleton.mp hn
    exact (List.nodup_cons.mp (hnodup hc)).1

end Contract.Creates

theorem EnvId.createMutable_creates (env : EnvId) (name : String) :
    g.Creates Machine.Free env [name] (env.createMutable name false) := by
  intro A m henv hdeclare hfree
  refine (createMutable_runs henv (fun _ => rfl) (fun hc => hdeclare hc name (by simp))
    fun hc => hfree hc name (by simp)).imp fun m' _ _ _ hwaiting hc n hn => ?_
  obtain rfl := List.mem_singleton.mp hn
  exact hwaiting hc

theorem EnvId.createLexical_creates (env : EnvId) (constant : Bool) (name : String) :
    g.Creates Machine.Free env [name] (env.createLexical constant name) := by
  intro A m henv hdeclare hfree
  refine (createLexical_runs constant henv (fun hc => hdeclare hc name (by simp))
    fun hc => hfree hc name (by simp)).imp fun m' _ _ _ hwaiting hc n hn => ?_
  obtain rfl := List.mem_singleton.mp hn
  exact hwaiting hc

theorem declareLexical_creates {declarations : List LexicalDeclaration}
    (hnodup : g.checked → (declarations.flatMap LexicalDeclaration.boundNames).Nodup) :
    g.Creates Machine.Free env (declarations.flatMap LexicalDeclaration.boundNames)
      (declareLexical env declarations) := by
  induction declarations with
  | nil => exact .nil g _ env
  | cons d rest ih =>
    simp only [List.flatMap_cons] at hnodup ⊢
    have hsplit (hc : g.checked) := List.nodup_append.mp (hnodup hc)
    refine .append g.lasts_free
      (.forM g.lasts_free (env.createLexical_creates d.isConstant) fun hc => (hsplit hc).1)
      (ih fun hc => (hsplit hc).2.1) fun hc n hn hmem => ?_
    exact (hsplit hc).2.2 n hn n hmem rfl

/-- New names in a new environment are those that a pattern or a list binds. -/
theorem Contract.Opened.binds {names : List String} (hopen : g.Opened A m env) (hm : g.Sound m)
    (hsteps : g.Steps A m m') (hnodup : g.checked → names.Nodup)
    (hwaiting : g.checked → ∀ n ∈ names, m'.Waiting env n) : g.Binds A m' (some env) names where
  within e he := by
    cases he
    exact Nat.lt_of_lt_of_le hopen.within (hsteps.bounds hm).2.1
  nodup hc _ := hnodup hc
  waiting hc e he n hn := by
    cases he
    exact hwaiting hc n hn
  declare hc e he n _ := by
    cases he
    exact hopen.declare hc n

def Machine.IsDeclarative (m : Machine) (env : EnvId) : Prop :=
  ∃ r, m.env? env = some (.declarative r)

theorem Contract.Steps.isDeclarative (h : g.Steps A m m') (hm : g.Sound m)
    (hkind : m.IsDeclarative env) : m'.IsDeclarative env := by
  obtain ⟨r, he⟩ := hkind
  obtain ⟨e', he', hevolves⟩ := h.environments hm he
  obtain ⟨r', rfl⟩ := hevolves.declarative r rfl
  exact ⟨r', he'⟩

/-- A name of a block is created unless it is there already; then it must not be constant. -/
theorem declareBlockName_runs {constant : Bool} {name : String} (henv : env.Within m.bounds)
    (hkind : g.checked → m.IsDeclarative env) (hdeclare : g.checked → A.declare env name)
    (hfree : g.checked → constant = true → m.Vacant env name) :
    g.Runs A m (declareBlockName env constant name) fun m' _ =>
      g.checked → m'.Bound env name ∧ (m.Vacant env name → m'.Waiting env name) := by
  unfold declareBlockName
  split
  · rename_i hconstant
    refine (EnvId.createImmutable_runs henv hdeclare fun hc => (hfree hc hconstant).free).imp ?_
    exact fun m' _ _ _ hwaiting hc => ⟨(hwaiting hc).bound, fun _ => hwaiting hc⟩
  · refine .query (EnvId.hasBinding_asks henv) fun b _ ⟨e, he, hb, _⟩ => ?_
    have hrecord (hc : g.checked) : ∃ r, m.env? env = some (.declarative r) ∧ b = r.has name := by
      obtain ⟨r, hr⟩ := hkind hc
      rw [he] at hr
      cases hr
      exact ⟨r, he, hb r rfl⟩
    cases b with
    | true =>
      refine .pure fun hc => ?_
      obtain ⟨r, hr, hname⟩ := hrecord hc
      refine ⟨⟨r, Machine.record?_eq hr, hname.symm⟩, fun ⟨r', hr', hnone⟩ => ?_⟩
      rw [hr] at hr'
      cases hr'
      simp [DeclarativeRecord.has, hnone] at hname
    | false =>
      refine (EnvId.createMutable_runs henv (fun _ => rfl) hdeclare fun hc => ?_).imp
        fun m' _ _ _ hwaiting hc => ⟨(hwaiting hc).bound, fun _ => hwaiting hc⟩
      obtain ⟨r, hr, hname⟩ := hrecord hc
      exact .inl ⟨r, Machine.record?_eq hr, by simpa [DeclarativeRecord.has] using hname.symm⟩

theorem declareBlockName_creates (env : EnvId) (constant : Bool) (name : String) :
    g.Creates Machine.Vacant env [name] (declareBlockName env constant name) := by
  intro A m henv hdeclare hfree
  have hname (hc : g.checked) : m.Vacant env name := hfree hc name (by simp)
  refine (declareBlockName_runs henv (fun hc => ?_) (fun hc => hdeclare hc name (by simp))
    fun hc _ => hname hc).imp fun m' _ _ _ h hc n hn => ?_
  · obtain ⟨r, hr, -⟩ := hname hc
    exact ⟨r, hr⟩
  · obtain rfl := List.mem_singleton.mp hn
    exact (h hc).2 (hname hc)

theorem bindBlockFunction_runs {code : FunctionCode} {isFirst : Bool} (henv : env.Within m.bounds)
    (hcode : g.checked → code.Valid) (hdeclare : g.checked → A.declare env code.bindingName)
    (hfirst : g.checked → isFirst = true → m.Waiting env code.bindingName)
    (hbound : g.checked → m.Bound env code.bindingName) :
    g.Runs A m (bindBlockFunction env code isFirst) fun _ _ => True := by
  refine .of_sound fun hm => .query privateEnv_asks fun c _ hprivate => ?_
  refine .bind (instantiateDeclaration_runs henv hprivate hcode) fun f m₁ _ hsteps hm₁ hf => ?_
  have henv₁ := Nat.lt_of_lt_of_le henv (hsteps.bounds hm).2.1
  split
  · rename_i h
    refine EnvId.initBinding_runs henv₁ (.object hf) hdeclare fun hc => ?_
    exact hsteps.waiting hm hc (Machine.not_grant_declare henv _) (hfirst hc h)
  · exact EnvId.assign_runs henv₁ (.object hf) fun hc => (hsteps.bound hm hc (hbound hc)).resolves

/-- A function of a block is bound, whether its name is new or that of an earlier one. -/
theorem declareBlockFunction_runs {code : FunctionCode} {isFirst : Bool} (henv : env.Within m.bounds)
    (hkind : g.checked → m.IsDeclarative env)
    (hcode : g.checked → code.Valid ∧ code.name.isSome = true)
    (hdeclare : g.checked → A.declare env code.bindingName)
    (hfirst : g.checked → isFirst = true → m.Vacant env code.bindingName) :
    g.Runs A m (do
      code.name.toList.forM (declareBlockName env false)
      bindBlockFunction env code isFirst) fun m' _ => g.checked → m'.Bound env code.bindingName := by
  refine .of_sound fun hm => ?_
  have hdeclared : g.Runs A m (code.name.toList.forM (declareBlockName env false)) fun m' _ =>
      g.checked → m'.Bound env code.bindingName ∧
        (m.Vacant env code.bindingName → m'.Waiting env code.bindingName) := by
    unfold FunctionCode.bindingName at hdeclare ⊢
    cases hname : code.name with
    | none => exact .pure fun hc => by simpa [hname] using (hcode hc).2
    | some name =>
      rw [hname] at hdeclare
      refine .seq (declareBlockName_runs henv hkind hdeclare (by simp)) fun _ m₁ _ _ _ h => .pure h
  refine .seq hdeclared fun _ m₁ _ hsteps₁ hm₁ hname => ?_
  have henv₁ := Nat.lt_of_lt_of_le henv (hsteps₁.bounds hm).2.1
  refine (bindBlockFunction_runs henv₁ (fun hc => (hcode hc).1) hdeclare
    (fun hc h => (hname hc).2 (hfirst hc h)) fun hc => (hname hc).1).imp fun m₂ _ _ hsteps₂ _ hc => ?_
  exact hsteps₂.bound hm₁ hc (hname hc).1

/-- The names of a block wait for their values, except for its functions, which have them. -/
theorem instantiateBlock_runs {ds : List LexicalDeclaration} {bound : List String}
    (henv : env.Within m.bounds) (hkind : g.checked → m.IsDeclarative env)
    (hvalid : g.checked → ∀ code, .function code ∈ ds → code.Valid ∧ code.name.isSome = true)
    (hdistinct : g.checked → LexicalDeclaration.Distinct ds)
    (hdeclare : g.checked → ∀ d ∈ ds, ∀ n ∈ d.boundNames, A.declare env n)
    (hfree : g.checked → ∀ d ∈ ds, ∀ n ∈ d.boundNames,
      m.Vacant env n ∨ (d.isFunction = true ∧ n ∈ bound))
    (hbound : g.checked → ∀ n ∈ bound, m.Bound env n) :
    g.Runs A m (instantiateBlock env ds bound) fun m' _ =>
      g.checked → ∀ n ∈ LexicalDeclaration.letNames ds, m'.Waiting env n := by
  induction ds generalizing A m bound with
  | nil => exact .pure (by simp [LexicalDeclaration.letNames])
  | cons d rest ih =>
    have hhead (hc : g.checked) := (List.pairwise_cons.mp (hdistinct hc).2).1
    have hrest (hc : g.checked) : LexicalDeclaration.Distinct rest :=
      ⟨fun d hd => (hdistinct hc).1 d (by simp [hd]), (List.pairwise_cons.mp (hdistinct hc).2).2⟩
    have hvalid' (hc : g.checked) (code : FunctionCode) (hcode : .function code ∈ rest) :=
      hvalid hc code (by simp [hcode])
    have hdeclare' (hc : g.checked) (d' : LexicalDeclaration) (hd' : d' ∈ rest) :=
      hdeclare hc d' (by simp [hd'])
    refine .of_sound fun hm => ?_
    cases d with
    | binding constant pattern =>
      have hnames (hc : g.checked) : ∀ d' ∈ rest, ∀ n ∈ pattern.boundNames, n ∉ d'.boundNames :=
        fun d' hd' => (hhead hc d' hd').resolve_left (by simp [LexicalDeclaration.isFunction])
      have hvacant (hc : g.checked) (n : String) (hn : n ∈ pattern.boundNames) : m.Vacant env n :=
        (hfree hc (.binding constant pattern) List.mem_cons_self n hn).resolve_right
          (by simp [LexicalDeclaration.isFunction])
      refine .bindDeclaring pattern.boundNames
        (hdeclare · (.binding constant pattern) List.mem_cons_self)
        (Contract.Creates.forM g.lasts_vacant (declareBlockName_creates env constant)
          (fun hc => (hdistinct hc).1 _ List.mem_cons_self) _ m henv (fun _ n hn => .inr ⟨rfl, hn⟩)
          hvacant)
        fun _ m₁ _ hsteps₁ hm₁ hwaiting => ?_
      have henv₁ := Nat.lt_of_lt_of_le henv (hsteps₁.bounds hm).2.1
      have hfree₁ (hc : g.checked) (d' : LexicalDeclaration) (hd' : d' ∈ rest) (n : String)
          (hn : n ∈ d'.boundNames) : m₁.Vacant env n ∨ (d'.isFunction = true ∧ n ∈ bound) :=
        (hfree hc d' (by simp [hd']) n hn).imp_left (g.lasts_vacant hsteps₁ hm hc
          (Machine.not_declaring henv fun h => hnames hc d' hd' n h hn))
      -- The rest declares other names, so these go on waiting.
      refine .declaring (rest.flatMap LexicalDeclaration.boundNames) (fun hc n hn => ?_)
        (ih henv₁ (fun hc => hsteps₁.isDeclarative hm (hkind hc)) hvalid' hrest
          (fun _ d' hd' n hn => .inr ⟨rfl, List.mem_flatMap.mpr ⟨d', hd', hn⟩⟩) hfree₁
          fun hc n hn => hsteps₁.bound hm hc (hbound hc n hn)) fun m₂ _ _ hsteps₂ hwaiting₂ hc n hn => ?_
      · obtain ⟨d', hd', hn⟩ := List.mem_flatMap.mp hn
        exact hdeclare' hc d' hd' n hn
      have hn' : n ∈ pattern.boundNames ++ LexicalDeclaration.letNames rest := hn
      rcases List.mem_append.mp hn' with hn | hn
      · refine hsteps₂.waiting hm₁ hc (Machine.not_declaring henv₁ fun h => ?_) (hwaiting hc n hn)
        obtain ⟨d', hd', hmem⟩ := List.mem_flatMap.mp h
        exact hnames hc d' hd' n hn hmem
      · exact hwaiting₂ hc n hn
    | function code =>
      have hcode (hc : g.checked) := hvalid hc code (by simp)
      have hname (hc : g.checked) : code.bindingName ∈ code.name.toList := by
        obtain ⟨name, hname⟩ := Option.isSome_iff_exists.mp (hcode hc).2
        simp [FunctionCode.bindingName, hname]
      have hsame (hc : g.checked) {n : String} (hn : n ∈ code.name.toList) : n = code.bindingName := by
        rw [Option.mem_toList] at hn
        simp [FunctionCode.bindingName, hn]
      unfold instantiateBlock
      rw [← bind_assoc]
      refine .bindDeclaring [code.bindingName] (fun hc n hn => ?_)
        (declareBlockFunction_runs henv hkind hcode (fun _ => .inr ⟨rfl, by simp⟩) fun hc h => ?_)
        fun _ m₁ _ hsteps₁ hm₁ hbound₁ => ?_
      · obtain rfl := List.mem_singleton.mp hn
        exact hdeclare hc _ List.mem_cons_self _ (hname hc)
      · refine (hfree hc _ List.mem_cons_self _ (hname hc)).resolve_right fun hrepeated => ?_
        simp [hrepeated.2] at h
      have henv₁ := Nat.lt_of_lt_of_le henv (hsteps₁.bounds hm).2.1
      refine ih henv₁ (fun hc => hsteps₁.isDeclarative hm (hkind hc)) hvalid' hrest hdeclare'
        (fun hc d' hd' n hn => ?_) fun hc n hn => ?_
      · by_cases heq : n = code.bindingName
        · obtain ⟨-, hfunction⟩ | hdisjoint := hhead hc d' hd'
          · exact .inr ⟨hfunction, by simp [heq]⟩
          · exact absurd (heq ▸ hn) (hdisjoint _ (hname hc))
        · refine (hfree hc d' (by simp [hd']) n hn).imp (g.lasts_vacant hsteps₁ hm hc
            (Machine.not_declaring henv (by simpa using heq))) fun hrepeated => ?_
          exact ⟨hrepeated.1, List.mem_cons_of_mem _ hrepeated.2⟩
      · rcases List.mem_cons.mp hn with rfl | hn
        · exact hbound₁ hc
        · exact hsteps₁.bound hm hc (hbound hc n hn)

theorem Contract.Binds.withContexts {env : Option EnvId} {names : List String}
    (h : g.Binds A m env names) (cs : List Context) : g.Binds A (m.withContexts cs) env names :=
  ⟨h.within, h.nodup, h.waiting, h.declare⟩

/-- A run in a scope whose names wait for their values. -/
theorem withScope_runs {x : Eval α} {Q : Machine → α → Prop} {names : List String}
    (hnames : g.Binds A m (some env) names)
    (hx : ∀ m', m'.bounds = m.bounds → lexicalEnv m' = .ok env → g.Binds A m' (some env) names →
      g.Runs A m' x Q)
    (hQ : ∀ m' a cs, Q m' a → Q (m'.withContexts cs) a) : g.Runs A m (withLexicalEnv env x) Q :=
  withLexicalEnv_runs (hnames.within env rfl) (fun c cs _ => hx _ rfl
    (lexicalEnv_cons (c := { c with lexicalEnv := env }) (show _ = _ :: cs from rfl))
    (hnames.withContexts _)) hQ

theorem withBlockScope_runs {ds : List LexicalDeclaration} {x : Eval Completion}
    {Q : Machine → Completion → Prop}
    (hvalid : g.checked → ∀ code, .function code ∈ ds → code.Valid ∧ code.name.isSome = true)
    (hdistinct : g.checked → LexicalDeclaration.Distinct ds)
    (hx : ∀ m' env, m.bounds ≤ m'.bounds → g.Hoists A m' env (LexicalDeclaration.letNames ds) →
      g.Runs A m' x Q)
    (hQ : ∀ m' a cs, Q m' a → Q (m'.withContexts cs) a) : g.Runs A m (withBlockScope ds x) Q := by
  refine .of_sound fun hm => .query lexicalEnv_asks fun outer _ houter => ?_
  refine .seq (newDeclarativeEnvironment_opens houter) fun env m₁ _ hsteps₁ hm₁ ⟨hopen, _⟩ => ?_
  refine .seq (instantiateBlock_runs hopen.within (fun _ => ?_) hvalid hdistinct
    (fun hc _ _ n _ => hopen.declare hc n) (fun _ _ _ n _ => .inl (hopen.vacant n)) (by simp)) ?_
  · obtain ⟨r, hr, -⟩ := hopen.empty
    exact ⟨r, hr⟩
  intro _ m₂ _ hsteps₂ hm₂ hwaiting
  have hbinds := hopen.binds hm₁ hsteps₂ (fun hc => (hdistinct hc).letNames) hwaiting
  have hb := Bounds.le_trans (hsteps₁.bounds hm) (hsteps₂.bounds hm₁)
  exact withScope_runs hbinds (fun m₃ hb₃ hscope hbinds₃ => hx m₃ env (hb₃ ▸ hb)
    ⟨fun _ => hscope, fun _ => hbinds₃⟩) hQ

theorem Contract.Ends.withContexts {j : Jumps} {c : Completion} (h : g.Ends m j c)
    (cs : List Context) : g.Ends (m.withContexts cs) j c := by
  cases c <;> exact h

section

variable {ev : Evaluator} (hev : ev.Keeps g) {j : Jumps} {body : List Statement}

include hev

/-- A block runs its statements in a scope of its own. -/
theorem Evaluator.block_runs (hbody : g.checked → ∀ s ∈ body, s.Valid j [])
    (hdistinct : g.checked → LexicalDeclaration.Distinct (Body.lexicallyScoped body false)) :
    g.Runs A m (ev.block body) fun m' c => g.Ends m' j c := by
  refine .completing ?_ fun m' v hv => hv
  split
  · exact .pure fun _ h => by cases h
  · refine withBlockScope_runs (fun hc code hcode => ?_) hdistinct (fun m' env hb hhoists => ?_)
      fun m' c cs h => h.withContexts cs
    · obtain ⟨s, hs, hmem⟩ := List.mem_flatMap.mp hcode
      exact (hbody hc s hs).lexicalFunction hmem
    · rw [← Body.flatMap_letNames] at hhoists
      exact statements_runs hev hbody hhoists fun _ h => by cases h

end

end EcmaEval
