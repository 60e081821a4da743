import EcmaEval.Proofs.Hoist.Inside
import EcmaEval.Proofs.Hoist.Observe
import EcmaEval.Proofs.Scope.Names

/-!
# The frame of a call

The *frame* of a call is the stack below its context, its variable environment and the names its body
declares with `var`. It *holds* on a machine where the call is in progress if that environment retains the
names and the running scope of the call is inside it. Code of other calls may do what it likes: it returns to
the same context, and changes neither what lies inside what nor which names are retained.

Two runs do the *same* in a frame if from every later machine on which it holds, they end alike and it holds
again, or else the machine they stop on is not intact. This composes along `bind`, and what was found out
about an earlier machine may be used.
-/
namespace EcmaEval

variable {m m' m'' m₀ : Machine}

/-- The machine at a later time of the same code. -/
structure Machine.Follows (m m' : Machine) : Prop where
  changes : m.Changes m'
  callers : m'.callers = m.callers

/-- The run fails in a way that running code cannot catch, and leaves a machine that is not intact. -/
def Eval.Breaks (x : Eval α) (m : Machine) : Prop :=
  ∃ e m', x m = .error e m' ∧ e.IsFatal ∧ ¬ m'.IsIntact

/-- A finalizer that succeeds does not mend the machine, and passes on the failure. -/
theorem Eval.Breaks.tryFinally {x : Eval α} {y : Eval β} {b : β} (h : x.Breaks m)
    (hy : y (x.after m) = .ok b m') (hm' : m'.IsIntact → (x.after m).IsIntact) :
    Eval.Breaks (tryFinally x y) m := by
  obtain ⟨e, m₁, hrun, hfatal, hintact⟩ := h
  rw [Eval.after_error hrun] at hy hm'
  refine ⟨e, m', ?_, hfatal, fun h => hintact (hm' h)⟩
  rw [tryFinally_eq, hrun]
  simp only [hy]

/-- A call whose body is observed. -/
structure Frame where
  /-- The contexts below that of the call. -/
  callers : List Context
  variableEnv : EnvId
  /-- The names that its body declares with `var`. -/
  names : List String

namespace Frame

variable (F : Frame) (apart : Prop)

/-- Code of the call is running, and not of another one that it made. -/
def IsRunning (m : Machine) : Prop := m.callers = F.callers

/-- Code of the call may run in the environment; where it has to be apart, not in the variable environment
itself. -/
def Admits (m : Machine) (env : EnvId) : Prop :=
  F.IsRunning m → m.Inside env F.variableEnv ∧ (apart → env ≠ F.variableEnv)

/-- While code of the call is running, the names are among those it declares. -/
def Covers (m : Machine) (P : String → Prop) : Prop := F.IsRunning m → ∀ name, P name → name ∈ F.names

/-- The running context is that of the call, and its scope is inside the variable environment. -/
structure Runs (m : Machine) (c : Context) : Prop where
  contexts : m.contexts = c :: F.callers
  variableEnv : c.variableEnv = F.variableEnv
  inside : m.Inside c.lexicalEnv F.variableEnv

/-- The call is in progress, and its variables are in place. -/
structure Holds (m : Machine) : Prop where
  depth : F.callers.length ≤ m.callers.length
  running : F.IsRunning m → ∃ c, F.Runs m c ∧ (apart → c.lexicalEnv ≠ F.variableEnv)
  within : F.variableEnv.Within m.bounds
  retains : ∀ name ∈ F.names, m.Retains F.variableEnv name

/-- What holds at a moment of the call: its variables are in place, and a variable about to be given a value
resolves to the variable environment or to one inside it. -/
structure Meets (x : Moment) (m : Machine) (c : Context) : Prop extends F.Runs m c where
  retains : ∀ name ∈ F.names, m.Retains F.variableEnv name
  var : ∀ name, x = .var name → name ∈ F.names ∧
    ∃ env, resolveBinding name none m = .ok (.reference (.binding env name c.strict)) ∧
      m.Inside c.lexicalEnv env ∧ m.Inside env F.variableEnv

/-- The looks do nothing in other calls, and nothing where the variables of the call are as they should be. -/
def Spares (look : Look) : Prop :=
  ∀ x m, (F.IsRunning m → ∃ c, F.Meets x m c) → look x m = .ok () m

/-- From every later machine on which the frame holds, the runs do the same, unless the first breaks the
machine, and the frame holds again. -/
def Same (m₀ : Machine) (x y : Eval α) : Prop :=
  ∀ m, m₀.Follows m → F.Holds apart m →
    (y m = x m ∨ x.Breaks m) ∧ m.Follows (x.after m) ∧ F.Holds apart (x.after m)

end Frame

namespace Machine.Follows

@[refl] theorem refl (m : Machine) : m.Follows m := ⟨.refl, rfl⟩

theorem trans (h : m.Follows m') (h' : m'.Follows m'') : m.Follows m'' :=
  ⟨h.changes.trans h'.changes, h'.callers.trans h.callers⟩

end Machine.Follows

namespace Frame

variable {F : Frame} {apart : Prop} {env : EnvId} {P Q : String → Prop}

theorem IsRunning.later (h : m.Follows m') : F.IsRunning m' ↔ F.IsRunning m := by
  unfold IsRunning
  rw [h.callers]

@[grind →] theorem Admits.later (h : F.Admits apart m env) (hm : m.Follows m') : F.Admits apart m' env := by
  intro hrunning
  exact (h ((IsRunning.later hm).mp hrunning)).imp_left hm.changes.inside

theorem Admits.weaken (h : F.Admits True m env) : F.Admits apart m env :=
  fun hrunning => (h hrunning).imp_right fun hne _ => hne trivial

@[grind →] theorem Covers.later (h : F.Covers m P) (hm : m.Follows m') : F.Covers m' P :=
  fun hrunning => h ((IsRunning.later hm).mp hrunning)

theorem Covers.imp (h : F.Covers m P) (hQ : ∀ name, Q name → P name) : F.Covers m Q :=
  fun hrunning name hname => h hrunning name (hQ name hname)

theorem Covers.of_not_running (h : ¬ F.IsRunning m) : F.Covers m P := fun hrunning => absurd hrunning h

/-- Where the call begins to run, it is in progress. -/
theorem Runs.holds {c : Context} (hc : F.Runs m c) (hwithin : F.variableEnv.Within m.bounds)
    (hretains : ∀ name ∈ F.names, m.Retains F.variableEnv name) : F.Holds False m := by
  have hcallers : m.callers = F.callers := congrArg List.tail hc.contexts
  exact ⟨hcallers ▸ Nat.le_refl _, fun _ => ⟨c, hc, nofun⟩, hwithin, hretains⟩

/-- Changes that put the context stack back. -/
theorem Holds.changes (h : F.Holds apart m) (hm : m.Changes m') (hcontexts : m'.contexts = m.contexts) :
    F.Holds apart m' := by
  have hcallers : m'.callers = m.callers := congrArg List.tail hcontexts
  refine ⟨hcallers ▸ h.depth, fun hrunning => ?_, hm.within h.within,
    fun name hname => hm.retains (h.retains name hname)⟩
  obtain ⟨c, hc, hapart⟩ := h.running (hcallers.symm.trans hrunning)
  exact ⟨c, ⟨hcontexts.trans hc.contexts, hc.variableEnv, hm.inside hc.inside⟩, hapart⟩

/-- There is a running context. -/
theorem Holds.exists_context (h : F.Holds apart m) : ∃ c cs, m.contexts = c :: cs := by
  cases hm : m.contexts with
  | cons c cs => exact ⟨c, cs, rfl⟩
  | nil =>
    have hcallers : m.callers = [] := by simp [Machine.callers, hm]
    have hF : F.callers = [] := List.eq_nil_of_length_eq_zero (Nat.le_zero.mp (by simpa [hcallers] using h.depth))
    obtain ⟨c, hc, -⟩ := h.running (hcallers.trans hF.symm)
    cases hm.symm.trans hc.contexts

/-- The running context may move to a scope where code of the call may run. -/
theorem Holds.moves {apart' : Prop} {c d : Context} {cs : List Context} (h : F.Holds apart m)
    (hm : m.contexts = c :: cs) (hvariable : d.variableEnv = c.variableEnv)
    (hd : F.Admits apart' m d.lexicalEnv) : F.Holds apart' (m.withContexts (d :: cs)) := by
  have hcallers : m.callers = cs := congrArg List.tail hm
  refine ⟨hcallers ▸ h.depth, fun hrunning => ?_, h.within, h.retains⟩
  have hcs : cs = F.callers := hrunning
  obtain ⟨c', hc, -⟩ := h.running (hcallers.trans hcs)
  cases hm.symm.trans hc.contexts
  obtain ⟨hinside, hapart⟩ := hd (hcallers.trans hcs)
  exact ⟨d, ⟨rfl, hvariable.trans hc.variableEnv, hinside⟩, hapart⟩

theorem Holds.admits {c : Context} {cs : List Context} (h : F.Holds apart m) (hm : m.contexts = c :: cs) :
    F.Admits apart m c.lexicalEnv := by
  intro hrunning
  obtain ⟨c', hc, hapart⟩ := h.running hrunning
  cases hm.symm.trans hc.contexts
  exact ⟨hc.inside, hapart⟩

/-- A context on top belongs to another call. -/
theorem Holds.push (h : F.Holds apart m) (c : Context) :
    ¬ F.IsRunning (m.withContexts (c :: m.contexts)) ∧ F.Holds apart (m.withContexts (c :: m.contexts)) := by
  obtain ⟨d, ds, hm⟩ := h.exists_context
  have hcallers : m.callers = ds := by simp [Machine.callers, hm]
  have hlonger : F.callers.length < m.contexts.length := by
    simpa [hm, Nat.lt_succ_iff, ← hcallers] using h.depth
  have hnot : ¬ F.IsRunning (m.withContexts (c :: m.contexts)) := by
    intro hrunning
    have hsame : m.contexts = F.callers := hrunning
    rw [hsame] at hlonger
    exact absurd hlonger (Nat.lt_irrefl _)
  exact ⟨hnot, Nat.le_of_lt hlonger, fun hrunning => absurd hrunning hnot, h.within, h.retains⟩

namespace Same

variable {x x' : Eval α} {f f' : α → Eval β}

theorem later (h : F.Same apart m₀ x x') (hm : m₀.Follows m) : F.Same apart m x x' :=
  fun m₁ h₁ => h m₁ (hm.trans h₁)

/-- One run that leaves the frame in place. -/
theorem of_after (h : ∀ m, m₀.Follows m → F.Holds apart m → m.Follows (x.after m) ∧ F.Holds apart (x.after m)) :
    F.Same apart m₀ x x := fun m hm hholds => ⟨.inl rfl, h m hm hholds⟩

theorem keeps (hstack : x.KeepsStack) (hx : x.Proceeds) : F.Same apart m₀ x x := by
  refine .of_after fun m _ h => ?_
  have hcontexts : (x.after m).contexts = m.contexts := hstack m
  exact ⟨⟨hx m, congrArg List.tail hcontexts⟩, h.changes (hx m) hcontexts⟩

@[grind ←] theorem of_stays [Tracked α] [Carrier α] (hx : x.StaysIn .inFrame Remit.inFrame.Holds) :
    F.Same apart m₀ x x := .keeps hx.keepsStack (.of_stays hx)

/-- A run that leaves the machine as it is. -/
theorem still (h : ∀ m, x.after m = m) : F.Same apart m₀ x x :=
  .of_after fun m _ hholds => (h m).symm ▸ ⟨.refl m, hholds⟩

@[grind ←] theorem pure (a : α) : F.Same apart m₀ (pure a : Eval α) (pure a) := .still fun _ => rfl

@[grind ←] theorem throw (e : Abrupt) : F.Same apart m₀ (throw e : Eval α) (throw e) := .still fun _ => rfl

@[grind ←] theorem breach (b : Breach) : F.Same apart m₀ (breach b : Eval α) (breach b) := .throw _

@[grind ←] theorem unsupported (feature : Feature) :
    F.Same apart m₀ (unsupported feature : Eval α) (unsupported feature) := .throw _

@[grind ←] theorem lift (q : Query α) : F.Same apart m₀ (liftM q : Eval α) (liftM q) :=
  .still (Eval.Fixes.lift q : Eval.Fixes id _)

/-- Code of another call may change its context. -/
theorem deep (hm₀ : ¬ F.IsRunning m₀) (hcallers : x.Fixes Machine.callers) (hx : x.Proceeds) :
    F.Same apart m₀ x x := by
  refine .of_after fun m hm h => ?_
  have hfollows : m.Follows (x.after m) := ⟨hx m, hcallers m⟩
  have hnot : ¬ F.IsRunning (x.after m) := by rwa [IsRunning.later (hm.trans hfollows)]
  exact ⟨hfollows, hfollows.callers ▸ h.depth, fun hrunning => absurd hrunning hnot,
    hfollows.changes.within h.within, fun name hname => hfollows.changes.retains (h.retains name hname)⟩

/-- What follows a run may rely on what it gave on some later machine. -/
theorem bind_of (hx : F.Same apart m₀ x x')
    (hf : ∀ a m m₁, m₀.Follows m → F.Holds apart m → x m = .ok a m₁ → m.Follows m₁ → F.Same apart m₁ (f a) (f' a)) :
    F.Same apart m₀ (x >>= f) (x' >>= f') := by
  intro m hm h
  obtain ⟨hsame, hfollows, hholds⟩ := hx m hm h
  cases hrun : x m with
  | error e m₁ =>
    rw [Eval.after_error hrun] at hfollows hholds
    rw [Eval.after_error (bind_error hrun)]
    refine ⟨?_, hfollows, hholds⟩
    rcases hsame with hsame | ⟨e', m₂, hbreak, hrest⟩
    · exact .inl ((bind_error (hsame.trans hrun)).trans (bind_error hrun).symm)
    · exact .inr ⟨e', m₂, bind_error hbreak, hrest⟩
  | ok a m₁ =>
    rw [Eval.after_ok hrun] at hfollows hholds
    obtain ⟨hsame₁, hfollows₁, hholds₁⟩ := hf a m m₁ hm h hrun hfollows m₁ (.refl m₁) hholds
    rw [Eval.after_bind_ok hrun]
    refine ⟨?_, hfollows.trans hfollows₁, hholds₁⟩
    rcases hsame with hsame | ⟨e', m₂, hbreak, -⟩
    · rcases hsame₁ with hsame₁ | ⟨e', m₂, hbreak, hrest⟩
      · exact .inl ((bind_ok (hsame.trans hrun)).trans (hsame₁.trans (bind_ok hrun).symm))
      · exact .inr ⟨e', m₂, (bind_ok hrun).trans hbreak, hrest⟩
    · cases hrun.symm.trans hbreak

@[grind ←] theorem bind (hx : F.Same apart m₀ x x')
    (hf : ∀ m₁ a, m₀.Follows m₁ → F.Same apart m₁ (f a) (f' a)) : F.Same apart m₀ (x >>= f) (x' >>= f') :=
  bind_of hx fun a _ m₁ hm _ _ hfollows => hf m₁ a (hm.trans hfollows)

@[grind ←] theorem discard (hx : F.Same apart m₀ x x') : F.Same apart m₀ (discard x) (discard x') := by
  rw [discard_eq, discard_eq]
  exact .bind hx fun _ _ _ => .pure _

theorem forM {g g' : γ → Eval PUnit} {l : List γ}
    (h : ∀ a ∈ l, ∀ m₁, m₀.Follows m₁ → F.Same apart m₁ (g a) (g' a)) :
    F.Same apart m₀ (l.forM g) (l.forM g') := by
  induction l generalizing m₀ with
  | nil => exact .pure _
  | cons a l ih =>
    refine .bind (h a List.mem_cons_self m₀ (.refl m₀)) fun m₁ _ h₁ => ih fun b hb m₂ h₂ => ?_
    exact h b (List.mem_cons_of_mem a hb) m₂ (h₁.trans h₂)

@[grind ←] theorem completing {x x' : Eval Completion} (hx : F.Same apart m₀ x x') :
    F.Same apart m₀ (completing x) (completing x') := by
  intro m hm h
  obtain ⟨hsame, hrest⟩ := hx m hm h
  rw [completing_after]
  refine ⟨hsame.imp (fun hsame => ?_) fun ⟨e, m', hbreak, hfatal, hintact⟩ => ⟨e, m', ?_, hfatal, hintact⟩, hrest⟩
  · unfold EcmaEval.completing
    rw [hsame]
  · unfold EcmaEval.completing
    rw [hbreak]
    cases e with
    | thrown v => cases hfatal
    | _ => rfl

@[grind ←] theorem lexicalEnv_bind {f f' : EnvId → Eval β}
    (hf : ∀ m₁ env, m₀.Follows m₁ → F.Admits apart m₁ env → F.Same apart m₁ (f env) (f' env)) :
    F.Same apart m₀ (liftM lexicalEnv >>= f) (liftM lexicalEnv >>= f') := by
  refine .bind_of (.lift _) fun env m m₁ hm h hrun _ => ?_
  obtain ⟨rfl, hlexical⟩ := lift_eq_ok hrun
  obtain ⟨c, cs, hc⟩ := h.exists_context
  cases (lexicalEnv_cons hc).symm.trans hlexical
  exact hf m₁ _ hm (h.admits hc)

/-- An environment nested in the scope of a call is apart from its variable environment. -/
theorem allocateEnvironment_bind {e : Environment} {outer : EnvId} {apart' : Prop} {f f' : EnvId → Eval β}
    (houter : e.outer? = some outer) (ho : F.Admits apart' m₀ outer)
    (hf : ∀ m₁ env, m₀.Follows m₁ → F.Admits True m₁ env → F.Same apart m₁ (f env) (f' env)) :
    F.Same apart m₀ (allocateEnvironment e >>= f) (allocateEnvironment e >>= f') := by
  have hchange (m : Machine) : m.Changes (m.pushEnv e) := .single (.environment e)
  refine .bind_of (.keeps (fun _ => rfl) hchange) fun env m m₁ hm h hrun hfollows => ?_
  cases hrun
  refine hf _ _ (hm.trans hfollows) fun hrunning => ?_
  obtain ⟨hinside, -⟩ := (ho.later hm) hrunning
  have hwithin : outer.Within m.bounds := by
    rcases Relation.ReflTransGen.cases_head hinside with rfl | ⟨_, ⟨e', he', -⟩, -⟩
    · exact h.within
    · exact Machine.within_of_env? he'
  have hinner := Machine.pushEnv_isInner houter hwithin
  exact ⟨((hchange m).inside hinside).head hinner, fun _ => hinner.ne ((hchange m).inside hinside)⟩

theorem newDeclarativeEnvironment_bind {outer : EnvId} {apart' : Prop} {f f' : EnvId → Eval β}
    (ho : F.Admits apart' m₀ outer)
    (hf : ∀ m₁ env, m₀.Follows m₁ → F.Admits True m₁ env → F.Same apart m₁ (f env) (f' env)) :
    F.Same apart m₀ (newDeclarativeEnvironment (some outer) >>= f)
      (newDeclarativeEnvironment (some outer) >>= f') := allocateEnvironment_bind rfl ho hf

theorem newObjectEnvironment_bind {outer : EnvId} {apart' : Prop} {f f' : EnvId → Eval β}
    (ho : F.Admits apart' m₀ outer) (o : ObjectId) (isWith : Bool)
    (hf : ∀ m₁ env, m₀.Follows m₁ → F.Admits True m₁ env → F.Same apart m₁ (f env) (f' env)) :
    F.Same apart m₀ (newObjectEnvironment o isWith (some outer) >>= f)
      (newObjectEnvironment o isWith (some outer) >>= f') := allocateEnvironment_bind rfl ho hf

/-- A change of the running context that leaves it in a scope where code of the call may run. -/
theorem modifyContext {g : Context → Context} (hvariable : ∀ c, (g c).variableEnv = c.variableEnv)
    (henv : ∀ m c, m₀.Follows m → F.Admits apart m c.lexicalEnv → F.Admits apart m (g c).lexicalEnv) :
    F.Same apart m₀ (modifyContext g) (modifyContext g) := by
  refine .of_after fun m hm h => ?_
  obtain ⟨c, cs, hc⟩ := h.exists_context
  rw [Eval.after_ok (modifyContext_cons hc g)]
  exact ⟨⟨.single (.contexts _), (congrArg List.tail hc).symm⟩,
    h.moves hc (hvariable c) (henv m c hm (h.admits hc))⟩

@[grind ←] theorem setLexicalEnv {env : EnvId} (henv : F.Admits apart m₀ env) :
    F.Same apart m₀ (setLexicalEnv env) (setLexicalEnv env) :=
  .modifyContext (fun _ => rfl) fun _ _ hm _ => henv.later hm

/-- A run in another scope, which may be one that is apart. -/
theorem withLexicalEnv {apart' : Prop} {env : EnvId} (henv : F.Admits apart' m₀ env)
    (hx : ∀ m₁, m₀.Follows m₁ → F.Same apart' m₁ x x') :
    F.Same apart m₀ (withLexicalEnv env x) (withLexicalEnv env x') := by
  intro m hm h
  obtain ⟨c, cs, hc⟩ := h.exists_context
  let m₁ := m.withContexts ({ c with lexicalEnv := env } :: cs)
  have hfollows₁ : m.Follows m₁ := ⟨.single (.contexts _), (congrArg List.tail hc).symm⟩
  obtain ⟨hsame, hfollows, hholds⟩ :=
    hx m₁ (hm.trans hfollows₁) m₁ (.refl m₁) (h.moves hc rfl (henv.later hm))
  obtain ⟨d, ds, hd⟩ := hholds.exists_context
  obtain rfl : ds = cs := (congrArg List.tail hd).symm.trans hfollows.callers
  let m₂ := (x.after m₁).withContexts ({ d with lexicalEnv := c.lexicalEnv } :: ds)
  have hset : EcmaEval.setLexicalEnv c.lexicalEnv (x.after m₁) = .ok () m₂ := modifyContext_cons hd _
  have hrun (y : Eval α) :
      EcmaEval.withLexicalEnv env y m = tryFinally y (EcmaEval.setLexicalEnv c.lexicalEnv) m₁ :=
    withLexicalEnv_eq hc env y
  have hafter : (EcmaEval.withLexicalEnv env x).after m = m₂ := by
    rw [Eval.after_congr (hrun x), Eval.after_tryFinally, Eval.after_ok hset]
  rw [hafter]
  refine ⟨hsame.imp (fun hsame => ?_) fun hbreaks => ?_, ?_, ?_⟩
  · rw [hrun, hrun, tryFinally_eq, tryFinally_eq, hsame]
  · obtain ⟨e, m₃, hfails, hrest⟩ := hbreaks.tryFinally hset id
    exact ⟨e, m₃, (hrun x).trans hfails, hrest⟩
  · exact hfollows₁.trans (hfollows.trans ⟨.single (.contexts _), (congrArg List.tail hd).symm⟩)
  · exact hholds.moves hd rfl ((h.admits hc).later (hfollows₁.trans hfollows))

/-- A run in the context of another call. -/
theorem withContext (context : Context) (hx : ∀ m₁, ¬ F.IsRunning m₁ → F.Same apart m₁ x x') :
    F.Same apart m₀ (withContext context x) (withContext context x') := by
  intro m hm h
  by_cases hfull : m.stackLimit ≤ m.contexts.length
  · let refusal : Eval Unit := complain .stackExceeded
    have hrefusal : F.Same apart m₀ refusal refusal := .of_stays (complain_stays _ _)
    obtain ⟨e, m', hfails, hrun⟩ := withContext_of_full context hfull
    obtain ⟨-, hafter⟩ := hrefusal m hm h
    rw [Eval.after_error hfails] at hafter
    rw [Eval.after_error (hrun x)]
    exact ⟨.inl ((hrun x').trans (hrun x).symm), hafter⟩
  · let n := m.withContexts (context :: m.contexts)
    obtain ⟨hnot, hn⟩ := h.push context
    obtain ⟨hsame, hfollows, -⟩ := hx n hnot n (.refl n) hn
    let m₂ := (x.after n).withContexts m.contexts
    have hcallers : (x.after n).contexts.tail = m.contexts := hfollows.callers
    have hpop : Functor.discard popContext (x.after n) = .ok () m₂ := by
      change EStateM.Result.ok () ((x.after n).withContexts (x.after n).contexts.tail) = _
      rw [hcallers]
    have hrun (y : Eval α) : EcmaEval.withContext context y m = tryFinally y (Functor.discard popContext) n :=
      bind_ok (pushContext_of_room context hfull)
    have hafter : (EcmaEval.withContext context x).after m = m₂ := by
      rw [Eval.after_congr (hrun x), Eval.after_tryFinally, Eval.after_ok hpop]
    have hchanges : m.Changes m₂ :=
      .head (.contexts _) (hfollows.changes.tail (.contexts _))
    rw [hafter]
    refine ⟨hsame.imp (fun hsame => ?_) fun hbreaks => ?_, ⟨hchanges, rfl⟩, h.changes hchanges rfl⟩
    · rw [hrun, hrun, tryFinally_eq, tryFinally_eq, hsame]
    · obtain ⟨e, m₃, hfails, hrest⟩ := hbreaks.tryFinally hpop id
      exact ⟨e, m₃, (hrun x).trans hfails, hrest⟩

variable {look : Look}

/-- A look before a moment that gives no variable a value. -/
theorem looking (hlook : F.Spares look) {x : Moment} (hx : ∀ name, x ≠ .var name) {y y' : Eval α}
    (h : F.Same apart m₀ y y') : F.Same apart m₀ y (look x >>= fun _ => y') := by
  intro m hm hholds
  obtain ⟨hsame, hrest⟩ := h m hm hholds
  have hrun : look x m = .ok () m := by
    refine hlook x m fun hrunning => ?_
    obtain ⟨c, hc, -⟩ := hholds.running hrunning
    exact ⟨c, hc, hholds.retains, fun name hname => absurd hname (hx name)⟩
  rw [bind_ok hrun]
  exact ⟨hsame, hrest⟩

/-- The resolution of a variable that the call declares. -/
theorem resolve_bind (hlook : F.Spares look) {name : String} (hname : F.Covers m₀ (· = name)) {f f' : Value → Eval β}
    (hf : ∀ m₁ target, m₀.Follows m₁ → F.Same apart m₁ (f target) (f' target)) :
    F.Same apart m₀ (Look.none (.var name) >>= fun _ => liftM (resolveBinding name none) >>= f)
      (look (.var name) >>= fun _ => liftM (resolveBinding name none) >>= f') := by
  have hrest : F.Same apart m₀ (liftM (resolveBinding name none) >>= f) (liftM (resolveBinding name none) >>= f') :=
    .bind (.lift _) hf
  intro m hm h
  obtain ⟨hsame, hafter⟩ := hrest m hm h
  rw [show (Look.none (.var name) >>= fun _ => liftM (resolveBinding name none) >>= f) =
    (liftM (resolveBinding name none) >>= f : Eval β) from pure_bind _ _]
  refine ⟨?_, hafter⟩
  have hpass (hrun : look (.var name) m = .ok () m) :
      ((look (.var name) >>= fun _ => liftM (resolveBinding name none) >>= f') m =
        (liftM (resolveBinding name none) >>= f : Eval β) m ∨
      Eval.Breaks (liftM (resolveBinding name none) >>= f : Eval β) m) := by
    rw [bind_ok hrun]
    exact hsame
  by_cases hrunning : F.IsRunning m
  · obtain ⟨c, hc, -⟩ := h.running hrunning
    have hmem : name ∈ F.names := (hname.later hm) hrunning name rfl
    have hroot := h.retains name hmem
    obtain ⟨env, hresolves⟩ | ⟨e, hfails, hfatal, hintact⟩ := resolveBinding_inside hc.contexts hc.inside hroot
    · refine hpass (hlook _ m fun _ => ⟨c, hc, h.retains, fun name' hname' => ?_⟩)
      cases hname'
      exact ⟨hmem, env, hresolves⟩
    · exact .inr ⟨e, m, bind_error (lift_error hfails), hfatal, hintact⟩
  · exact hpass (hlook _ m fun h => absurd h hrunning)

end Same

end Frame

end EcmaEval
