import EcmaEval.Proofs.Sound.Loop
import Mathlib.Algebra.Order.Monoid.Unbundled.WithTop
import Mathlib.Data.Prod.Lex

/-!
# For-in loops keep a machine sound

An enumeration visits objects in range. Each iteration binds its key in a scope of its own if the head
of the loop declares a name with `let` or `const`.
-/
namespace EcmaEval

variable {g : Contract} {A : Grant} {m m' : Machine} {env outer : EnvId} {j : Jumps}
  {labels attached : List String}

namespace KeyIterator

/-- The object being visited is in range. -/
def Within (b : Bounds) (it : KeyIterator) : Prop := ∀ o, it.object = some o → o.Within b

theorem Within.mono {b b' : Bounds} (hb : b ≤ b') {it : KeyIterator} (h : it.Within b) : it.Within b' :=
  fun o ho => Nat.lt_of_lt_of_le (h o ho) hb.1

theorem Within.of_chain {it : KeyIterator} {l : List ObjectId} (h : m.Chain it.object l) :
    it.Within m.bounds := by
  intro o ho
  rw [ho] at h
  cases h with
  | cons hobj _ => exact Machine.within_of_object? hobj

/-- How many keys of the object being visited are left, once its visit has begun. -/
def pendingCount (it : KeyIterator) : WithTop Nat := it.pending.elim ⊤ fun keys => keys.length

/-- How much of an enumeration along a chain is left: the objects to visit, and the keys of the first of
them. -/
def rank (it : KeyIterator) (l : List ObjectId) : Nat ×ₗ WithTop Nat := toLex (l.length, it.pendingCount)

/-- The enumeration goes on along a chain, and less of it is left. -/
def Advances (m : Machine) (it : KeyIterator) (l : List ObjectId) (it' : KeyIterator) : Prop :=
  ∃ l', m.Chain it'.object l' ∧ it'.rank l' < it.rank l

theorem nextOwn_asks {o : ObjectId} (ho : o.Within m.bounds) (keys visited : List Key) :
    g.Asks m (nextOwn o keys visited) fun r =>
      ∀ t rest, r.1 = some (t, rest) → rest.length < keys.length := by
  induction keys generalizing visited with
  | nil => exact .pure (by simp)
  | cons key rest ih =>
    have hlonger (visited : List Key) : g.Asks m (nextOwn o rest visited) fun r =>
        ∀ t rest', r.1 = some (t, rest') → rest'.length < (key :: rest).length :=
      (ih visited).imp fun r hr t rest' h => Nat.lt_succ_of_lt (hr t rest' h)
    unfold nextOwn
    split
    · exact hlonger visited
    refine .bind (ObjectId.getOwnProperty_asks ho) fun current _ _ => ?_
    split
    · exact hlonger visited
    · split
      · refine .pure fun t rest' h => ?_
        cases h
        exact Nat.lt_succ_self _
      · exact hlonger _
    · exact hlonger _

/-- The rest of the visit of an object, and the objects after it. -/
def visit (steps : Nat) (o : ObjectId) (keys visited : List Key) : Query (Option (Text × KeyIterator)) := do
  match ← nextOwn o keys visited with
  | (some (t, rest), visited) => return some (t, { object := some o, pending := some rest, visited })
  | (none, visited) => advance steps { object := (← o.load).prototype, pending := none, visited }

/-- With a step for each object of its chain, an enumeration comes to its next key or to its end. -/
theorem advance_asks {it : KeyIterator} {l : List ObjectId} {steps : Nat} (hl : m.Chain it.object l)
    (hsteps : l.length < steps) :
    g.Asks m (it.advance steps) fun r => ∀ key it', r = some (key, it') → it.Advances m l it' := by
  -- each visit either gives a key of its object or goes up the chain, which gets shorter
  induction steps generalizing it l with
  | zero => exact absurd hsteps (Nat.not_lt_zero _)
  | succ steps ih =>
    cases hobject : it.object with
    | none =>
      unfold advance
      rw [hobject]
      exact .pure (by simp)
    | some o =>
      rw [hobject] at hl
      cases hl with
      | @cons _ obj l hobj hrest =>
        have ho := Machine.within_of_object? hobj
        have hvisit (keys : List Key) (hkeys : keys.length ≤ it.pendingCount) :
            g.Asks m (visit steps o keys it.visited) fun r =>
              ∀ key it', r = some (key, it') → it.Advances m (o :: l) it' := by
          refine .bind (nextOwn_asks ho keys it.visited) fun next _ hnext => ?_
          obtain ⟨found, visited⟩ := next
          cases found with
          | some found =>
            refine .pure fun key it' h => ?_
            cases h
            refine ⟨o :: l, .cons hobj hrest, Prod.Lex.toLex_lt_toLex.mpr (.inr ⟨rfl, ?_⟩)⟩
            exact lt_of_lt_of_le (WithTop.coe_lt_coe.mpr (hnext _ _ rfl)) hkeys
          | none =>
            refine .bind (ObjectId.load_asks ho) fun obj' _ hobj' => ?_
            cases hobj.symm.trans hobj'
            refine (ih hrest (Nat.lt_of_succ_lt_succ hsteps)).imp fun r hr key it' h => ?_
            obtain ⟨l', hl', hrank⟩ := hr key it' h
            exact ⟨l', hl', hrank.trans (Prod.Lex.toLex_lt_toLex.mpr (.inl (Nat.lt_succ_self _)))⟩
        unfold advance
        rw [hobject]
        dsimp only
        split
        · rename_i keys hpending
          exact hvisit keys (by simp [pendingCount, hpending])
        · rename_i hpending
          refine .bind (ObjectId.ownKeys_asks ho) fun keys _ _ => hvisit (keys.filter Key.isString) ?_
          simp [pendingCount, hpending]

theorem next_asks {it : KeyIterator} {l : List ObjectId} (hl : m.Chain it.object l) :
    g.Asks m it.next fun r => ∀ key it', r = some (key, it') → it.Advances m l it' :=
  fun hm => advance_asks hl (Nat.lt_succ_of_le (Nat.le_succ_of_le hl.length_le)) hm

end KeyIterator

namespace Evaluator

variable {ev : Evaluator} (hev : ev.Keeps g) {target : ForTarget}

include hev

/-- While the object of the loop is evaluated the names of the head wait for values that they never
get. -/
theorem forInSource_runs {source : Expression} (hsource : g.checked → source.Valid)
    (htarget : g.checked → target.Valid) :
    g.Runs A m (ev.forInSource target source) fun m' v => g.Stored m'.bounds v := by
  have hnodup (hc : g.checked) : (headNames target).Nodup := by
    cases target with
    | pattern p => exact List.nodup_nil
    | declare kind p =>
      cases kind with
      | var => exact List.nodup_nil
      | lexical constant =>
        cases htarget hc with
        | declare h hnames => exact hnames (by simp)
  refine .query lexicalEnv_asks fun outer _ houter => ?_
  dsimp only
  split
  · exact withLexicalEnv_runs houter (fun c cs _ => value_runs hev hsource) fun _ _ _ h => h
  refine .seq (newDeclarativeEnvironment_opens houter) fun env m₁ _ _ hm₁ ⟨hopen, _⟩ => ?_
  refine .seq (Contract.Creates.forM g.lasts_free env.createMutable_creates hnodup A m₁ hopen.within
    (fun hc n _ => hopen.declare hc n) fun _ n _ => hopen.free n) fun _ m₂ _ hsteps₂ _ _ => ?_
  have henv₂ := Nat.lt_of_lt_of_le hopen.within (hsteps₂.bounds hm₁).2.1
  exact withLexicalEnv_runs henv₂ (fun c cs _ => value_runs hev hsource) fun _ _ _ h => h

/-- A key is bound where the body of the loop finds it. -/
theorem bindForTarget_runs {value : Value} (houter : outer.Within m.bounds)
    (htarget : g.checked → target.Valid) (hv : g.Stored m.bounds value)
    (hscope : g.checked → lexicalEnv m = .ok env) :
    g.Runs A m (ev.bindForTarget outer target value) fun m' _ =>
      ∃ env', g.checked → lexicalEnv m' = .ok env' := by
  refine .of_sound fun hm => ?_
  cases target with
  | pattern p =>
    cases p with
    | identifier name =>
      refine .query (resolveBinding_asks (by simp)) fun reference _ hreference => ?_
      refine (Value.putValue_runs hreference hv).imp fun m' _ hrun _ _ => ⟨env, fun hc => ?_⟩
      have hkeeps : (reference.putValue value).KeepsStack := by grind
      exact (hkeeps.lexicalEnv hrun).trans (hscope hc)
    | _ => exact .unsupported _
  | declare kind p =>
    have hp (hc : g.checked) : p.Valid := by
      cases htarget hc
      assumption
    have hdistinct (hc : g.checked) : kind ≠ .var → p.boundNames.Nodup := by
      cases htarget hc
      assumption
    cases kind with
    | var =>
      refine (bindPattern_runs hev A m none p value hp (.none g A m _) hv).imp
        fun m' _ hrun _ _ => ⟨env, fun hc => ?_⟩
      exact ((bindPattern_keepsStack hev.restores none p value).lexicalEnv hrun).trans (hscope hc)
    | lexical constant =>
      have hnodup (hc : g.checked) : p.boundNames.Nodup := hdistinct hc (by simp)
      refine .seq (newDeclarativeEnvironment_opens houter) fun env' m₁ _ hsteps₁ hm₁ ⟨hopen, _⟩ => ?_
      refine .seq (Contract.Creates.forM g.lasts_free (env'.createLexical_creates constant) hnodup A m₁
        hopen.within (fun hc n _ => hopen.declare hc n) fun _ n _ => hopen.free n)
        fun _ m₂ _ hsteps₂ hm₂ hwaiting => ?_
      have hbinds := hopen.binds hm₁ hsteps₂ hnodup hwaiting
      have hv₂ := hv.mono (Bounds.le_trans (hsteps₁.bounds hm) (hsteps₂.bounds hm₁))
      refine .seq (setLexicalEnv_runs (hbinds.within env' rfl)) ?_
      rintro _ m₃ - - - ⟨c, cs, -, rfl⟩
      have hbinds₃ := hbinds.withContexts ({ c with lexicalEnv := env' } :: cs)
      -- the context gets the new environment, and binding in it moves the scope no further
      refine (bindPattern_runs hev A _ (some env') p value hp hbinds₃ hv₂).imp
        fun m' _ hrun _ _ => ⟨env', fun _ => ?_⟩
      rw [(bindPattern_keepsStack hev.restores (some env') p value).lexicalEnv hrun]
      exact lexicalEnv_cons (c := { c with lexicalEnv := env' }) (show _ = _ :: cs from rfl)

variable {body : Statement} {steps : Nat} (hbody : g.checked → body.Valid (j.loop attached) [])
  (hnames : g.checked → body.letNames = [])

include hbody hnames

/-- One iteration, without what comes after it. -/
theorem forInIteration_runs (houter : outer.Within m.bounds) (htarget : g.checked → target.Valid)
    (key : Text) :
    g.Runs A m (withLexicalEnv outer do
      ev.bindForTarget outer target (.string key)
      ev.statement body) fun m' c => g.Ends m' (j.loop attached) c := by
  refine withLexicalEnv_runs houter (fun c cs _ => ?_) fun m' c cs h => h.withContexts cs
  refine .seq (bindForTarget_runs hev houter htarget (.string _ _) fun _ =>
    lexicalEnv_cons (c := { c with lexicalEnv := outer }) (show _ = _ :: cs from rfl)) ?_
  exact fun _ m₁ _ _ _ ⟨env', hscope⟩ => inner_runs hev hbody hnames hscope

variable (hbounded : g.bounded) (hlabels : g.checked → ∀ l ∈ attached, l ∈ labels)

include hbounded hlabels

theorem forInIterations_runs {it : KeyIterator} {last : Value} (houter : outer.Within m.bounds)
    (htarget : g.checked → target.Valid) (hit : it.Within m.bounds) (hlast : g.Stored m.bounds last) :
    g.Runs A m (ev.forInIterations target body labels outer steps it last)
      fun m' c => g.Ends m' j.switch c := by
  induction steps generalizing m it last with
  | zero => exact .throw hbounded
  | succ steps ih =>
    refine .of_sound fun hm => ?_
    obtain ⟨l, hl⟩ := hm.chain it.object hit
    refine .query (KeyIterator.next_asks hl) fun next _ hnext => ?_
    cases next with
    | none => exact .pure fun _ h => by cases h; exact hlast
    | some next =>
      obtain ⟨key, it'⟩ := next
      refine .seq (forInIteration_runs hev hbody hnames houter htarget key) fun c m₁ _ hsteps₁ _ hends => ?_
      have hb := hsteps₁.bounds hm
      refine afterBody_runs hends hlabels (hlast.mono hb) fun hlast₁ => ?_
      have hit' : it'.Within m.bounds :=
        have ⟨_, hl', _⟩ := hnext key it' rfl
        .of_chain hl'
      exact ih (Nat.lt_of_lt_of_le houter hb.2.1) (hit'.mono hb) hlast₁

theorem forIn_runs {source : Expression} (hsource : g.checked → source.Valid)
    (htarget : g.checked → target.Valid) :
    g.Runs A m (ev.forIn steps target source body labels) fun m' c => g.Ends m' j.switch c := by
  refine .of_sound fun hm => .query lexicalEnv_asks fun outer _ houter => ?_
  refine .bind (forInSource_runs hev hsource htarget) fun v m₁ _ hsteps₁ _ hv => ?_
  split
  · exact .pure ⟨fun _ h => (by cases h), fun _ => rfl⟩
  refine .bind (Value.toObject_runs hv.1) fun o _ _ _ _ hobject => ?_
  obtain ⟨hm', ho⟩ := hobject
  subst hm'
  refine forInIterations_runs hev hbody hnames hbounded hlabels
    (Nat.lt_of_lt_of_le houter (hsteps₁.bounds hm).2.1) htarget (fun o' ho' => ?_) (.undefined _)
  cases ho'
  exact ho

end Evaluator

end EcmaEval
