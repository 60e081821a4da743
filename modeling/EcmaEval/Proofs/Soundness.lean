import EcmaEval.Proofs.Sound.Execute

/-!
# Soundness of evaluation

A host makes a realm, enters it with a script context and evaluates scripts and expressions there. As
long as these are statically valid, no evaluation ends with a fault other than an unsupported
construct: no internal condition fails, no binding is missing or declared twice, and no handle
dangles.
-/
namespace EcmaEval

variable {g : Contract} {A : Grant} {m m' : Machine} {node : Node} {level : Nat}

/-- A new machine keeps every contract. -/
theorem Contract.sound_new (g : Contract) (limit : Nat) : g.Sound { stackLimit := limit } where
  objects o obj h := by simp [Machine.object?] at h
  environments env e h := by simp [Machine.env?] at h
  realms r realm h := by simp [Machine.realm?] at h
  globals r realm h := by simp [Machine.realm?] at h
  contexts c h := by simp at h
  prototypes := ⟨fun o => ⟨o, fun p ⟨obj, h, _⟩ => by simp [Machine.object?] at h⟩⟩
  aliases _ o obj h := by simp [Machine.object?] at h

/-- A node evaluates under a grant for the block-scoped names of a script. -/
theorem Node.evaluateBy_runs {ev : Evaluator} (hev : ev.Keeps g) (hnode : g.checked → node.Valid)
    (hdeclare : g.checked → ∀ env n, A.declare env n) :
    g.Runs A m (node.evaluateBy ev) fun m' c => g.Ends m' .top c := by
  cases node with
  | script body =>
    exact Evaluator.script_runs hev (fun hc => (hnode hc).1) (fun hc => (hnode hc).2) hdeclare
  | statement s =>
    -- A statement by itself is evaluated in code that nobody has checked.
    have hc (hc : g.checked) : False := hnode hc
    exact hev.statement A m ⟨0⟩ .top [] s (fun h => (hc h).elim) (by simp)
      ⟨fun h => (hc h).elim, fun h => (hc h).elim⟩
  | expression e =>
    refine .completing (.bind (Evaluator.value_runs hev hnode) fun v m₁ _ _ _ hv => .pure ?_)
      fun m' v hv => hv
    exact fun w hw => by cases hw; exact hv

theorem evaluate_runs (hbounded : g.bounded) (hnode : g.checked → node.Valid)
    (hdeclare : g.checked → ∀ env n, A.declare env n) :
    g.Runs A m (evaluate level node) fun m' c => g.Ends m' .top c := by
  rw [evaluate_eq]
  exact Node.evaluateBy_runs (Evaluator.level_keeps hbounded level) hnode hdeclare

/-- No run ends with a throw. -/
def Eval.NeverThrows (x : Eval α) : Prop := ∀ m v m', x m ≠ .error (.thrown v) m'

namespace Eval.NeverThrows

variable {x : Eval α} {f : α → Eval β}

theorem pure (a : α) : NeverThrows (pure a : Eval α) := fun _ _ _ h => by cases h

theorem lift {q : Query α} (hq : ∀ m v, q m ≠ .error (.thrown v)) :
    NeverThrows (liftM q : Eval α) := by
  intro m v m' h
  cases hr : q m with
  | ok a => rw [lift_ok hr] at h; cases h
  | error e =>
    rw [lift_error hr] at h
    cases h
    exact hq m v hr

theorem bind (hx : x.NeverThrows) (hf : ∀ a, (f a).NeverThrows) : NeverThrows (x >>= f) := by
  intro m v m' h
  cases hr : x m with
  | ok a m₁ =>
    rw [bind_ok hr] at h
    exact hf a m₁ v m' h
  | error e m₁ =>
    rw [bind_error hr] at h
    cases h
    exact hx m v m' hr

theorem completing (x : Eval Completion) : (completing x).NeverThrows := by
  intro m v m'
  unfold EcmaEval.completing
  split
  · simp
  · rename_i hne
    exact fun h => hne v m' h

end Eval.NeverThrows

theorem currentRealm_ne_thrown (m : Machine) (v : Value) : currentRealm m ≠ .error (.thrown v) := by
  intro h
  cases hm : m.contexts with
  | nil =>
    have hrun : runningContext m = .error (.fault .noRunningContext) := by simp [runningContext, hm]
    rw [currentRealm, Query.bind_error hrun] at h
    cases h
  | cons c cs =>
    have hrun : runningContext m = .ok c := by simp [runningContext, hm]
    rw [currentRealm, Query.bind_ok hrun] at h
    cases h

theorem RealmId.load_ne_thrown (realm : RealmId) (m : Machine) (v : Value) :
    realm.load m ≠ .error (.thrown v) := by
  unfold RealmId.load
  split <;> simp

/-- What running code throws is a completion of its evaluation. -/
theorem evaluate_neverThrows (level : Nat) (node : Node) : (evaluate level node).NeverThrows := by
  cases node with
  | script body =>
    refine .bind (.lift currentRealm_ne_thrown) fun realm => ?_
    refine .bind (.lift realm.load_ne_thrown) fun r => .bind (.completing _) fun c => ?_
    split <;> exact .pure _
  | statement s =>
    cases level with
    | zero => exact fun _ _ _ h => by cases h
    | succ n => exact .completing _
  | expression e => exact .completing _

/-- The promise of a host that evaluates valid nodes only. -/
def Contract.valid : Contract where
  plain := True
  guarded := True
  checked := True
  bounded := True
  plain_of_checked _ := trivial
  guarded_of_checked _ := trivial

/-- A machine with a realm and a script context in it, after any evaluations of valid scripts and
expressions, however these ended. -/
inductive Session : Machine → Prop
  | start {limit : Nat} {realm : RealmId} {strict : Bool} {m m' : Machine}
      (hrealm : newRealm { stackLimit := limit } = .ok realm m)
      (hcontext : pushScriptContext realm strict m = .ok () m') : Session m'
  | next {m : Machine} (level : Nat) {node : Node} (h : Session m) (hnode : node.Valid) :
      Session ((evaluate level node).after m)

/-- Evaluation of scripts and expressions leaves the stack of contexts as it is. -/
theorem Node.Valid.keepsStack (hnode : node.Valid) (level : Nat) :
    (evaluate level node).KeepsStack := by
  have hev := Evaluator.level_restores level
  cases node with
  | script body => exact Evaluator.script_keepsStack hev body
  | statement s => exact hnode.elim
  | expression e => exact .completing (.bind (Evaluator.value_keepsStack hev e) fun _ => .pure _)

namespace Session

/-- A run that may declare any name. -/
def grant (m : Machine) : Grant := { m.grant with declare := fun _ _ => True }

theorem covers (m : Machine) : g.Covers (grant m) m.grant := ⟨fun _ _ _ _ => trivial, fun _ h => h⟩

theorem evaluate_runs (hnode : node.Valid) (level : Nat) :
    Contract.valid.Runs (grant m) m (evaluate level node) fun m' c => Contract.valid.Ends m' .top c :=
  EcmaEval.evaluate_runs trivial (fun _ => hnode) fun _ _ _ => trivial

/-- A session keeps its machine sound, and a context running. -/
theorem sound (h : Session m) : Contract.valid.Sound m ∧ m.contexts ≠ [] := by
  induction h with
  | @start limit realm strict m m' hrealm hcontext =>
    have hnew := Contract.valid.sound_new limit
    obtain ⟨hmade, hwithin⟩ := newRealm_runs.ok (.refl _) hnew hrealm
    have hm := Contract.Steps.sound hmade hnew
    obtain ⟨hpushed, hcontexts⟩ := (pushScriptContext_runs hwithin).ok (.refl _) hm hcontext
    exact ⟨Contract.Steps.sound hpushed hm, hcontexts⟩
  | @next m level node _ hnode ih =>
    have hsteps := (evaluate_runs hnode level).after (covers m) ih.1
    refine ⟨Contract.Steps.sound hsteps ih.1, ?_⟩
    rw [show ((evaluate level node).after m).contexts = m.contexts from hnode.keepsStack level m]
    exact ih.2

end Session

/-- **Soundness.** Whenever the evaluation of a valid script or expression ends, it gives a completion
or reports an unsupported construct. -/
theorem evaluate_completes_or_unsupported (hm : Session m) (hnode : node.Valid)
    (hends : (evaluate level node).Ends m) :
    (∃ c m', evaluate level node m = .ok c m') ∨
      ∃ feature m', evaluate level node m = .error (.fault (.notImplemented feature)) m' := by
  obtain ⟨hsound, hcontexts⟩ := hm.sound
  cases hr : evaluate level node m with
  | ok c m' => exact .inl ⟨c, m', rfl⟩
  | error e m' =>
    obtain ⟨-, hfails⟩ := (Session.evaluate_runs hnode level).error (Session.covers m) hsound hr
    cases e with
    | thrown v => exact absurd hr (evaluate_neverThrows level node m v m')
    | exhausted => exact absurd hr (hends m')
    | fault f =>
      obtain ⟨feature, rfl⟩ | ⟨-, hnil⟩ := hfails trivial
      · exact .inr ⟨feature, m', rfl⟩
      · rw [(hnode.keepsStack level).of_error hr] at hnil
        exact absurd hnil hcontexts

/-- A script that declares a constant and reads it in a block. -/
theorem evaluate_completes_or_unsupported_block :
    let x : Statement := .expression (.identifier "x")
    let node := Node.script
      [.declare (.lexical true) [⟨.identifier "x", some (.literal .null)⟩], .block [x]]
    ∃ m, Session m ∧ node.Valid ∧ (evaluate 5 node).Ends m ∧
      ((∃ c m', evaluate 5 node m = .ok c m') ∨
        ∃ feature m', evaluate 5 node m = .error (.fault (.notImplemented feature)) m') := by
  intro x node
  have hrun : ∃ c m', (do
      let realm ← newRealm
      pushScriptContext realm false
      evaluate 5 node) { stackLimit := 2 } = .ok c m' := Eval.exists_ok (by decide +kernel)
  obtain ⟨c, m', hrun⟩ := hrun
  obtain ⟨realm, m₁, hrealm, hrun⟩ := bind_eq_ok hrun
  obtain ⟨_, m₂, hcontext, hrun⟩ := bind_eq_ok hrun
  have hblock : Statement.Valid .top [] (.block [x]) := by
    refine .block (fun s hs => ?_) ?_
    · obtain rfl := List.mem_singleton.mp hs
      exact .expression (.identifier _)
    · simp [x, Body.lexicallyScoped, Statement.lexicallyScoped, LexicalDeclaration.Distinct]
  have hdeclare : Statement.Valid .top []
      (.declare (.lexical true) [⟨.identifier "x", some (.literal .null)⟩]) := by
    refine .declare fun d hd => ?_
    obtain rfl := List.mem_singleton.mp hd
    exact .mk (.identifier _) (fun e he => by cases he; exact .literal trivial) (by simp)
  have hnode : node.Valid := by
    refine ⟨fun s hs => ?_, ?_⟩
    · rcases List.mem_cons.mp hs with rfl | hs
      · exact hdeclare
      · exact List.mem_singleton.mp hs ▸ hblock
    · simp [x, Body.lexicallyScoped, Statement.lexicallyScoped, LexicalDeclaration.Distinct,
        LexicalDeclaration.boundNames, Pattern.boundNames]
  have hends : (evaluate 5 node).Ends m₂ := fun m₃ h => by rw [hrun] at h; cases h
  exact ⟨m₂, .start hrealm hcontext, hnode, hends,
    evaluate_completes_or_unsupported (.start hrealm hcontext) hnode hends⟩

end EcmaEval
