import EcmaEval.Statement.Block

/-!
# Case blocks of switch statements

The language evaluates a case block in three phases around its default clause: the clauses before it are
scanned, tested until one is selected and executed from there on; the clauses after it are scanned in the same
way if none was selected, and executed a second time without tests after the default clause if none of them was.
Selecting a clause first and then running the block from it comes to the same on every machine.
-/
namespace EcmaEval

/-- A clause with a test. -/
structure CaseClause where
  test : Expression
  body : List Statement

/-- A case block: the clauses around its default clause, if it has one. -/
inductive CaseBlock where
  | plain (clauses : List CaseClause)
  | withDefault (before : List CaseClause) (default : List Statement) (after : List CaseClause)

namespace CaseClause

def toSwitchClause (c : CaseClause) : SwitchClause := ⟨some c.test, c.body⟩

end CaseClause

namespace CaseBlock

/-- The clauses in source order. -/
def clauses : CaseBlock → List SwitchClause
  | .plain cases => cases.map (·.toSwitchClause)
  | .withDefault before default after =>
    before.map (·.toSwitchClause) ++ ⟨none, default⟩ :: after.map (·.toSwitchClause)

/-- A clause written in front. -/
def cons (c : CaseClause) : CaseBlock → CaseBlock
  | .plain cases => .plain (c :: cases)
  | .withDefault before default after => .withDefault (c :: before) default after

theorem clauses_cons (c : CaseClause) (block : CaseBlock) :
    (block.cons c).clauses = c.toSwitchClause :: block.clauses := by
  cases block <;> rfl

theorem exists_cases {clauses : List SwitchClause} (h : clauses.countP (·.test.isNone) = 0) :
    ∃ cases : List CaseClause, cases.map (·.toSwitchClause) = clauses := by
  induction clauses with
  | nil => exact ⟨[], rfl⟩
  | cons clause rest ih =>
    obtain ⟨test, body⟩ := clause
    cases test with
    | none => simp at h
    | some test =>
      obtain ⟨cases, rfl⟩ := ih (by simpa using h)
      exact ⟨⟨test, body⟩ :: cases, rfl⟩

theorem count_cases (cases : List CaseClause) :
    (cases.map (·.toSwitchClause)).countP (·.test.isNone) = 0 := by
  simp [List.countP_eq_zero, CaseClause.toSwitchClause]

/-- The case blocks are the lists of clauses with at most one default clause. -/
theorem exists_clauses_iff {clauses : List SwitchClause} :
    (∃ block : CaseBlock, block.clauses = clauses) ↔ clauses.countP (·.test.isNone) ≤ 1 := by
  constructor
  · rintro ⟨block, rfl⟩
    cases block with
    | plain cases =>
      rw [CaseBlock.clauses, count_cases]
      exact Nat.zero_le 1
    | withDefault before default after =>
      rw [CaseBlock.clauses, List.countP_append, List.countP_cons, count_cases, count_cases]
      simp
  · intro h
    induction clauses with
    | nil => exact ⟨.plain [], rfl⟩
    | cons clause rest ih =>
      obtain ⟨test, body⟩ := clause
      cases test with
      | none =>
        have hrest : rest.countP (·.test.isNone) = 0 := by simpa using h
        obtain ⟨cases, rfl⟩ := exists_cases hrest
        exact ⟨.withDefault [] body cases, rfl⟩
      | some test =>
        obtain ⟨block, rfl⟩ := ih (by simpa using h)
        exact ⟨block.cons ⟨test, body⟩, clauses_cons _ _⟩

end CaseBlock

/-- An evaluation that an abrupt completion may end early. -/
abbrev Phase : Type → Type := ExceptT Completion Eval

/-- The completion of a case block from its last value, or from the end that came early. -/
def Phase.completion (x : Phase Value) : Eval Completion := do
  match ← x.run with
  | .ok v => return .normal (some v)
  | .error c => return c

namespace Evaluator

variable (ev : Evaluator) (input : Value)

def isSelected (clause : CaseClause) : Eval Bool :=
  return input.strictlyEqual (← ev.value clause.test)

/-- Executes a clause after the value so far, which stands in for an empty one. -/
def executeClause (v : Value) (body : List Statement) : Phase Value := do
  let result ← ev.statements body none
  let v := result.value?.getD v
  if result.isAbrupt then throwThe Completion (result.updateEmpty (some v)) else return v

/-- Tests clauses until one is selected and executes from there on. Says whether one was selected. -/
def scanClauses : List CaseClause → Bool → Value → Phase (Bool × Value)
  | [], found, v => return (found, v)
  | clause :: rest, found, v => do
    let found ← if found then pure true else (ev.isSelected input clause : Phase Bool)
    if found then
      let v ← ev.executeClause v clause.body
      scanClauses rest found v
    else scanClauses rest found v

/-- Executes clauses without testing. -/
def executeClauses : List (List Statement) → Value → Phase Value
  | [], v => return v
  | body :: rest, v => do
    let v ← ev.executeClause v body
    executeClauses rest v

/-- The phases of a case block. -/
def casePhases : CaseBlock → Phase Value
  | .plain cases => do
    let (_, v) ← ev.scanClauses input cases false .undefined
    return v
  | .withDefault before default after => do
    let (found, v) ← ev.scanClauses input before false .undefined
    let (foundAfter, v) ← if found then pure (false, v) else ev.scanClauses input after false v
    if foundAfter then return v
    else
      -- selected before the default clause or nowhere; in either case nothing more is tested
      let v ← ev.executeClause v default
      ev.executeClauses (after.map (·.body)) v

def phasedCaseBlock (block : CaseBlock) : Eval Completion := (ev.casePhases input block).completion

end Evaluator

namespace Phase

theorem completion_pure (v : Value) : (pure v : Phase Value).completion = pure (.normal (some v)) := by
  simp [completion]

/-- An early end skips what would follow. -/
theorem completion_throw_bind (c : Completion) (f : α → Phase Value) :
    ((throwThe Completion c : Phase α) >>= f).completion = pure c := by
  change (ExceptT.run (throw c >>= f) >>= _ : Eval Completion) = _
  rw [ExceptT.run_bind, ExceptT.run_throw, pure_bind, pure_bind]

theorem completion_lift_bind (x : Eval α) (f : α → Phase Value) :
    ((liftM x : Phase α) >>= f).completion = x >>= fun a => (f a).completion := by
  change (ExceptT.run (ExceptT.lift x >>= f) >>= _ : Eval Completion) = _
  rw [ExceptT.run_bind_lift, bind_assoc]
  rfl

end Phase

namespace Evaluator

variable (ev : Evaluator) (input : Value)

theorem runClauses_eq (clauses : List SwitchClause) (v : Value) :
    ev.runClauses clauses v = (ev.executeClauses (clauses.map (·.body)) v).completion := by
  induction clauses generalizing v with
  | nil => exact (Phase.completion_pure v).symm
  | cons clause rest ih =>
    simp only [runClauses, List.map_cons, executeClauses, executeClause, bind_assoc, Phase.completion_lift_bind]
    congr 1
    funext result
    split
    · exact (Phase.completion_throw_bind _ _).symm
    · simp [ih]

theorem executeClauses_append (first second : List (List Statement)) (v : Value) :
    ev.executeClauses (first ++ second) v = ev.executeClauses first v >>= ev.executeClauses second := by
  induction first generalizing v with
  | nil => simp [executeClauses]
  | cons body rest ih => simp [executeClauses, ih]

theorem scanClauses_found (cases : List CaseClause) (v : Value) :
    ev.scanClauses input cases true v = (do return (true, ← ev.executeClauses (cases.map (·.body)) v)) := by
  induction cases generalizing v with
  | nil => simp [scanClauses, executeClauses]
  | cons clause rest ih => simp [scanClauses, executeClauses, ih]

/-- A search through two lists of clauses goes on in the second if it finds nothing in the first. -/
theorem matchingClauses_append (first second : List SwitchClause) :
    ev.matchingClauses input (first ++ second) = (do
      match ← ev.matchingClauses input first with
      | some selected => return some (selected ++ second)
      | none => ev.matchingClauses input second) := by
  induction first with
  | nil => simp [matchingClauses]
  | cons clause rest ih =>
    obtain ⟨test, body⟩ := clause
    cases test with
    | none => simpa [matchingClauses] using ih
    | some test =>
      simp only [List.cons_append, matchingClauses, bind_assoc]
      congr 1
      funext value
      split
      · simp
      · exact ih

theorem matchingClauses_case (clause : CaseClause) (rest : List SwitchClause) :
    ev.matchingClauses input (clause.toSwitchClause :: rest) = (do
      if ← ev.isSelected input clause then return some (clause.toSwitchClause :: rest)
      else ev.matchingClauses input rest) := by
  simp [matchingClauses, isSelected, CaseClause.toSwitchClause]

theorem scanClauses_unselected (clause : CaseClause) (rest : List CaseClause) (v : Value) :
    ev.scanClauses input (clause :: rest) false v = (do
      if ← (ev.isSelected input clause : Phase Bool) then
        return (true, ← ev.executeClauses ((clause :: rest).map (·.body)) v)
      else ev.scanClauses input rest false v) := by
  rw [scanClauses, if_neg Bool.false_ne_true]
  congr 1
  funext selected
  cases selected with
  | false => simp
  | true => simp [scanClauses_found, executeClauses]

/-- A scan that starts with no clause selected runs on from the clause that a search finds first. -/
theorem scanClauses_search (cases : List CaseClause) (rest : List SwitchClause) (v : Value)
    (next : Value → Phase Value) :
    (do
      let (found, v) ← ev.scanClauses input cases false v
      if found then ev.executeClauses (rest.map (·.body)) v else next v : Phase Value).completion = (do
        match ← ev.matchingClauses input (cases.map (·.toSwitchClause)) with
        | some selected => ev.runClauses (selected ++ rest) v
        | none => (next v).completion) := by
  induction cases with
  | nil => simp [scanClauses, matchingClauses]
  | cons clause cases ih =>
    simp only [List.map_cons]
    rw [scanClauses_unselected, matchingClauses_case, bind_assoc, bind_assoc, Phase.completion_lift_bind]
    congr 1
    funext selected
    cases selected with
    | false => exact ih
    | true =>
      have hbodies : ((clause :: cases).map (·.toSwitchClause) ++ rest).map (·.body) =
          (clause :: cases).map (·.body) ++ rest.map (·.body) := by
        simp [CaseClause.toSwitchClause]
      simp only [if_true, bind_assoc, pure_bind]
      rw [← List.map_cons, runClauses_eq, hbodies, executeClauses_append]

theorem dropWhile_cases (cases : List CaseClause) (rest : List SwitchClause) :
    (cases.map (·.toSwitchClause) ++ rest).dropWhile (·.test.isSome) = rest.dropWhile (·.test.isSome) :=
  List.dropWhile_append_of_pos (by simp [CaseClause.toSwitchClause])

theorem caseBlock_plain (cases : List CaseClause) :
    ev.caseBlock (CaseBlock.plain cases).clauses input = ev.phasedCaseBlock input (.plain cases) := by
  have hphases : ev.casePhases input (.plain cases) = (do
      let (found, v) ← ev.scanClauses input cases false .undefined
      if found then ev.executeClauses (([] : List SwitchClause).map (·.body)) v else return v) := by
    simp [casePhases, executeClauses]
  have hdefault : (cases.map (·.toSwitchClause)).dropWhile (·.test.isSome) = [] := by
    simpa using dropWhile_cases cases []
  rw [phasedCaseBlock, hphases, scanClauses_search, caseBlock, CaseBlock.clauses, hdefault]
  congr 1
  funext found
  cases found with
  | none => exact (Phase.completion_pure _).symm
  | some selected => simp

/-- What follows the clauses before a default clause if none of them was selected. -/
def scanAfter (default : List Statement) (after : List CaseClause) (v : Value) : Phase Value := do
  let (found, v) ← ev.scanClauses input after false v
  if found then return v else ev.executeClauses (default :: after.map (·.body)) v

theorem casePhases_withDefault (before : List CaseClause) (default : List Statement) (after : List CaseClause) :
    ev.casePhases input (.withDefault before default after) = (do
      let (found, v) ← ev.scanClauses input before false .undefined
      if found then ev.executeClauses (default :: after.map (·.body)) v
      else ev.scanAfter input default after v) := by
  rfl

theorem scanAfter_search (default : List Statement) (after : List CaseClause) (v : Value) :
    (ev.scanAfter input default after v).completion = (do
      match ← ev.matchingClauses input (after.map (·.toSwitchClause)) with
      | some selected => ev.runClauses selected v
      | none => ev.runClauses (⟨none, default⟩ :: after.map (·.toSwitchClause)) v) := by
  have hbodies : (after.map (·.toSwitchClause)).map (·.body) = after.map (·.body) := by
    simp [CaseClause.toSwitchClause]
  refine (ev.scanClauses_search input after [] v (ev.executeClauses (default :: after.map (·.body)))).trans ?_
  congr 1
  funext found
  cases found with
  | none => rw [runClauses_eq, List.map_cons, hbodies]
  | some selected => simp

theorem caseBlock_withDefault (before : List CaseClause) (default : List Statement) (after : List CaseClause) :
    ev.caseBlock (CaseBlock.withDefault before default after).clauses input =
      ev.phasedCaseBlock input (.withDefault before default after) := by
  have hbodies : default :: after.map (·.body) =
      ((⟨none, default⟩ : SwitchClause) :: after.map (·.toSwitchClause)).map (·.body) := by
    simp [CaseClause.toSwitchClause]
  rw [phasedCaseBlock, casePhases_withDefault, hbodies, scanClauses_search, caseBlock, CaseBlock.clauses,
    matchingClauses_append, dropWhile_cases, bind_assoc]
  congr 1
  funext found
  cases found with
  | none => exact (ev.scanAfter_search input default after .undefined).symm
  | some selected => simp

/-- **A case block runs in phases.** The lists of clauses with at most one default clause are the case blocks.
From every machine and for every input, a block that is run from the clause selected first ends as its phases do:
in the same completion or failure, and on the same machine. -/
theorem caseBlock_eq_phased (ev : Evaluator) :
    (∀ clauses : List SwitchClause, clauses.countP (·.test.isNone) ≤ 1 ↔
        ∃ block : CaseBlock, block.clauses = clauses) ∧
      ∀ (block : CaseBlock) (input : Value) (m : Machine),
        ev.caseBlock block.clauses input m = ev.phasedCaseBlock input block m := by
  refine ⟨fun _ => CaseBlock.exists_clauses_iff.symm, fun block input m => ?_⟩
  cases block with
  | plain cases => rw [caseBlock_plain]
  | withDefault before default after => rw [caseBlock_withDefault]

end Evaluator

end EcmaEval
