import EcmaEval.Evaluate
import Mathlib.Data.List.Nodup

/-!
# Loops over declared names

Entering code goes through the names that it declares and remembers those it has met: parameters and
functions from the last one back, variables from the first one on. Here the loops stand as they run, each with
what it remembers, and are shown to find the last parameter or function of each name, and each variable once.
-/
namespace EcmaEval

variable {seen names : List String} {name : String}

theorem eraseDups_sublist (names : List String) : names.eraseDups.Sublist names := by
  induction hn : names.length using Nat.strongRecOn generalizing names with
  | ind k ih =>
    cases names with
    | nil => exact .refl _
    | cons name rest =>
      rw [List.eraseDups_cons]
      have hlt : (rest.filter fun n => !n == name).length < k := by
        rw [← hn]
        exact Nat.lt_succ_of_le (List.length_filter_le _ _)
      exact ((ih _ hlt _ rfl).trans List.filter_sublist).cons_cons name

theorem nodup_eraseDups (names : List String) : names.eraseDups.Nodup := by
  induction hn : names.length using Nat.strongRecOn generalizing names with
  | ind k ih =>
    cases names with
    | nil => exact .nil
    | cons name rest =>
      rw [List.eraseDups_cons]
      have hlt : (rest.filter fun n => !n == name).length < k := by
        rw [← hn]
        exact Nat.lt_succ_of_le (List.length_filter_le _ _)
      refine List.nodup_cons.mpr ⟨fun hmem => ?_, ih _ hlt _ rfl⟩
      have hne := (List.mem_filter.mp ((eraseDups_sublist _).subset hmem)).2
      simp at hne

theorem eraseDups_eq_self (h : names.Nodup) : names.eraseDups = names := by
  induction names with
  | nil => rfl
  | cons name rest ih =>
    obtain ⟨hname, hrest⟩ := List.nodup_cons.mp h
    have hothers : rest.filter (fun other => !other == name) = rest := by
      refine List.filter_eq_self.mpr fun other hmem => ?_
      have hne : other ≠ name := fun heq => hname (heq ▸ hmem)
      simpa using hne
    rw [List.eraseDups_cons, hothers, ih hrest]

/-- A list is as long as without its repetitions if it has none. -/
theorem length_eraseDups_iff : names.eraseDups.length = names.length ↔ names.Nodup := by
  refine ⟨fun h => ?_, fun h => congrArg List.length (eraseDups_eq_self h)⟩
  rw [← (eraseDups_sublist names).eq_of_length h]
  exact nodup_eraseDups names

/-- Whether the names are different from each other and from those met before. -/
def allNew (seen : List String) : List String → Bool
  | [] => true
  | name :: rest => !seen.contains name && allNew (name :: seen) rest

theorem allNew_iff : allNew seen names = true ↔ names.Nodup ∧ ∀ name ∈ names, name ∉ seen := by
  induction names generalizing seen with
  | nil => simp [allNew]
  | cons name rest ih =>
    rw [allNew, Bool.and_eq_true, ih, List.nodup_cons]
    simp only [Bool.not_eq_true', List.contains_eq_mem, decide_eq_false_iff_not, List.mem_cons, not_or,
      forall_eq_or_imp]
    constructor
    · rintro ⟨hname, hnodup, hrest⟩
      exact ⟨⟨fun hmem => (hrest name hmem).1 rfl, hnodup⟩, hname, fun other hmem => (hrest other hmem).2⟩
    · rintro ⟨⟨hfirst, hnodup⟩, hname, hrest⟩
      refine ⟨hname, hnodup, fun other hmem => ⟨?_, hrest other hmem⟩⟩
      rintro rfl
      exact hfirst hmem

/-- Parameters repeat a name if one is met that is not new. -/
theorem repeatsParameter_eq_loop (slots : FunctionSlots) :
    Evaluator.repeatsParameter slots = !allNew [] (Parameters.names slots.code.parameters) := by
  have hnew : allNew [] (Parameters.names slots.code.parameters) = true ↔
      (Parameters.names slots.code.parameters).eraseDups.length = (Parameters.names slots.code.parameters).length := by
    rw [allNew_iff, length_eraseDups_iff]
    simp
  unfold Evaluator.repeatsParameter
  rw [Bool.eq_iff_iff, Bool.not_eq_true', ← Bool.not_eq_true, hnew]
  simp

/-- One turn of the loop over parameters from the last one: a new name is remembered, and its index is mapped
if there is an argument for it. -/
def mapParameter (count : Nat) (p : String × Nat) (state : List String × List (Key × String)) :
    List String × List (Key × String) :=
  if state.1.contains p.1 then state
  else (p.1 :: state.1, if p.2 < count then (.ofIndex p.2, p.1) :: state.2 else state.2)

theorem mem_foldr_mapParameter (count index : Nat) (name : String) (names : List String) :
    name ∈ ((names.zipIdx index).foldr (mapParameter count) ([], [])).1 ↔ name ∈ names := by
  induction names generalizing index name with
  | nil => simp
  | cons first rest ih =>
    rw [List.zipIdx_cons, List.foldr_cons, mapParameter]
    split
    · rename_i hseen
      have hmem : first ∈ rest := by rwa [List.contains_iff_mem, ih] at hseen
      rw [ih, List.mem_cons]
      refine ⟨.inr, fun h => h.elim ?_ id⟩
      rintro rfl
      exact hmem
    · rw [List.mem_cons, List.mem_cons, ih]

/-- The loop over parameters maps the last one of each name. -/
theorem mappedNames_eq_loop (count index : Nat) (names : List String) :
    mappedNames count index names = ((names.zipIdx index).foldr (mapParameter count) ([], [])).2 := by
  induction names generalizing index with
  | nil => rfl
  | cons first rest ih =>
    have hseen : (((rest.zipIdx (index + 1)).foldr (mapParameter count) ([], [])).1).contains first =
        rest.contains first := by
      rw [Bool.eq_iff_iff, List.contains_iff_mem, List.contains_iff_mem, mem_foldr_mapParameter]
    rw [List.zipIdx_cons, List.foldr_cons, mapParameter, hseen, mappedNames, ih]
    by_cases hlater : first ∈ rest
    · simp [hlater]
    · by_cases hcount : index < count
      · simp [hlater, hcount]
      · simp [hlater, hcount, Nat.not_lt.mp hcount]

variable {code : FunctionCode} {functions : List FunctionCode}

theorem mem_lastOfEachName (h : code ∈ lastOfEachName functions) :
    code ∈ functions := by
  induction functions with
  | nil => cases h
  | cons f rest ih =>
    rw [lastOfEachName] at h
    split at h
    · exact List.mem_cons_of_mem _ (ih h)
    · rcases List.mem_cons.mp h with rfl | h
      · exact List.mem_cons_self
      · exact List.mem_cons_of_mem _ (ih h)

/-- Every name keeps a function. -/
theorem exists_lastOfEachName (h : code ∈ functions) :
    ∃ code' ∈ lastOfEachName functions, code'.bindingName = code.bindingName := by
  induction functions generalizing code with
  | nil => cases h
  | cons f rest ih =>
    rw [lastOfEachName]
    split
    · rename_i hlater
      rcases List.mem_cons.mp h with rfl | h
      · obtain ⟨f', hf', hname⟩ := List.any_eq_true.mp hlater
        obtain ⟨code', hcode', hsame⟩ := ih hf'
        exact ⟨code', hcode', hsame.trans (by simpa using hname)⟩
      · exact ih h
    · rcases List.mem_cons.mp h with rfl | h
      · exact ⟨code, List.mem_cons_self, rfl⟩
      · obtain ⟨code', hcode', hsame⟩ := ih h
        exact ⟨code', List.mem_cons_of_mem _ hcode', hsame⟩

theorem lastOfEachName_nodup (functions : List FunctionCode) :
    ((lastOfEachName functions).map FunctionCode.bindingName).Nodup := by
  induction functions with
  | nil => exact .nil
  | cons f rest ih =>
    rw [lastOfEachName]
    split
    · exact ih
    · rename_i hlast
      refine List.nodup_cons.mpr ⟨fun hmem => hlast ?_, ih⟩
      obtain ⟨f', hf', hname⟩ := List.mem_map.mp hmem
      exact List.any_eq_true.mpr ⟨f', mem_lastOfEachName hf', by simpa using hname⟩

/-- The function of a name is the last one. -/
theorem lastOfEachName_is_last (h : code ∈ lastOfEachName functions) :
    ∃ before after, functions = before ++ code :: after ∧ ∀ f ∈ after, f.bindingName ≠ code.bindingName := by
  induction functions with
  | nil => cases h
  | cons f rest ih =>
    have hlater (h : code ∈ lastOfEachName rest) : ∃ before after, f :: rest = before ++ code :: after ∧
        ∀ f ∈ after, f.bindingName ≠ code.bindingName := by
      obtain ⟨before, after, rfl, hlast⟩ := ih h
      exact ⟨f :: before, after, rfl, hlast⟩
    rw [lastOfEachName] at h
    split at h
    · exact hlater h
    · rename_i hlast
      rcases List.mem_cons.mp h with rfl | h
      · exact ⟨[], rest, rfl, by simpa using hlast⟩
      · exact hlater h

theorem contains_lastOfEachName (functions : List FunctionCode) (name : String) :
    ((lastOfEachName functions).map (·.bindingName)).contains name =
      functions.any (·.bindingName == name) := by
  rw [Bool.eq_iff_iff, List.contains_iff_mem, List.any_eq_true, List.mem_map]
  constructor
  · rintro ⟨f, hf, hname⟩
    exact ⟨f, mem_lastOfEachName hf, beq_iff_eq.mpr hname⟩
  · rintro ⟨f, hf, hname⟩
    obtain ⟨f', hf', hsame⟩ := exists_lastOfEachName hf
    exact ⟨f', hf', hsame.trans (beq_iff_eq.mp hname)⟩

/-- The functions found so far and their names, when declarations are gone through from the last one. -/
structure FoundFunctions where
  names : List String
  functions : List FunctionCode

namespace FoundFunctions

/-- One turn of that loop: a function is found if its name is new. -/
def add (d : VarDeclaration) (found : FoundFunctions) : FoundFunctions :=
  match d with
  | .function code =>
    if found.names.contains code.bindingName then found
    else ⟨code.bindingName :: found.names, code :: found.functions⟩
  | .binding _ => found

/-- The loop finds the last function of each name. -/
theorem foldr_add (declarations : List VarDeclaration) :
    let functions := lastOfEachName (declarations.filterMap fun
      | .function code => some code
      | .binding _ => none)
    declarations.foldr add ⟨[], []⟩ = ⟨functions.map (·.bindingName), functions⟩ := by
  induction declarations with
  | nil => rfl
  | cons d rest ih =>
    dsimp only at ih ⊢
    rw [List.foldr_cons, ih]
    cases d with
    | binding pattern => rfl
    | function code =>
      rw [List.filterMap_cons]
      dsimp only
      rw [add, contains_lastOfEachName, lastOfEachName]
      split <;> rfl

end FoundFunctions

theorem functions_eq_loop (body : List Statement) :
    (Body.varScoped body).foldr FoundFunctions.add ⟨[], []⟩ =
      ⟨(Body.functions body).map (·.bindingName), Body.functions body⟩ :=
  FoundFunctions.foldr_add _

theorem untaken_nil (names : List String) : names.filter (!([] : List String).contains ·) = names :=
  List.filter_eq_self.mpr fun _ _ => rfl

theorem untaken_cons_of_taken (rest : List String) (h : seen.contains name = true) :
    (name :: rest).filter (!seen.contains ·) = rest.filter (!seen.contains ·) :=
  List.filter_cons_of_neg (by simpa using h)

/-- A name that is not taken comes first, and is taken for the rest. -/
theorem untaken_cons (rest : List String) (h : seen.contains name = false) :
    ((name :: rest).filter (!seen.contains ·)).eraseDups =
      name :: (rest.filter (!(seen ++ [name]).contains ·)).eraseDups := by
  have hrest : (rest.filter (!seen.contains ·)).filter (fun other => !other == name) =
      rest.filter (!(seen ++ [name]).contains ·) := by
    rw [List.filter_filter]
    refine List.filter_congr fun other _ => ?_
    simp [Bool.beq_eq_decide_eq, Bool.and_comm]
  rw [List.filter_cons_of_pos (by simpa using h), List.eraseDups_cons, hrest]

/-- Declares the names that are not taken yet; each is taken from then on. -/
def declareUntaken (env : EnvId) (initial : String → Eval Value) : List String → List String → Eval Unit
  | _, [] => pure ()
  | taken, name :: rest =>
    if taken.contains name then declareUntaken env initial taken rest
    else do
      env.createMutable name false
      env.initBinding name (← initial name)
      declareUntaken env initial (taken ++ [name]) rest

theorem declareUntaken_eq (env : EnvId) (initial : String → Eval Value) (taken names : List String) :
    declareUntaken env initial taken names =
      declareInitialized env initial (names.filter (!taken.contains ·)).eraseDups := by
  induction names generalizing taken with
  | nil => rfl
  | cons name rest ih =>
    rw [declareUntaken]
    split
    · rename_i htaken
      rw [ih, untaken_cons_of_taken rest htaken]
    · rename_i htaken
      rw [ih, untaken_cons rest (by simpa using htaken)]
      simp [declareInitialized]

/-- Variables are declared in turn, with parameters or none taken. -/
theorem bindVariables_eq_loops (slots : FunctionSlots) (env : EnvId) (parameterNames : List String) :
    Evaluator.bindVariables slots env parameterNames = (do
      let names := Body.varNames slots.code.statements
      if !Parameters.containsExpression slots.code.parameters then
        declareUntaken env (fun _ => pure .undefined) parameterNames names
        return env
      else
        let varEnv ← newDeclarativeEnvironment (some env)
        modifyContext ({ · with variableEnv := varEnv })
        let functions := (Body.functions slots.code.statements).map (·.bindingName)
        declareUntaken varEnv (shadowedValue env parameterNames functions) [] names
        return varEnv) := by
  simp only [declareUntaken_eq, untaken_nil]
  rfl

/-- One turn of the loop over the declarations of a script from the last one: the global object must be able
to take every function that is found. -/
def FoundFunctions.addChecked (env : EnvId) (d : VarDeclaration) (found : FoundFunctions) : Eval FoundFunctions :=
  match d with
  | .function code =>
    if found.names.contains code.bindingName then return found
    else do
      checkFunctions env [code.bindingName]
      return ⟨code.bindingName :: found.names, code :: found.functions⟩
  | .binding _ => return found

/-- The functions that are found are checked in the order in which they are. -/
theorem FoundFunctions.foldrM_addChecked (env : EnvId) (declarations : List VarDeclaration) :
    declarations.foldrM (addChecked env) ⟨[], []⟩ = (do
      checkFunctions env (declarations.foldr add ⟨[], []⟩).names.reverse
      return declarations.foldr add ⟨[], []⟩) := by
  have hcheck (before : List String) (name : String) : checkFunctions env (before ++ [name]) =
      checkFunctions env before >>= fun _ => checkFunctions env [name] := by
    simp [checkFunctions]
  induction declarations with
  | nil => rfl
  | cons d rest ih =>
    rw [List.foldrM_cons, ih, List.foldr_cons]
    generalize rest.foldr add ⟨[], []⟩ = found
    cases d with
    | binding pattern => simp [addChecked, add]
    | function code =>
      by_cases hknown : code.bindingName ∈ found.names
      · simp [addChecked, add, hknown]
      · simp [addChecked, add, hknown, hcheck]

/-- The loop over the variables of a script: the global object must be able to take each that is no function,
and each is remembered once. -/
def checkUndeclared (env : EnvId) (functions : List String) : List String → List String → Eval (List String)
  | declared, [] => return declared
  | declared, name :: rest =>
    if functions.contains name then checkUndeclared env functions declared rest
    else do
      checkVariables env [name]
      checkUndeclared env functions (if declared.contains name then declared else declared ++ [name]) rest

theorem checkUndeclared_eq (env : EnvId) (functions declared names : List String) :
    checkUndeclared env functions declared names = (do
      let plainNames := names.filter (!functions.contains ·)
      checkVariables env plainNames
      return declared ++ (plainNames.filter (!declared.contains ·)).eraseDups) := by
  have hcheck (name : String) (rest : List String) : checkVariables env (name :: rest) =
      checkVariables env [name] >>= fun _ => checkVariables env rest := by
    simp [checkVariables]
  induction names generalizing declared with
  | nil => simp [checkUndeclared, checkVariables]
  | cons name rest ih =>
    rw [checkUndeclared]
    cases hfunction : functions.contains name with
    | true => rw [if_pos rfl, ih, untaken_cons_of_taken rest hfunction]
    | false =>
      have hplain : (name :: rest).filter (!functions.contains ·) = name :: rest.filter (!functions.contains ·) :=
        List.filter_cons_of_pos (by rw [hfunction]; rfl)
      have hsplit := hcheck name (rest.filter (!functions.contains ·))
      rw [if_neg Bool.false_ne_true, ih, hplain]
      dsimp only
      rw [hsplit, bind_assoc]
      cases hdeclared : declared.contains name with
      | true => rw [if_pos rfl, untaken_cons_of_taken _ hdeclared]
      | false => rw [if_neg Bool.false_ne_true, untaken_cons _ hdeclared, List.append_assoc]; rfl

/-- The names of a script are declared after these loops. -/
theorem instantiateGlobal_eq_loops (body : List Statement) (env : EnvId) :
    instantiateGlobal body env = (do
      checkLexicalNames env (Body.lexicalNames body true)
      checkVarNames env (Body.varNames body)
      let found ← (Body.varScoped body).foldrM (FoundFunctions.addChecked env) ⟨[], []⟩
      let declared ← checkUndeclared env found.names [] (Body.variableNames body)
      declareLexical env (Body.lexicallyScoped body true)
      found.functions.forM fun code => do
        let f ← instantiateDeclaration code env none
        env.createGlobalFunction code.bindingName (.object f) false
      declared.forM (env.createGlobalVar · false)) := by
  simp only [FoundFunctions.foldrM_addChecked, functions_eq_loop, checkUndeclared_eq, untaken_nil, List.nil_append,
    bind_assoc, pure_bind]
  rfl

end EcmaEval
