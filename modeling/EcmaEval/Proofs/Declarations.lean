import EcmaEval.Proofs.Scan
import EcmaEval.Proofs.Static

/-!
# Declarations of valid code

What static validity says of the declarations that a statement list contributes to its scopes: the
names of `let` and `const` differ, and every function declaration is valid and has a name.
-/
namespace EcmaEval

variable {code : FunctionCode} {j : Jumps} {labels : List String} {s : Statement}
  {body : List Statement}

theorem Statement.lexicallyScoped_true (s : Statement) :
    s.lexicallyScoped true = (s.lexicallyScoped false).filter (!·.isFunction) := by
  fun_induction Statement.lexicallyScoped false s with
  | case1 constant declarators =>
    refine (List.filter_eq_self.mpr fun d hd => ?_).symm
    obtain ⟨_, -, rfl⟩ := List.mem_map.mp hd
    rfl
  | case2 code h => cases h
  | case3 code => simp [lexicallyScoped, LexicalDeclaration.isFunction]
  | case4 l body ih => simpa [lexicallyScoped] using ih
  | case5 s hdeclare hfunction hlabelled =>
    rw [lexicallyScoped]
    · rfl
    · exact hdeclare
    · exact hfunction
    · exact hlabelled

/-- The names that declarations other than functions bind. -/
def LexicalDeclaration.letNames (ds : List LexicalDeclaration) : List String :=
  (ds.filter (!·.isFunction)).flatMap LexicalDeclaration.boundNames

theorem Body.flatMap_letNames (body : List Statement) :
    body.flatMap Statement.letNames =
      LexicalDeclaration.letNames (Body.lexicallyScoped body false) := by
  simp only [LexicalDeclaration.letNames, Body.lexicallyScoped, List.filter_flatMap, List.flatMap_assoc]
  congr 1
  funext s
  rw [Statement.letNames, s.lexicallyScoped_true]

theorem Body.lexicalNames_true (body : List Statement) :
    Body.lexicalNames body true = body.flatMap Statement.letNames := by
  simp only [Body.lexicalNames, Body.lexicallyScoped, List.flatMap_assoc]
  rfl

theorem Body.isFunction_lexicallyScoped {d : LexicalDeclaration}
    (hd : d ∈ Body.lexicallyScoped body true) : d.isFunction = false := by
  obtain ⟨s, -, hd⟩ := List.mem_flatMap.mp hd
  rw [s.lexicallyScoped_true] at hd
  simpa using (List.mem_filter.mp hd).2

namespace LexicalDeclaration

variable {ds : List LexicalDeclaration}

theorem Distinct.filter (h : Distinct ds) (p : LexicalDeclaration → Bool) : Distinct (ds.filter p) :=
  ⟨fun d hd => h.1 d (List.mem_filter.mp hd).1, h.2.sublist List.filter_sublist⟩

/-- Without functions all names differ. -/
theorem Distinct.nodup (h : Distinct ds) (hds : ∀ d ∈ ds, d.isFunction = false) :
    (ds.flatMap boundNames).Nodup := by
  induction ds with
  | nil => exact .nil
  | cons d rest ih =>
    obtain ⟨hnodup, hpairwise⟩ := h
    obtain ⟨hhead, htail⟩ := List.pairwise_cons.mp hpairwise
    rw [List.flatMap_cons]
    refine List.nodup_append.mpr ⟨hnodup d (by simp), ?_, fun n hn n' hn' heq => ?_⟩
    · exact ih ⟨fun d hd => hnodup d (by simp [hd]), htail⟩ fun d hd => hds d (by simp [hd])
    · subst heq
      obtain ⟨d', hd', hmem⟩ := List.mem_flatMap.mp hn'
      obtain ⟨hfunction, -⟩ | hdisjoint := hhead d' hd'
      · simp [hds d (by simp)] at hfunction
      · exact hdisjoint n hn hmem

theorem Distinct.letNames (h : Distinct ds) : (letNames ds).Nodup :=
  (h.filter _).nodup fun d hd => by simpa using (List.mem_filter.mp hd).2

end LexicalDeclaration

/-- A function declaration of a block is valid. -/
theorem Statement.Valid.lexicalFunction (hs : s.Valid j labels)
    (hcode : .function code ∈ s.lexicallyScoped false) : code.Valid ∧ code.name.isSome = true := by
  fun_induction Statement.lexicallyScoped false s generalizing j labels with
  | case1 constant declarators => simp at hcode
  | case2 code h => cases h
  | case3 code' h =>
    cases List.mem_singleton.mp hcode
    cases hs
    exact ⟨‹_›, ‹_›⟩
  | case4 l body ih =>
    cases hs
    exact ih ‹_› hcode
  | case5 s _ _ _ => simp at hcode

theorem DeclarationKind.function_not_mem (kind : DeclarationKind) (declarators : List Declarator) :
    .function code ∉ kind.varDeclarations declarators := by
  cases kind <;> simp [varDeclarations]

theorem ForTarget.function_not_mem (target : ForTarget) : .function code ∉ target.varDeclarations := by
  unfold varDeclarations
  split <;> simp

theorem ForInit.function_not_mem (init : ForInit) : .function code ∉ init.varDeclarations := by
  cases init with
  | declare kind declarators => exact kind.function_not_mem declarators
  | expression e => simp [varDeclarations]

mutual

/-- Only at the top level are functions function-scoped. -/
theorem Statement.function_not_mem_varScoped (s : Statement) : .function code ∉ s.varScoped := by
  cases s with
  | declare kind declarators => exact kind.function_not_mem declarators
  | labelled l body => simpa [varScoped] using body.function_not_mem_varScoped
  | block body => simpa [varScoped] using function_not_mem_varScopedIn body
  | conditional test consequent alternate =>
    have hc := consequent.function_not_mem_varScoped
    cases alternate with
    | none => simpa [varScoped] using hc
    | some alternate => simp [varScoped, hc, alternate.function_not_mem_varScoped]
  | whileLoop test body => simpa [varScoped] using body.function_not_mem_varScoped
  | doWhileLoop body test => simpa [varScoped] using body.function_not_mem_varScoped
  | forLoop init test update body =>
    cases init with
    | none => simpa [varScoped] using body.function_not_mem_varScoped
    | some init => simp [varScoped, init.function_not_mem, body.function_not_mem_varScoped]
  | forIn target source body =>
    simp [varScoped, target.function_not_mem, body.function_not_mem_varScoped]
  | forOf target source body =>
    simp [varScoped, target.function_not_mem, body.function_not_mem_varScoped]
  | tryCatch body handler finalizer =>
    simp [varScoped, function_not_mem_varScopedIn body, function_not_mem_varScopedInHandler handler,
      function_not_mem_varScopedInFinalizer finalizer]
  | switch discriminant clauses => simpa [varScoped] using function_not_mem_varScopedInClauses clauses
  | withObject object body => simpa [varScoped] using body.function_not_mem_varScoped
  | _ => simp [varScoped]

theorem Statement.function_not_mem_varScopedIn (body : List Statement) :
    .function code ∉ Statement.varScopedIn body := by
  cases body with
  | nil => simp [varScopedIn]
  | cons s rest =>
    simp [varScopedIn, s.function_not_mem_varScoped, Statement.function_not_mem_varScopedIn rest]

theorem Statement.function_not_mem_varScopedInHandler (handler : Option CatchClause) :
    .function code ∉ Statement.varScopedInHandler handler := by
  cases handler with
  | none => simp [varScopedInHandler]
  | some clause =>
    obtain ⟨parameter, body⟩ := clause
    simpa [varScopedInHandler] using Statement.function_not_mem_varScopedIn body

theorem Statement.function_not_mem_varScopedInFinalizer (finalizer : Option (List Statement)) :
    .function code ∉ Statement.varScopedInFinalizer finalizer := by
  cases finalizer with
  | none => simp [varScopedInFinalizer]
  | some body => simpa [varScopedInFinalizer] using Statement.function_not_mem_varScopedIn body

theorem Statement.function_not_mem_varScopedInClauses (clauses : List SwitchClause) :
    .function code ∉ Statement.varScopedInClauses clauses := by
  cases clauses with
  | nil => simp [varScopedInClauses]
  | cons clause rest =>
    obtain ⟨test, body⟩ := clause
    simp [varScopedInClauses, Statement.function_not_mem_varScopedIn body,
      Statement.function_not_mem_varScopedInClauses rest]

end

/-- A function declaration of a body is valid. -/
theorem Statement.Valid.topFunction (hs : s.Valid j labels) (hcode : .function code ∈ s.topVarScoped) :
    code.Valid ∧ code.name.isSome = true := by
  fun_induction Statement.topVarScoped s generalizing j labels with
  | case1 code' =>
    cases List.mem_singleton.mp hcode
    cases hs
    exact ⟨‹_›, ‹_›⟩
  | case2 l body ih =>
    cases hs
    exact ih ‹_› hcode
  | case3 s _ _ => exact absurd hcode s.function_not_mem_varScoped

/-- The functions of a body are valid, and their names are among its variables. -/
theorem Body.function_valid (hbody : ∀ s ∈ body, s.Valid .top []) (hcode : code ∈ Body.functions body) :
    code.Valid ∧ code.bindingName ∈ Body.varNames body := by
  obtain ⟨d, hd, hcode⟩ := List.mem_filterMap.mp (mem_lastOfEachName hcode)
  cases d with
  | binding pattern => cases hcode
  | function code' =>
    cases hcode
    obtain ⟨s, hs, hmem⟩ := List.mem_flatMap.mp hd
    obtain ⟨hvalid, hname⟩ := (hbody s hs).topFunction hmem
    refine ⟨hvalid, List.mem_flatMap.mpr ⟨_, hd, ?_⟩⟩
    obtain ⟨name, hname⟩ := Option.isSome_iff_exists.mp hname
    simp [VarDeclaration.boundNames, FunctionCode.bindingName, hname]

/-- What validity says of the parameters and the body of a function. A body that is an expression
declares nothing. -/
structure FunctionCode.Declares (code : FunctionCode) : Prop where
  parameters : ∀ p ∈ code.parameters, p.ValidParameter
  statements : ∀ s ∈ code.statements, s.Valid .top []
  nodup : (Body.lexicalNames code.statements true).Nodup
  varNames : ∀ n ∈ Body.lexicalNames code.statements true, n ∉ Body.varNames code.statements
  names : ∀ n ∈ Body.lexicalNames code.statements true, n ∉ Parameters.names code.parameters

theorem FunctionCode.Valid.declares (h : code.Valid) : code.Declares := by
  cases h with
  | block hparameters hbody hdistinct hnames =>
    exact ⟨hparameters, hbody, hdistinct.nodup fun d hd => Body.isFunction_lexicallyScoped hd,
      fun n hn => (hnames n hn).1, fun n hn => (hnames n hn).2⟩
  | concise hparameters hvalue =>
    exact ⟨hparameters, by simp [statements], .nil, by simp [statements, Body.lexicalNames,
      Body.lexicallyScoped], by simp [statements, Body.lexicalNames, Body.lexicallyScoped]⟩

end EcmaEval
