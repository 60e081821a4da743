import EcmaEval.Proofs.Declarations
import Mathlib.Data.List.Basic

/-!
# What a script declares

Which names a script declares, and how, as a relation on its syntax: variables at any depth outside of
nested functions, block-scoped names and functions at the top level, also under labels. The lists of
declarations that are computed from a body hold these names and no others, and of the functions with one
name they hold the last.
-/
namespace EcmaEval

/-- The pattern binds the name. -/
inductive Pattern.Binds (name : String) : Pattern → Prop
  | identifier : Pattern.Binds name (.identifier name)
  | element (hp : some p ∈ elements) (h : Pattern.Binds name p) : Pattern.Binds name (.array elements)
  | keyed (hp : .keyed key p ∈ members) (h : Pattern.Binds name p) : Pattern.Binds name (.object members)
  | shorthand (hp : .shorthand name value ∈ members) : Pattern.Binds name (.object members)
  | remaining (hp : .rest name ∈ members) : Pattern.Binds name (.object members)
  | withDefault (h : Pattern.Binds name p) : Pattern.Binds name (.withDefault p value)
  | rest (h : Pattern.Binds name p) : Pattern.Binds name (.rest p)

/-- The statement declares the name with `var`, in its head or in a statement inside it. -/
inductive Statement.DeclaresVar (name : String) : Statement → Prop
  | declare (hd : d ∈ declarators) (h : d.pattern.Binds name) :
      Statement.DeclaresVar name (.declare .var declarators)
  | labelled (h : Statement.DeclaresVar name body) : Statement.DeclaresVar name (.labelled l body)
  | block (hs : s ∈ body) (h : Statement.DeclaresVar name s) : Statement.DeclaresVar name (.block body)
  | consequent (h : Statement.DeclaresVar name consequent) :
      Statement.DeclaresVar name (.conditional test consequent alternate)
  | alternate (h : Statement.DeclaresVar name alternate) :
      Statement.DeclaresVar name (.conditional test consequent (some alternate))
  | whileLoop (h : Statement.DeclaresVar name body) : Statement.DeclaresVar name (.whileLoop test body)
  | doWhileLoop (h : Statement.DeclaresVar name body) : Statement.DeclaresVar name (.doWhileLoop body test)
  | forHead (hd : d ∈ declarators) (h : d.pattern.Binds name) :
      Statement.DeclaresVar name (.forLoop (some (.declare .var declarators)) test update body)
  | forLoop (h : Statement.DeclaresVar name body) :
      Statement.DeclaresVar name (.forLoop init test update body)
  | forInHead (h : p.Binds name) : Statement.DeclaresVar name (.forIn (.declare .var p) source body)
  | forIn (h : Statement.DeclaresVar name body) : Statement.DeclaresVar name (.forIn target source body)
  | forOfHead (h : p.Binds name) : Statement.DeclaresVar name (.forOf (.declare .var p) source body)
  | forOf (h : Statement.DeclaresVar name body) : Statement.DeclaresVar name (.forOf target source body)
  | tryBlock (hs : s ∈ first) (h : Statement.DeclaresVar name s) :
      Statement.DeclaresVar name (.tryCatch first handler finalizer)
  | handler (hs : s ∈ body) (h : Statement.DeclaresVar name s) :
      Statement.DeclaresVar name (.tryCatch first (some ⟨parameter, body⟩) finalizer)
  | finalizer (hs : s ∈ body) (h : Statement.DeclaresVar name s) :
      Statement.DeclaresVar name (.tryCatch first handler (some body))
  | clause (hc : clause ∈ clauses) (hs : s ∈ clause.body) (h : Statement.DeclaresVar name s) :
      Statement.DeclaresVar name (.switch discriminant clauses)
  | withObject (h : Statement.DeclaresVar name body) : Statement.DeclaresVar name (.withObject object body)

/-- The statement declares the name with `let` or, as a constant, with `const`. -/
inductive Statement.DeclaresLexical (constant : Bool) (name : String) : Statement → Prop
  | declare (hd : d ∈ declarators) (h : d.pattern.Binds name) :
      Statement.DeclaresLexical constant name (.declare (.lexical constant) declarators)
  | labelled (h : Statement.DeclaresLexical constant name body) :
      Statement.DeclaresLexical constant name (.labelled l body)

/-- The function that the statement declares. -/
def Statement.function? : Statement → Option FunctionCode
  | .function code => some code
  | .labelled _ body => body.function?
  | _ => none

namespace Body

/-- A statement of the body declares the name with `var`. -/
def DeclaresVar (body : List Statement) (name : String) : Prop := ∃ s ∈ body, s.DeclaresVar name

def DeclaresLexical (body : List Statement) (constant : Bool) (name : String) : Prop :=
  ∃ s ∈ body, s.DeclaresLexical constant name

/-- A statement of the body declares a function of the name. -/
def DeclaresFunction (body : List Statement) (name : String) : Prop :=
  ∃ s ∈ body, ∃ code, s.function? = some code ∧ code.bindingName = name

/-- A statement of the body declares the function, and none after it declares another of its name. -/
def DeclaresLast (body : List Statement) (code : FunctionCode) : Prop :=
  ∃ before s after, body = before ++ s :: after ∧ s.function? = some code ∧
    ¬ DeclaresFunction after code.bindingName

end Body

variable {name : String} {s : Statement} {body : List Statement} {code : FunctionCode}

namespace Pattern

theorem mem_elementNames {elements : List (Option Pattern)} {p : Pattern} (hp : some p ∈ elements)
    (h : name ∈ p.boundNames) : name ∈ elementNames elements := by
  induction elements with
  | nil => cases hp
  | cons e tail ih =>
    cases e with
    | none => exact ih (by simpa using hp)
    | some q =>
      rcases List.mem_cons.mp hp with hq | hp
      · cases hq
        exact List.mem_append_left _ h
      · exact List.mem_append_right _ (ih hp)

theorem memberNames_cons (p : PatternMember) (tail : List PatternMember) :
    memberNames (p :: tail) = memberNames [p] ++ memberNames tail := by
  cases p <;> simp [memberNames]

theorem mem_memberNames {members : List PatternMember} {p : PatternMember} (hp : p ∈ members)
    (h : name ∈ memberNames [p]) : name ∈ memberNames members := by
  induction members with
  | nil => cases hp
  | cons e tail ih =>
    rw [memberNames_cons]
    rcases List.mem_cons.mp hp with rfl | hp
    · exact List.mem_append_left _ h
    · exact List.mem_append_right _ (ih hp)

theorem Binds.mem {p : Pattern} (h : p.Binds name) : name ∈ p.boundNames := by
  induction h with
  | identifier => simp [boundNames]
  | element hp _ ih =>
    rw [boundNames]
    exact mem_elementNames hp ih
  | keyed hp _ ih =>
    rw [boundNames]
    exact mem_memberNames hp (by simpa [memberNames] using ih)
  | shorthand hp =>
    rw [boundNames]
    exact mem_memberNames hp (by simp [memberNames])
  | remaining hp =>
    rw [boundNames]
    exact mem_memberNames hp (by simp [memberNames])
  | withDefault _ ih => rwa [boundNames]
  | rest _ ih => rwa [boundNames]

mutual

theorem binds_of_mem (p : Pattern) (h : name ∈ p.boundNames) : p.Binds name := by
  cases p with
  | identifier x =>
    cases List.mem_singleton.mp (by simpa [boundNames] using h)
    exact .identifier
  | array elements =>
    rw [boundNames] at h
    obtain ⟨p, hp, hbinds⟩ := elements_bind_of_mem elements h
    exact .element hp hbinds
  | object members =>
    rw [boundNames] at h
    exact members_bind_of_mem members members (fun _ => id) h
  | withDefault target value =>
    rw [boundNames] at h
    exact .withDefault (target.binds_of_mem h)
  | rest target =>
    rw [boundNames] at h
    exact .rest (target.binds_of_mem h)

theorem elements_bind_of_mem (elements : List (Option Pattern)) (h : name ∈ elementNames elements) :
    ∃ p, some p ∈ elements ∧ p.Binds name := by
  cases elements with
  | nil => cases h
  | cons e tail =>
    cases e with
    | none =>
      rw [elementNames] at h
      obtain ⟨p, hp, hbinds⟩ := elements_bind_of_mem tail h
      exact ⟨p, List.mem_cons_of_mem _ hp, hbinds⟩
    | some p =>
      rw [elementNames] at h
      rcases List.mem_append.mp h with h | h
      · exact ⟨p, List.mem_cons_self, p.binds_of_mem h⟩
      · obtain ⟨p, hp, hbinds⟩ := elements_bind_of_mem tail h
        exact ⟨p, List.mem_cons_of_mem _ hp, hbinds⟩

theorem members_bind_of_mem (members all : List PatternMember) (hall : ∀ p ∈ members, p ∈ all)
    (h : name ∈ memberNames members) : (Pattern.object all).Binds name := by
  cases members with
  | nil => cases h
  | cons e tail =>
    have he := hall e List.mem_cons_self
    have htail : name ∈ memberNames tail → (Pattern.object all).Binds name :=
      members_bind_of_mem tail all fun p hp => hall p (List.mem_cons_of_mem _ hp)
    cases e with
    | keyed key target =>
      rw [memberNames] at h
      rcases List.mem_append.mp h with h | h
      · exact .keyed he (target.binds_of_mem h)
      · exact htail h
    | shorthand x value =>
      rw [memberNames] at h
      rcases List.mem_cons.mp h with rfl | h
      · exact .shorthand he
      · exact htail h
    | rest x =>
      rw [memberNames] at h
      rcases List.mem_cons.mp h with rfl | h
      · exact .remaining he
      · exact htail h

end

theorem mem_boundNames {p : Pattern} : name ∈ p.boundNames ↔ p.Binds name := ⟨p.binds_of_mem, Binds.mem⟩

end Pattern

/-- The names that declarations bind. -/
def VarDeclaration.names (ds : List VarDeclaration) : List String := ds.flatMap boundNames

@[simp] theorem VarDeclaration.names_nil : names [] = [] := rfl

@[simp] theorem VarDeclaration.names_append (ds ds' : List VarDeclaration) :
    names (ds ++ ds') = names ds ++ names ds' := List.flatMap_append

theorem DeclarationKind.mem_varDeclarations {kind : DeclarationKind} {declarators : List Declarator} :
    name ∈ VarDeclaration.names (kind.varDeclarations declarators) ↔
      kind = .var ∧ ∃ d ∈ declarators, d.pattern.Binds name := by
  cases kind <;>
    simp [varDeclarations, VarDeclaration.names, VarDeclaration.boundNames, List.flatMap_map,
      Pattern.mem_boundNames]

theorem ForInit.mem_varDeclarations {init : ForInit} :
    name ∈ VarDeclaration.names init.varDeclarations ↔
      ∃ declarators, init = .declare .var declarators ∧ ∃ d ∈ declarators, d.pattern.Binds name := by
  cases init with
  | declare kind declarators =>
    rw [varDeclarations, DeclarationKind.mem_varDeclarations]
    constructor
    · rintro ⟨rfl, hd⟩
      exact ⟨declarators, rfl, hd⟩
    · rintro ⟨_, ⟨rfl, rfl⟩, hd⟩
      exact ⟨rfl, hd⟩
  | expression e => simp [varDeclarations]

theorem ForTarget.mem_varDeclarations {target : ForTarget} :
    name ∈ VarDeclaration.names target.varDeclarations ↔ ∃ p, target = .declare .var p ∧ p.Binds name := by
  unfold varDeclarations
  split <;> simp_all [VarDeclaration.names, VarDeclaration.boundNames, Pattern.mem_boundNames]

namespace Statement

theorem names_varScopedIn (body : List Statement) :
    VarDeclaration.names (varScopedIn body) = body.flatMap fun s => VarDeclaration.names s.varScoped := by
  induction body with
  | nil => rfl
  | cons s tail ih => simp [varScopedIn, ih]

theorem names_varScopedInClauses (clauses : List SwitchClause) :
    VarDeclaration.names (varScopedInClauses clauses) =
      clauses.flatMap fun c => VarDeclaration.names (varScopedIn c.body) := by
  induction clauses with
  | nil => rfl
  | cons c tail ih =>
    obtain ⟨test, body⟩ := c
    simp [varScopedInClauses, ih]

theorem DeclaresVar.mem (h : s.DeclaresVar name) : name ∈ VarDeclaration.names s.varScoped := by
  have hin {body : List Statement} {s : Statement} (hs : s ∈ body)
      (h : name ∈ VarDeclaration.names s.varScoped) : name ∈ VarDeclaration.names (varScopedIn body) := by
    rw [names_varScopedIn]
    exact List.mem_flatMap.mpr ⟨s, hs, h⟩
  induction h with
  | declare hd h => exact DeclarationKind.mem_varDeclarations.mpr ⟨rfl, _, hd, h⟩
  | block hs _ ih => exact hin hs ih
  | @consequent _ _ alternate _ ih => cases alternate <;> simp [varScoped, ih]
  | alternate _ ih => simp [varScoped, ih]
  | forHead hd h =>
    rw [varScoped, VarDeclaration.names_append]
    exact List.mem_append_left _ (ForInit.mem_varDeclarations.mpr ⟨_, rfl, _, hd, h⟩)
  | @forLoop _ init _ _ _ ih => cases init <;> simp [varScoped, ih]
  | forInHead h =>
    rw [varScoped, VarDeclaration.names_append]
    exact List.mem_append_left _ (ForTarget.mem_varDeclarations.mpr ⟨_, rfl, h⟩)
  | forOfHead h =>
    rw [varScoped, VarDeclaration.names_append]
    exact List.mem_append_left _ (ForTarget.mem_varDeclarations.mpr ⟨_, rfl, h⟩)
  | tryBlock hs _ ih => simp [varScoped, hin hs ih]
  | handler hs _ ih => simp [varScoped, varScopedInHandler, hin hs ih]
  | finalizer hs _ ih => simp [varScoped, varScopedInFinalizer, hin hs ih]
  | clause hc hs _ ih =>
    rw [varScoped, names_varScopedInClauses]
    exact List.mem_flatMap.mpr ⟨_, hc, hin hs ih⟩
  | _ => simp_all [varScoped]

mutual

theorem declaresVar_of_mem (s : Statement) (h : name ∈ VarDeclaration.names s.varScoped) :
    s.DeclaresVar name := by
  cases s with
  | declare kind declarators =>
    obtain ⟨rfl, d, hd, hname⟩ := DeclarationKind.mem_varDeclarations.mp h
    exact .declare hd hname
  | labelled l body =>
    rw [varScoped] at h
    exact .labelled (body.declaresVar_of_mem h)
  | block body =>
    rw [varScoped] at h
    obtain ⟨s, hs, hname⟩ := declaresVar_in_of_mem body h
    exact .block hs hname
  | conditional test consequent alternate =>
    cases alternate with
    | none =>
      rw [varScoped] at h
      exact .consequent (consequent.declaresVar_of_mem h)
    | some alternate =>
      rw [varScoped, VarDeclaration.names_append] at h
      rcases List.mem_append.mp h with h | h
      · exact .consequent (consequent.declaresVar_of_mem h)
      · exact .alternate (alternate.declaresVar_of_mem h)
  | whileLoop test body =>
    rw [varScoped] at h
    exact .whileLoop (body.declaresVar_of_mem h)
  | doWhileLoop body test =>
    rw [varScoped] at h
    exact .doWhileLoop (body.declaresVar_of_mem h)
  | forLoop init test update body =>
    cases init with
    | none =>
      rw [varScoped] at h
      exact .forLoop (body.declaresVar_of_mem h)
    | some init =>
      rw [varScoped, VarDeclaration.names_append] at h
      rcases List.mem_append.mp h with h | h
      · obtain ⟨declarators, rfl, d, hd, hname⟩ := ForInit.mem_varDeclarations.mp h
        exact .forHead hd hname
      · exact .forLoop (body.declaresVar_of_mem h)
  | forIn target source body =>
    rw [varScoped, VarDeclaration.names_append] at h
    rcases List.mem_append.mp h with h | h
    · obtain ⟨p, rfl, hname⟩ := ForTarget.mem_varDeclarations.mp h
      exact .forInHead hname
    · exact .forIn (body.declaresVar_of_mem h)
  | forOf target source body =>
    rw [varScoped, VarDeclaration.names_append] at h
    rcases List.mem_append.mp h with h | h
    · obtain ⟨p, rfl, hname⟩ := ForTarget.mem_varDeclarations.mp h
      exact .forOfHead hname
    · exact .forOf (body.declaresVar_of_mem h)
  | tryCatch block handler finalizer =>
    rw [varScoped, VarDeclaration.names_append, VarDeclaration.names_append] at h
    rcases List.mem_append.mp h with h | h
    · rcases List.mem_append.mp h with h | h
      · obtain ⟨s, hs, hname⟩ := declaresVar_in_of_mem block h
        exact .tryBlock hs hname
      · cases handler with
        | none => cases h
        | some clause =>
          obtain ⟨parameter, body⟩ := clause
          obtain ⟨s, hs, hname⟩ := declaresVar_in_of_mem body h
          exact .handler hs hname
    · cases finalizer with
      | none => cases h
      | some body =>
        obtain ⟨s, hs, hname⟩ := declaresVar_in_of_mem body h
        exact .finalizer hs hname
  | switch discriminant clauses =>
    rw [varScoped] at h
    obtain ⟨c, hc, s, hs, hname⟩ := declaresVar_inClauses_of_mem clauses h
    exact .clause hc hs hname
  | withObject object body =>
    rw [varScoped] at h
    exact .withObject (body.declaresVar_of_mem h)
  | _ => cases h

theorem declaresVar_in_of_mem (body : List Statement) (h : name ∈ VarDeclaration.names (varScopedIn body)) :
    ∃ s ∈ body, s.DeclaresVar name := by
  cases body with
  | nil => cases h
  | cons s tail =>
    rw [varScopedIn, VarDeclaration.names_append] at h
    rcases List.mem_append.mp h with h | h
    · exact ⟨s, List.mem_cons_self, s.declaresVar_of_mem h⟩
    · obtain ⟨s', hs', hname⟩ := declaresVar_in_of_mem tail h
      exact ⟨s', List.mem_cons_of_mem _ hs', hname⟩

theorem declaresVar_inClauses_of_mem (clauses : List SwitchClause)
    (h : name ∈ VarDeclaration.names (varScopedInClauses clauses)) :
    ∃ c ∈ clauses, ∃ s ∈ c.body, s.DeclaresVar name := by
  cases clauses with
  | nil => cases h
  | cons c tail =>
    obtain ⟨test, body⟩ := c
    rw [varScopedInClauses, VarDeclaration.names_append] at h
    rcases List.mem_append.mp h with h | h
    · exact ⟨_, List.mem_cons_self, declaresVar_in_of_mem body h⟩
    · obtain ⟨c, hc, hname⟩ := declaresVar_inClauses_of_mem tail h
      exact ⟨c, List.mem_cons_of_mem _ hc, hname⟩

end

theorem mem_names_varScoped {s : Statement} :
    name ∈ VarDeclaration.names s.varScoped ↔ s.DeclaresVar name := ⟨s.declaresVar_of_mem, DeclaresVar.mem⟩

/-- At the top level of a body a statement declares a function, or the variables inside it. -/
theorem topVarScoped_eq (s : Statement) :
    s.topVarScoped = s.function?.toList.map .function ++ s.varScoped := by
  fun_induction topVarScoped s with
  | case1 code => simp [function?, varScoped]
  | case2 l body ih => simpa [function?, varScoped] using ih
  | case3 s hfunction hlabelled =>
    rw [function?]
    · rfl
    · exact hfunction
    · exact hlabelled

end Statement

namespace VarDeclaration

/-- The function that a declaration hoisted to the top of a body declares. -/
def function? : VarDeclaration → Option FunctionCode
  | .function code => some code
  | .binding _ => none

/-- The names that a declaration hoisted to the top of a body declares with `var`. -/
def variableNames : VarDeclaration → List String
  | .binding pattern => pattern.boundNames
  | .function _ => []

end VarDeclaration

namespace Body

theorem functions_eq (body : List Statement) :
    Body.functions body = lastOfEachName (body.filterMap Statement.function?) := by
  have hstatement (s : Statement) : s.topVarScoped.filterMap VarDeclaration.function? = s.function?.toList := by
    have hnested : s.varScoped.filterMap VarDeclaration.function? = [] := by
      refine List.filterMap_eq_nil_iff.mpr fun d hd => ?_
      cases d with
      | binding => rfl
      | function code => exact absurd hd s.function_not_mem_varScoped
    rw [s.topVarScoped_eq, List.filterMap_append, hnested]
    cases s.function? <;> rfl
  unfold Body.functions Body.varScoped
  rw [List.filterMap_flatMap, List.filterMap_eq_flatMap_toList]
  exact congrArg lastOfEachName (List.flatMap_congr fun s _ => hstatement s)

theorem declaresLast_of_mem (h : code ∈ Body.functions body) : DeclaresLast body code := by
  rw [functions_eq] at h
  obtain ⟨first, second, hsplit, hlast⟩ := lastOfEachName_is_last h
  obtain ⟨before, rest, rfl, -, hrest⟩ := List.filterMap_eq_append_iff.mp hsplit
  obtain ⟨skipped, s, after, rfl, hskipped, hs, rfl⟩ := List.filterMap_eq_cons_iff.mp hrest
  refine ⟨before ++ skipped, s, after, by simp, hs, ?_⟩
  rintro ⟨s', hs', code', hcode', hname⟩
  exact hlast code' (List.mem_filterMap.mpr ⟨s', hs', hcode'⟩) hname

theorem mem_functionNames :
    name ∈ (Body.functions body).map (·.bindingName) ↔ DeclaresFunction body name := by
  rw [functions_eq]
  constructor
  · intro h
    obtain ⟨code, hcode, rfl⟩ := List.mem_map.mp h
    obtain ⟨s, hs, hcode⟩ := List.mem_filterMap.mp (mem_lastOfEachName hcode)
    exact ⟨s, hs, code, hcode, rfl⟩
  · rintro ⟨s, hs, code, hcode, rfl⟩
    obtain ⟨code', hcode', hname⟩ := exists_lastOfEachName (List.mem_filterMap.mpr ⟨s, hs, hcode⟩)
    exact List.mem_map.mpr ⟨code', hcode', hname⟩

theorem mem_variableNames : name ∈ Body.variableNames body ↔ DeclaresVar body name := by
  have hstatement (s : Statement) :
      s.topVarScoped.flatMap VarDeclaration.variableNames = VarDeclaration.names s.varScoped := by
    have hnested : s.varScoped.flatMap VarDeclaration.variableNames = VarDeclaration.names s.varScoped := by
      refine List.flatMap_congr fun d hd => ?_
      cases d with
      | binding => rfl
      | function code => exact absurd hd s.function_not_mem_varScoped
    rw [s.topVarScoped_eq, List.flatMap_append, hnested]
    cases s.function? <;> rfl
  have hbody : Body.variableNames body = body.flatMap fun s => VarDeclaration.names s.varScoped := by
    unfold Body.variableNames Body.varScoped
    rw [List.flatMap_assoc]
    exact List.flatMap_congr fun s _ => hstatement s
  rw [hbody]
  simp only [DeclaresVar, List.mem_flatMap, Statement.mem_names_varScoped]

/-- All functions that statements of the body declare have names. -/
def NamesFunctions (body : List Statement) : Prop :=
  ∀ s ∈ body, ∀ code, s.function? = some code → code.name.isSome = true

/-- The names of a function scope are those of its variables and of its functions. -/
theorem mem_varNames (hnamed : NamesFunctions body) :
    name ∈ Body.varNames body ↔ DeclaresVar body name ∨ DeclaresFunction body name := by
  have hstatement (s : Statement) (hs : s ∈ body) : name ∈ VarDeclaration.names s.topVarScoped ↔
      s.DeclaresVar name ∨ ∃ code, s.function? = some code ∧ code.bindingName = name := by
    rw [s.topVarScoped_eq, VarDeclaration.names_append, List.mem_append, Statement.mem_names_varScoped, or_comm]
    refine or_congr_right ?_
    cases hfunction : s.function? with
    | none => simp
    | some code =>
      obtain ⟨own, hown⟩ := Option.isSome_iff_exists.mp (hnamed s hs code hfunction)
      simp [VarDeclaration.names, VarDeclaration.boundNames, FunctionCode.bindingName, hown, eq_comm]
  have hbody : Body.varNames body = body.flatMap fun s => VarDeclaration.names s.topVarScoped := by
    unfold Body.varNames Body.varScoped
    rw [List.flatMap_assoc]
    rfl
  rw [hbody, List.mem_flatMap]
  unfold DeclaresVar DeclaresFunction
  constructor
  · rintro ⟨s, hs, hname⟩
    exact ((hstatement s hs).mp hname).imp (⟨s, hs, ·⟩) (⟨s, hs, ·⟩)
  · rintro (⟨s, hs, hname⟩ | ⟨s, hs, hname⟩)
    · exact ⟨s, hs, (hstatement s hs).mpr (.inl hname)⟩
    · exact ⟨s, hs, (hstatement s hs).mpr (.inr hname)⟩

end Body

theorem Statement.mem_lexicallyScoped {s : Statement} {constant : Bool} :
    (∃ d ∈ s.lexicallyScoped true, d.isConstant = constant ∧ name ∈ d.boundNames) ↔
      s.DeclaresLexical constant name := by
  constructor
  · rintro ⟨d, hd, rfl, hname⟩
    fun_induction Statement.lexicallyScoped true s with
    | case1 constant declarators =>
      obtain ⟨e, he, rfl⟩ := List.mem_map.mp hd
      exact .declare he (Pattern.mem_boundNames.mp hname)
    | case2 | case5 => cases hd
    | case3 code hlevel => exact absurd rfl hlevel
    | case4 l body ih => exact .labelled (ih hd)
  · intro h
    induction h with
    | declare hd h => exact ⟨_, List.mem_map.mpr ⟨_, hd, rfl⟩, rfl, Pattern.mem_boundNames.mpr h⟩
    | labelled _ ih => exact ih

theorem Body.mem_lexicallyScoped {constant : Bool} :
    (∃ d ∈ Body.lexicallyScoped body true, d.isConstant = constant ∧ name ∈ d.boundNames) ↔
      DeclaresLexical body constant name := by
  simp only [Body.lexicallyScoped, DeclaresLexical, ← Statement.mem_lexicallyScoped, List.mem_flatMap]
  constructor
  · rintro ⟨d, ⟨s, hs, hd⟩, hname⟩
    exact ⟨s, hs, d, hd, hname⟩
  · rintro ⟨s, hs, d, hd, hname⟩
    exact ⟨d, ⟨s, hs, hd⟩, hname⟩

theorem Body.mem_lexicalNames :
    name ∈ Body.lexicalNames body true ↔ ∃ constant, DeclaresLexical body constant name := by
  simp only [Body.lexicalNames, List.mem_flatMap, ← Body.mem_lexicallyScoped]
  constructor
  · rintro ⟨d, hd, hname⟩
    exact ⟨_, d, hd, rfl, hname⟩
  · rintro ⟨_, d, hd, -, hname⟩
    exact ⟨d, hd, hname⟩

end EcmaEval
