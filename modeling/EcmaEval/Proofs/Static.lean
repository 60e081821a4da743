import EcmaEval.Evaluate

/-!
# Static validity

What a parser and its early errors guarantee of a syntax tree, at every depth and inside nested
functions. Block-scoped declarations stand in statement lists and loop heads only, and the names of
one list differ. Jumps have a target. Patterns, accessors, literals and function declarations have the
parts that their evaluation needs.
-/
namespace EcmaEval

/-- The jumps that code around a statement gives a target. -/
structure Jumps where
  /-- Labels that a `break` may name. -/
  breaks : List String
  /-- Labels that a `continue` may name. -/
  continues : List String
  /-- Whether a loop or switch takes a `break` without a label. -/
  breakable : Bool
  /-- Whether a loop takes a `continue` without a label. -/
  repeats : Bool

namespace Jumps

/-- At the top of a script or a function body no jump has a target. -/
def top : Jumps := { breaks := [], continues := [], breakable := false, repeats := false }

def loop (j : Jumps) (labels : List String) : Jumps :=
  { breaks := j.breaks, continues := labels ++ j.continues, breakable := true, repeats := true }

def switch (j : Jumps) : Jumps := { j with breakable := true }

def label (j : Jumps) (l : String) : Jumps := { j with breaks := l :: j.breaks }

def Breaks (j : Jumps) : Option String → Prop
  | none => j.breakable = true
  | some l => l ∈ j.breaks

def Continues (j : Jumps) : Option String → Prop
  | none => j.repeats = true
  | some l => l ∈ j.continues

end Jumps

/-- The names a statement of a list declares with `let` or `const`, also under labels. -/
def Statement.letNames (s : Statement) : List String :=
  (s.lexicallyScoped true).flatMap LexicalDeclaration.boundNames

def LexicalDeclaration.isFunction : LexicalDeclaration → Bool
  | .binding _ _ => false
  | .function _ => true

/-- The declarations of one scope bind different names, except that functions may share one. -/
def LexicalDeclaration.Distinct (ds : List LexicalDeclaration) : Prop :=
  (∀ d ∈ ds, d.boundNames.Nodup) ∧
    ds.Pairwise fun d d' =>
      (d.isFunction = true ∧ d'.isFunction = true) ∨ ∀ n ∈ d.boundNames, n ∉ d'.boundNames

def Literal.Valid : Literal → Prop
  | .bigint digits => (Text.ofString (bigintNumeral digits)).toInt?.isSome = true
  | _ => True

mutual

inductive Expression.Valid : Expression → Prop
  | literal (h : Literal.Valid l) : Expression.Valid (.literal l)
  | identifier (name : String) : Expression.Valid (.identifier name)
  | thisValue : Expression.Valid .thisValue
  | array (h : ∀ e, some e ∈ elements → Expression.Valid e) : Expression.Valid (.array elements)
  | object (h : ∀ entry ∈ members, Member.Valid entry) : Expression.Valid (.object members)
  | function (h : FunctionCode.Valid code) : Expression.Valid (.function code)
  | arrow (h : FunctionCode.Valid code) : Expression.Valid (.arrow code)
  | unary (h : Expression.Valid operand) : Expression.Valid (.unary op operand)
  | binary (hl : Expression.Valid left) (hr : Expression.Valid right) : Expression.Valid (.binary op left right)
  | logical (hl : Expression.Valid left) (hr : Expression.Valid right) :
      Expression.Valid (.logical op left right)
  | update (h : Expression.Valid target) : Expression.Valid (.update op returnsNew target)
  | assign (ht : Expression.Valid target) (hv : Expression.Valid value) :
      Expression.Valid (.assign op target value)
  | conditional (ht : Expression.Valid test) (hc : Expression.Valid consequent)
      (ha : Expression.Valid alternate) : Expression.Valid (.conditional test consequent alternate)
  | call (hc : Expression.Valid callee) (ha : ∀ e ∈ arguments, Expression.Valid e) :
      Expression.Valid (.call callee arguments)
  | new (hc : Expression.Valid callee) (ha : ∀ e ∈ arguments, Expression.Valid e) :
      Expression.Valid (.new callee arguments)
  | member (h : Expression.Valid object) : Expression.Valid (.member object name)
  | index (ho : Expression.Valid object) (hk : Expression.Valid key) : Expression.Valid (.index object key)
  | spread (e : Expression) : Expression.Valid (.spread e)
  | yield (e : Option Expression) (delegate : Bool) : Expression.Valid (.yield e delegate)
  | await (e : Expression) : Expression.Valid (.await e)
  | template (h : ∀ e ∈ expressions, Expression.Valid e) : Expression.Valid (.template strings expressions)
  | typeOf (h : Expression.Valid operand) : Expression.Valid (.typeOf operand)
  | void (h : Expression.Valid operand) : Expression.Valid (.void operand)
  | delete (h : Expression.Valid operand) : Expression.Valid (.delete operand)
  | sequence (h : ∀ e ∈ expressions, Expression.Valid e) : Expression.Valid (.sequence expressions)

inductive Member.Valid : Member → Prop
  | mk (hname : MemberName.Valid name) (hvalue : Expression.Valid value)
      (haccessor : kind ≠ .value → ∃ code, value = .function code) : Member.Valid ⟨kind, name, value⟩

inductive MemberName.Valid : MemberName → Prop
  | identifier (name : String) : MemberName.Valid (.identifier name)
  | string (name : String) : MemberName.Valid (.string name)
  | number (n : Number) : MemberName.Valid (.number n)
  | computed (h : Expression.Valid key) : MemberName.Valid (.computed key)

/-- Outside an array pattern there is no rest pattern. -/
inductive Pattern.Valid : Pattern → Prop
  | identifier (name : String) : Pattern.Valid (.identifier name)
  | array (elements : List (Option Pattern)) : Pattern.Valid (.array elements)
  | object (h : ∀ p ∈ members, PatternMember.Valid p) : Pattern.Valid (.object members)
  | withDefault (ht : Pattern.Valid target) (hd : Expression.Valid e) :
      Pattern.Valid (.withDefault target e)

inductive PatternMember.Valid : PatternMember → Prop
  | keyed (hn : MemberName.Valid name) (ht : Pattern.Valid target) : PatternMember.Valid (.keyed name target)
  | shorthand (h : ∀ e, d = some e → Expression.Valid e) : PatternMember.Valid (.shorthand name d)
  | rest (name : String) : PatternMember.Valid (.rest name)

/-- A parameter is a pattern or a rest parameter. -/
inductive Pattern.ValidParameter : Pattern → Prop
  | pattern (h : Pattern.Valid p) : Pattern.ValidParameter p
  | rest (h : Pattern.Valid target) : Pattern.ValidParameter (.rest target)

/-- The block-scoped names of a body differ from each other, from its variables and from its
parameters. -/
inductive FunctionCode.Valid : FunctionCode → Prop
  | block (hparameters : ∀ p ∈ parameters, Pattern.ValidParameter p)
      (hbody : ∀ s ∈ statements, Statement.Valid .top [] s)
      (hdistinct : LexicalDeclaration.Distinct (Body.lexicallyScoped statements true))
      (hnames : ∀ n ∈ Body.lexicalNames statements true,
        n ∉ Body.varNames statements ∧ n ∉ Parameters.names parameters) :
      FunctionCode.Valid ⟨name, kind, parameters, .block statements, isAsync, isGenerator⟩
  | concise (hparameters : ∀ p ∈ parameters, Pattern.ValidParameter p)
      (hvalue : Expression.Valid value) :
      FunctionCode.Valid ⟨name, kind, parameters, .concise value, isAsync, isGenerator⟩

/-- Validity of a statement among jumps, with the labels directly before it. A statement that is not
an item of a list declares no block-scoped name. -/
inductive Statement.Valid : Jumps → List String → Statement → Prop
  | empty : Statement.Valid j labels .empty
  | debugger : Statement.Valid j labels .debugger
  | expression (h : Expression.Valid e) : Statement.Valid j labels (.expression e)
  | block (h : ∀ s ∈ body, Statement.Valid j [] s)
      (hdistinct : LexicalDeclaration.Distinct (Body.lexicallyScoped body false)) :
      Statement.Valid j labels (.block body)
  | declare (h : ∀ d ∈ declarators, Declarator.Valid d) : Statement.Valid j labels (.declare kind declarators)
  | conditional (ht : Expression.Valid test)
      (hc : Statement.Valid j [] consequent) (hcn : Statement.letNames consequent = [])
      (ha : ∀ s, alternate = some s → Statement.Valid j [] s)
      (han : ∀ s, alternate = some s → Statement.letNames s = []) :
      Statement.Valid j labels (.conditional test consequent alternate)
  | whileLoop (ht : Expression.Valid test) (hb : Statement.Valid (Jumps.loop j labels) [] body)
      (hn : Statement.letNames body = []) : Statement.Valid j labels (.whileLoop test body)
  | doWhileLoop (hb : Statement.Valid (Jumps.loop j labels) [] body) (ht : Expression.Valid test)
      (hn : Statement.letNames body = []) : Statement.Valid j labels (.doWhileLoop body test)
  | forLoop (hi : ∀ i, init = some i → ForInit.Valid i) (ht : ∀ e, test = some e → Expression.Valid e)
      (hu : ∀ e, update = some e → Expression.Valid e)
      (hb : Statement.Valid (Jumps.loop j labels) [] body) (hn : Statement.letNames body = []) :
      Statement.Valid j labels (.forLoop init test update body)
  | forIn (ht : ForTarget.Valid target) (hs : Expression.Valid source)
      (hb : Statement.Valid (Jumps.loop j labels) [] body) (hn : Statement.letNames body = []) :
      Statement.Valid j labels (.forIn target source body)
  | forOf (target : ForTarget) (source : Expression) (body : Statement) :
      Statement.Valid j labels (.forOf target source body)
  | returns (h : ∀ e, value = some e → Expression.Valid e) : Statement.Valid j labels (.returns value)
  | breaks (h : Jumps.Breaks j label) : Statement.Valid j labels (.breaks label)
  | continues (h : Jumps.Continues j label) : Statement.Valid j labels (.continues label)
  | throws (h : Expression.Valid value) : Statement.Valid j labels (.throws value)
  | tryCatch (hb : ∀ s ∈ block, Statement.Valid j [] s)
      (hdistinct : LexicalDeclaration.Distinct (Body.lexicallyScoped block false))
      (hh : ∀ clause, handler = some clause → CatchClause.Valid j clause)
      (hf : ∀ body, finalizer = some body → ∀ s ∈ body, Statement.Valid j [] s)
      (hfdistinct : ∀ body, finalizer = some body →
        LexicalDeclaration.Distinct (Body.lexicallyScoped body false)) :
      Statement.Valid j labels (.tryCatch block handler finalizer)
  | switch (hd : Expression.Valid discriminant) (hc : ∀ clause ∈ clauses, SwitchClause.Valid j clause)
      (hdistinct : LexicalDeclaration.Distinct
        (clauses.flatMap fun clause => Body.lexicallyScoped clause.body false)) :
      Statement.Valid j labels (.switch discriminant clauses)
  | labelled (h : Statement.Valid (Jumps.label j l) (labels ++ [l]) body) : Statement.Valid j labels (.labelled l body)
  | withObject (ho : Expression.Valid object) (hb : Statement.Valid j [] body)
      (hn : Statement.letNames body = []) : Statement.Valid j labels (.withObject object body)
  | function (h : FunctionCode.Valid code) (hname : (FunctionCode.name code).isSome = true) :
      Statement.Valid j labels (.function code)

inductive Declarator.Valid : Declarator → Prop
  | mk (hp : Pattern.Valid pattern) (hi : ∀ e, init = some e → Expression.Valid e)
      (hinit : Pattern.isIdentifier pattern = false → Option.isSome init = true) : Declarator.Valid ⟨pattern, init⟩

inductive ForInit.Valid : ForInit → Prop
  | declare (h : ∀ d ∈ declarators, Declarator.Valid d)
      (hnames : kind ≠ .var → (declarators.flatMap (·.pattern.boundNames)).Nodup) :
      ForInit.Valid (.declare kind declarators)
  | expression (h : Expression.Valid e) : ForInit.Valid (.expression e)

inductive ForTarget.Valid : ForTarget → Prop
  | declare (h : Pattern.Valid p) (hnames : kind ≠ .var → (Pattern.boundNames p).Nodup) :
      ForTarget.Valid (.declare kind p)
  | pattern (p : Pattern) : ForTarget.Valid (.pattern p)

inductive CatchClause.Valid : Jumps → CatchClause → Prop
  | mk (hp : ∀ p, parameter = some p → Pattern.Valid p)
      (hnames : ∀ p, parameter = some p → (Pattern.boundNames p).Nodup)
      (hb : ∀ s ∈ body, Statement.Valid j [] s)
      (hdistinct : LexicalDeclaration.Distinct (Body.lexicallyScoped body false)) :
      CatchClause.Valid j ⟨parameter, body⟩

inductive SwitchClause.Valid : Jumps → SwitchClause → Prop
  | mk (ht : ∀ e, test = some e → Expression.Valid e)
      (hb : ∀ s ∈ body, Statement.Valid (Jumps.switch j) [] s) : SwitchClause.Valid j ⟨test, body⟩

end

/-- A script is valid if its statements are and its block-scoped names differ; an expression if it is
one. Statements by themselves are not what a parser hands over. -/
def Node.Valid : Node → Prop
  | .script body =>
    (∀ s ∈ body, s.Valid .top []) ∧ LexicalDeclaration.Distinct (Body.lexicallyScoped body true)
  | .expression e => e.Valid
  | .statement _ => False

/-- A jump that leaves a statement. -/
inductive Jump where
  | broke (target : Option String)
  | continued (target : Option String)
  | returned
  deriving DecidableEq

/-- A loop with the given labels goes on, or ends normally, at the jump. -/
def Jump.StaysInLoop (labels : List String) : Jump → Prop
  | .broke none | .continued none => True
  | .continued (some label) => label ∈ labels
  | .broke (some _) | .returned => False

/-- A statement with the given labels directly before it contains the jump outside nested functions,
and nothing in the statement consumes it. -/
inductive Statement.Exits : List String → Statement → Jump → Prop
  | returns : Statement.Exits labels (.returns value) .returned
  | breaks : Statement.Exits labels (.breaks target) (.broke target)
  | continues : Statement.Exits labels (.continues target) (.continued target)
  | block (hs : s ∈ body) (h : Statement.Exits [] s j) : Statement.Exits labels (.block body) j
  | consequent (h : Statement.Exits [] s j) : Statement.Exits labels (.conditional test s alternate) j
  | alternate (h : Statement.Exits [] s j) :
      Statement.Exits labels (.conditional test consequent (some s)) j
  | whileLoop (h : Statement.Exits [] body j) (hj : ¬ j.StaysInLoop labels) :
      Statement.Exits labels (.whileLoop test body) j
  | doWhileLoop (h : Statement.Exits [] body j) (hj : ¬ j.StaysInLoop labels) :
      Statement.Exits labels (.doWhileLoop body test) j
  | forLoop (h : Statement.Exits [] body j) (hj : ¬ j.StaysInLoop labels) :
      Statement.Exits labels (.forLoop init test update body) j
  | forIn (h : Statement.Exits [] body j) (hj : ¬ j.StaysInLoop labels) :
      Statement.Exits labels (.forIn target source body) j
  | forOf (h : Statement.Exits [] body j) (hj : ¬ j.StaysInLoop labels) :
      Statement.Exits labels (.forOf target source body) j
  | tryBlock (hs : s ∈ body) (h : Statement.Exits [] s j) :
      Statement.Exits labels (.tryCatch body handler finalizer) j
  | handler (hs : s ∈ clause.body) (h : Statement.Exits [] s j) :
      Statement.Exits labels (.tryCatch body (some clause) finalizer) j
  | finalizer (hs : s ∈ last) (h : Statement.Exits [] s j) :
      Statement.Exits labels (.tryCatch body handler (some last)) j
  | switch (hc : clause ∈ clauses) (hs : s ∈ clause.body) (h : Statement.Exits [] s j)
      (hj : j ≠ .broke none) : Statement.Exits labels (.switch discriminant clauses) j
  | labelled (h : Statement.Exits (labels ++ [label]) body j) (hj : j ≠ .broke (some label)) :
      Statement.Exits labels (.labelled label body) j
  | withObject (h : Statement.Exits [] body j) : Statement.Exits labels (.withObject object body) j

/-- Every `break` and `continue` in the body of a function, outside nested functions, is bound. -/
def FunctionCode.BindsJumps (code : FunctionCode) : Prop :=
  ∀ s ∈ code.statements, ∀ j, s.Exits [] j → j = .returned

/-- With more labels before it a statement lets fewer jumps out. -/
theorem Statement.Exits.antitone {s : Statement} {j : Jump} {labels labels' : List String}
    (h : s.Exits labels' j) (hsub : labels ⊆ labels') : s.Exits labels j := by
  have hloop {j : Jump} {labels labels' : List String} (hsub : labels ⊆ labels')
      (hj : ¬ j.StaysInLoop labels') : ¬ j.StaysInLoop labels := by
    intro hstays
    apply hj
    match j with
    | .continued (some label) => exact hsub hstays
    | .continued none | .broke none => trivial
    | .broke (some label) | .returned => exact hstays
  induction h generalizing labels with
  | returns => exact .returns
  | breaks => exact .breaks
  | continues => exact .continues
  | block hs h => exact .block hs h
  | consequent h => exact .consequent h
  | alternate h => exact .alternate h
  | whileLoop h hj => exact .whileLoop h (hloop hsub hj)
  | doWhileLoop h hj => exact .doWhileLoop h (hloop hsub hj)
  | forLoop h hj => exact .forLoop h (hloop hsub hj)
  | forIn h hj => exact .forIn h (hloop hsub hj)
  | forOf h hj => exact .forOf h (hloop hsub hj)
  | tryBlock hs h => exact .tryBlock hs h
  | handler hs h => exact .handler hs h
  | finalizer hs h => exact .finalizer hs h
  | switch hc hs h hj => exact .switch hc hs h hj
  | labelled _ hj ih =>
    refine .labelled (ih fun label hlabel => ?_) hj
    exact List.mem_append.mpr ((List.mem_append.mp hlabel).imp_left (hsub ·))
  | withObject h => exact .withObject h

end EcmaEval
