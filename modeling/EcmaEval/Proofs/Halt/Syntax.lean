import EcmaEval.Proofs.Declarations

/-!
# Code without loops

Syntax trees in which no `while`, `do`-`while` or `for` statement stands, at any depth and also inside
nested functions. For-in loops are not among these.
-/
namespace EcmaEval

mutual

inductive Expression.LoopFree : Expression → Prop
  | literal (l : Literal) : Expression.LoopFree (.literal l)
  | identifier (name : String) : Expression.LoopFree (.identifier name)
  | thisValue : Expression.LoopFree .thisValue
  | array (h : ∀ e, some e ∈ elements → Expression.LoopFree e) : Expression.LoopFree (.array elements)
  | object (h : ∀ entry ∈ members, Member.LoopFree entry) : Expression.LoopFree (.object members)
  | function (h : FunctionCode.LoopFree code) : Expression.LoopFree (.function code)
  | arrow (h : FunctionCode.LoopFree code) : Expression.LoopFree (.arrow code)
  | unary (h : Expression.LoopFree operand) : Expression.LoopFree (.unary op operand)
  | binary (hl : Expression.LoopFree left) (hr : Expression.LoopFree right) :
      Expression.LoopFree (.binary op left right)
  | logical (hl : Expression.LoopFree left) (hr : Expression.LoopFree right) :
      Expression.LoopFree (.logical op left right)
  | update (h : Expression.LoopFree target) : Expression.LoopFree (.update op returnsNew target)
  | assign (ht : Expression.LoopFree target) (hv : Expression.LoopFree value) :
      Expression.LoopFree (.assign op target value)
  | conditional (ht : Expression.LoopFree test) (hc : Expression.LoopFree consequent)
      (ha : Expression.LoopFree alternate) : Expression.LoopFree (.conditional test consequent alternate)
  | call (hc : Expression.LoopFree callee) (ha : ∀ e ∈ arguments, Expression.LoopFree e) :
      Expression.LoopFree (.call callee arguments)
  | new (hc : Expression.LoopFree callee) (ha : ∀ e ∈ arguments, Expression.LoopFree e) :
      Expression.LoopFree (.new callee arguments)
  | member (h : Expression.LoopFree object) : Expression.LoopFree (.member object name)
  | index (ho : Expression.LoopFree object) (hk : Expression.LoopFree key) :
      Expression.LoopFree (.index object key)
  | spread (h : Expression.LoopFree e) : Expression.LoopFree (.spread e)
  | yield (h : ∀ e, argument = some e → Expression.LoopFree e) :
      Expression.LoopFree (.yield argument delegate)
  | await (h : Expression.LoopFree e) : Expression.LoopFree (.await e)
  | template (h : ∀ e ∈ expressions, Expression.LoopFree e) :
      Expression.LoopFree (.template strings expressions)
  | typeOf (h : Expression.LoopFree operand) : Expression.LoopFree (.typeOf operand)
  | void (h : Expression.LoopFree operand) : Expression.LoopFree (.void operand)
  | delete (h : Expression.LoopFree operand) : Expression.LoopFree (.delete operand)
  | sequence (h : ∀ e ∈ expressions, Expression.LoopFree e) : Expression.LoopFree (.sequence expressions)

inductive Member.LoopFree : Member → Prop
  | mk (hname : MemberName.LoopFree name) (hvalue : Expression.LoopFree value) :
      Member.LoopFree ⟨kind, name, value⟩

inductive MemberName.LoopFree : MemberName → Prop
  | identifier (name : String) : MemberName.LoopFree (.identifier name)
  | string (name : String) : MemberName.LoopFree (.string name)
  | number (n : Number) : MemberName.LoopFree (.number n)
  | computed (h : Expression.LoopFree key) : MemberName.LoopFree (.computed key)

inductive Pattern.LoopFree : Pattern → Prop
  | identifier (name : String) : Pattern.LoopFree (.identifier name)
  | array (h : ∀ p, some p ∈ elements → Pattern.LoopFree p) : Pattern.LoopFree (.array elements)
  | object (h : ∀ p ∈ members, PatternMember.LoopFree p) : Pattern.LoopFree (.object members)
  | withDefault (ht : Pattern.LoopFree target) (hd : Expression.LoopFree e) :
      Pattern.LoopFree (.withDefault target e)
  | rest (h : Pattern.LoopFree target) : Pattern.LoopFree (.rest target)

inductive PatternMember.LoopFree : PatternMember → Prop
  | keyed (hn : MemberName.LoopFree name) (ht : Pattern.LoopFree target) :
      PatternMember.LoopFree (.keyed name target)
  | shorthand (h : ∀ e, d = some e → Expression.LoopFree e) : PatternMember.LoopFree (.shorthand name d)
  | rest (name : String) : PatternMember.LoopFree (.rest name)

inductive FunctionCode.LoopFree : FunctionCode → Prop
  | block (hparameters : ∀ p ∈ parameters, Pattern.LoopFree p)
      (hbody : ∀ s ∈ statements, Statement.LoopFree s) :
      FunctionCode.LoopFree ⟨name, kind, parameters, .block statements, isAsync, isGenerator⟩
  | concise (hparameters : ∀ p ∈ parameters, Pattern.LoopFree p) (hvalue : Expression.LoopFree value) :
      FunctionCode.LoopFree ⟨name, kind, parameters, .concise value, isAsync, isGenerator⟩

inductive Statement.LoopFree : Statement → Prop
  | empty : Statement.LoopFree .empty
  | debugger : Statement.LoopFree .debugger
  | expression (h : Expression.LoopFree e) : Statement.LoopFree (.expression e)
  | block (h : ∀ s ∈ body, Statement.LoopFree s) : Statement.LoopFree (.block body)
  | declare (h : ∀ d ∈ declarators, Declarator.LoopFree d) : Statement.LoopFree (.declare kind declarators)
  | conditional (ht : Expression.LoopFree test) (hc : Statement.LoopFree consequent)
      (ha : ∀ s, alternate = some s → Statement.LoopFree s) :
      Statement.LoopFree (.conditional test consequent alternate)
  | forIn (ht : ForTarget.LoopFree target) (hs : Expression.LoopFree source)
      (hb : Statement.LoopFree body) : Statement.LoopFree (.forIn target source body)
  | forOf (ht : ForTarget.LoopFree target) (hs : Expression.LoopFree source)
      (hb : Statement.LoopFree body) : Statement.LoopFree (.forOf target source body)
  | returns (h : ∀ e, value = some e → Expression.LoopFree e) : Statement.LoopFree (.returns value)
  | breaks (label : Option String) : Statement.LoopFree (.breaks label)
  | continues (label : Option String) : Statement.LoopFree (.continues label)
  | throws (h : Expression.LoopFree value) : Statement.LoopFree (.throws value)
  | tryCatch (hb : ∀ s ∈ block, Statement.LoopFree s)
      (hh : ∀ clause, handler = some clause → CatchClause.LoopFree clause)
      (hf : ∀ body, finalizer = some body → ∀ s ∈ body, Statement.LoopFree s) :
      Statement.LoopFree (.tryCatch block handler finalizer)
  | switch (hd : Expression.LoopFree discriminant) (hc : ∀ clause ∈ clauses, SwitchClause.LoopFree clause) :
      Statement.LoopFree (.switch discriminant clauses)
  | labelled (h : Statement.LoopFree body) : Statement.LoopFree (.labelled label body)
  | withObject (ho : Expression.LoopFree object) (hb : Statement.LoopFree body) :
      Statement.LoopFree (.withObject object body)
  | function (h : FunctionCode.LoopFree code) : Statement.LoopFree (.function code)

inductive Declarator.LoopFree : Declarator → Prop
  | mk (hp : Pattern.LoopFree pattern) (hi : ∀ e, init = some e → Expression.LoopFree e) :
      Declarator.LoopFree ⟨pattern, init⟩

inductive ForTarget.LoopFree : ForTarget → Prop
  | declare (h : Pattern.LoopFree pattern) : ForTarget.LoopFree (.declare kind pattern)
  | pattern (h : Pattern.LoopFree p) : ForTarget.LoopFree (.pattern p)

inductive CatchClause.LoopFree : CatchClause → Prop
  | mk (hp : ∀ p, parameter = some p → Pattern.LoopFree p) (hb : ∀ s ∈ body, Statement.LoopFree s) :
      CatchClause.LoopFree ⟨parameter, body⟩

inductive SwitchClause.LoopFree : SwitchClause → Prop
  | mk (ht : ∀ e, test = some e → Expression.LoopFree e) (hb : ∀ s ∈ body, Statement.LoopFree s) :
      SwitchClause.LoopFree ⟨test, body⟩

end

def Node.LoopFree : Node → Prop
  | .script body => ∀ s ∈ body, s.LoopFree
  | .statement s => s.LoopFree
  | .expression e => e.LoopFree

namespace FunctionCode.LoopFree

variable {code : FunctionCode}

theorem parameters (h : code.LoopFree) : ∀ p ∈ code.parameters, p.LoopFree := by
  cases h <;> assumption

theorem statements (h : code.LoopFree) : ∀ s ∈ code.statements, s.LoopFree := by
  cases h with
  | block _ hbody => exact hbody
  | concise => exact nofun

end FunctionCode.LoopFree

/-- The functions that a statement declares for the body it stands in. -/
theorem Statement.LoopFree.topFunction {s : Statement} {code : FunctionCode} (hs : s.LoopFree)
    (hcode : .function code ∈ s.topVarScoped) : code.LoopFree := by
  fun_induction Statement.topVarScoped s with
  | case1 code' =>
    cases List.mem_singleton.mp hcode
    cases hs
    assumption
  | case2 label body ih =>
    cases hs
    exact ih ‹_› hcode
  | case3 s _ _ => exact absurd hcode s.function_not_mem_varScoped

theorem Body.functions_loopFree {body : List Statement} {code : FunctionCode}
    (hbody : ∀ s ∈ body, s.LoopFree) (hcode : code ∈ Body.functions body) : code.LoopFree := by
  obtain ⟨d, hd, hcode⟩ := List.mem_filterMap.mp (mem_lastOfEachName hcode)
  cases d with
  | binding pattern => cases hcode
  | function code' =>
    cases hcode
    obtain ⟨s, hs, hmem⟩ := List.mem_flatMap.mp hd
    exact (hbody s hs).topFunction hmem

/-- The functions that a statement declares for the block it stands in. -/
theorem Statement.LoopFree.blockFunction {s : Statement} {code : FunctionCode} {topLevel : Bool}
    (hs : s.LoopFree) (hcode : .function code ∈ s.lexicallyScoped topLevel) : code.LoopFree := by
  fun_induction Statement.lexicallyScoped topLevel s with
  | case1 constant declarators =>
    obtain ⟨d, -, hd⟩ := List.mem_map.mp hcode
    cases hd
  | case2 code' _ => cases hcode
  | case3 code' _ =>
    cases List.mem_singleton.mp hcode
    cases hs
    assumption
  | case4 label body ih =>
    cases hs
    exact ih ‹_› hcode
  | case5 => cases hcode

theorem Body.lexicallyScoped_loopFree {body : List Statement} {code : FunctionCode} {topLevel : Bool}
    (hbody : ∀ s ∈ body, s.LoopFree) (hcode : .function code ∈ Body.lexicallyScoped body topLevel) :
    code.LoopFree := by
  obtain ⟨s, hs, hmem⟩ := List.mem_flatMap.mp hcode
  exact (hbody s hs).blockFunction hmem

end EcmaEval
