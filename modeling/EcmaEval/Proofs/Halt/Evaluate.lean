import EcmaEval.Proofs.Halt.ForIn

/-!
# Code without loops converges

The evaluation of every expression and of every statement without loops comes to what it is by way of the
limit of the evaluators. The proof is by induction on the contexts for which there is room on the stack,
and within one context by induction on the syntax.
-/
namespace EcmaEval

open Filter

namespace Evaluator

variable {limit depth : Nat}

/-- On a sound machine the limit is what the levels come to, and on others it is exhausted. -/
theorem convergesAt_limit {m : Machine} {x : Evaluator → Eval α} {fallback : Eval α}
    (hx : x unbounded = .limit (fun n => x (level n)) fallback)
    (h : Contract.walks.Sound m → ∃ y : Eval α, y.Ends m ∧ m.Calm (y.after m) ∧
      ∀ᶠ n in atTop, x (level (n + 1)) m = y m) : unbounded.ConvergesAt m x := by
  by_cases hm : Contract.walks.Sound m
  · obtain ⟨y, hends, hcalm, hnext⟩ := h hm
    have hy : ∀ᶠ n in atTop, x (level n) m = y m := by
      rw [← map_add_atTop_eq_nat 1]
      exact hnext
    have hlimit : x unbounded m = y m := (congrFun hx m).trans (Eval.limit_eq hm hends hy)
    refine ⟨fun _ => hy.mono fun n hn => hn.trans hlimit.symm, ?_⟩
    rwa [Eval.after_congr hlimit]
  · have hexhausted : x unbounded m = .error .exhausted m :=
      (congrFun hx m).trans (Eval.limit_of_unsound hm)
    refine ⟨fun hends => absurd hexhausted (hends m), ?_⟩
    rw [Eval.after_error hexhausted]

/-- An expression converges if one step of its evaluation does. -/
theorem expression_converges {e : Expression} (h : unbounded.Converges limit depth (·.evaluate e)) :
    unbounded.Converges limit depth (·.expression e) := by
  refine fun m htame => convergesAt_limit rfl fun hm => ?_
  obtain ⟨happroaches, hcalm⟩ := h m htame
  have hruns : Contract.walks.Runs m.grant m (unbounded.evaluate e) _ :=
    evaluate_runs unbounded_keeps e False.elim
  exact ⟨unbounded.evaluate e, hruns.ends hm, hcalm, happroaches (hruns.ends hm)⟩

/-- A statement without loops converges if one step of its evaluation does for each number of
iterations, and ends for one of them. -/
theorem statement_converges {s : Statement} (hs : s.LoopFree)
    (h : ∀ steps labels, unbounded.Converges limit depth (·.executeWith steps labels s))
    (hends : ∀ m, m.Tame limit depth → Contract.walks.Sound m → ∃ steps, (unbounded.execute steps s).Ends m) :
    unbounded.Converges limit depth (·.statement s) := by
  refine fun m htame => convergesAt_limit rfl fun hm => ?_
  obtain ⟨steps, hsteps⟩ := hends m htame hm
  obtain ⟨happroaches, hcalm⟩ := execute_converges (h steps) m htame
  refine ⟨unbounded.execute steps s, hsteps, hcalm, ?_⟩
  filter_upwards [happroaches hsteps, eventually_ge_atTop steps] with n hn hle
  have hsame := (level n).execute_prolongs hle hs m fun m' hm' => hsteps m' (hn.symm.trans hm')
  exact hsame.trans hn

/-- Other statements than for-in loops do not count their steps. -/
theorem plain_converges {s : Statement} (hs : s.LoopFree) (hplain : ¬ s.Repeats)
    (h : ∀ steps labels, unbounded.Converges limit depth (·.executeWith steps labels s)) :
    unbounded.Converges limit depth (·.statement s) := by
  refine statement_converges hs h fun m _ hm => ⟨0, ?_⟩
  have hvalid : Contract.walks.checked → s.Valid .top [] := False.elim
  have hruns : Contract.walks.Runs m.grant m (unbounded.execute 0 s) fun m' c =>
      Contract.walks.Ends m' .top c :=
    execute_runs unbounded_keeps (absurd · hplain) hvalid False.elim
      (Contract.walks_hoists m.grant m ⟨0⟩ s.letNames)
  exact hruns.ends hm

end Evaluator

section

open Evaluator

variable {limit depth : Nat} (hdeep : depth < limit → unbounded.ManagesAll limit (depth + 1))

include hdeep

-- The calls within the block hand the hypothesis on, which the linter does not see.
set_option linter.unusedSectionVars false

mutual

theorem Expression.LoopFree.converges :
    ∀ {e : Expression}, e.LoopFree → unbounded.Converges limit depth (·.expression e)
  | _, .literal l => expression_converges (.quiet (by grind))
  | _, .identifier name => expression_converges (.quiet (.lift _))
  | _, .thisValue => expression_converges (.quiet (.of_stays resolveThis_stays))
  | _, .array h => expression_converges (array_converges fun e he => (h e he).converges)
  | _, .object h => expression_converges (object_converges fun entry hentry => (h entry hentry).converges)
  | _, .function h =>
    expression_converges (.const (.bind (by grind) fun _ => .quiet (.pure _)))
  | _, .arrow h =>
    expression_converges (.const (.bind (by grind) fun _ => .quiet (.pure _)))
  | _, .unary h =>
    expression_converges (.bind (value_converges h.converges) fun v => .quiet (by grind))
  | _, .binary hl hr => expression_converges (binary_converges hl.converges hr.converges _)
  | _, .logical hl hr => expression_converges (logical_converges hl.converges hr.converges _)
  | _, .update h => expression_converges (update_converges h.converges _ _)
  | _, .assign ht hv => expression_converges (assign_converges ht.converges ⟨hv, hv.converges⟩ _)
  | _, .conditional ht hc ha =>
    expression_converges (conditional_converges ht.converges hc.converges ha.converges)
  | _, .call hc ha =>
    expression_converges (callExpression_converges hdeep hc.converges fun e he => (ha e he).converges)
  | _, .new hc ha =>
    expression_converges (newExpression_converges hdeep hc.converges fun e he => (ha e he).converges)
  | _, .member h =>
    expression_converges (.bind (value_converges h.converges) fun _ => .query fun _ => .pure _)
  | _, .index ho hk =>
    expression_converges (.bind (value_converges ho.converges) fun _ =>
      .bind (value_converges hk.converges) fun _ => .query fun _ => .pure _)
  | _, .spread _ => expression_converges (.quiet (.unsupported _))
  | _, .yield _ => expression_converges (.quiet (.unsupported _))
  | _, .await _ => expression_converges (.quiet (.unsupported _))
  | _, .template h =>
    expression_converges (.map (templateParts_converges (fun e he => (h e he).converges) _ _))
  | _, .typeOf h => expression_converges (typeOf_converges h.converges)
  | _, .void h => expression_converges (.map (value_converges h.converges))
  | _, .delete h => expression_converges (delete_converges h.converges)
  | _, .sequence h => expression_converges (sequence_converges (fun e he => (h e he).converges) _)

theorem Member.LoopFree.converges :
    ∀ {entry : Member}, entry.LoopFree → ∀ o, unbounded.Converges limit depth (·.member o entry)
  | _, .mk hname hvalue => member_converges hname.converges ⟨hvalue, hvalue.converges⟩

theorem MemberName.LoopFree.converges :
    ∀ {name : MemberName}, name.LoopFree → unbounded.Converges limit depth (·.memberKey name)
  | _, .identifier _ => .pure _
  | _, .string _ => .pure _
  | _, .number _ => .pure _
  | _, .computed h => computedKey_converges h.converges

theorem Pattern.LoopFree.binds : ∀ {p : Pattern}, p.LoopFree → unbounded.Binds limit depth p
  | _, .identifier name => fun env v => .quiet (by grind)
  | _, .array _ => fun _ _ => .quiet (.unsupported _)
  | _, .object h => object_binds fun p hp => (h p hp).binds
  | _, .withDefault ht hd => withDefault_binds ht.binds ⟨hd, hd.converges⟩
  | _, .rest _ => fun _ _ => .quiet (.breach _)

theorem PatternMember.LoopFree.binds :
    ∀ {p : PatternMember}, p.LoopFree → unbounded.BindsMember limit depth p
  | _, .keyed hn ht => ⟨hn.converges, ht.binds⟩
  | _, .shorthand h => fun e he => ⟨h e he, (h e he).converges⟩
  | _, .rest _ => trivial

theorem Statement.LoopFree.converges :
    ∀ {s : Statement}, s.LoopFree → unbounded.Converges limit depth (·.statement s)
  | _, .empty => plain_converges .empty id fun _ _ => .pure _
  | _, .debugger => plain_converges .debugger id fun _ _ => .pure _
  | _, .expression h => plain_converges (.expression h) id fun _ _ => .map (value_converges h.converges)
  | _, .block h =>
    have hbody : unbounded.ManagesBody limit depth _ := ⟨h, fun s hs => (h s hs).converges⟩
    plain_converges (.block h) id fun _ _ => hbody.block
  | _, .declare h =>
    plain_converges (.declare h) id fun _ _ =>
      .bind (.forM fun d hd => (h d hd).converges _) fun _ => .pure _
  | _, .conditional ht hc ha =>
    plain_converges (.conditional ht hc ha) id fun _ _ =>
      ifStatement_converges ht.converges hc.converges fun s hs => (ha s hs).converges
  | _, .forIn ht hs hb =>
    statement_converges (.forIn ht hs hb)
      (fun _ _ => .map (forIn_converges ht.binds hb.converges hs.converges _ _))
      fun _ htame hm => execute_forIn_ends unbounded_keeps ht.binds hs.converges hb.converges hm htame
  | _, .forOf ht hs hb => plain_converges (.forOf ht hs hb) id fun _ _ => .quiet (.unsupported _)
  | .returns none, .returns h => plain_converges (.returns h) id fun _ _ => .pure _
  | .returns (some e), .returns h =>
    plain_converges (.returns h) id fun _ _ => .map (value_converges (h e rfl).converges)
  | _, .breaks label => plain_converges (.breaks label) id fun _ _ => .pure _
  | _, .continues label => plain_converges (.continues label) id fun _ _ => .pure _
  | _, .throws h => plain_converges (.throws h) id fun _ _ => .map (value_converges h.converges)
  | _, .tryCatch hb hh hf =>
    have hbody : unbounded.ManagesBody limit depth _ := ⟨hb, fun s hs => (hb s hs).converges⟩
    plain_converges (.tryCatch hb hh hf) id fun _ _ =>
      tryStatement_converges hbody (fun clause hclause => (hh clause hclause).manages)
        fun last hlast => ⟨hf last hlast, fun s hs => (hf last hlast s hs).converges⟩
  | _, .switch hd hc =>
    plain_converges (.switch hd hc) id fun _ _ =>
      .map (switchStatement_converges (fun clause hclause => (hc clause hclause).manages) hd.converges)
  | _, .labelled h => plain_converges (.labelled h) id fun _ _ => labelledStatement_converges h.converges _
  | _, .withObject ho hb =>
    plain_converges (.withObject ho hb) id fun _ _ => withStatement_converges ho.converges hb.converges
  | _, .function h => plain_converges (.function h) id fun _ _ => .pure _

theorem Declarator.LoopFree.converges :
    ∀ {d : Declarator}, d.LoopFree → ∀ kind, unbounded.Converges limit depth (·.declarator kind d)
  | _, .mk hp hi => declarator_converges hp.binds fun e he => ⟨hi e he, (hi e he).converges⟩

theorem ForTarget.LoopFree.binds :
    ∀ {target : ForTarget}, target.LoopFree → unbounded.BindsTarget limit depth target
  | _, .declare h => declare_bindsTarget h.binds _
  | _, .pattern _ => pattern_bindsTarget _

theorem CatchClause.LoopFree.manages :
    ∀ {handler : CatchClause}, handler.LoopFree → unbounded.ManagesHandler limit depth handler
  | _, .mk hp hb => ⟨fun p h => (hp p h).binds, hb, fun s hs => (hb s hs).converges⟩

theorem SwitchClause.LoopFree.manages :
    ∀ {clause : SwitchClause}, clause.LoopFree → unbounded.ManagesClause limit depth clause
  | _, .mk ht hb => ⟨fun e h => (ht e h).converges, hb, fun s hs => (hb s hs).converges⟩

end

end

/-- All code without loops converges, however deep in the stack it starts: each context leaves room for
one less. -/
theorem Evaluator.unbounded_managesAll (limit depth : Nat) : unbounded.ManagesAll limit depth := by
  induction hroom : limit - depth using Nat.strong_induction_on generalizing depth with
  | _ room ih =>
    have hdeep (h : depth < limit) : unbounded.ManagesAll limit (depth + 1) :=
      ih _ (by omega) (depth + 1) rfl
    exact ⟨fun _ he => he.converges hdeep, fun _ hs => hs.converges hdeep, fun _ hp => hp.binds hdeep⟩

theorem Node.LoopFree.converges {node : Node} (h : node.LoopFree) (limit depth : Nat) :
    Evaluator.unbounded.Converges limit depth node.evaluateBy := by
  have hall := Evaluator.unbounded_managesAll limit depth
  cases node with
  | script body => exact Evaluator.script_converges h fun _ => Evaluator.unbounded_managesAll limit _
  | statement s => exact hall.statement s h
  | expression e => exact .completing (.map (Evaluator.value_converges (hall.expression e h)))

end EcmaEval
