import EcmaEval.Proofs.Halt.Evaluate

/-!
# Termination under the stack limit

Whatever the stack limit, code without `while`, `do`-`while` and `for` loops comes to an end on every
machine whose functions have no such loops either. Calls may recurse, through any functions, and for-in
loops may run over objects that their bodies change.
-/
namespace EcmaEval

theorem Object.kind_of_closure? {obj : Object} {slots : FunctionSlots} (h : obj.closure? = some slots) :
    ∃ slots', obj.kind = .function slots' ∧ slots'.code = slots.code := by
  unfold closure? at h
  split at h
  · rename_i slots' hkind
    cases h
    exact ⟨slots', hkind, rfl⟩
  · cases h

/-- **Termination under the stack limit.** On a machine that a host has built with valid handles, and
whose functions have code without loops, a node without loops has an outcome: from some level on every
evaluation gives it, a completion or a fault, and none of them runs out of levels, be it in a call, in a
walk along a chain or in an enumeration. -/
theorem evaluate_halts {m : Machine} {node : Node} (hm : Contract.handles.Reachable m)
    (hcode : ∀ o obj slots, m.object? o = some obj → obj.kind = .function slots → slots.code.LoopFree)
    (hnode : node.LoopFree) :
    ∃ n, ((∃ c m', evaluate n node m = .ok c m') ∨ ∃ f m', evaluate n node m = .error (.fault f) m') ∧
      ∀ k ≥ n, evaluate k node m = evaluate n node m := by
  have hsound : Contract.walks.Sound m :=
    (hm.sound Contract.handles_open).weaken (Contract.walks_weaker _)
  have htame : m.Tame m.stackLimit m.contexts.length := by
    refine ⟨fun o slots ho => ?_, rfl, rfl⟩
    obtain ⟨obj, hobj, hclosure⟩ := Option.bind_eq_some_iff.mp ho
    obtain ⟨slots', hkind, hsame⟩ := Object.kind_of_closure? hclosure
    exact hsame ▸ hcode o obj slots' hobj hkind
  have hruns : Contract.walks.Runs m.grant m (node.evaluateBy .unbounded) _ :=
    Node.evaluateBy_runs Evaluator.unbounded_keeps False.elim False.elim
  have hends := hruns.ends hsound
  obtain ⟨n, hn⟩ := Filter.eventually_atTop.mp ((hnode.converges _ _ m htame).1 hends)
  have hlimit (k : Nat) (hk : n ≤ k) : evaluate k node m = node.evaluateBy .unbounded m := by
    rw [evaluate_eq]
    exact hn k hk
  refine ⟨n, ?_, fun k hk => (hlimit k hk).trans (hlimit n le_rfl).symm⟩
  cases hrun : evaluate n node m with
  | ok c m' => exact .inl ⟨c, m', rfl⟩
  | error e m' =>
    cases e with
    | thrown v => exact absurd hrun (evaluate_neverThrows n node m v m')
    | fault f => exact .inr ⟨f, m', rfl⟩
    | exhausted => exact absurd ((hlimit n le_rfl).symm.trans hrun) (hends m')

/-- The function has no parameters and returns the call of a name without arguments. -/
def FunctionCode.returnsCall : FunctionCode → Bool
  | ⟨_, _, [], .block [.returns (some (.call (.identifier _) []))], _, _⟩ => true
  | _ => false

theorem FunctionCode.loopFree_of_returnsCall {code : FunctionCode} (h : code.returnsCall = true) :
    code.LoopFree := by
  unfold returnsCall at h
  split at h
  · refine .block (fun _ hp => absurd hp List.not_mem_nil) fun s hs => ?_
    obtain rfl := List.mem_singleton.mp hs
    refine .returns fun e he => ?_
    cases he
    exact .call (.identifier _) fun _ hargument => absurd hargument List.not_mem_nil
  · cases h

/-- A for-in loop over the global object that calls a function which calls itself, with room for four
contexts. -/
theorem evaluate_halts_recursion :
    let call : Expression := .call (.identifier "f") []
    let code : FunctionCode := ⟨some "f", .normal, [], .block [.returns (some call)], false, false⟩
    let m₁ := Operation.newRealm.run.after { stackLimit := 4 }
    let m₂ := (Operation.pushScriptContext ⟨0⟩ false).run.after m₁
    let m := (Operation.evaluate 6 (.script [.function code])).run.after m₂
    let node := Node.statement (.forIn (.pattern (.identifier "key")) .thisValue (.expression call))
    Contract.handles.Reachable m ∧
      (∃ o obj slots, m.object? o = some obj ∧ obj.kind = .function slots) ∧
      (∀ o obj slots, m.object? o = some obj → obj.kind = .function slots → slots.code.LoopFree) ∧
      node.LoopFree ∧
      ∃ n, ((∃ c m', evaluate n node m = .ok c m') ∨ ∃ f m', evaluate n node m = .error (.fault f) m') ∧
        ∀ k ≥ n, evaluate k node m = evaluate n node m := by
  intro call code m₁ m₂ m node
  have hrealm : RealmId.Within m₁.bounds ⟨0⟩ := by decide +kernel
  have hreach : Contract.handles.Reachable m :=
    ⟨4, .tail (.tail (.single (Contract.performs .newRealm trivial))
      (Contract.performs (.pushScriptContext ⟨0⟩ false) hrealm))
      (Contract.performs (.evaluate 6 _) trivial)⟩
  have hcall : call.LoopFree := .call (.identifier _) fun _ hargument => absurd hargument List.not_mem_nil
  have hall : m.objects.all (fun obj => obj.code?.all FunctionCode.returnsCall) = true := by decide +kernel
  have hany : m.objects.any (fun obj => obj.code?.isSome) = true := by decide +kernel
  have hcode (o : ObjectId) (obj : Object) (slots : FunctionSlots) (ho : m.object? o = some obj)
      (hkind : obj.kind = .function slots) : slots.code.LoopFree := by
    have hobj := Array.all_eq_true'.mp hall obj (Array.mem_of_getElem? ho)
    rw [Object.code?, hkind] at hobj
    exact FunctionCode.loopFree_of_returnsCall hobj
  have hfunction : ∃ o obj slots, m.object? o = some obj ∧ obj.kind = .function slots := by
    obtain ⟨obj, hmem, hobj⟩ := Array.any_eq_true'.mp hany
    obtain ⟨i, hi⟩ := Array.getElem?_of_mem hmem
    cases hkind : obj.kind with
    | function slots => exact ⟨⟨i⟩, obj, slots, hi, hkind⟩
    | _ => simp [Object.code?, ObjectKind.code?, hkind] at hobj
  have hnode : node.LoopFree := .forIn (.pattern (.identifier _)) .thisValue (.expression hcall)
  exact ⟨hreach, hfunction, hcode, hnode, evaluate_halts hreach hcode hnode⟩

end EcmaEval
