import EcmaEval.Proofs.Heap.Environment
import EcmaEval.Proofs.Remit.Data

/-!
# References and conversions

What an expression evaluates to is an *operand*: a value, or a reference to a binding that is there or
to a property of a value. Operands stay operands while a machine makes steps, so a reference may be
read or written after anything that was evaluated in between.
-/
namespace EcmaEval

/-- What an expression may evaluate to. -/
structure Contract.Operand (g : Contract) (m : Machine) (v : Value) : Prop where
  within : v.Within m.bounds
  shallow : g.plain → v.Shallow
  resolves : g.checked → ∀ env name strict, v = .reference (.binding env name strict) →
    m.Resolves env name

variable {g : Contract} {A : Grant} {m m' : Machine} {env : EnvId} {name : String} {value v : Value}
  {strict : Bool}

theorem Contract.Stored.shallow {b : Bounds} (h : g.Stored b v) : g.plain → v.Shallow := by
  intro hplain
  have hv := h.2 hplain
  cases v with
  | reference r => simp [Value.isReference] at hv
  | _ => trivial

theorem Contract.Stored.operand (h : g.Stored m.bounds v) : g.Operand m v where
  within := h.1
  shallow := h.shallow
  resolves hc env name strict hv := by
    have hplain := h.2 (g.plain_of_checked hc)
    simp [hv, Value.isReference] at hplain

theorem Contract.Steps.operand (h : g.Steps A m m') (hm : g.Sound m) (hv : g.Operand m v) :
    g.Operand m' v where
  within := hv.within.mono (h.bounds hm)
  shallow := hv.shallow
  resolves hc env name strict heq := h.resolves hm hc (hv.resolves hc env name strict heq)

/-- The parts of a property reference may be stored. -/
theorem Contract.Operand.property {base name : Value} {thisValue : Option Value}
    (h : g.Operand m (.reference (.property base name thisValue strict))) :
    g.Stored m.bounds base ∧ g.Stored m.bounds name ∧
      ∀ t, thisValue = some t → g.Stored m.bounds t := by
  have hwithin := h.within
  have hbase (hplain : g.plain) := (h.shallow hplain).1
  have hname (hplain : g.plain) := (h.shallow hplain).2.1
  cases thisValue with
  | none => exact ⟨⟨hwithin.1, hbase⟩, ⟨hwithin.2, hname⟩, by simp⟩
  | some t =>
    refine ⟨⟨hwithin.1, hbase⟩, ⟨hwithin.2.1, hname⟩, fun t' ht' => ?_⟩
    cases ht'
    exact ⟨hwithin.2.2, fun hplain => (h.shallow hplain).2.2 t rfl⟩

/-- A value that checked code stores is no reference. -/
theorem Contract.Stored.not_checked {r : Reference} {b : Bounds} (h : g.Stored b (.reference r)) :
    ¬ g.checked := fun hc => by simpa [Value.isReference] using h.2 (g.plain_of_checked hc)

namespace Value

theorem toPrimitive_asks (hv : g.Stored m.bounds v) : g.Asks m v.toPrimitive (g.Stored m.bounds) := by
  cases v with
  | object o => exact .unsupported _
  | reference r => exact .breach _ hv.not_checked
  | _ => exact .pure hv

theorem toNumber_runs (hv : g.Stored m.bounds v) : g.Runs A m v.toNumber fun m' _ => m' = m :=
  fun _ => toNumber_yields (g.steps_motion A) hv

theorem toNumeric_runs (hv : g.Stored m.bounds v) : g.Runs A m v.toNumeric fun m' _ => m' = m := by
  cases v with
  | bigint n => exact .pure rfl
  | _ => exact .bind (toNumber_runs hv) fun _ _ _ _ _ hm' => .pure hm'

theorem toText_runs (hv : g.Stored m.bounds v) : g.Runs A m v.toText fun m' _ => m' = m := by
  cases v with
  | symbol s => exact .complain _
  | object o => exact .unsupported _
  | reference r => exact .breach _ hv.not_checked
  | _ => exact .pure rfl

theorem toObject_runs (hv : v.Within m.bounds) :
    g.Runs A m v.toObject fun m' o => m' = m ∧ o.Within m.bounds := by
  cases v with
  | object o => exact .pure ⟨rfl, hv⟩
  | undefined => exact .complain _
  | null => exact .complain _
  | _ => exact .unsupported _

theorem toKey_runs (hv : g.Stored m.bounds v) : g.Runs A m v.toKey fun m' _ => m' = m := by
  cases v with
  | symbol s => exact .pure rfl
  | _ => exact .bind (toText_runs hv) fun _ _ _ _ _ hm' => .pure hm'

theorem isCallable_asks (hv : v.Within m.bounds) : g.Asks m v.isCallable fun _ => True := by
  cases v with
  | object o => exact .bind (ObjectId.load_asks hv) fun _ _ _ => .pure trivial
  | _ => exact .pure trivial

theorem isConstructor_asks (hv : v.Within m.bounds) : g.Asks m v.isConstructor fun _ => True := by
  cases v with
  | object o => exact .bind (ObjectId.load_asks hv) fun _ _ _ => .pure trivial
  | _ => exact .pure trivial

theorem typeOf_asks (hv : g.Stored m.bounds v) : g.Asks m v.typeOf fun _ => True := by
  cases v with
  | object o => exact .bind (ObjectId.load_asks hv.1) fun _ _ _ => .pure trivial
  | reference r => exact .breach _ hv.not_checked
  | _ => exact .pure trivial

/-- Loose equality fails only where objects would have to convert. -/
theorem looselyEqual_fault {x y : Value} {f : Fault} (h : x.looselyEqual y = .error f) :
    ∃ feature, f = .notImplemented feature := by
  unfold looselyEqual at h
  split at h
  · cases h
  · unfold looselyEqualNonBoolean at h
    split at h <;> cases h <;> exact ⟨_, rfl⟩

theorem order?_runs {x y : Value} (hx : g.Stored m.bounds x) (hy : g.Stored m.bounds y) :
    g.Runs A m (x.order? y) fun m' _ => m' = m := by
  unfold order?
  split
  · exact .unsupported _
  · exact .unsupported _
  · exact .unsupported _
  · refine .bind (toNumber_runs hx) fun _ _ _ _ _ hm' => ?_
    subst hm'
    refine .bind (toNumber_runs hy) fun _ _ _ _ _ hm' => ?_
    subst hm'
    exact .pure rfl

theorem less?_runs {x y : Value} (leftFirst : Bool) (hx : g.Stored m.bounds x)
    (hy : g.Stored m.bounds y) : g.Runs A m (x.less? y leftFirst) fun m' _ => m' = m := by
  unfold less?
  cases leftFirst with
  | true =>
    refine .query (toPrimitive_asks hx) fun p _ hp => ?_
    exact .query (toPrimitive_asks hy) fun q _ hq => order?_runs hp hq
  | false =>
    refine .query (toPrimitive_asks hy) fun q _ hq => ?_
    exact .query (toPrimitive_asks hx) fun p _ hp => order?_runs hp hq

end Value

theorem identifierReference_asks {env : Option EnvId} (henv : ∀ e, env = some e → e.Within m.bounds) :
    g.Asks m (identifierReference env name strict) fun r => g.Operand m (.reference r) := by
  have hunresolvable : g.Operand m (.reference (.unresolvable name strict)) :=
    ⟨trivial, fun _ => trivial, fun _ _ _ _ h => by cases h⟩
  cases env with
  | none =>
    refine .bind (Q := (· = none)) (fun _ => rfl) fun found _ hfound => ?_
    subst hfound
    exact .pure hunresolvable
  | some env =>
    refine .bind (searchScopeChain_asks (henv env rfl) fun e he => EnvId.hasBinding_resolves he)
      fun found _ ⟨hsome, _⟩ => ?_
    cases found with
    | none => exact .pure hunresolvable
    | some e =>
      obtain ⟨hwithin, hresolves⟩ := hsome e rfl
      refine .pure ⟨hwithin, fun _ => trivial, fun _ _ _ _ h => ?_⟩
      cases h
      exact hresolves

theorem resolveBinding_asks {env : Option EnvId} (henv : ∀ e, env = some e → e.Within m.bounds) :
    g.Asks m (resolveBinding name env) (g.Operand m) := by
  have hresolve (start : EnvId) (hstart : start.Within m.bounds) : g.Asks m (do
      let strict ← isStrict
      return .reference (← identifierReference (some start) name strict)) (g.Operand m) := by
    refine .bind isStrict_asks fun strict _ _ => ?_
    have hreference : g.Asks m (identifierReference (some start) name strict) _ :=
      identifierReference_asks fun e he => by cases he; exact hstart
    exact .bind hreference fun _ _ hr => .pure hr
  cases env with
  | some env => exact hresolve env (henv env rfl)
  | none => exact .bind lexicalEnv_asks fun env _ hwithin => hresolve env hwithin

/-- A name bound in the running scope itself resolves to it. -/
theorem resolveBinding_here {c : Context} {cs : List Context} (hcontexts : m.contexts = c :: cs)
    (hbound : c.lexicalEnv.hasBinding name m = .ok true) :
    resolveBinding name none m = .ok (.reference (.binding c.lexicalEnv name c.strict)) := by
  have hrunning : runningContext m = .ok c := by simp [runningContext, hcontexts]
  have hlexical : lexicalEnv m = .ok c.lexicalEnv := Query.bind_ok hrunning
  have hstrict : isStrict m = .ok c.strict := Query.bind_ok hrunning
  have hreference : identifierReference (some c.lexicalEnv) name c.strict m =
      .ok (.binding c.lexicalEnv name c.strict) :=
    Query.bind_ok (searchScopeChain_here hbound)
  unfold resolveBinding
  dsimp only
  rw [Query.bind_ok hlexical, Query.bind_ok hstrict, Query.bind_ok hreference]
  rfl

/-- In checked code every scope chain has a `this`. -/
theorem thisEnvironment_asks : g.Asks m thisEnvironment fun env => env.Within m.bounds ∧ m.HasThis env := by
  refine .of_sound fun hm => .bind lexicalEnv_asks fun env _ henv => ?_
  have hsearch : g.Asks m (searchScopeChain (some env) (·.hasThis)) _ :=
    searchScopeChain_asks henv fun e he => (EnvId.hasThis_asks he).imp fun b hb hthis =>
      And.intro he (hb.1 hthis)
  refine .bind hsearch fun found _ ⟨hsome, hnone⟩ => ?_
  cases found with
  | some e => exact .pure (hsome e rfl)
  | none =>
    refine .breach _ fun hc => ?_
    obtain ⟨root, r, hr, hprobe⟩ := hnone rfl hc
    have hasks : g.Asks m root.hasThis _ := EnvId.hasThis_asks (Machine.within_of_env? hr)
    have hthis := hasks hm
    rw [hprobe] at hthis
    simpa using hthis.2 ⟨r, hr⟩

theorem resolveThis_runs : g.Runs A m resolveThis fun m' v => g.Stored m'.bounds v :=
  .query thisEnvironment_asks fun _ _ ⟨henv, hthis⟩ =>
    (EnvId.getThis_runs henv fun _ => hthis).imp fun _ _ _ _ ⟨hm', hv⟩ => hm' ▸ hv

namespace Value

theorem getValue_runs (hv : g.Operand m v) :
    g.Runs A m v.getValue fun m' w => g.Stored m'.bounds w := by
  cases v with
  | reference r =>
    cases r with
    | unresolvable name strict => exact .complain _
    | binding env name strict =>
      exact EnvId.read_runs hv.within fun hc => hv.resolves hc env name strict rfl
    | property base name thisValue strict =>
      obtain ⟨hbase, hname, -⟩ := hv.property
      refine .bind (toObject_runs hbase.1) fun o _ _ _ _ ⟨hm', ho⟩ => ?_
      subst hm'
      refine .bind (toKey_runs hname) fun key _ _ _ _ hm' => ?_
      subst hm'
      exact .ask (ObjectId.get_asks ho) fun _ _ hw => hw
  | _ => exact .pure ⟨hv.within, fun _ => rfl⟩

theorem putValue_runs {target : Value} (ht : g.Operand m target) (hv : g.Stored m.bounds value) :
    g.Runs A m (target.putValue value) fun _ _ => True := by
  cases target with
  | reference r =>
    cases r with
    | unresolvable name strict =>
      refine .of_sound fun hm => ?_
      unfold putValue
      dsimp only
      split
      · exact .complain _
      refine .query currentRealm_asks fun realm _ hrealm => ?_
      refine .query (RealmId.load_asks hrealm) fun r _ hr => ?_
      have hglobal := (hm.realms _ _ hr).globalObject
      exact .discard (ObjectId.set_runs hglobal hv hglobal)
    | binding env name strict =>
      exact EnvId.assign_runs ht.within hv fun hc => ht.resolves hc env name strict rfl
    | property base name thisValue strict =>
      obtain ⟨hbase, hname, hthis⟩ := ht.property
      have hreceiver : (thisValue.getD base).Within m.bounds := by
        cases thisValue with
        | none => exact hbase.1
        | some t => exact (hthis t rfl).1
      refine .bind (toObject_runs hbase.1) fun o _ _ _ _ ⟨hm', ho⟩ => ?_
      subst hm'
      refine .bind (toKey_runs hname) fun key _ _ _ _ hm' => ?_
      subst hm'
      refine .bind (ObjectId.set_runs ho hv hreceiver) fun succeeded _ _ _ _ _ => ?_
      split
      · exact .complain _
      · exact .pure trivial
  | _ => exact .complain _

/-- In checked code only a binding that waits for its value is initialized. -/
theorem initReferenced_runs {target : Value} (ht : target.Within m.bounds)
    (hv : g.Stored m.bounds value)
    (hchecked : g.checked → ∃ env name strict, target = .reference (.binding env name strict) ∧
      A.declare env name ∧ m.Waiting env name) :
    g.Runs A m (target.initReferenced value) fun _ _ => True := by
  cases target with
  | reference r =>
    cases r with
    | binding env name strict =>
      refine EnvId.initBinding_runs ht hv (fun hc => ?_) fun hc => ?_
      · obtain ⟨_, _, _, heq, hdeclare, -⟩ := hchecked hc
        cases heq
        exact hdeclare
      · obtain ⟨_, _, _, heq, -, hwaiting⟩ := hchecked hc
        cases heq
        exact hwaiting
    | _ =>
      refine .breach _ fun hc => ?_
      obtain ⟨_, _, _, heq, -⟩ := hchecked hc
      cases heq
  | _ =>
    refine .breach _ fun hc => ?_
    obtain ⟨_, _, _, heq, -⟩ := hchecked hc
    cases heq

end Value

end EcmaEval
