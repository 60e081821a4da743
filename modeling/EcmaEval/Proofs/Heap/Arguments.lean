import EcmaEval.Proofs.Heap.Create

/-!
# The arguments object of a call

An arguments object lists its elements by their indices, then its length and then, if it is mapped, the
function that was called. Of parameters with one name the last alone stands behind an index, and only if it
has an argument.
-/
namespace EcmaEval

variable {m : Machine}

/-- The keys are made in enumeration order. -/
theorem enumerate_argumentKeys {count : Nat} (hcount : count ≤ maxArrayLength) (isMapped : Bool) :
    Key.enumerate (argumentKeys count isMapped) = argumentKeys count isMapped := by
  have hgroups : Key.Enumerated ((List.range count).map fun i => (i, Key.ofIndex i))
      (.length :: if isMapped then [.name "callee"] else []) [] := by
    refine ⟨fun e he => ?_, ?_, fun k hk => ?_, nofun⟩
    · obtain ⟨i, hi, rfl⟩ := List.mem_map.mp he
      exact Key.arrayIndex?_ofIndex (Nat.lt_of_lt_of_le (List.mem_range.mp hi) hcount)
    · exact List.Pairwise.map _ (fun _ _ => Nat.le_of_lt) List.pairwise_lt_range
    · have hall : (Key.length :: if isMapped then [.name "callee"] else []).all
          (fun k => k.isString && k.arrayIndex?.isNone) = true := by
        cases isMapped <;> decide
      simpa using List.all_eq_true.mp hall k hk
  have hordered := hgroups.enumerate_eq
  rw [List.map_map, List.append_nil] at hordered
  exact hordered

/-- **The arguments object of a call.** In a realm, a call gets a new object for its arguments, and nothing
else changes. It lists its indices in order, then its length and then, if a mapping is asked for, the function
that was called, each of them with its value and its flags. If a mapping is asked for, an index stands for the
parameter at its position if there is an argument for it and if the name of the parameter does not come again
after it, and no two indices stand for one parameter. -/
theorem newArguments_lists_and_maps (f : ObjectId) (arguments : List Value)
    (mapping : Option (List String × EnvId)) (hcount : arguments.length ≤ maxArrayLength) :
    (∀ e, intrinsics m = .error e → newArguments f arguments mapping m = .error e m) ∧
    ∀ intr, intrinsics m = .ok intr → ∃ obj : Object,
      newArguments f arguments mapping m = .ok ⟨m.objects.size⟩ (m.pushObject obj) ∧
      obj.prototype = some intr.objectPrototype ∧ obj.extensible = true ∧
      obj.properties.orderedKeys = (List.range arguments.length).map Key.ofIndex ++
        .length :: (if mapping.isSome then [.name "callee"] else []) ∧
      (∀ i v, arguments[i]? = some v → obj.properties.get? (.ofIndex i) = some (.data v true true true)) ∧
      obj.properties.get? .length = some (.data (.number (.ofNat arguments.length)) true false true) ∧
      (mapping.isSome = true →
        obj.properties.get? (.name "callee") = some (.data (.object f) true false true)) ∧
      match mapping with
      | none => obj.kind = .arguments none
      | some (names, env) => ∃ map : ParameterMap, obj.kind = .arguments (some map) ∧ map.env = env ∧
        (∀ key name, map.get? key = some name ↔
          ∃ i, (Key.ofIndex i == key) = true ∧ i < arguments.length ∧ StandsLast names i name) ∧
        map.Distinct := by
  refine ⟨fun e he => ?_, fun intr hm => ?_⟩
  · exact bind_error (bind_error (lift_error he))
  · let obj := argumentsObject intr.objectPrototype f arguments mapping
    have hkeys : obj.properties.keys = argumentKeys arguments.length mapping.isSome :=
      argumentEntries_keys f arguments mapping.isSome
    have hdistinct : obj.properties.Distinct := argumentEntries_distinct f arguments mapping.isSome
    refine ⟨obj, newArguments_eq hm f arguments mapping, rfl, rfl, ?_, fun i v hv => ?_, ?_, fun hsome => ?_, ?_⟩
    · rw [PropertyTable.orderedKeys_eq, hkeys]
      exact enumerate_argumentKeys hcount mapping.isSome
    · have hmem := elementEntries_mem hv 0
      rw [Nat.zero_add] at hmem
      exact hdistinct.get?_of_mem (List.mem_append_left _ hmem) BEq.rfl
    · exact hdistinct.get?_of_mem (List.mem_append_right _ List.mem_cons_self) BEq.rfl
    · have hcallee : (Key.name "callee", Descriptor.hidden (.object f)) ∈ obj.properties.entries := by
        simp [obj, argumentsObject, argumentEntries, hsome]
      exact hdistinct.get?_of_mem hcallee BEq.rfl
    · obtain _ | ⟨names, env⟩ := mapping
      · rfl
      · exact ⟨_, rfl, rfl, fun key name => mappedNames_get?_iff, mappedNames_distinct env _ names⟩

/-- A parameter that comes again takes the place of the first one also if there is no argument for it. -/
theorem newArguments_lists_and_maps_repeated :
    let m₁ := Operation.newRealm.run.after {}
    let m₂ := (Operation.pushScriptContext ⟨0⟩ false).run.after m₁
    [Value.null, .boolean true].length ≤ maxArrayLength ∧ ∃ (obj : Object) (map : ParameterMap),
      newArguments ⟨0⟩ [.null, .boolean true] (some (["a", "b", "a"], ⟨0⟩)) m₂ =
        .ok ⟨m₂.objects.size⟩ (m₂.pushObject obj) ∧
      obj.properties.orderedKeys = [.ofIndex 0, .ofIndex 1, .length, .name "callee"] ∧
      obj.kind = .arguments (some map) ∧ map.get? (.ofIndex 0) = none ∧
      map.get? (.ofIndex 1) = some "b" := by
  intro m₁ m₂
  have hcount : [Value.null, .boolean true].length ≤ maxArrayLength := by decide
  have hrealm : (match intrinsics m₂ with
      | .ok _ => true
      | .error _ => false) = true := by decide +kernel
  cases hm : intrinsics m₂ with
  | error e =>
    rw [hm] at hrealm
    cases hrealm
  | ok intr =>
    obtain ⟨obj, hrun, -, -, hkeys, -, -, -, map, hkind, -, hmap, -⟩ :=
      (newArguments_lists_and_maps ⟨0⟩ [.null, .boolean true] (some (["a", "b", "a"], ⟨0⟩)) hcount).2 intr hm
    refine ⟨hcount, obj, map, hrun, hkeys, hkind, ?_, (hmap _ _).mpr ⟨1, BEq.rfl, by decide, rfl, ?_⟩⟩
    · rw [Option.eq_none_iff_forall_ne_some]
      intro name hname
      obtain ⟨i, hkey, -, hfirst, hlast⟩ := (hmap _ _).mp hname
      obtain rfl := Key.ofIndex_inj hkey
      exact hlast 2 (by decide) hfirst
    · intro j hj
      obtain _ | _ | _ | j := j
      · cases hj
      · exact absurd hj (Nat.lt_irrefl 1)
      · decide
      · exact nofun

end EcmaEval
