import EcmaEval.Proofs.Heap.Alias
import EcmaEval.Proofs.Host.Integrity

/-!
# Mapped arguments as a host sees them

Whatever a host does to a machine with valid handles and through the checks of its objects, code that
it runs included, a mapped key of an arguments object and its parameter agree, keys come to be mapped
only when the object is made, and a key that is not mapped any more goes its own way.
-/
namespace EcmaEval

/-- A mapped key and its parameter are two names of one value. -/
structure Machine.Coherent (m : Machine) (o : ObjectId) (key : Key) (env : EnvId) (name : String) :
    Prop where
  /-- The parameter is a variable, the key is writable data, and both read as the variable. -/
  agree : ∃ r b v enumerable configurable,
    m.env? env = some (.declarative r) ∧ r.get? name = some b ∧ b.isMutable = true ∧
      b.deletable = false ∧ o.getOwnProperty key m = .ok (some (.data v true enumerable configurable)) ∧
      ∀ current, b.value = some current → v = current ∧ o.get key m = .ok current
  set : ∀ v, ∃ m', o.set key v (.object o) m = .ok true m' ∧ m'.HasValue env name v
  define : ∀ v writable enumerable configurable m',
    o.define key (.data v writable enumerable configurable) m = .ok true m' → m'.HasValue env name v
  assign : ∀ v strict, ∃ m', env.assign name v strict m = .ok () m' ∧ o.get key m' = .ok v

/-- A key and a variable that it stood for once have nothing to do with each other. -/
structure Machine.Separate (m : Machine) (o : ObjectId) (key : Key) (env : EnvId) (name : String) :
    Prop where
  assign : ∀ v strict,
    o.getOwnProperty key ((env.assign name v strict).after m) = o.getOwnProperty key m
  define : ∀ d, ((o.define key d).after m).env? env = m.env? env
  set : ∀ v, ((o.set key v (.object o)).after m).env? env = m.env? env

variable {g : Contract} {m m' : Machine} {o : ObjectId} {obj : Object} {key : Key} {env : EnvId}
  {name : String}

theorem Contract.Sound.coherent (hm : g.Sound m) (hg : g.guarded) (ho : m.object? o = some obj)
    (hkey : obj.parameter? key = some (env, name)) : m.Coherent o key env name := by
  obtain ⟨map, hmap, rfl, hname⟩ := Object.parameter?_some hkey
  obtain ⟨⟨r, b, he, hb, hmutable, hfixed, hvalue⟩, stored, enumerable, configurable, hstored⟩ :=
    hm.aliases hg o obj ho map key name hmap hname
  obtain ⟨current, hcurrent⟩ := Option.isSome_iff_exists.mp hvalue
  have hown := ObjectId.getOwnProperty_eq_mapped ho hkey he hb hcurrent hstored
  refine ⟨⟨r, b, current, enumerable, configurable, he, hb, hmutable, hfixed, hown, ?_⟩, ?_, ?_, ?_⟩
  · intro v hv
    rw [hcurrent] at hv
    cases hv
    exact ⟨rfl, ObjectId.get_eq_mapped ho hkey he hb hcurrent⟩
  · exact ObjectId.set_mapped ho hkey he hb hcurrent hmutable hstored
  · intro v writable enumerable' configurable' m' hdefine
    exact ObjectId.define_mapped ho hkey he hb hcurrent hmutable hstored hdefine
  · exact EnvId.assign_mapped ho hkey he hb hcurrent hmutable

theorem Machine.separate {r : DeclarativeRecord} (ho : m.object? o = some obj)
    (hkey : obj.parameter? key = none) (harray : obj.isArray = false)
    (he : m.env? env = some (.declarative r)) (name : String) : m.Separate o key env name where
  assign v strict := ObjectId.getOwnProperty_assign he name v strict ho hkey
  define d := by rw [env?, ObjectId.define_unmapped ho hkey harray d, env?]
  set v := by rw [env?, ObjectId.set_unmapped ho hkey harray v, env?]

/-- A mapped key that is not mapped any more is separate from its parameter. -/
theorem Contract.Leads.separate (hopen : g.Open) (hg : g.guarded) (hm : g.Sound m) (h : g.Leads m m')
    (ho : m.object? o = some obj) (hkey : obj.parameter? key = some (env, name)) {obj' : Object}
    (ho' : m'.object? o = some obj') (hkey' : obj'.parameter? key = none) :
    m'.Separate o key env name := by
  obtain ⟨map, hmap, rfl, hname⟩ := Object.parameter?_some hkey
  obtain ⟨⟨r, b, he, -⟩, -⟩ := hm.aliases hg o obj ho map key name hmap hname
  obtain ⟨e', he', hevolves⟩ := (h.steps hopen hm).environments hm he
  obtain ⟨r', rfl⟩ := hevolves.declarative r rfl
  obtain ⟨obj₁, ho₁, hkeeps⟩ := h.keeps hopen hg hm ho
  rw [ho'] at ho₁
  cases ho₁
  have harray : obj'.isArray = false := hkeeps.array.trans (Object.isArray_of_parameterMap? hmap)
  exact Machine.separate ho' hkey' harray he' name

/-- **Coherence of mapped arguments.** Where a key of an object is mapped, it and its parameter are two
names of one value. Whatever a host does next, no key comes to be mapped, and one that has ceased to be
is separate from its parameter. -/
theorem reachable_mapped_coherent (h : Contract.checks.Reachable m) (ho : o.Within m.bounds)
    (key : Key) :
    (∀ env name, o.mappedParameter key m = .ok (some (env, name)) → m.Coherent o key env name) ∧
    ∀ m', Contract.checks.Leads m m' →
      (∀ p, o.mappedParameter key m' = .ok (some p) → o.mappedParameter key m = .ok (some p)) ∧
      ∀ env name, o.mappedParameter key m = .ok (some (env, name)) →
        o.mappedParameter key m' = .ok none → m'.Separate o key env name := by
  have hm := h.sound Contract.checks_open
  obtain ⟨obj, hobj⟩ := Machine.exists_object ho
  rw [ObjectId.mappedParameter_eq hobj]
  refine ⟨fun env name hkey => hm.coherent trivial hobj (Except.ok.inj hkey), fun m' hnext => ?_⟩
  obtain ⟨obj', hobj', hkeeps⟩ := hnext.keeps Contract.checks_open trivial hm hobj
  rw [ObjectId.mappedParameter_eq hobj']
  refine ⟨fun p hp => ?_, fun env name hkey hkey' => ?_⟩
  · rw [hkeeps.parameters key p (Except.ok.inj hp)]
  · exact hnext.separate Contract.checks_open trivial hm hobj (Except.ok.inj hkey) hobj'
      (Except.ok.inj hkey')

/-- The argument of a call, before and after it is deleted from the arguments object. -/
theorem reachable_mapped_coherent_deleted :
    let f : FunctionCode := ⟨some "f", .normal, [.identifier "a"], .block [], false, false⟩
    let m₁ := Operation.newRealm.run.after {}
    let m₂ := (Operation.pushScriptContext ⟨0⟩ false).run.after m₁
    let m₃ := (Operation.evaluate 4 (.script [.function f])).run.after m₂
    let m₄ := (Operation.call 4 (.object ⟨14⟩) .undefined [.null]).run.after m₃
    let m₅ := (Operation.delete ⟨16⟩ (.ofIndex 0)).run.after m₄
    m₄.Coherent ⟨16⟩ (.ofIndex 0) ⟨1⟩ "a" ∧ m₅.Separate ⟨16⟩ (.ofIndex 0) ⟨1⟩ "a" := by
  intro f m₁ m₂ m₃ m₄ m₅
  obtain ⟨h₄, ho, -⟩ : Contract.checks.Reachable m₄ ∧ ObjectId.Within m₄.bounds ⟨16⟩ ∧ _ :=
    Contract.reachable_call
  have hnext : Contract.checks.Leads m₄ m₅ :=
    .single (Contract.performs (.delete ⟨16⟩ (.ofIndex 0)) ho)
  have hmapped : ObjectId.mappedParameter ⟨16⟩ (.ofIndex 0) m₄ = .ok (some (⟨1⟩, "a")) :=
    Query.eq_ok (by decide +kernel)
  have hcut : ObjectId.mappedParameter ⟨16⟩ (.ofIndex 0) m₅ = .ok none := Query.eq_ok (by decide +kernel)
  obtain ⟨hcoherent, hlater⟩ := reachable_mapped_coherent h₄ ho (.ofIndex 0)
  obtain ⟨-, hseparate⟩ := hlater m₅ hnext
  exact ⟨hcoherent _ _ hmapped, hseparate _ _ hmapped hcut⟩

end EcmaEval
