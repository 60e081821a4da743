import EcmaEval.Proofs.Host.Operation

/-!
# Integrity of objects

What no run takes back: an object that is not extensible keeps its prototype and gets no new keys, a
property that is not configurable keeps its kind and flags and, once it is read-only, its value, and
an arguments object is never tied to more parameters than it was made with. Each kind of change of one
object is looked at once; all the rest is composition.
-/
namespace EcmaEval

/-- What may become of a property that is not configurable: it stays so and keeps its kind and whether
it is enumerable, a read-only value and accessors stay the same, and what is read-only remains so. -/
def Descriptor.Stays : Descriptor → Descriptor → Prop
  | .data value writable enumerable _, .data value' writable' enumerable' configurable' =>
    configurable' = false ∧ enumerable' = enumerable ∧
      (writable = false → writable' = false ∧ value.same value' = true)
  | .accessor get set enumerable _, .accessor get' set' enumerable' configurable' =>
    configurable' = false ∧ enumerable' = enumerable ∧ get.same get' = true ∧ set.same set' = true
  | _, _ => False

namespace Descriptor

variable {d d' d'' : Descriptor}

theorem Stays.refl (hplain : d.All fun v => v.isReference = false) (hd : d.configurable = false) :
    d.Stays d := by
  cases d with
  | data value writable enumerable configurable =>
    exact ⟨hd, rfl, fun hw => ⟨hw, Value.same_refl hplain⟩⟩
  | accessor get set enumerable configurable =>
    exact ⟨hd, rfl, Value.same_refl hplain.1, Value.same_refl hplain.2⟩

theorem Stays.configurable (h : d.Stays d') : d'.configurable = false := by
  cases d <;> cases d' <;> first | exact h.1 | exact h.elim

theorem Stays.trans (h₁ : d.Stays d') (h₂ : d'.Stays d'') : d.Stays d'' := by
  cases d with
  | data value writable enumerable configurable =>
    cases d' with
    | accessor => exact h₁.elim
    | data value' writable' enumerable' configurable' =>
      cases d'' with
      | accessor => exact h₂.elim
      | data value'' writable'' enumerable'' configurable'' =>
        obtain ⟨-, he₁, hw₁⟩ := h₁
        obtain ⟨hc, he₂, hw₂⟩ := h₂
        refine ⟨hc, he₂.trans he₁, fun hw => ?_⟩
        obtain ⟨hw', hsame⟩ := hw₁ hw
        obtain ⟨hw'', hsame'⟩ := hw₂ hw'
        exact ⟨hw'', Value.same_trans hsame hsame'⟩
  | accessor get set enumerable configurable =>
    cases d' with
    | data => exact h₁.elim
    | accessor get' set' enumerable' configurable' =>
      cases d'' with
      | data => exact h₂.elim
      | accessor get'' set'' enumerable'' configurable'' =>
        obtain ⟨-, he₁, hget₁, hset₁⟩ := h₁
        obtain ⟨hc, he₂, hget₂, hset₂⟩ := h₂
        exact ⟨hc, he₂.trans he₁, Value.same_trans hget₁ hget₂, Value.same_trans hset₁ hset₂⟩

/-- The check of a definition lets a property that is not configurable become only what it may. -/
theorem stays_of_mayBecome {extensible : Bool} (h : mayBecome (some d) extensible d' = true)
    (hd : d.configurable = false) : d.Stays d' := by
  cases d with
  | data value writable enumerable configurable =>
    cases d' with
    | accessor => simp_all [mayBecome, Descriptor.configurable]
    | data value' writable' enumerable' configurable' =>
      simp_all only [mayBecome, Descriptor.configurable, Descriptor.enumerable, Bool.false_or,
        Bool.and_eq_true, Bool.not_eq_true', beq_iff_eq, Bool.or_eq_true]
      obtain ⟨⟨rfl, rfl⟩, hvalue⟩ := h
      exact ⟨rfl, rfl, fun hw => by simpa [hw] using hvalue⟩
  | accessor get set enumerable configurable =>
    cases d' with
    | data => simp_all [mayBecome, Descriptor.configurable]
    | accessor get' set' enumerable' configurable' =>
      simp_all only [mayBecome, Descriptor.configurable, Descriptor.enumerable, Bool.false_or,
        Bool.and_eq_true, Bool.not_eq_true', beq_iff_eq]
      obtain ⟨⟨rfl, rfl⟩, hget, hset⟩ := h
      exact ⟨rfl, rfl, hget, hset⟩

/-- The check does not look at the value of a writable property. -/
theorem mayBecome_writable (value value' : Value) (enumerable configurable extensible : Bool)
    (d : Descriptor) :
    mayBecome (some (.data value true enumerable configurable)) extensible d =
      mayBecome (some (.data value' true enumerable configurable)) extensible d := by
  cases d <;> rfl

end Descriptor

namespace Contract

variable {g : Contract} {b : Bounds} {A : Grant} {m m' : Machine} {o : ObjectId}
  {obj obj' obj'' : Object} {key : Key} {d : Descriptor}

variable (g) in
/-- What no checked change of an object takes back. -/
structure Keeps (obj obj' : Object) : Prop where
  array : obj'.isArray = obj.isArray
  /-- No key comes to stand for a parameter. -/
  parameters : ∀ key p, obj'.parameter? key = some p → obj.parameter? key = some p
  closed : obj.extensible = false → obj'.extensible = false ∧ obj'.prototype = obj.prototype ∧
    ∀ key, obj.properties.get? key = none → obj'.properties.get? key = none
  fixed : g.plain → ∀ key d, obj.properties.get? key = some d → d.configurable = false →
    ∃ d', obj'.properties.get? key = some d' ∧ d.Stays d'

namespace Keeps

/-- A change that leaves the properties alone. -/
theorem of_properties (hok : g.ObjectOk b obj) (harray : obj'.isArray = obj.isArray)
    (hproperties : obj'.properties = obj.properties)
    (hparameters : ∀ key p, obj'.parameter? key = some p → obj.parameter? key = some p)
    (hclosed : obj.extensible = false → obj'.extensible = false ∧ obj'.prototype = obj.prototype) :
    g.Keeps obj obj' where
  array := harray
  parameters := hparameters
  closed he := ⟨(hclosed he).1, (hclosed he).2, fun key hkey => by rw [hproperties, hkey]⟩
  fixed hp key d hd hc :=
    ⟨d, by rw [hproperties, hd], .refl ((hok.get? hd).imp fun _ hv => hv.2 hp) hc⟩

theorem refl (hok : g.ObjectOk b obj) : g.Keeps obj obj :=
  .of_properties hok rfl rfl (fun _ _ h => h) fun h => ⟨h, rfl⟩

theorem trans (h₁ : g.Keeps obj obj') (h₂ : g.Keeps obj' obj'') : g.Keeps obj obj'' where
  array := h₂.array.trans h₁.array
  parameters key p hp := h₁.parameters key p (h₂.parameters key p hp)
  closed he :=
    have ⟨he', hp', hk'⟩ := h₁.closed he
    have ⟨he'', hp'', hk''⟩ := h₂.closed he'
    ⟨he'', hp''.trans hp', fun key hkey => hk'' key (hk' key hkey)⟩
  fixed hp key d hd hc :=
    have ⟨d', hd', hs'⟩ := h₁.fixed hp key d hd hc
    have ⟨d'', hd'', hs''⟩ := h₂.fixed hp key d' hd' hs'.configurable
    ⟨d'', hd'', hs'.trans hs''⟩

theorem insert (hok : g.ObjectOk b obj)
    (hmay : Descriptor.mayBecome (obj.properties.get? key) obj.extensible d = true) :
    g.Keeps obj (obj.insert key d) where
  array := rfl
  parameters _ _ hp := hp
  closed he := by
    refine ⟨he, rfl, fun k hk => ?_⟩
    rw [Object.insert_get?]
    by_cases hkey : key == k
    · rw [PropertyTable.get?_congr _ hkey, hk, Descriptor.mayBecome, he] at hmay
      cases hmay
    · rw [if_neg hkey, hk]
  fixed hp k d₀ hd₀ hc := by
    rw [Object.insert_get?]
    by_cases hkey : key == k
    · rw [PropertyTable.get?_congr _ hkey, hd₀] at hmay
      exact ⟨d, if_pos hkey, Descriptor.stays_of_mayBecome hmay hc⟩
    · rw [if_neg hkey]
      exact (refl hok).fixed hp k d₀ hd₀ hc

theorem unmap (hok : g.ObjectOk b obj) (key : Key) : g.Keeps obj (obj.unmap key) := by
  refine .of_properties hok (by simp) (by simp) (fun k p hp => ?_) fun h => by simpa using h
  obtain ⟨env, name⟩ := p
  obtain ⟨map', hmap', rfl, hget⟩ := Object.parameter?_some hp
  rw [Object.unmap_parameterMap?] at hmap'
  obtain ⟨map, hmap, rfl⟩ := Option.map_eq_some_iff.mp hmap'
  rw [ParameterMap.get?_erase] at hget
  split at hget
  · cases hget
  · exact Object.parameter?_eq hmap hget

theorem erase (hok : g.ObjectOk b obj)
    (hconfigurable : ∀ d, obj.properties.get? key = some d → d.configurable = true) :
    g.Keeps obj (obj.erase key) where
  array := by simp
  parameters k p hp := by
    have hcut : (obj.erase key).parameter? k = (obj.unmap key).parameter? k := by
      simp only [Object.parameter?, Object.erase_parameterMap?, Object.unmap_parameterMap?]
    exact (unmap hok key).parameters k p (hcut ▸ hp)
  closed he := by
    refine ⟨by simpa using he, by simp, fun k hk => ?_⟩
    rw [Object.erase_get?]
    split
    · rfl
    · exact hk
  fixed hp k d hd hc := by
    have hkey : ¬(key == k) = true := by
      intro hkey
      rw [← PropertyTable.get?_congr _ hkey] at hd
      simp [hconfigurable d hd] at hc
    rw [Object.erase_get?, if_neg hkey]
    exact (refl hok).fixed hp k d hd hc

end Keeps

/-- An object keeps what it has when another one changes, and when it changes itself as it may. -/
theorem keeps_updateObject (hm : g.Sound m) (ho : m.object? o = some obj) {o' : ObjectId}
    {f : Object → Object} (hf : o = o' → g.Keeps obj (f obj)) :
    ∃ obj', (m.updateObject o' f).object? o = some obj' ∧ g.Keeps obj obj' := by
  rw [Machine.object?_updateObject]
  split
  · exact ⟨f obj, by rw [ho]; rfl, hf ‹_›⟩
  · exact ⟨obj, ho, .refl (hm.objects o obj ho)⟩

theorem keeps_pushObject (hm : g.Sound m) (ho : m.object? o = some obj) (new : Object) :
    ∃ obj', (m.pushObject new).object? o = some obj' ∧ g.Keeps obj obj' :=
  ⟨obj, by rw [Machine.object?_pushObject_of_within _ (Machine.within_of_object? ho), ho],
    .refl (hm.objects o obj ho)⟩

theorem Move.keeps (hg : g.guarded) (hm : g.Sound m) (h : g.Move m m')
    (ho : m.object? o = some obj) : ∃ obj', m'.object? o = some obj' ∧ g.Keeps obj obj' := by
  have hok := hm.objects o obj ho
  cases h with
  | error hok' hmap horderly => exact keeps_pushObject hm ho _
  | insert ho' hd hfree hmay hlength =>
    refine keeps_updateObject hm ho ?_
    rintro rfl
    rw [ho] at ho'
    cases ho'
    exact .insert hok (hmay hg)
  | erase ho' hconfigurable =>
    refine keeps_updateObject hm ho ?_
    rintro rfl
    rw [ho] at ho'
    cases ho'
    exact .erase hok (hconfigurable hg)
  -- a mapped key is stored as writable, so its stored value has no say in what it may become
  | @redefine o' obj₁ key env name r x current v enumerable configurable d hg ho' hkey he hx hcurrent
      hstored hmay hd =>
    have hinsert (hobj : o = o') :
        g.Keeps obj (obj.insert key d) ∧ g.ObjectOk m.bounds (obj.insert key d) := by
      subst hobj
      rw [ho] at ho'
      cases ho'
      obtain ⟨map, hmap, -, -⟩ := Object.parameter?_some hkey
      refine ⟨.insert hok ?_, hok.insert_plain (Object.isArray_of_parameterMap? hmap) key hd⟩
      rw [hstored, Descriptor.mayBecome_writable v current]
      exact hmay
    have hcut (hobj : o = o') : g.Keeps obj ((obj.insert key d).unmap key) :=
      (hinsert hobj).1.trans (.unmap (hinsert hobj).2 key)
    cases d with
    | accessor get set enumerable configurable => exact keeps_updateObject hm ho hcut
    | data v writable enumerable configurable =>
      obtain ⟨map, hmap, rfl, hname⟩ := Object.parameter?_some hkey
      have hvariable := (hm.aliases hg o' obj₁ ho' map key name hmap hname).1
      refine keeps_updateObject (hm.stepEnv he (hvariable.envStep he hd fun _ => False)) ho fun hobj => ?_
      split
      · exact (hinsert hobj).1
      · exact hcut hobj
  | unmap hraw ho' => exact absurd hg hraw
  | assign hraw he hr hv => exact absurd hg hraw

theorem moves_keeps (hg : g.guarded) (hm : g.Sound m) (h : g.Moves m m')
    (ho : m.object? o = some obj) : ∃ obj', m'.object? o = some obj' ∧ g.Keeps obj obj' := by
  induction h with
  | refl => exact ⟨obj, ho, .refl (hm.objects o obj ho)⟩
  | tail hmoves hmove ih =>
    obtain ⟨obj₁, ho₁, h₁⟩ := ih
    obtain ⟨obj₂, ho₂, h₂⟩ := hmove.keeps hg (g.moves_motion.sound hm hmoves) ho₁
    exact ⟨obj₂, ho₂, h₁.trans h₂⟩

/-- A step keeps what an object has, unless it may put the object together without checks. -/
theorem Step.keeps (hg : g.guarded) (hm : g.Sound m) (h : g.Step A m m') (hA : ¬ A.rebuild o)
    (ho : m.object? o = some obj) : ∃ obj', m'.object? o = some obj' ∧ g.Keeps obj obj' := by
  have hok := hm.objects o obj ho
  cases h with
  | object hok' hmap horderly => exact keeps_pushObject hm ho _
  | define hmoves => exact moves_keeps hg hm hmoves ho
  | insert ho' hd hraw => exact keeps_updateObject hm ho fun hobj => absurd (hobj ▸ (hraw hg).1) hA
  | erase ho' hconfigurable => exact Move.keeps hg hm (.erase ho' hconfigurable) ho
  | @reparent o' obj₁ prototype S ho' hp hSp hSo hS hfree =>
    refine keeps_updateObject hm ho ?_
    rintro rfl
    rw [ho] at ho'
    cases ho'
    refine .of_properties hok rfl rfl (fun _ _ h => h) fun hclosed => ?_
    rcases hfree hg with hraw | hextensible
    · exact absurd hraw hA
    · simp [hclosed] at hextensible
  | freeze ho' =>
    exact keeps_updateObject hm ho fun _ =>
      .of_properties hok rfl rfl (fun _ _ h => h) fun _ => ⟨rfl, rfl⟩
  | markConstructor ho' =>
    refine keeps_updateObject hm ho fun _ => ?_
    unfold Object.markConstructor
    split
    · rename_i slots hkind
      exact .of_properties hok (by simp [Object.isArray, hkind]) rfl (fun _ _ h => by cases h)
        fun h => ⟨h, rfl⟩
    · exact .refl hok
  | attach ho' hkind henv hdistinct hmap hraw halias =>
    exact keeps_updateObject hm ho fun hobj => absurd (hobj ▸ hraw hg) hA
  | _ => exact ⟨obj, ho, .refl hok⟩

theorem Steps.keeps (hg : g.guarded) (hm : g.Sound m) (h : g.Steps A m m') (hA : ¬ A.rebuild o)
    (ho : m.object? o = some obj) : ∃ obj', m'.object? o = some obj' ∧ g.Keeps obj obj' := by
  induction h with
  | refl => exact ⟨obj, ho, .refl (hm.objects o obj ho)⟩
  | tail hsteps hstep ih =>
    obtain ⟨obj₁, ho₁, h₁⟩ := ih
    obtain ⟨obj₂, ho₂, h₂⟩ := hstep.keeps hg (Steps.sound hsteps hm) hA ho₁
    exact ⟨obj₂, ho₂, h₁.trans h₂⟩

/-- Along the operations of a host an object keeps what it has. -/
theorem Leads.keeps (hg : g.Open) (hguarded : g.guarded) (hm : g.Sound m) (h : g.Leads m m')
    (ho : m.object? o = some obj) : ∃ obj', m'.object? o = some obj' ∧ g.Keeps obj obj' :=
  Steps.keeps hguarded hm (h.steps hg hm) (fun hnew => hnew (Machine.within_of_object? ho)) ho

end Contract

/-- A descriptor as it is stored and as it is reported: a mapped key reports the value of its
parameter instead of the stored one. -/
inductive Descriptor.Reported : Descriptor → Descriptor → Prop
  | stored (d : Descriptor) : Reported d d
  | mapped (value current : Value) (enumerable configurable : Bool) :
      Reported (.data value true enumerable configurable) (.data current true enumerable configurable)

namespace Descriptor.Reported

variable {d d' r r' : Descriptor}

theorem configurable (h : Reported d r) : d.configurable = r.configurable := by
  cases h <;> rfl

/-- A value that is still writable plays no part in what a property may become. -/
theorem stays (h : Reported d r) (h' : Reported d' r') (hs : d.Stays d') : r.Stays r' := by
  cases h with
  | stored =>
    cases h' with
    | stored => exact hs
    | mapped value current enumerable configurable =>
      cases d with
      | accessor => exact hs
      | data v w e c => exact ⟨hs.1, hs.2.1, fun hw => by cases (hs.2.2 hw).1⟩
  | mapped value current enumerable configurable =>
    cases h' with
    | stored =>
      cases d' with
      | accessor => exact hs
      | data => exact ⟨hs.1, hs.2.1, fun hw => by cases hw⟩
    | mapped => exact ⟨hs.1, hs.2.1, fun hw => by cases hw⟩

end Descriptor.Reported

variable {g : Contract} {m m' : Machine} {o : ObjectId} {obj : Object}

/-- A guarded machine reports an own property exactly where it stores one. -/
theorem ObjectId.getOwnProperty_reports (hg : g.guarded) (hm : g.Sound m) (ho : m.object? o = some obj)
    (key : Key) :
    (obj.properties.get? key = none ∧ o.getOwnProperty key m = .ok none) ∨
      ∃ d r, obj.properties.get? key = some d ∧ o.getOwnProperty key m = .ok (some r) ∧
        d.Reported r := by
  cases hkey : obj.parameter? key with
  | none =>
    have hown := getOwnProperty_eq_stored ho hkey
    cases hget : obj.properties.get? key with
    | none => exact .inl ⟨rfl, hget ▸ hown⟩
    | some d => exact .inr ⟨d, d, rfl, hget ▸ hown, .stored d⟩
  | some p =>
    obtain ⟨env, name⟩ := p
    obtain ⟨map, hmap, rfl, hname⟩ := Object.parameter?_some hkey
    obtain ⟨⟨r, x, he, hx, -, -, hvalue⟩, v, enumerable, configurable, hstored⟩ :=
      hm.aliases hg o obj ho map key name hmap hname
    obtain ⟨current, hcurrent⟩ := Option.isSome_iff_exists.mp hvalue
    exact .inr ⟨_, _, hstored, getOwnProperty_eq_mapped ho hkey he hx hcurrent hstored,
      .mapped v current enumerable configurable⟩

theorem ObjectId.getPrototype_eq (ho : m.object? o = some obj) :
    o.getPrototype m = .ok obj.prototype := by
  unfold getPrototype
  rw [Query.bind_ok (load_eq ho)]
  rfl

theorem ObjectId.exists_object_of_ok {α : Type} {f : Object → Query α} {a : α}
    (h : (o.load >>= f) m = .ok a) : ∃ obj, m.object? o = some obj ∧ f obj m = .ok a := by
  cases hobj : m.object? o with
  | none =>
    rw [Query.bind_error (load_eq_error hobj)] at h
    cases h
  | some obj =>
    rw [Query.bind_ok (load_eq hobj)] at h
    exact ⟨obj, rfl, h⟩

/-- **Integrity of objects.** Whatever a host does next, with valid handles, with values that are no
references and without passing over the checks of an object: an object that is not extensible stays
so, keeps its prototype and gets no new own key, and an own property that is not configurable is never
removed and becomes only what such a property may. -/
theorem reachable_keeps_objects (h : Contract.values.Reachable m) (hnext : Contract.values.Leads m m')
    (o : ObjectId) :
    (o.isExtensible m = .ok false →
      o.isExtensible m' = .ok false ∧ o.getPrototype m' = o.getPrototype m ∧
        ∀ key d', o.getOwnProperty key m' = .ok (some d') → ∃ d, o.getOwnProperty key m = .ok (some d)) ∧
    ∀ key d, o.getOwnProperty key m = .ok (some d) → d.configurable = false →
      ∃ d', o.getOwnProperty key m' = .ok (some d') ∧ d.Stays d' := by
  have hm := h.sound Contract.values_open
  have hm' := (hnext.steps Contract.values_open hm).sound hm
  refine ⟨fun hextensible => ?_, fun key r hr hc => ?_⟩
  · obtain ⟨obj, ho, hclosed⟩ := ObjectId.exists_object_of_ok hextensible
    obtain ⟨obj', ho', hkeeps⟩ := hnext.keeps Contract.values_open trivial hm ho
    obtain ⟨hclosed', hprototype, hkeys⟩ := hkeeps.closed (Except.ok.inj hclosed)
    refine ⟨?_, ?_, fun key r' hr' => ?_⟩
    · rw [ObjectId.isExtensible_eq ho', hclosed']
    · rw [ObjectId.getPrototype_eq ho', ObjectId.getPrototype_eq ho, hprototype]
    · obtain ⟨hnone, -⟩ | ⟨d, r, -, hr, -⟩ := ObjectId.getOwnProperty_reports trivial hm ho key
      · obtain ⟨-, hreport⟩ | ⟨d', _, hd', -, -⟩ := ObjectId.getOwnProperty_reports trivial hm' ho' key
        · rw [hreport] at hr'
          cases hr'
        · rw [hkeys key hnone] at hd'
          cases hd'
      · exact ⟨r, hr⟩
  · obtain ⟨obj, ho, -⟩ := ObjectId.exists_object_of_ok hr
    obtain ⟨obj', ho', hkeeps⟩ := hnext.keeps Contract.values_open trivial hm ho
    -- What is promised is about reported properties, and what is kept about stored ones: the values
    -- differ at mapped keys, the attributes do not.
    obtain ⟨-, hreport⟩ | ⟨d, r₀, hd, hr₀, hreported⟩ :=
      ObjectId.getOwnProperty_reports trivial hm ho key
    · rw [hreport] at hr
      cases hr
    · rw [hr₀] at hr
      cases hr
      obtain ⟨d', hd', hstays⟩ := hkeeps.fixed trivial key d hd (hreported.configurable.trans hc)
      obtain ⟨hnone, -⟩ | ⟨d₁, r', hd₁, hr', hreported'⟩ :=
        ObjectId.getOwnProperty_reports trivial hm' ho' key
      · rw [hnone] at hd'
        cases hd'
      · rw [hd'] at hd₁
        cases hd₁
        exact ⟨r', hr', hreported.stays hreported' hstays⟩

/-- A frozen property of an object that is not extensible, after an attempt to delete it. -/
theorem reachable_keeps_objects_frozen :
    let d := Descriptor.frozen .null
    let m₁ := (Operation.newObject none).run.after {}
    let m₂ := (Operation.define ⟨0⟩ (.name "x") d).run.after m₁
    let m₃ := (Operation.preventExtensions ⟨0⟩).run.after m₂
    let m₄ := (Operation.delete ⟨0⟩ (.name "x")).run.after m₃
    ObjectId.isExtensible ⟨0⟩ m₄ = .ok false ∧
      ∃ d', ObjectId.getOwnProperty ⟨0⟩ (.name "x") m₄ = .ok (some d') ∧ d.Stays d' := by
  intro d m₁ m₂ m₃ m₄
  have ho₁ : ObjectId.Within m₁.bounds ⟨0⟩ := by decide +kernel
  have ho₂ : ObjectId.Within m₂.bounds ⟨0⟩ := by decide +kernel
  have ho₃ : ObjectId.Within m₃.bounds ⟨0⟩ := by decide +kernel
  have hreach : Contract.values.Reachable m₃ :=
    ⟨512, .tail (.tail (.single (Contract.performs (.newObject none) fun p hp => by cases hp))
      (Contract.performs (.define ⟨0⟩ (.name "x") d) ⟨ho₁, trivial, fun _ => rfl⟩))
      (Contract.performs (.preventExtensions ⟨0⟩) ho₂)⟩
  have hnext : Contract.values.Leads m₃ m₄ := .single (Contract.performs (.delete ⟨0⟩ (.name "x")) ho₃)
  obtain ⟨hclosed, hfixed⟩ := reachable_keeps_objects hreach hnext ⟨0⟩
  exact ⟨(hclosed (by rfl)).1, hfixed (.name "x") d (by rfl) rfl⟩

end EcmaEval
