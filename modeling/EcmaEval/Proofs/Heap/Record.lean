import EcmaEval.Proofs.Heap.Update

/-!
# Changes of a declarative record

A record changes in five ways only: a binding is created, gets its first value, is assigned to, is
deleted, or the `this` of a call is set. What each of them leaves alone follows from one description
of what may become of a binding.
-/
namespace EcmaEval

namespace Contract

variable (g : Contract)

/-- A change of a record by values within bounds. Checked code creates and initializes only the names
it may declare, and assigns only to names that are bound. -/
inductive RecordStep (b : Bounds) (declare : String → Prop) (r : DeclarativeRecord) :
    DeclarativeRecord → Prop
  | create (h : r.create name isMutable deletable strict = .ok r')
      (hfixed : g.checked → deletable = false) (hdeclare : g.checked → declare name) :
      RecordStep b declare r r'
  | init (h : r.initBinding name v = .ok r') (hv : g.Stored b v)
      (hdeclare : g.checked → declare name) : RecordStep b declare r r'
  | assign (h : r.assign name v strict = .ok r') (hv : g.Stored b v)
      (hbound : g.checked → r.has name = true) : RecordStep b declare r r'
  | delete (h : r.delete name = .ok (deleted, r')) : RecordStep b declare r r'
  | bindThis (hslots : r.call = some slots) (hv : g.Stored b v) :
      RecordStep b declare r
        { r with call := some { slots with thisValue := v, thisStatus := .initialized } }

/-- What may become of a binding that stays: its flags are kept, it stays initialized if it is, and
in checked code it gets its first value only if it `may`. -/
structure BindingStep (may : Prop) (x x' : Binding) : Prop where
  isMutable : x'.isMutable = x.isMutable
  deletable : x'.deletable = x.deletable
  strict : x'.strict = x.strict
  initialized : x.value.isSome = true → x'.value.isSome = true
  waiting : x.value = none → x'.value = none ∨ (g.checked → may)

theorem BindingStep.refl (may : Prop) (x : Binding) : g.BindingStep may x x :=
  ⟨rfl, rfl, rfl, id, .inl⟩

end Contract

namespace DeclarativeRecord

variable {r r' : DeclarativeRecord} {name : String}

theorem create_ok {isMutable deletable strict : Bool}
    (h : r.create name isMutable deletable strict = .ok r') :
    r.get? name = none ∧
      r' = { r with bindings := (name, ⟨isMutable, deletable, strict, none⟩) :: r.bindings } := by
  unfold create at h
  split at h
  · cases h
  · cases h
    simp_all [has]

theorem initBinding_ok {v : Value} (h : r.initBinding name v = .ok r') :
    ∃ b, r.get? name = some b ∧ b.value = none ∧ r' = r.put name v := by
  unfold initBinding at h
  split at h
  · cases h
  · rename_i b hb
    split at h
    · cases h
    · cases h
      exact ⟨b, hb, Option.not_isSome_iff_eq_none.mp ‹_›, rfl⟩

theorem assign_ok {v : Value} {strict : Bool} (h : r.assign name v strict = .ok r') :
    (r.get? name = none ∧
        r' = { r with bindings := (name, ⟨true, true, false, some v⟩) :: r.bindings }) ∨
      ∃ b, r.get? name = some b ∧ b.value.isSome = true ∧
        (b.isMutable = true ∧ r' = r.put name v ∨ b.isMutable = false ∧ r' = r) := by
  unfold assign at h
  split at h
  · rename_i hnone
    split at h
    · cases h
    · cases h
      exact .inl ⟨hnone, rfl⟩
  · rename_i b hb
    refine .inr ⟨b, hb, ?_⟩
    split at h
    · cases h
    · rename_i hvalue
      refine ⟨by cases hv : b.value <;> simp_all, ?_⟩
      split at h
      · cases h
        exact .inl ⟨‹_›, rfl⟩
      · split at h
        · cases h
        · cases h
          exact .inr ⟨by simpa using ‹¬b.isMutable = true›, rfl⟩

theorem delete_ok {deleted : Bool} (h : r.delete name = .ok (deleted, r')) :
    ∃ b, r.get? name = some b ∧
      (b.deletable = true ∧ r' = { r with bindings := r.bindings.filter (·.1 != name) } ∨
        b.deletable = false ∧ r' = r) := by
  unfold delete at h
  split at h
  · cases h
  · rename_i b hb
    refine ⟨b, hb, ?_⟩
    split at h
    · cases h
      exact .inl ⟨‹_›, rfl⟩
    · cases h
      exact .inr ⟨by simpa using ‹¬b.deletable = true›, rfl⟩

theorem mem_put {v : Value} {e : String × Binding} (h : e ∈ (r.put name v).bindings) :
    ∃ x ∈ r.bindings, e.2.deletable = x.2.deletable ∧ (e.2.value = some v ∨ e.2.value = x.2.value) := by
  unfold put at h
  obtain ⟨x, hx, rfl⟩ := List.mem_map.mp h
  refine ⟨x, hx, ?_⟩
  split
  · exact ⟨rfl, .inl rfl⟩
  · exact ⟨rfl, .inr rfl⟩

end DeclarativeRecord

namespace Contract.RecordStep

variable {g : Contract} {b : Bounds} {declare : String → Prop} {r r' : DeclarativeRecord}

theorem mono {declare' : String → Prop} (hd : g.checked → ∀ n, declare n → declare' n)
    (h : g.RecordStep b declare r r') : g.RecordStep b declare' r r' := by
  cases h with
  | create h hfixed hdeclare => exact .create h hfixed fun hc => hd hc _ (hdeclare hc)
  | init h hv hdeclare => exact .init h hv fun hc => hd hc _ (hdeclare hc)
  | assign h hv hbound => exact .assign h hv hbound
  | delete h => exact .delete h
  | bindThis hslots hv => exact .bindThis hslots hv

theorem outer (h : g.RecordStep b declare r r') : r'.outer = r.outer := by
  cases h with
  | create h _ _ =>
    obtain ⟨-, rfl⟩ := DeclarativeRecord.create_ok h
    rfl
  | init h _ _ =>
    obtain ⟨_, -, -, rfl⟩ := DeclarativeRecord.initBinding_ok h
    rfl
  | assign h _ _ =>
    obtain ⟨-, rfl⟩ | ⟨_, -, -, ⟨-, rfl⟩ | ⟨-, rfl⟩⟩ := DeclarativeRecord.assign_ok h <;> rfl
  | delete h => obtain ⟨_, -, ⟨-, rfl⟩ | ⟨-, rfl⟩⟩ := DeclarativeRecord.delete_ok h <;> rfl
  | bindThis hslots hv => rfl

/-- A record with a new binding of a value within bounds. -/
theorem RecordOk.cons (hr : g.RecordOk b r) {name : String} {x : Binding}
    (hvalue : ∀ v, x.value = some v → g.Stored b v) (hfixed : g.checked → x.deletable = false) :
    g.RecordOk b { r with bindings := (name, x) :: r.bindings } where
  values e he v hv := by
    rcases List.mem_cons.mp he with rfl | he
    · exact hvalue v hv
    · exact hr.values e he v hv
  fixed hc e he := by
    rcases List.mem_cons.mp he with rfl | he
    · exact hfixed hc
    · exact hr.fixed hc e he
  call := hr.call

theorem RecordOk.put (hr : g.RecordOk b r) {name : String} {v : Value} (hv : g.Stored b v) :
    g.RecordOk b (r.put name v) where
  values e he w hw := by
    obtain ⟨x, hx, -, h | h⟩ := DeclarativeRecord.mem_put he
    · rw [h] at hw
      cases hw
      exact hv
    · exact hr.values x hx w (h ▸ hw)
  fixed hc e he := by
    obtain ⟨x, hx, hd, -⟩ := DeclarativeRecord.mem_put he
    rw [hd]
    exact hr.fixed hc x hx
  call := hr.call

theorem ok (h : g.RecordStep b declare r r') (hr : g.RecordOk b r) : g.RecordOk b r' := by
  cases h with
  | create h hfixed _ =>
    obtain ⟨-, rfl⟩ := DeclarativeRecord.create_ok h
    exact RecordOk.cons hr (fun v hv => by cases hv) hfixed
  | init h hv _ =>
    obtain ⟨_, -, -, rfl⟩ := DeclarativeRecord.initBinding_ok h
    exact RecordOk.put hr hv
  | assign h hv hbound =>
    obtain ⟨hnone, rfl⟩ | ⟨_, -, -, ⟨-, rfl⟩ | ⟨-, rfl⟩⟩ := DeclarativeRecord.assign_ok h
    · refine RecordOk.cons hr (fun w hw => by cases hw; exact hv) fun hc => ?_
      simp [DeclarativeRecord.has, hnone] at hbound
      exact absurd hc hbound
    · exact RecordOk.put hr hv
    · exact hr
  | delete h =>
    obtain ⟨_, -, ⟨-, rfl⟩ | ⟨-, rfl⟩⟩ := DeclarativeRecord.delete_ok h
    · exact ⟨fun e he => hr.values e (List.mem_filter.mp he).1,
        fun hc e he => hr.fixed hc e (List.mem_filter.mp he).1, hr.call⟩
    · exact hr
  | bindThis hslots hv =>
    obtain ⟨-, hf, ht⟩ := hr.call _ hslots
    exact ⟨hr.values, hr.fixed, fun slots hs => by cases hs; exact ⟨hv, hf, ht⟩⟩

/-- What may become of a name that is not bound: it stays so, unless it may be declared. -/
theorem unbound (h : g.RecordStep b declare r r') {n : String} (hn : r.get? n = none) :
    r'.get? n = none ∨ (g.checked → declare n) := by
  cases h with
  | @create name _ _ _ _ h _ hdeclare =>
    obtain ⟨-, rfl⟩ := DeclarativeRecord.create_ok h
    by_cases hname : n = name
    · exact .inr (hname ▸ hdeclare)
    · exact .inl (by rw [DeclarativeRecord.get?_cons, if_neg hname, hn])
  | init h _ _ =>
    obtain ⟨_, -, -, rfl⟩ := DeclarativeRecord.initBinding_ok h
    exact .inl (by simp [DeclarativeRecord.get?_put, hn])
  | @assign name _ _ _ h _ hbound =>
    obtain ⟨hnone, rfl⟩ | ⟨_, -, -, ⟨-, rfl⟩ | ⟨-, rfl⟩⟩ := DeclarativeRecord.assign_ok h
    · by_cases hname : n = name
      · refine .inr fun hc => ?_
        simp [DeclarativeRecord.has, hnone] at hbound
        exact absurd hc hbound
      · exact .inl (by rw [DeclarativeRecord.get?_cons, if_neg hname, hn])
    · exact .inl (by simp [DeclarativeRecord.get?_put, hn])
    · exact .inl hn
  | delete h =>
    obtain ⟨_, -, ⟨-, rfl⟩ | ⟨-, rfl⟩⟩ := DeclarativeRecord.delete_ok h
    · exact .inl (by simp [DeclarativeRecord.get?_filter, hn])
    · exact .inl hn
  | bindThis hslots hv => exact .inl hn

/-- A binding is deleted only if it is deletable. -/
theorem bound (h : g.RecordStep b declare r r') {n : String} {x : Binding} (hn : r.get? n = some x) :
    (x.deletable = true ∧ r'.get? n = none) ∨
      ∃ x', r'.get? n = some x' ∧ g.BindingStep (declare n) x x' := by
  cases h with
  | @create name _ _ _ _ h _ _ =>
    obtain ⟨hnone, rfl⟩ := DeclarativeRecord.create_ok h
    have hname : n ≠ name := by
      rintro rfl
      simp [hnone] at hn
    exact .inr ⟨x, by rw [DeclarativeRecord.get?_cons, if_neg hname, hn], .refl ..⟩
  | @init name _ _ h _ hdeclare =>
    obtain ⟨_, -, -, rfl⟩ := DeclarativeRecord.initBinding_ok h
    rw [DeclarativeRecord.get?_put, hn, Option.map_some]
    by_cases hname : n = name
    · subst hname
      exact .inr ⟨_, rfl, by simp, by simp, by simp, by simp, fun _ => .inr hdeclare⟩
    · exact .inr ⟨x, by rw [if_neg hname], .refl ..⟩
  | @assign name _ _ _ h _ _ =>
    obtain ⟨hnone, rfl⟩ | ⟨y, hy, hvalue, ⟨-, rfl⟩ | ⟨-, rfl⟩⟩ := DeclarativeRecord.assign_ok h
    · have hname : n ≠ name := by
        rintro rfl
        simp [hnone] at hn
      exact .inr ⟨x, by rw [DeclarativeRecord.get?_cons, if_neg hname, hn], .refl ..⟩
    · rw [DeclarativeRecord.get?_put, hn, Option.map_some]
      by_cases hname : n = name
      · subst hname
        rw [hn] at hy
        cases hy
        exact .inr ⟨_, rfl, by simp, by simp, by simp, by simp, fun hv => by simp [hv] at hvalue⟩
      · exact .inr ⟨x, by rw [if_neg hname], .refl ..⟩
    · exact .inr ⟨x, hn, .refl ..⟩
  | @delete name _ _ h =>
    obtain ⟨y, hy, ⟨hdel, rfl⟩ | ⟨-, rfl⟩⟩ := DeclarativeRecord.delete_ok h
    · by_cases hname : n = name
      · subst hname
        rw [hn] at hy
        cases hy
        exact .inl ⟨hdel, by rw [DeclarativeRecord.get?_filter, if_pos rfl]⟩
      · exact .inr ⟨x, by rw [DeclarativeRecord.get?_filter, if_neg hname, hn], .refl ..⟩
    · exact .inr ⟨x, hn, .refl ..⟩
  | bindThis hslots hv => exact .inr ⟨x, hn, .refl ..⟩

end Contract.RecordStep

@[simp] theorem Environment.record?_withRecord {e : Environment} {r : DeclarativeRecord}
    (h : e.record? = some r) (r' : DeclarativeRecord) : (e.withRecord r').record? = some r' := by
  cases e <;> simp_all [record?, withRecord]

namespace Contract

variable (g : Contract)

/-- A change of an environment: of its record, or of the names declared with `var`. -/
inductive EnvStep (b : Bounds) (declare : String → Prop) (e : Environment) : Environment → Prop
  | record (hr : e.record? = some r) (h : g.RecordStep b declare r r') :
      EnvStep b declare e (e.withRecord r')
  | varNames (names : List String) (he : e = .global r) :
      EnvStep b declare e (.global { r with varNames := names })

/-- What a run of changes leaves of an environment: its kind, its outer environment and, in checked
code, its bindings; only names that may be declared are created or get their first value. -/
structure Evolves (declare : String → Prop) (e e' : Environment) : Prop where
  outer : e'.outer? = e.outer?
  declarative : ∀ r, e = .declarative r → ∃ r', e' = .declarative r'
  object : ∀ s, e = .object s → e' = .object s
  global : ∀ r, e = .global r → ∃ r', e' = .global r' ∧ r'.scope = r.scope
  unbound : g.checked → ∀ n r r', e.record? = some r → e'.record? = some r' → r.get? n = none →
    r'.get? n = none ∨ declare n
  bound : g.checked → ∀ n r x, e.record? = some r → r.get? n = some x →
    ∃ r' x', e'.record? = some r' ∧ r'.get? n = some x' ∧ g.BindingStep (declare n) x x'

variable {g} {b : Bounds} {declare : String → Prop} {e e' e'' : Environment}

theorem BindingStep.trans {may : Prop} {x x' x'' : Binding} (h₁ : g.BindingStep may x x')
    (h₂ : g.BindingStep may x' x'') : g.BindingStep may x x'' where
  isMutable := h₂.isMutable.trans h₁.isMutable
  deletable := h₂.deletable.trans h₁.deletable
  strict := h₂.strict.trans h₁.strict
  initialized h := h₂.initialized (h₁.initialized h)
  waiting h := (h₁.waiting h).elim h₂.waiting .inr

theorem BindingStep.mono {may may' : Prop} (hm : may → may') {x x' : Binding}
    (h : g.BindingStep may x x') : g.BindingStep may' x x' :=
  ⟨h.isMutable, h.deletable, h.strict, h.initialized,
    fun hv => (h.waiting hv).imp_right fun h hc => hm (h hc)⟩

namespace Evolves

theorem refl (declare : String → Prop) (e : Environment) : g.Evolves declare e e where
  outer := rfl
  declarative r hr := ⟨r, hr⟩
  object _ hs := hs
  global r hr := ⟨r, hr, rfl⟩
  unbound _ n r r' hr hr' hn := by
    rw [hr] at hr'
    cases hr'
    exact .inl hn
  bound _ n r x hr hn := ⟨r, x, hr, hn, .refl ..⟩

theorem trans (h₁ : g.Evolves declare e e') (h₂ : g.Evolves declare e' e'') :
    g.Evolves declare e e'' where
  outer := h₂.outer.trans h₁.outer
  declarative r hr :=
    have ⟨r', hr'⟩ := h₁.declarative r hr
    h₂.declarative r' hr'
  object s hs := h₂.object s (h₁.object s hs)
  global r hr :=
    have ⟨r', hr', hs⟩ := h₁.global r hr
    have ⟨r'', hr'', hs'⟩ := h₂.global r' hr'
    ⟨r'', hr'', hs'.trans hs⟩
  unbound hc n r r'' hr hr'' hn := by
    cases hr' : e'.record? with
    | none =>
      cases e with
      | declarative r₀ =>
        obtain ⟨r', rfl⟩ := h₁.declarative r₀ rfl
        simp [Environment.record?] at hr'
      | object s => simp [Environment.record?] at hr
      | global r₀ =>
        obtain ⟨r', rfl, -⟩ := h₁.global r₀ rfl
        simp [Environment.record?] at hr'
    | some r' =>
      obtain hn | hd := h₁.unbound hc n r r' hr hr' hn
      · exact h₂.unbound hc n r' r'' hr' hr'' hn
      · exact .inr hd
  bound hc n r x hr hn :=
    have ⟨r', x', hr', hn', hx⟩ := h₁.bound hc n r x hr hn
    have ⟨r'', x'', hr'', hn'', hx'⟩ := h₂.bound hc n r' x' hr' hn'
    ⟨r'', x'', hr'', hn'', hx.trans hx'⟩

theorem mono {declare' : String → Prop} (hd : ∀ n, declare n → declare' n)
    (h : g.Evolves declare e e') : g.Evolves declare' e e' where
  outer := h.outer
  declarative := h.declarative
  object := h.object
  global := h.global
  unbound hc n r r' hr hr' hn := (h.unbound hc n r r' hr hr' hn).imp_right (hd n)
  bound hc n r x hr hn :=
    have ⟨r', x', hr', hn', hx⟩ := h.bound hc n r x hr hn
    ⟨r', x', hr', hn', hx.mono (hd n)⟩

end Evolves

namespace EnvStep

theorem mono {declare' : String → Prop} (hd : g.checked → ∀ n, declare n → declare' n)
    (h : g.EnvStep b declare e e') : g.EnvStep b declare' e e' := by
  cases h with
  | record hr h => exact .record hr (h.mono hd)
  | varNames names he => exact .varNames names he

theorem ok {env : EnvId} (h : g.EnvStep b declare e e') (he : g.EnvironmentOk b env e) :
    g.EnvironmentOk b env e' := by
  cases h with
  | @record r r' hr h =>
    cases he with
    | declarative houter hroot hrecord =>
      cases hr
      exact .declarative (h.outer ▸ houter) (h.outer ▸ hroot) (h.ok hrecord)
    | object houter hroot hobject => cases hr
    | global hscope houter hthis hrecord hrecordOuter =>
      cases hr
      exact .global hscope houter hthis (h.ok hrecord) (h.outer ▸ hrecordOuter)
  | varNames names he' =>
    subst he'
    cases he with
    | global hscope houter hthis hrecord hrecordOuter =>
      exact .global hscope houter hthis hrecord hrecordOuter

theorem evolves {env : EnvId} (h : g.EnvStep b declare e e') (he : g.EnvironmentOk b env e) :
    g.Evolves declare e e' := by
  -- a step changes the bindings of a record or the list of declared names of a global environment
  cases h with
  | @record r r' hr h =>
    refine ⟨?_, ?_, ?_, ?_, fun hc n r₁ r₂ hr₁ hr₂ hn => ?_, fun hc n r₁ x hr₁ hn => ?_⟩
    · cases e with
      | declarative r₀ =>
        cases hr
        exact h.outer
      | object s => cases hr
      | global r₀ => rfl
    · rintro r₀ rfl
      exact ⟨r', rfl⟩
    · rintro s rfl
      cases hr
    · rintro r₀ rfl
      exact ⟨_, rfl, rfl⟩
    · rw [hr] at hr₁
      rw [Environment.record?_withRecord hr] at hr₂
      cases hr₁
      cases hr₂
      exact (h.unbound hn).imp_right fun hd => hd hc
    · rw [hr] at hr₁
      cases hr₁
      obtain ⟨hdel, -⟩ | ⟨x', hx', hstep⟩ := h.bound hn
      · have hfixed := (he.record hr).fixed hc _ (DeclarativeRecord.mem_of_get? hn)
        simp [hdel] at hfixed
      · exact ⟨r', x', Environment.record?_withRecord hr r', hx', hstep⟩
  | @varNames r names he' =>
    subst he'
    refine ⟨rfl, ?_, ?_, ?_, fun _ n r₁ r₂ hr₁ hr₂ hn => ?_, fun _ n r₁ x hr₁ hn => ?_⟩
    · intro r₁ hr₁
      cases hr₁
    · intro s hs
      cases hs
    · intro r₁ hr₁
      cases hr₁
      exact ⟨_, rfl, rfl⟩
    · cases hr₁
      cases hr₂
      exact .inl hn
    · cases hr₁
      exact ⟨_, x, rfl, hn, .refl ..⟩

end EnvStep

/-- A variable stays one when its environment changes. -/
theorem EnvStep.isVariable {m : Machine} {env : EnvId} (he : m.env? env = some e)
    (h : g.EnvStep b declare e e') {name : String} (hvar : m.IsVariable env name) :
    (m.storeEnv env e').IsVariable env name := by
  obtain ⟨r, x, hr, hx, hmut, hdel, hval⟩ := hvar
  rw [hr] at he
  cases he
  cases h with
  | @record r₁ r' hr₁ h =>
    cases hr₁
    obtain ⟨hdel', -⟩ | ⟨x', hx', hstep⟩ := h.bound hx
    · simp [hdel] at hdel'
    · exact ⟨r', x', by rw [Machine.env?_storeEnv _ _ _ _ hr, if_pos rfl, Environment.withRecord], hx',
        hstep.isMutable.trans hmut, hstep.deletable.trans hdel, hstep.initialized hval⟩
  | varNames names he' => cases he'

/-- A sound machine stays sound when an environment changes. -/
theorem Sound.stepEnv {m : Machine} (hm : g.Sound m) {env : EnvId} (he : m.env? env = some e)
    (h : g.EnvStep m.bounds declare e e') : g.Sound (m.storeEnv env e') := by
  have hok := hm.environments env e he
  refine hm.storeEnv he (h.ok hok) (fun r hr => ?_) fun _ name hvar => h.isVariable he hvar
  obtain ⟨r', hr', -⟩ := (h.evolves hok).global r hr
  exact ⟨r', hr'⟩

end Contract

end EcmaEval
