import EcmaEval.Proofs.Heap.Exact
import EcmaEval.Proofs.Heap.Outcome
import Mathlib.Logic.Relation

/-!
# Moves of a definition

The definition of one property is a sequence of small changes: a descriptor is stored, a property is
erased, a mapped key is redefined together with its parameter, or an error is made. Under a guarded
contract each of them is preceded by its check. Every move keeps a machine sound.
-/
namespace EcmaEval

/-- Data that is neither enumerable nor configurable keeps these flags. -/
theorem Descriptor.mayBecome_flags {v v' : Value} {w w' e c extensible : Bool}
    (h : mayBecome (some (.data v w false false)) extensible (.data v' w' e c) = true) :
    e = false ∧ c = false := by
  simp only [mayBecome, configurable, enumerable, Bool.false_or, Bool.and_eq_true, Bool.not_eq_true',
    beq_iff_eq] at h
  exact ⟨h.1.2, h.1.1⟩

namespace Contract

variable {g : Contract} {b : Bounds} {m : Machine} {obj : Object} {key : Key} {d : Descriptor}

theorem KindOk.unmap (h : g.KindOk b obj.kind) (key : Key) : g.KindOk b (obj.unmap key).kind := by
  unfold Object.unmap
  split
  · rename_i map hk
    rw [hk] at h
    exact h
  · exact h

theorem ObjectOk.unmap (h : g.ObjectOk b obj) (key : Key) : g.ObjectOk b (obj.unmap key) where
  prototype := by simpa using h.prototype
  properties := by simpa using h.properties
  keys := by simpa using h.keys
  kind := h.kind.unmap key
  length := by simpa using h.length

theorem ObjectOk.erase (h : g.ObjectOk b obj)
    (hconfigurable : g.guarded → ∀ d, obj.properties.get? key = some d → d.configurable = true) :
    g.ObjectOk b (obj.erase key) where
  prototype := by simpa using h.prototype
  properties e he := by
    unfold Object.erase at he
    rw [Object.unmap_properties] at he
    exact h.properties e (PropertyTable.mem_erase he)
  keys := by
    unfold Object.erase
    rw [Object.unmap_properties]
    exact h.keys.erase key
  kind := by
    have hkind : g.KindOk b { obj with properties := obj.properties.erase key }.kind := h.kind
    exact hkind.unmap key
  length hg ha := by
    rw [Object.erase_isArray] at ha
    obtain ⟨n, writable, hlength⟩ := h.length hg ha
    have hne : ¬(key == .length) = true := by
      intro hkey
      have hget := (obj.properties.get?_congr hkey).trans hlength
      exact absurd (hconfigurable hg _ hget) (by simp [Descriptor.configurable])
    exact ⟨n, writable, by rw [Object.erase_get?, if_neg hne, hlength]⟩

/-- A length that is not configurable stays one. -/
theorem mayBecome_length {n : Number} {writable extensible : Bool}
    (h : Descriptor.mayBecome (some (.data (.number n) writable false false)) extensible d = true)
    {n' : Number} (hd : d.value? = some (.number n')) :
    ∃ n writable, d = .data (.number n) writable false false := by
  cases d with
  | accessor get set enumerable configurable => simp [Descriptor.value?] at hd
  | data value writable' enumerable configurable =>
    simp only [Descriptor.value?, Option.some.injEq] at hd
    subst hd
    obtain ⟨rfl, rfl⟩ := Descriptor.mayBecome_flags h
    exact ⟨n', writable', rfl⟩

/-- Storing a property under a key that stands for nothing. -/
theorem Aliases.insert (h : obj.Aliases m) (hkey : obj.parameter? key = none) (d : Descriptor) :
    (obj.insert key d).Aliases m := by
  intro map k name hm hk
  obtain ⟨hvar, v, e, c, hget⟩ := h map k name hm hk
  refine ⟨hvar, v, e, c, ?_⟩
  rw [Object.insert_get?, if_neg, hget]
  intro hbeq
  rw [← map.get?_congr hbeq] at hk
  have hsome : obj.parameter? key = _ := Object.parameter?_eq hm hk
  simp [hkey] at hsome

/-- Cutting the tie of a key. -/
theorem Aliases.cut {obj' : Object} (h : obj.Aliases m)
    (hmap : obj'.parameterMap? = obj.parameterMap?.map (·.erase key))
    (hget : ∀ k, ¬(key == k) = true → obj'.properties.get? k = obj.properties.get? k) :
    obj'.Aliases m := by
  intro map k name hm hk
  rw [hmap] at hm
  obtain ⟨map', hm', rfl⟩ := Option.map_eq_some_iff.mp hm
  rw [ParameterMap.get?_erase] at hk
  split at hk
  · cases hk
  · obtain ⟨hvar, v, e, c, hstored⟩ := h map' k name hm' hk
    exact ⟨hvar, v, e, c, by rw [hget k ‹_›, hstored]⟩

end Contract

/-- Assigning to a variable changes its value and nothing else. -/
theorem Machine.IsVariable.envStep {g : Contract} {b : Bounds} {m : Machine} {env : EnvId}
    {name : String} (h : m.IsVariable env name) {r : DeclarativeRecord}
    (he : m.env? env = some (.declarative r)) {v : Value} (hv : g.Stored b v)
    (declare : String → Prop) :
    g.EnvStep b declare (.declarative r) (.declarative (r.put name v)) := by
  obtain ⟨r', x, hr', hx, hmut, -, hval⟩ := h
  rw [he] at hr'
  cases hr'
  have hassign : r.assign name v false = .ok (r.put name v) := by
    cases hvalue : x.value with
    | none => simp [hvalue] at hval
    | some w => simp [DeclarativeRecord.assign, hx, hvalue, hmut]
  exact .record rfl (.assign hassign hv fun _ => by simp [DeclarativeRecord.has, hx])

namespace Contract

variable (g : Contract) (m : Machine)

/-- One change within the definition of a property. -/
inductive Move : Machine → Prop
  | error (hok : g.ObjectOk m.bounds obj) (hmap : obj.parameterMap? = none)
      (horderly : obj.Orderly) : Move (m.pushObject obj)
  | insert (ho : m.object? o = some obj) (hd : d.All (g.Stored m.bounds))
      (hfree : g.guarded → obj.parameter? key = none)
      (hmay : g.guarded →
        Descriptor.mayBecome (obj.properties.get? key) obj.extensible d = true)
      (hlength : g.guarded → obj.isArray = true → (key == .length) = true →
        ∃ n, d.value? = some (.number n)) : Move (m.updateObject o (·.insert key d))
  | erase (ho : m.object? o = some obj)
      (hconfigurable : g.guarded → ∀ d, obj.properties.get? key = some d → d.configurable = true) :
      Move (m.updateObject o (·.erase key))
  | redefine (hg : g.guarded) (ho : m.object? o = some obj)
      (hkey : obj.parameter? key = some (env, name)) (he : m.env? env = some (.declarative r))
      (hx : r.get? name = some x) (hcurrent : x.value = some current)
      (hstored : obj.properties.get? key = some (.data v true enumerable configurable))
      (hmay : Descriptor.mayBecome (some (.data current true enumerable configurable))
        obj.extensible d = true)
      (hd : d.All (g.Stored m.bounds)) : Move (m.redefine o key d env r name)
  | unmap (hraw : ¬ g.guarded) (ho : m.object? o = some obj) :
      Move (m.updateObject o (·.unmap key))
  | assign (hraw : ¬ g.guarded) (he : m.env? env = some (.declarative r))
      (hr : r.assign name v false = .ok r') (hv : g.Stored m.bounds v) :
      Move (m.storeEnv env (.declarative r'))

variable {g m} {m' : Machine} {obj : Object} {key : Key} {d : Descriptor}

namespace Move

theorem sound_redefine (hm : g.Sound m) (hg : g.guarded) {o : ObjectId} (ho : m.object? o = some obj)
    {env : EnvId} {name : String} (hkey : obj.parameter? key = some (env, name))
    {r : DeclarativeRecord} (he : m.env? env = some (.declarative r)) (hd : d.All (g.Stored m.bounds)) :
    g.Sound (m.redefine o key d env r name) := by
  obtain ⟨map, hmap, rfl, hname⟩ := Object.parameter?_some hkey
  have harray := Object.isArray_of_parameterMap? hmap
  have hinsert : g.ObjectOk m.bounds (obj.insert key d) :=
    (hm.objects o obj ho).insert hd fun _ ha => by simp [harray] at ha
  have halias := hm.aliases hg o obj ho
  have hcut (m' : Machine) (h : obj.Aliases m') : ((obj.insert key d).unmap key).Aliases m' :=
    Aliases.cut h (Object.unmap_parameterMap? _ _) fun k hk => by
      rw [Object.unmap_properties, Object.insert_get?, if_neg hk]
  cases d with
  | accessor get set enumerable configurable =>
    exact hm.updateObject ho (hinsert.unmap key) (by simp) fun _ => hcut m halias
  | data v writable enumerable configurable =>
    -- The parameter is assigned first, so that the object stands for a variable throughout.
    have hstep := (halias map key name hmap hname).1.envStep he hd fun _ => False
    have hstored := hm.stepEnv he hstep
    have halias' := hstored.aliases hg o obj ho
    refine hstored.updateObject ho ?_ ?_ fun _ => ?_
    · rw [Machine.bounds_storeEnv]
      split
      · exact hinsert
      · exact hinsert.unmap key
    · split <;> simp
    · split
      · intro map' k name' hm' hk'
        obtain ⟨hvar, w, e, c, hget⟩ := halias' map' k name' hm' hk'
        refine ⟨hvar, ?_⟩
        rw [Object.insert_get?]
        split
        · rename_i hwritable _
          exact ⟨v, enumerable, configurable, by rw [hwritable]⟩
        · exact ⟨w, e, c, hget⟩
      · exact hcut _ halias'

theorem sound (hm : g.Sound m) (h : g.Move m m') : g.Sound m' := by
  cases h with
  | error hok hmap horderly => exact hm.pushObject hok hmap
  | @insert o obj key d ho hd hfree hmay hlength =>
    have hok := hm.objects o obj ho
    refine hm.updateObject ho (hok.insert hd fun hg ha hk => ?_) rfl fun hg => ?_
    · obtain ⟨n, writable, hget⟩ := hok.length hg ha
      obtain ⟨n', hn'⟩ := hlength hg ha hk
      have hmay := hmay hg
      rw [PropertyTable.get?_congr _ hk, hget] at hmay
      exact mayBecome_length hmay hn'
    · exact Aliases.insert (hm.aliases hg o obj ho) (hfree hg) d
  | @erase o obj key ho hconfigurable =>
    refine hm.updateObject ho ((hm.objects o obj ho).erase hconfigurable) (by simp) fun hg => ?_
    exact Aliases.cut (hm.aliases hg o obj ho) (Object.erase_parameterMap? _ _) fun k hk => by
      rw [Object.erase_get?, if_neg hk]
  | redefine hg ho hkey he hx hcurrent hstored hmay hd => exact sound_redefine hm hg ho hkey he hd
  | unmap hraw ho =>
    exact hm.updateObject ho ((hm.objects _ _ ho).unmap _) (by simp) fun hg => absurd hg hraw
  | @assign env r name v r' hraw he hr hv =>
    have hassign : g.RecordStep m.bounds (fun _ => False) r r' :=
      .assign hr hv fun hc => absurd (g.guarded_of_checked hc) hraw
    exact hm.stepEnv he (.record rfl hassign)

theorem bounds (h : g.Move m m') : m.bounds ≤ m'.bounds := by
  cases h with
  | error hok hmap horderly =>
    rw [Machine.bounds_pushObject]
    exact ⟨Nat.le_succ _, Nat.le_refl _, Nat.le_refl _⟩
  | @redefine o obj key env name r x current v enumerable configurable d =>
    cases d <;> simp [Machine.redefine, Bounds.le_refl]
  | _ => simp [Bounds.le_refl]

/-- A move changes at most one environment, and there only the values of variables. -/
theorem environments (hm : g.Sound m) (h : g.Move m m') {env : EnvId} {e : Environment}
    (he : m.env? env = some e) : ∃ e', m'.env? env = some e' ∧ g.Evolves (fun _ => False) e e' := by
  have hstore {env' : EnvId} {e₁ e₂ : Environment} (he₁ : m.env? env' = some e₁)
      (hstep : g.EnvStep m.bounds (fun _ => False) e₁ e₂) :
      ∃ e', (m.storeEnv env' e₂).env? env = some e' ∧ g.Evolves (fun _ => False) e e' := by
    rw [Machine.env?_storeEnv _ _ _ _ he₁]
    split
    · rename_i henv
      rw [henv, he₁] at he
      cases he
      exact ⟨e₂, rfl, hstep.evolves (hm.environments env' _ he₁)⟩
    · exact ⟨e, he, .refl _ _⟩
  cases h with
  | @redefine o obj key env' name r x current v enumerable configurable d hg ho hkey he' hx hcurrent
      hstored hmay hd =>
    cases d with
    | accessor get set enumerable configurable => exact ⟨e, he, .refl _ _⟩
    | data v writable enumerable configurable =>
      obtain ⟨map, hmap, rfl, hname⟩ := Object.parameter?_some hkey
      exact hstore he' ((hm.aliases hg o obj ho map key name hmap hname).1.envStep he' hd _)
  | assign hraw he' hr hv =>
    refine hstore he' (.record rfl (.assign hr hv fun hc => ?_))
    exact absurd (g.guarded_of_checked hc) hraw
  | _ => exact ⟨e, he, .refl _ _⟩

/-- An object that stands for no parameters keeps its kind. -/
theorem kind (h : g.Move m m') {o : ObjectId} (ho : m.object? o = some obj)
    (hmap : obj.parameterMap? = none) : ∃ obj', m'.object? o = some obj' ∧ obj'.kind = obj.kind := by
  have hupdate {o' : ObjectId} {f : Object → Object} (hf : (f obj).kind = obj.kind) :
      ∃ obj', (m.updateObject o' f).object? o = some obj' ∧ obj'.kind = obj.kind := by
    rw [Machine.object?_updateObject]
    split
    · exact ⟨f obj, by rw [ho]; rfl, hf⟩
    · exact ⟨obj, ho, rfl⟩
  have hunmap (obj' : Object) (key : Key) (hk : obj'.kind = obj.kind) :
      (obj'.unmap key).kind = obj.kind := by
    unfold Object.parameterMap? at hmap
    unfold Object.unmap
    split
    · rename_i map hmap'
      rw [hk] at hmap'
      simp [hmap'] at hmap
    · exact hk
  cases h with
  | error hok hmap' horderly =>
    exact ⟨obj, by rw [Machine.object?_pushObject_of_within _ (Machine.within_of_object? ho), ho], rfl⟩
  | insert ho' hd hfree hmay hlength => exact hupdate rfl
  | @erase _ _ key ho' hconfigurable => exact hupdate (hunmap _ key rfl)
  | @redefine _ _ key _ _ _ _ _ _ _ _ d hg ho' hkey he hx hcurrent hstored hmay hd =>
    cases d with
    | accessor get set enumerable configurable => exact hupdate (hunmap _ key rfl)
    | data v writable enumerable configurable =>
      refine hupdate ?_
      split
      · rfl
      · exact hunmap _ key rfl
  | @unmap _ _ key hraw ho' => exact hupdate (hunmap _ key rfl)
  | assign hraw he hr hv => exact ⟨obj, ho, rfl⟩

end Move

/-- A machine that some moves lead to. -/
abbrev Moves (g : Contract) : Machine → Machine → Prop := Relation.ReflTransGen g.Move

theorem moves_motion (g : Contract) : g.Motion g.Moves where
  refl _ := .refl
  trans := .trans
  sound hm h := by
    induction h with
    | refl => exact hm
    | tail _ hmove ih => exact hmove.sound ih
  bounds _ h := by
    induction h with
    | refl => exact Bounds.le_refl _
    | tail _ hmove ih => exact Bounds.le_trans ih hmove.bounds
  push hok hmap horderly := .single (.error hok hmap horderly)

/-- Moves change at most the values of variables of an environment. -/
theorem moves_environments (hm : g.Sound m) (h : g.Moves m m') {declare : String → Prop} {env : EnvId}
    {e : Environment} (he : m.env? env = some e) :
    ∃ e', m'.env? env = some e' ∧ g.Evolves declare e e' := by
  induction h with
  | refl => exact ⟨e, he, .refl _ _⟩
  | tail hmoves hmove ih =>
    obtain ⟨e₁, he₁, h₁⟩ := ih
    obtain ⟨e₂, he₂, h₂⟩ := hmove.environments (g.moves_motion.sound hm hmoves) he₁
    exact ⟨e₂, he₂, h₁.trans (h₂.mono fun _ => False.elim)⟩

theorem moves_realms (h : g.Moves m m') {id : RealmId} {r : Realm} (hr : m.realm? id = some r) :
    m'.realm? id = some r := by
  induction h with
  | refl => exact hr
  | tail _ hmove ih =>
    cases hmove with
    | @redefine o obj key env name r x current v enumerable configurable d =>
      cases d <;> exact ih
    | _ => exact ih

/-- Along moves, an object that stands for no parameters keeps its kind. -/
theorem moves_kind (h : g.Moves m m') {o : ObjectId} (ho : m.object? o = some obj)
    (hmap : obj.parameterMap? = none) : ∃ obj', m'.object? o = some obj' ∧ obj'.kind = obj.kind := by
  induction h with
  | refl => exact ⟨obj, ho, rfl⟩
  | tail _ hmove ih =>
    obtain ⟨obj₁, ho₁, hk₁⟩ := ih
    obtain ⟨obj₂, ho₂, hk₂⟩ := hmove.kind ho₁ (by simpa [Object.parameterMap?, hk₁] using hmap)
    exact ⟨obj₂, ho₂, hk₂.trans hk₁⟩

end Contract

end EcmaEval
