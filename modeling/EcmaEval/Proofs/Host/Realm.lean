import EcmaEval.Proofs.Heap.Create
import EcmaEval.Proofs.Host.Global
import EcmaEval.Proofs.Host.Integrity
import EcmaEval.Proofs.Host.Locality

/-!
# Realms under the operations of a host

Only one operation makes a realm. What it makes is new and belongs to that realm alone: its standard
objects, its global object and environment, and error constructors that are tied to its own prototypes.
So different realms never share a standard object, and the global environment of a realm always stands
over the realm's global object, which stays an ordinary object.
-/
namespace EcmaEval

/-- Only the making of a realm makes one. -/
theorem Operation.run_fixes_realms (op : Operation) (hop : op ≠ .newRealm) : op.run.Fixes Machine.realms := by
  let settled : Remit := { Remit.whole with realms := False }
  have : settled.IsFree := ⟨fun _ => trivial, trivial⟩
  have hopen : settled.IsOpen := ⟨trivial, fun _ => trivial, trivial, trivial⟩
  exact fun m => (run_touches hopen (fun _ => trivial) trivial (.inr hop) (.inl trivial)
    m.closedIn_of_isFree).realms id

/-- The object is new and ordinary. -/
def Machine.Gains (m m' : Machine) (o : ObjectId) : Prop :=
  m.objects.size ≤ o.index ∧ ∃ obj, m'.object? o = some obj ∧ obj.kind = .ordinary

/-- The realm has come to a machine, with objects and a global environment of its own, and with error
constructors for some kinds. Whatever error constructors are new are tied to its prototypes. -/
structure Realm.Founded (r : Realm) (kinds : List ErrorKind) (m m' : Machine) : Prop where
  contexts : m'.contexts = m.contexts
  stackLimit : m'.stackLimit = m.stackLimit
  realms : m'.realms = m.realms.push r
  globalEnv : r.globalEnv = ⟨m.environments.size⟩
  environments : m'.environments = m.environments.push (.global (Realm.newGlobal r.globalObject))
  objects : ∀ o, o.Within m.bounds → m'.object? o = m.object? o
  globalObject : m.Gains m' r.globalObject
  objectPrototype : m.Gains m' r.intrinsics.objectPrototype
  errorPrototype : ∀ kind, m.Gains m' (r.intrinsics.errorPrototype kind)
  constructors : ∀ o obj kind, m.objects.size ≤ o.index → m'.object? o = some obj →
    obj.kind = .errorConstructor kind →
    obj.properties.get? .prototype = some (.frozen (.object (r.intrinsics.errorPrototype kind)))
  made : ∀ kind ∈ kinds, ∃ o obj, m.objects.size ≤ o.index ∧ m'.object? o = some obj ∧
    obj.kind = .errorConstructor kind

namespace Realm.Founded

variable {r : Realm} {kinds : List ErrorKind} {m m' : Machine} {o p : ObjectId}

theorem gains_insert (h : m.Gains m' o) (p : ObjectId) (key : Key) (d : Descriptor) :
    m.Gains (m'.updateObject p (·.insert key d)) o := by
  obtain ⟨hnew, obj, ho, hkind⟩ := h
  refine ⟨hnew, ?_⟩
  rw [Machine.object?_updateObject]
  split
  · exact ⟨obj.insert key d, by rw [ho]; rfl, hkind⟩
  · exact ⟨obj, ho, hkind⟩

theorem gains_pushObject (h : m.Gains m' o) (new : Object) : m.Gains (m'.pushObject new) o := by
  obtain ⟨hnew, obj, ho, hkind⟩ := h
  exact ⟨hnew, obj, (Machine.object?_pushObject_of_within new (Machine.within_of_object? ho)).trans ho, hkind⟩

/-- A new ordinary object takes a property. -/
theorem insert (h : r.Founded kinds m m') (ho : m.Gains m' o) (key : Key) (d : Descriptor) :
    ∃ m'', o.insert key d m' = .ok () m'' ∧ r.Founded kinds m m'' := by
  have hgains (p : ObjectId) (hp : m.Gains m' p) := gains_insert hp o key d
  obtain ⟨hnew, obj, hobj, hkind⟩ := ho
  refine ⟨_, ObjectId.modify_eq (Machine.within_of_object? hobj) _, ?_⟩
  refine ⟨h.contexts, h.stackLimit, h.realms, h.globalEnv, h.environments, fun p hp => ?_, hgains _ h.globalObject,
    hgains _ h.objectPrototype, fun kind => hgains _ (h.errorPrototype kind), fun p obj' kind hp hobj' hk => ?_,
    fun kind hmem => ?_⟩
  · have hother : p ≠ o := by
      rintro rfl
      exact absurd hp (Nat.not_lt.mpr hnew)
    rw [Machine.object?_updateObject, if_neg hother, h.objects p hp]
  · rw [Machine.object?_updateObject] at hobj'
    split at hobj'
    · subst p
      rw [hobj] at hobj'
      cases hobj'
      cases hkind.symm.trans hk
    · exact h.constructors p obj' kind hp hobj' hk
  · obtain ⟨p, obj', hp, hobj', hk⟩ := h.made kind hmem
    have hother : p ≠ o := by
      rintro rfl
      cases hobj.symm.trans hobj'
      cases hkind.symm.trans hk
    exact ⟨p, obj', hp, by rw [Machine.object?_updateObject, if_neg hother, hobj'], hk⟩

/-- A new error constructor, which is tied to its prototype. -/
theorem pushObject (h : r.Founded kinds m m') {new : Object} {kind : ErrorKind}
    (hkind : new.kind = .errorConstructor kind)
    (hnew : new.properties.get? .prototype = some (.frozen (.object (r.intrinsics.errorPrototype kind)))) :
    r.Founded (kind :: kinds) m (m'.pushObject new) where
  contexts := h.contexts
  stackLimit := h.stackLimit
  realms := h.realms
  globalEnv := h.globalEnv
  environments := h.environments
  objects o ho := by
    obtain ⟨obj, hobj⟩ := Machine.exists_object ho
    have hlater := (h.objects o ho).trans hobj
    rw [Machine.object?_pushObject_of_within new (Machine.within_of_object? hlater), h.objects o ho]
  globalObject := gains_pushObject h.globalObject new
  objectPrototype := gains_pushObject h.objectPrototype new
  errorPrototype kind := gains_pushObject (h.errorPrototype kind) new
  constructors o obj kind' ho hobj hkind' := by
    rw [Machine.object?_pushObject] at hobj
    split at hobj
    · cases hobj
      cases hkind.symm.trans hkind'
      exact hnew
    · exact h.constructors o obj kind' ho hobj hkind'
  made kind' hmem := by
    rcases List.mem_cons.mp hmem with rfl | hmem
    · have hsize : m.objects.size ≤ m'.objects.size := by
        obtain ⟨hnew, obj, hobj, -⟩ := h.globalObject
        exact Nat.le_trans hnew (Nat.le_of_lt (Machine.within_of_object? hobj))
      exact ⟨⟨m'.objects.size⟩, new, hsize, m'.object?_pushObject_self new, hkind⟩
    · obtain ⟨o, obj, ho, hobj, hk⟩ := h.made kind' hmem
      have hlater := (Machine.object?_pushObject_of_within new (Machine.within_of_object? hobj)).trans hobj
      exact ⟨o, obj, ho, hlater, hk⟩

theorem newErrorConstructor (h : r.Founded kinds m m') (kind : ErrorKind) :
    ∃ m'', Realm.newErrorConstructor r.intrinsics r.globalObject kind m' = .ok () m'' ∧
      r.Founded (kind :: kinds) m m'' := by
  let object : Object := { prototype := some r.intrinsics.functionPrototype, kind := .errorConstructor kind }
  let named := (object.insert .length (.readOnly (.number .one))).insert
    (.name "name") (.readOnly (.ofString kind.name))
  let tied := named.insert .prototype (.frozen (.object (r.intrinsics.errorPrototype kind)))
  let constructor : ObjectId := ⟨m'.objects.size⟩
  have hinsert : constructor.insert .prototype (.frozen (.object (r.intrinsics.errorPrototype kind)))
      (m'.pushObject named) = .ok () (m'.pushObject tied) := by
    rw [ObjectId.insert, ObjectId.modify_eq (m'.within_pushObject_self named),
      Machine.updateObject_pushObject]
  have h₁ : r.Founded (kind :: kinds) m (m'.pushObject tied) := by
    refine h.pushObject rfl ?_
    rw [Object.insert_get?]
    exact if_pos BEq.rfl
  obtain ⟨m₂, hm₂, h₂⟩ := h₁.insert (h₁.errorPrototype kind) (.name "constructor")
    (.hidden (.object constructor))
  obtain ⟨m₃, hm₃, h₃⟩ := h₂.insert h₂.globalObject (.name kind.name) (.hidden (.object constructor))
  refine ⟨m₃, ?_, h₃⟩
  calc Realm.newErrorConstructor r.intrinsics r.globalObject kind m'
    _ = (do
          constructor.insert .prototype (.frozen (.object (r.intrinsics.errorPrototype kind)))
          (r.intrinsics.errorPrototype kind).insert (.name "constructor") (.hidden (.object constructor))
          r.globalObject.insert (.name kind.name) (.hidden (.object constructor)) : Eval Unit)
        (m'.pushObject named) := rfl
    _ = .ok () m₃ := by rw [bind_ok hinsert, bind_ok hm₂, hm₃]

theorem newErrorConstructors (h : r.Founded kinds m m') (more : List ErrorKind) :
    ∃ m'', more.forM (Realm.newErrorConstructor r.intrinsics r.globalObject) m' = .ok () m'' ∧
      r.Founded (more.reverse ++ kinds) m m'' := by
  induction more generalizing kinds m' with
  | nil => exact ⟨m', rfl, h⟩
  | cons kind more ih =>
    obtain ⟨m₁, hm₁, h₁⟩ := h.newErrorConstructor kind
    obtain ⟨m₂, hm₂, h₂⟩ := ih h₁
    exact ⟨m₂, (bind_ok hm₁).trans hm₂, by simpa using h₂⟩

end Realm.Founded

/-- The new objects are ordinary. -/
structure Machine.Stocks (m m' : Machine) : Prop extends m.Allocates m' where
  ordinary : ∀ o obj, m.objects.size ≤ o.index → m'.object? o = some obj → obj.kind = .ordinary

namespace Machine.Stocks

variable {m m' : Machine} {o : ObjectId} {new : Object}

theorem refl (m : Machine) : m.Stocks m where
  toAllocates := .refl m
  ordinary _ _ ho hobj := absurd (within_of_object? hobj) (Nat.not_lt.mpr ho)

theorem pushObject (h : m.Stocks m') (hnew : new.kind = .ordinary) : m.Stocks (m'.pushObject new) where
  toAllocates := h.toAllocates.trans (.pushObject m' new)
  ordinary o obj ho hobj := by
    rw [object?_pushObject] at hobj
    split at hobj
    · cases hobj
      exact hnew
    · exact h.ordinary o obj ho hobj

theorem gains (h : m.Stocks m') (hnew : m.objects.size ≤ o.index) (ho : o.Within m'.bounds) :
    m.Gains m' o := by
  obtain ⟨obj, hobj⟩ := exists_object ho
  exact ⟨hnew, obj, hobj, h.ordinary o obj hnew hobj⟩

end Machine.Stocks

/-- A realm over new ordinary objects. -/
theorem Realm.Founded.of_stocks {r : Realm} {m m' : Machine} (h : m.Stocks m')
    (henv : r.globalEnv = ⟨m.environments.size⟩) (hglobal : m.Gains m' r.globalObject)
    (hobject : m.Gains m' r.intrinsics.objectPrototype)
    (herror : ∀ kind, m.Gains m' (r.intrinsics.errorPrototype kind)) :
    r.Founded [] m ((m'.pushEnv (.global (Realm.newGlobal r.globalObject))).pushRealm r) where
  contexts := h.contexts
  stackLimit := by
    rw [h.rest]
    rfl
  realms := by
    rw [h.rest]
    rfl
  globalEnv := henv
  environments := by
    rw [h.rest]
    rfl
  objects := h.objects
  globalObject := hglobal
  objectPrototype := hobject
  errorPrototype := herror
  constructors o obj kind ho hobj hkind := by cases (h.ordinary o obj ho hobj).symm.trans hkind
  made := by simp

theorem allocate_bind (obj : Object) (f : ObjectId → Eval α) (m : Machine) :
    (allocate obj >>= f) m = f ⟨m.objects.size⟩ (m.pushObject obj) := rfl

/-- Making a realm succeeds and founds it, with an error constructor for each kind. -/
theorem newRealm_founded (m : Machine) : ∃ (r : Realm) (m' : Machine),
    newRealm m = .ok ⟨m.realms.size⟩ m' ∧ r.Founded ErrorKind.all.reverse m m' := by
  let named (parent : ObjectId) (kind : ErrorKind) : Object :=
    (({ prototype := some parent, kind := .ordinary } : Object).insert (.name "name")
      (.hidden (.ofString kind.name))).insert (.name "message") (.hidden (.ofString ""))
  let child : Object := { prototype := some ⟨m.objects.size⟩, kind := .ordinary }
  -- the machines along the way are named, as each object is found by the size before it
  let m₁ := m.pushObject { prototype := none, kind := .ordinary }
  let m₂ := m₁.pushObject child
  let m₃ := m₂.pushObject child
  let m₄ := m₃.pushObject (named ⟨m.objects.size⟩ .error)
  let m₅ := m₄.pushObject (named ⟨m₃.objects.size⟩ .typeError)
  let m₆ := m₅.pushObject (named ⟨m₃.objects.size⟩ .referenceError)
  let m₇ := m₆.pushObject (named ⟨m₃.objects.size⟩ .syntaxError)
  let m₈ := m₇.pushObject (named ⟨m₃.objects.size⟩ .rangeError)
  let m₉ := m₈.pushObject child
  let errorPrototype := ErrorKind.pick ⟨m₃.objects.size⟩ ⟨m₄.objects.size⟩ ⟨m₅.objects.size⟩ ⟨m₆.objects.size⟩
    ⟨m₇.objects.size⟩
  let r : Realm :=
    { intrinsics := ⟨⟨m.objects.size⟩, ⟨m₁.objects.size⟩, ⟨m₂.objects.size⟩, errorPrototype⟩
      globalObject := ⟨m₈.objects.size⟩
      globalEnv := ⟨m.environments.size⟩ }
  have hgains {m' : Machine} (h : m.Stocks m') {new : Object} (hnew : new.kind = .ordinary) :
      m.Stocks (m'.pushObject new) ∧ m.Gains (m'.pushObject new) ⟨m'.objects.size⟩ := by
    have hpush := h.pushObject hnew
    exact ⟨hpush, hpush.gains h.size (m'.within_pushObject_self new)⟩
  have hlater {m' : Machine} {o : ObjectId} {new : Object} (h : m.Gains m' o) :
      m.Gains (m'.pushObject new) o := Realm.Founded.gains_pushObject h new
  obtain ⟨s₁, g₁⟩ : m.Stocks m₁ ∧ m.Gains m₁ ⟨m.objects.size⟩ := hgains (.refl m) rfl
  have s₂ : m.Stocks m₂ := s₁.pushObject rfl
  have s₃ : m.Stocks m₃ := s₂.pushObject rfl
  obtain ⟨s₄, g₄⟩ : m.Stocks m₄ ∧ m.Gains m₄ ⟨m₃.objects.size⟩ := hgains s₃ rfl
  obtain ⟨s₅, g₅⟩ : m.Stocks m₅ ∧ m.Gains m₅ ⟨m₄.objects.size⟩ := hgains s₄ rfl
  obtain ⟨s₆, g₆⟩ : m.Stocks m₆ ∧ m.Gains m₆ ⟨m₅.objects.size⟩ := hgains s₅ rfl
  obtain ⟨s₇, g₇⟩ : m.Stocks m₇ ∧ m.Gains m₇ ⟨m₆.objects.size⟩ := hgains s₆ rfl
  obtain ⟨s₈, g₈⟩ : m.Stocks m₈ ∧ m.Gains m₈ ⟨m₇.objects.size⟩ := hgains s₇ rfl
  obtain ⟨s₉, g₉⟩ : m.Stocks m₉ ∧ m.Gains m₉ ⟨m₈.objects.size⟩ := hgains s₈ rfl
  -- an object made early has been there through all later steps
  have herror (kind : ErrorKind) : m.Gains m₉ (errorPrototype kind) := by
    cases kind with
    | error => exact hlater (hlater (hlater (hlater (hlater g₄))))
    | typeError => exact hlater (hlater (hlater (hlater g₅)))
    | referenceError => exact hlater (hlater (hlater g₆))
    | syntaxError => exact hlater (hlater g₇)
    | rangeError => exact hlater g₈
  have hobject : m.Gains m₉ ⟨m.objects.size⟩ :=
    hlater (hlater (hlater (hlater (hlater (hlater (hlater (hlater g₁)))))))
  have hfounded := Realm.Founded.of_stocks (r := r) s₉ rfl g₉ hobject herror
  have hrun : newRealm m = (do
      r.globalObject.insert (.name "globalThis") (.hidden (.object r.globalObject))
      r.globalObject.insert (.name "undefined") (.frozen .undefined)
      r.globalObject.insert (.name "NaN") (.frozen (.number .nan))
      r.globalObject.insert (.name "Infinity") (.frozen (.number (.infinite false)))
      ErrorKind.all.forM (Realm.newErrorConstructor r.intrinsics r.globalObject)
      return ⟨m.realms.size⟩ : Eval RealmId)
        ((m₉.pushEnv (.global (Realm.newGlobal r.globalObject))).pushRealm r) := by
    unfold newRealm Realm.newErrorPrototype
    iterate 9 rw [allocate_bind]
    rfl
  -- the constants and the constructors are put on a global object that is founded by now
  obtain ⟨m₁₂, hm₁₂, h₁₂⟩ := hfounded.insert hfounded.globalObject (.name "globalThis")
    (.hidden (.object r.globalObject))
  obtain ⟨m₁₃, hm₁₃, h₁₃⟩ := h₁₂.insert h₁₂.globalObject (.name "undefined") (.frozen .undefined)
  obtain ⟨m₁₄, hm₁₄, h₁₄⟩ := h₁₃.insert h₁₃.globalObject (.name "NaN") (.frozen (.number .nan))
  obtain ⟨m₁₅, hm₁₅, h₁₅⟩ := h₁₄.insert h₁₄.globalObject (.name "Infinity")
    (.frozen (.number (.infinite false)))
  obtain ⟨m₁₆, hm₁₆, h₁₆⟩ := h₁₅.newErrorConstructors ErrorKind.all
  refine ⟨r, m₁₆, ?_, h₁₆⟩
  rw [hrun, bind_ok hm₁₂, bind_ok hm₁₃, bind_ok hm₁₄, bind_ok hm₁₅, bind_ok hm₁₆]
  rfl

/-- An object of this kind keeps its kind. -/
def ObjectKind.isFixed : ObjectKind → Bool
  | .function _ | .arguments _ => false
  | .ordinary | .array | .error | .errorConstructor _ => true

namespace Contract

variable {g : Contract} {A : Grant} {m m' : Machine} {o : ObjectId} {obj : Object}

theorem Step.fixedKind (h : g.Step A m m') (ho : m.object? o = some obj) (hfixed : obj.kind.isFixed) :
    ∃ obj', m'.object? o = some obj' ∧ obj'.kind = obj.kind := by
  have hmap : obj.parameterMap? = none := by
    cases hk : obj.kind <;> simp_all [Object.parameterMap?, ObjectKind.isFixed]
  have hupdate {o' : ObjectId} {f : Object → Object} (hf : o = o' → (f obj).kind = obj.kind) :
      ∃ obj', (m.updateObject o' f).object? o = some obj' ∧ obj'.kind = obj.kind := by
    rw [Machine.object?_updateObject]
    split
    · exact ⟨f obj, by rw [ho]; rfl, hf ‹_›⟩
    · exact ⟨obj, ho, rfl⟩
  cases h with
  | object hok hnone horderly =>
    exact ⟨obj, (Machine.object?_pushObject_of_within _ (Machine.within_of_object? ho)).trans ho, rfl⟩
  | define hmoves => exact moves_kind hmoves ho hmap
  | insert ho' hd hraw => exact hupdate fun _ => rfl
  | erase ho' hconfigurable =>
    refine hupdate fun _ => ?_
    cases hk : obj.kind <;> simp_all [Object.erase, Object.unmap, ObjectKind.isFixed]
  | reparent ho' hp hSp hSo hS hfree => exact hupdate fun _ => rfl
  | freeze ho' => exact hupdate fun _ => rfl
  | markConstructor ho' =>
    refine hupdate fun _ => ?_
    cases hk : obj.kind <;> simp_all [Object.markConstructor, ObjectKind.isFixed]
  | attach ho' hkind henv hdistinct hmap hraw halias =>
    refine hupdate ?_
    rintro rfl
    cases ho.symm.trans ho'
    simp [hkind, ObjectKind.isFixed] at hfixed
  | _ => exact ⟨obj, ho, rfl⟩

theorem Steps.fixedKind (h : g.Steps A m m') (ho : m.object? o = some obj) (hfixed : obj.kind.isFixed) :
    ∃ obj', m'.object? o = some obj' ∧ obj'.kind = obj.kind := by
  induction h with
  | refl => exact ⟨obj, ho, rfl⟩
  | tail _ hstep ih =>
    obtain ⟨obj₁, ho₁, hk₁⟩ := ih
    obtain ⟨obj₂, ho₂, hk₂⟩ := hstep.fixedKind ho₁ (hk₁ ▸ hfixed)
    exact ⟨obj₂, ho₂, hk₂.trans hk₁⟩

end Contract

/-- Two realms that share no prototype of objects or errors. -/
structure Realm.Apart (r s : Realm) : Prop where
  objectPrototype : r.intrinsics.objectPrototype ≠ s.intrinsics.objectPrototype
  errorPrototype : ∀ kind, r.intrinsics.errorPrototype kind ≠ s.intrinsics.errorPrototype kind

/-- The global environment stands over the global object, which is ordinary. -/
def Realm.Governs (r : Realm) (m : Machine) : Prop :=
  ∃ record obj, m.env? r.globalEnv = some (.global record) ∧ record.scope.object = r.globalObject ∧
    m.object? r.globalObject = some obj ∧ obj.kind = .ordinary

/-- The realms of a machine are apart, and each governs its globals. -/
structure Machine.RealmsOk (m : Machine) : Prop where
  apart : ∀ i j r s, i ≠ j → m.realm? i = some r → m.realm? j = some s → r.Apart s
  governs : ∀ i r, m.realm? i = some r → r.Governs m

section Hosts

variable {g : Contract} {A : Grant} {m m' : Machine} {r : Realm} {kinds : List ErrorKind}

/-- A realm governs its globals for as long as the machine runs. -/
theorem Realm.Governs.steps (h : r.Governs m) (hm : g.Sound m) (hsteps : g.Steps A m m') :
    r.Governs m' := by
  obtain ⟨record, obj, henv, hscope, hobj, hkind⟩ := h
  obtain ⟨e, he, hevolves⟩ := hsteps.environments hm henv
  obtain ⟨record', rfl, hscope'⟩ := hevolves.global record rfl
  obtain ⟨obj', hobj', hkind'⟩ := hsteps.fixedKind hobj (by rw [hkind]; rfl)
  exact ⟨record', obj', he, hscope' ▸ hscope, hobj', hkind'.trans hkind⟩

/-- A new realm governs its globals and is apart from the realms that were there. -/
theorem Realm.Founded.governs (h : r.Founded kinds m m') : r.Governs m' := by
  obtain ⟨-, obj, hobj, hkind⟩ := h.globalObject
  refine ⟨Realm.newGlobal r.globalObject, obj, ?_, rfl, hobj, hkind⟩
  simp [Machine.env?, h.globalEnv, h.environments]

theorem Realm.Founded.apart (h : r.Founded kinds m m') {s : Realm} (hs : s.Within m.bounds) : r.Apart s where
  objectPrototype heq :=
    Nat.not_lt.mpr h.objectPrototype.1 (heq ▸ hs.intrinsics.objectPrototype)
  errorPrototype kind heq :=
    Nat.not_lt.mpr (h.errorPrototype kind).1 (heq ▸ hs.intrinsics.errorPrototype kind)

theorem Realm.Apart.symm {r s : Realm} (h : r.Apart s) : s.Apart r :=
  ⟨h.objectPrototype.symm, fun kind => (h.errorPrototype kind).symm⟩

theorem Realm.Founded.realm? (h : r.Founded kinds m m') (id : RealmId) :
    m'.realm? id = if id.index = m.realms.size then some r else m.realm? id := by
  simp [Machine.realm?, h.realms, Array.getElem?_push]

namespace Machine.RealmsOk

theorem new (limit : Nat) : ({ stackLimit := limit } : Machine).RealmsOk where
  apart _ _ _ _ _ hr := by cases hr
  governs _ _ hr := by cases hr

/-- An operation keeps the realms apart. -/
theorem perform (h : m.RealmsOk) (hg : g.Open) (hm : g.Sound m) {op : Operation}
    (hop : g.Admits m.bounds op) : (op.run.after m).RealmsOk := by
  have hsteps := Operation.run_steps hg.unchecked hg.bounded hm hop
  by_cases hnew : op = .newRealm
  · subst hnew
    obtain ⟨r, m', hrun, hfounded⟩ := newRealm_founded m
    have hafter : Operation.newRealm.run.after m = m' :=
      (Eval.after_discard newRealm m).trans (Eval.after_ok hrun)
    rw [hafter] at hsteps ⊢
    refine ⟨fun i j s t hij hs ht => ?_, fun i s hs => ?_⟩
    · rw [hfounded.realm?] at hs ht
      split at hs
      · cases hs
        split at ht
        · exact absurd (by cases i; cases j; simp_all) hij
        · exact hfounded.apart (hm.realms j t ht)
      · split at ht
        · cases ht
          exact (hfounded.apart (hm.realms i s hs)).symm
        · exact h.apart i j s t hij hs ht
    · rw [hfounded.realm?] at hs
      split at hs
      · cases hs
        exact hfounded.governs
      · exact (h.governs i s hs).steps hm hsteps
  · have hrealms (i : RealmId) : (op.run.after m).realm? i = m.realm? i :=
      congrArg (fun realms => realms[i.index]?) (op.run_fixes_realms hnew m)
    refine ⟨fun i j s t hij hs ht => ?_, fun i s hs => ?_⟩
    · exact h.apart i j s t hij (hrealms i ▸ hs) (hrealms j ▸ ht)
    · exact (h.governs i s (hrealms i ▸ hs)).steps hm hsteps

theorem leads (h : m.RealmsOk) (hg : g.Open) (hm : g.Sound m) (hleads : g.Leads m m') :
    m'.RealmsOk := by
  induction hleads with
  | refl => exact h
  | tail hfirst hop ih =>
    obtain ⟨op, hop, rfl⟩ := hop
    exact ih.perform hg (Contract.Steps.sound (Contract.Leads.steps hg hm hfirst) hm) hop

end Machine.RealmsOk

theorem Contract.Reachable.realmsOk (hg : g.Open) (h : g.Reachable m) : m.RealmsOk := by
  obtain ⟨limit, hleads⟩ := h
  exact (Machine.RealmsOk.new limit).leads hg (g.sound_new limit) hleads

end Hosts

end EcmaEval
