import EcmaEval.Proofs.Host.Binding
import EcmaEval.Proofs.Remit.Spared

/-!
# Evaluation is local

An evaluation works on what can be reached from the context stack, from the realms and from what it is
given. Everything else it leaves as it is, and out of reach. So an array or object literal, which nothing
refers to before it is complete, is safe from the evaluation of its own elements.
-/
namespace EcmaEval

/-- Code may do what it likes with what may be named, but sets no prototype and makes no realm. -/
def Remit.region (mentions : Handle → Prop) (builds : ObjectId → Prop) : Remit where
  mentions := mentions
  builds := builds
  references := True
  prototypes := False
  scopes := True
  realms := False
  codes _ := True
  moves := True
  calls := True

namespace Remit

variable {mentions : Handle → Prop} {builds : ObjectId → Prop}

theorem region_isOpen : (region mentions builds).IsOpen := ⟨trivial, fun _ => trivial, trivial, trivial⟩

theorem region_holds_iff [Tracked α] [Carrier α] (a : α) :
    (region mentions builds).Holds a ↔ ∀ h ∈ handles a, mentions h := and_iff_left (.inl trivial)

end Remit

namespace Machine

variable (m : Machine)

/-- The handles in the part of the machine that a handle names. -/
def links : Handle → List Handle
  | .object o => handles (m.object? o)
  | .environment env => handles (m.env? env)

/-- What the context stack and the realms name. -/
def roots : List Handle := handles m.contexts ++ handles m.realms.toList

/-- A way leads from the roots or from the given handles to the handle. -/
def Reaches (given : List Handle) (h : Handle) : Prop :=
  ∃ root ∈ m.roots ++ given, Relation.ReflTransGen (fun a b => b ∈ m.links a) root h

/-- All handles that the machine stores. -/
def stored : List Handle :=
  m.roots ++ handles m.objects.toList ++ handles m.environments.toList

/-- No stored handle dangles. -/
def InRange : Prop := ∀ h ∈ m.stored, h.Within m.bounds

instance : Decidable m.InRange := inferInstanceAs (Decidable (∀ h ∈ m.stored, h.Within m.bounds))

/-- Two machines agree about the part that a handle names. -/
def SameAt (m m' : Machine) : Handle → Prop
  | .object o => m'.object? o = m.object? o
  | .environment env => m'.env? env = m.env? env

end Machine

/-- The handles that a run gives away, by its result or by what it throws. -/
def Eval.given [Tracked α] (x : Eval α) (m : Machine) : List Handle :=
  match x m with
  | .ok a _ => handles a
  | .error e _ => handles e

/-- Each part of the machine that the roots and the given handles do not reach is the same after the
run, and still out of reach, also by way of what the run gave away. -/
def Eval.IsLocal [Tracked α] (x : Eval α) (m : Machine) (given : List Handle) : Prop :=
  ∀ h : Handle, h.Within m.bounds → ¬ m.Reaches given h →
    m.SameAt (x.after m) h ∧ ¬ (x.after m).Reaches (given ++ x.given m) h

namespace Machine

variable {m : Machine} {given : List Handle} {R : Remit}

theorem mem_roots_of_context {c : Context} (hc : c ∈ m.contexts) {h : Handle} (hh : h ∈ handles c) :
    h ∈ m.roots :=
  List.mem_append_left _ (List.mem_flatMap.mpr ⟨c, hc, hh⟩)

theorem mem_roots_of_realm {id : RealmId} {r : Realm} (hr : m.realm? id = some r) {h : Handle}
    (hh : h ∈ handles r) : h ∈ m.roots :=
  List.mem_append_right _ (List.mem_flatMap.mpr ⟨r, Array.mem_toList_iff.mpr (Array.mem_of_getElem? hr), hh⟩)

theorem roots_stored {h : Handle} (hh : h ∈ m.roots) : h ∈ m.stored :=
  List.mem_append_left _ (List.mem_append_left _ hh)

/-- A closed region holds everything that can be reached from it. -/
theorem ClosedIn.reached (hm : m.ClosedIn R) (hgiven : ∀ h ∈ given, R.mentions h) {h : Handle}
    (hreach : m.Reaches given h) : R.mentions h := by
  obtain ⟨root, hroot, hway⟩ := hreach
  induction hway with
  | refl =>
    rcases List.mem_append.mp hroot with hroot | hroot
    · rcases List.mem_append.mp hroot with hroot | hroot
      · obtain ⟨c, hc, hh⟩ := List.mem_flatMap.mp hroot
        exact (hm.contexts c hc).1 root hh
      · obtain ⟨r, hr, hh⟩ := List.mem_flatMap.mp hroot
        obtain ⟨i, hi⟩ := Array.getElem?_of_mem (Array.mem_toList_iff.mp hr)
        exact (hm.realms ⟨i⟩ r hi).1 root hh
    · exact hgiven root hroot
  | @tail a b _ hlink ih =>
    cases a with
    | object o =>
      cases ho : m.object? o with
      | none => simp [links, ho, handles] at hlink
      | some obj =>
        rw [links, ho] at hlink
        exact (hm.objects o obj (.inl ih) ho).1 b hlink
    | environment env =>
      cases he : m.env? env with
      | none => simp [links, he, handles] at hlink
      | some e =>
        rw [links, he] at hlink
        exact (hm.environments env e ((holds_envId env).mpr ih) he).1 b hlink

variable (m given) in
/-- What the roots and the given handles reach, and whatever is new. -/
def reached : Remit := .region (fun h => m.Reaches given h ∨ ¬ h.Within m.bounds) fun _ => False

theorem Reaches.of_root {h : Handle} (hh : h ∈ m.roots) : m.Reaches given h :=
  ⟨h, List.mem_append_left _ hh, .refl⟩

theorem Reaches.of_given {h : Handle} (hh : h ∈ given) : m.Reaches given h :=
  ⟨h, List.mem_append_right _ hh, .refl⟩

theorem Reaches.tail {a b : Handle} (ha : m.Reaches given a) (hb : b ∈ m.links a) :
    m.Reaches given b :=
  have ⟨root, hroot, hway⟩ := ha
  ⟨root, hroot, hway.tail hb⟩

theorem closedIn_reached (m : Machine) (given : List Handle) : m.ClosedIn (m.reached given) where
  objects o obj hown ho := (Remit.region_holds_iff obj).mpr fun h hh => by
    rcases hown with (hreach | hout) | hfalse
    · exact .inl (hreach.tail (by rw [links, ho]; exact hh))
    · exact absurd (within_of_object? ho) hout
    · exact hfalse.elim
  environments env e henv he := (Remit.region_holds_iff e).mpr fun h hh => by
    rcases (holds_envId env).mp henv with hreach | hout
    · exact .inl (hreach.tail (by rw [links, he]; exact hh))
    · exact absurd (within_of_env? he) hout
  realms _ r hr := (Remit.region_holds_iff r).mpr fun _ hh => .inl (.of_root (mem_roots_of_realm hr hh))
  contexts c hc := (Remit.region_holds_iff c).mpr fun _ hh => .inl (.of_root (mem_roots_of_context hc hh))
  fresh _ hout := .inr hout

end Machine

/-- A run that stays in every region that holds what it is given is local. -/
theorem Eval.IsLocal.of_stays [Tracked α] [Carrier α] {x : Eval α} {given : List Handle}
    (hx : ∀ mentions builds, (∀ h ∈ given, mentions h) →
      x.StaysIn (.region mentions builds) (Remit.region mentions builds).Holds) (m : Machine) :
    x.IsLocal m given := by
  intro h hwithin hreach
  have hgiven : ∀ h ∈ given, (m.reached given).mentions h := fun _ hh => .inl (.of_given hh)
  have hrun := hx _ _ hgiven m (m.closedIn_reached given)
  have hout : ¬ (m.reached given).mentions h := fun hin => hin.elim hreach fun h => h hwithin
  obtain ⟨htouches, hresult⟩ : m.Touches (m.reached given) (x.after m) ∧
      ∀ h ∈ x.given m, (m.reached given).mentions h := by
    unfold Eval.after Eval.given
    cases hr : x m with
    | ok a m' =>
      rw [hr] at hrun
      exact ⟨hrun.1, hrun.2.1⟩
    | error e m' =>
      rw [hr] at hrun
      exact ⟨hrun.1, hrun.2.1.1⟩
  constructor
  · cases h with
    | object o => exact htouches.object? hwithin fun hown => hown.elim hout False.elim
    | environment env => exact htouches.env? hwithin fun henv => hout ((holds_envId env).mp henv)
  · intro hreach'
    have hclosed := (m.closedIn_reached given).touches htouches
    refine hout (hclosed.reached (fun h hh => ?_) hreach')
    exact (List.mem_append.mp hh).elim (hgiven h) (hresult h)

/-- Everything but one object, which may be under construction. -/
def Remit.apart (o : ObjectId) (builds : Bool) : Remit :=
  .region (fun h => h ≠ .object o) fun o' => builds = true ∧ o' = o

namespace Machine

variable {m : Machine} {o : ObjectId}

/-- An object that no stored handle names is apart from the rest. -/
theorem closedIn_apart (ho : o.Within m.bounds) (h : .object o ∉ m.stored) (builds : Bool) :
    m.ClosedIn (.apart o builds) := by
  have hholds {α : Type} [Tracked α] [Carrier α] (a : α) (ha : .object o ∉ handles a) :
      (Remit.apart o builds).Holds a := (Remit.region_holds_iff a).mpr fun _ hx hsame => ha (hsame ▸ hx)
  refine ⟨fun o' obj _ ho' => hholds obj fun hx => ?_, fun env e _ he => hholds e fun hx => ?_,
    fun id r hr => hholds r fun hx => ?_, fun c hc => hholds c fun hx => ?_, ?_⟩
  · refine h (List.mem_append_left _ (List.mem_append_right _ ?_))
    exact List.mem_flatMap.mpr ⟨obj, Array.mem_toList_iff.mpr (Array.mem_of_getElem? ho'), hx⟩
  · refine h (List.mem_append_right _ ?_)
    exact List.mem_flatMap.mpr ⟨e, Array.mem_toList_iff.mpr (Array.mem_of_getElem? he), hx⟩
  · exact h (roots_stored (mem_roots_of_realm hr hx))
  · exact h (roots_stored (mem_roots_of_context hc hx))
  · rintro _ hout rfl
    exact hout ho

/-- Nothing in a machine without dangling handles refers to a new object that does not itself. -/
theorem InRange.pushObject (hm : m.InRange) {obj : Object}
    (hobj : ∀ h ∈ handles obj, h.Within m.bounds) :
    (m.pushObject obj).ClosedIn (.apart ⟨m.objects.size⟩ true) := by
  refine closedIn_apart (by rw [bounds_pushObject]; exact Nat.lt_succ_self _) (fun hstored => ?_) true
  have hold : (Handle.object ⟨m.objects.size⟩).Within m.bounds := by
    rcases List.mem_append.mp hstored with hstored | henv
    · rcases List.mem_append.mp hstored with hroot | hobject
      · exact hm _ (roots_stored hroot)
      · obtain ⟨obj', hobj', hh⟩ := List.mem_flatMap.mp hobject
        rcases Array.mem_push.mp (Array.mem_toList_iff.mp hobj') with hobj' | rfl
        · refine hm _ (List.mem_append_left _ (List.mem_append_right _ ?_))
          exact List.mem_flatMap.mpr ⟨obj', Array.mem_toList_iff.mpr hobj', hh⟩
        · exact hobj _ hh
    · exact hm _ (List.mem_append_right _ henv)
  exact Nat.lt_irrefl _ hold

/-- Code that is not handed the object under construction leaves it alone. -/
theorem ClosedIn.apart (hm : m.ClosedIn (.apart o true)) {x : Eval α} {Q : α → Prop}
    (hx : x.StaysIn (.apart o false) Q) : (x.after m).object? o = m.object? o := by
  have hclosed : m.ClosedIn (.apart o false) :=
    ⟨fun o' obj hown => hm.objects o' obj (.inl (hown.resolve_right (by simp [Remit.apart, Remit.region]))),
      hm.environments, hm.realms, hm.contexts, hm.fresh⟩
  have ho : o.Within m.bounds := by_contra fun hout => hm.fresh (.object o) hout rfl
  exact (hx.touches_after hclosed).object? ho (by simp [Remit.Owns, Remit.apart, Remit.region])

end Machine

/-- The standard objects in use are those of the running realm. -/
theorem intrinsics_eq_ok {m : Machine} {i : Intrinsics} (h : intrinsics m = .ok i) :
    ∃ c cs r, m.contexts = c :: cs ∧ m.realm? c.realm = some r ∧ i = r.intrinsics := by
  unfold intrinsics at h
  cases hm : m.contexts with
  | nil =>
    rw [Query.bind_error (currentRealm_nil hm)] at h
    cases h
  | cons c cs =>
    rw [Query.bind_ok (currentRealm_cons hm)] at h
    cases hr : m.realm? c.realm with
    | none =>
      rw [Query.bind_error (RealmId.load_eq_error hr)] at h
      cases h
    | some r =>
      rw [Query.bind_ok (RealmId.load_eq hr)] at h
      cases h
      exact ⟨c, cs, r, rfl, hr, rfl⟩

/-- A standard object in use is in range. -/
theorem Machine.InRange.intrinsics {m : Machine} (hm : m.InRange) {i : Intrinsics}
    (h : EcmaEval.intrinsics m = .ok i) {x : Handle} (hx : x ∈ handles i) : x.Within m.bounds := by
  obtain ⟨c, cs, r, -, hr, rfl⟩ := intrinsics_eq_ok h
  refine hm x (Machine.roots_stored (Machine.mem_roots_of_realm hr ?_))
  exact List.mem_append_left _ (List.mem_append_left _ hx)

namespace Evaluator

variable (ev : Evaluator)

/-- An array literal with its first elements. -/
def arrayUpTo (before : List (Option Expression)) : Eval ObjectId := do
  let a ← newArray 0
  ev.arrayElements a 0 before
  return a

/-- An object literal with its first entries. -/
def objectUpTo (before : List Member) : Eval ObjectId := do
  let prototype := (← intrinsics).objectPrototype
  let o ← newObject (some prototype)
  before.forM (ev.member o)
  return o

/-- The evaluation of an entry of an object literal, of its name and of its value. -/
def memberParts (entry : Member) : Eval Value := do
  let key ← ev.memberKey entry.name
  ev.valueNamed entry.value key

theorem arrayElements_append (a : ObjectId) (index : Nat) (before rest : List (Option Expression)) :
    ev.arrayElements a index (before ++ rest) = (do
      ev.arrayElements a index before
      ev.arrayElements a (index + before.length) rest) := by
  fun_induction ev.arrayElements a index before with
  | case1 index => simp
  | case2 index tail ih =>
    rw [List.cons_append, arrayElements, ih, List.length_cons, Nat.add_right_comm, Nat.add_assoc]
  | case3 index e tail ih =>
    simp only [List.cons_append, arrayElements, ih, bind_assoc, List.length_cons]
    rw [Nat.add_right_comm, Nat.add_assoc]

/-- Every array literal runs through the arrays with its first elements. -/
theorem array_append (before rest : List (Option Expression)) :
    ev.array (before ++ rest) = (do
      let a ← ev.arrayUpTo before
      ev.arrayElements a before.length rest
      let length : Value := .number (.ofNat (before.length + rest.length))
      if !(← a.set .length length (.object a)) then complain .cannotSetLength
      else return .object a) := by
  simp only [array, arrayUpTo, arrayElements_append, bind_assoc, pure_bind, Nat.zero_add,
    List.length_append]

/-- Every object literal runs through the objects with its first entries. -/
theorem object_append (before rest : List Member) :
    ev.object (before ++ rest) = (do
      let o ← ev.objectUpTo before
      rest.forM (ev.member o)
      return .object o) := by
  have happend (o : ObjectId) : (before ++ rest).forM (ev.member o) = (do
      before.forM (ev.member o)
      rest.forM (ev.member o)) := List.forM_append
  simp only [object, objectUpTo, happend, bind_assoc, pure_bind]

end Evaluator

section Literals

variable {m m' : Machine} (hm : m.InRange) (level : Nat)

include hm

/-- After some elements of an array literal nothing refers to the array. -/
theorem arrayUpTo_apart {before : List (Option Expression)} {a : ObjectId}
    (h : (Evaluator.level level).arrayUpTo before m = .ok a m') : m'.ClosedIn (.apart a true) := by
  obtain ⟨a', m₁, hnew, hrun⟩ := bind_eq_ok h
  obtain ⟨_, m₂, helements, hreturn⟩ := bind_eq_ok hrun
  cases hreturn
  obtain ⟨i, m, hintrinsics, hallocate⟩ := bind_eq_ok hnew
  obtain ⟨rfl, hintrinsics⟩ := lift_eq_ok hintrinsics
  let array : Object := { prototype := some i.arrayPrototype, kind := .array }
  let start := array.insert .length (.data (.number (.ofNat 0)) true false false)
  have hstart : ∀ h ∈ handles start, h.Within m.bounds := by
    intro h hh
    have harray : h = .object i.arrayPrototype := by
      simpa [start, array, handles, Object.insert, PropertyTable.insert, PropertyTable.insertEntry,
        Value.handles] using hh
    refine hm.intrinsics hintrinsics ?_
    simp [harray, handles]
  have hclosed := hm.pushObject hstart
  cases hallocate
  have hown : (Remit.apart ⟨m.objects.size⟩ true).Owns ⟨m.objects.size⟩ := .inr ⟨rfl, rfl⟩
  exact hclosed.touches ((Evaluator.arrayElements_stays (Evaluator.level_stays Remit.region_isOpen level)
    hown 0 before).touches hclosed helements)

/-- After some entries of an object literal nothing refers to the object. -/
theorem objectUpTo_apart {before : List Member} {o : ObjectId}
    (h : (Evaluator.level level).objectUpTo before m = .ok o m') : m'.ClosedIn (.apart o true) := by
  obtain ⟨i, m, hintrinsics, hrun⟩ := bind_eq_ok h
  obtain ⟨rfl, hintrinsics⟩ := lift_eq_ok hintrinsics
  obtain ⟨o', m₁, hnew, hrun⟩ := bind_eq_ok hrun
  obtain ⟨_, m₂, hmembers, hreturn⟩ := bind_eq_ok hrun
  cases hreturn
  let start : Object := { prototype := some i.objectPrototype, kind := .ordinary }
  have hstart : ∀ h ∈ handles start, h.Within m.bounds := by
    intro h hh
    have hobject : h = .object i.objectPrototype := by simpa [start, handles] using hh
    refine hm.intrinsics hintrinsics ?_
    simp [hobject, handles]
  have hclosed := hm.pushObject hstart
  cases hnew
  have hown : (Remit.apart ⟨m.objects.size⟩ true).Owns ⟨m.objects.size⟩ := .inr ⟨rfl, rfl⟩
  have hstays : Eval.StaysIn (.apart ⟨m.objects.size⟩ true)
      (before.forM ((Evaluator.level level).member ⟨m.objects.size⟩)) (Remit.apart _ true).Holds :=
    .forM fun entry _ => Evaluator.member_stays (Evaluator.level_stays Remit.region_isOpen level) hown entry
  exact hclosed.touches (hstays.touches hclosed hmembers)

end Literals

/-- What evaluation on a machine leaves alone. -/
structure Machine.EvaluatesLocally (m : Machine) (level : Nat) : Prop where
  evaluate : ∀ node, (evaluate level node).IsLocal m []
  expression : ∀ e, ((Evaluator.level level).expression e).IsLocal m []
  call : ∀ f thisValue arguments,
    ((Evaluator.level level).call f thisValue arguments).IsLocal m
      (handles f ++ handles thisValue ++ handles arguments)
  construct : ∀ f arguments newTarget,
    ((Evaluator.level level).construct f arguments newTarget).IsLocal m
      (handles f ++ handles arguments ++ handles newTarget)
  /-- After the first elements of an array literal, the evaluation of the next leaves the array alone. -/
  array : ∀ before e a m', (Evaluator.level level).arrayUpTo before m = .ok a m' →
    (((Evaluator.level level).value e).after m').object? a = m'.object? a
  /-- After the first entries of an object literal, the evaluation of the next leaves the object alone. -/
  object : ∀ before entry o m', (Evaluator.level level).objectUpTo before m = .ok o m' →
    (((Evaluator.level level).memberParts entry).after m').object? o = m'.object? o

/-- **Evaluation is local.** On a machine without dangling handles, whatever an evaluation, a call or a
construction does and however it ends: each object and environment that cannot be reached from the
context stack, the realms or the arguments is exactly the same afterwards, and it can still not be
reached, also not from what was returned or thrown. In particular an array or object literal under
construction is not altered by the evaluation of its later elements. -/
theorem evaluation_isLocal (m : Machine) (hm : m.InRange) (level : Nat) :
    m.EvaluatesLocally level where
  evaluate node := .of_stays (fun _ _ _ => evaluate_stays Remit.region_isOpen level node) m
  expression e := by
    refine .of_stays (fun _ _ _ => ?_) m
    exact ((Evaluator.level_stays Remit.region_isOpen level).expression e).imp fun v hv => ⟨hv.1, .inl trivial⟩
  call f thisValue arguments := by
    refine .of_stays (fun _ _ hgiven => ?_) m
    obtain ⟨hgiven, harguments⟩ := List.forall_mem_append.mp hgiven
    obtain ⟨hf, hthis⟩ := List.forall_mem_append.mp hgiven
    exact Evaluator.call_stays (Evaluator.level_stays Remit.region_isOpen level) ((Remit.region_holds_iff f).mpr hf)
      ((Remit.region_holds_iff thisValue).mpr hthis) ((Remit.region_holds_iff arguments).mpr harguments)
  construct f arguments newTarget := by
    refine .of_stays (fun _ _ hgiven => ?_) m
    obtain ⟨hgiven, htarget⟩ := List.forall_mem_append.mp hgiven
    obtain ⟨hf, harguments⟩ := List.forall_mem_append.mp hgiven
    exact Evaluator.construct_stays (Evaluator.level_stays Remit.region_isOpen level)
      ((Remit.region_holds_iff f).mpr hf) ((Remit.region_holds_iff arguments).mpr harguments)
      ((Remit.region_holds_iff newTarget).mpr htarget)
  array before e a m' h :=
    (arrayUpTo_apart hm level h).apart (Evaluator.value_stays (Evaluator.level_stays Remit.region_isOpen level) e)
  object before entry o m' h := by
    have hev : Evaluator.StaysIn (.apart o false) (Evaluator.level level) :=
      Evaluator.level_stays Remit.region_isOpen level
    have hparts : ((Evaluator.level level).memberParts entry).StaysIn (.apart o false)
        (Remit.apart o false).Holds :=
      .bind (Evaluator.memberKey_stays hev entry.name) fun key _ => Evaluator.valueNamed_stays hev _ key
    exact (objectUpTo_apart hm level h).apart hparts

/-- In a realm whose standard objects are all one object, another object is out of reach, and an object
literal is safe from what comes after its first entry. -/
theorem evaluation_isLocal_object :
    let plain : Object := { prototype := none, kind := .ordinary }
    let global : GlobalRecord :=
      { scope := ⟨⟨0⟩, false, none⟩, declarative := { outer := none }, globalThis := ⟨0⟩, varNames := [] }
    let m : Machine :=
      { objects := #[plain, plain]
        environments := #[.global global]
        realms := #[⟨⟨⟨0⟩, ⟨0⟩, ⟨0⟩, fun _ => ⟨0⟩⟩, ⟨0⟩, ⟨0⟩⟩]
        contexts := [⟨⟨0⟩, none, ⟨0⟩, ⟨0⟩, none, [], false⟩] }
    let first : Member := ⟨.value, .identifier "p", .object []⟩
    m.InRange ∧ ¬ m.Reaches [] (.object ⟨1⟩) ∧
      (∀ node, m.SameAt ((evaluate 9 node).after m) (.object ⟨1⟩)) ∧
      ∃ o m', (Evaluator.level 9).objectUpTo [first] m = .ok o m' ∧
        ∀ entry, (((Evaluator.level 9).memberParts entry).after m').object? o = m'.object? o := by
  intro plain global m first
  have hm : m.InRange := by decide
  have hreach : ¬ m.Reaches [] (.object ⟨1⟩) := by
    intro hreach
    have hclosed := Machine.closedIn_apart (m := m) (o := ⟨1⟩) (by decide) (by decide) false
    exact hclosed.reached (by simp) hreach rfl
  have hlocal := evaluation_isLocal m hm 9
  obtain ⟨o, m', hobject⟩ := Eval.exists_ok (x := (Evaluator.level 9).objectUpTo [first]) (m := m)
    (by decide)
  refine ⟨hm, hreach, fun node => ?_, o, m', hobject, fun entry => hlocal.object _ entry o m' hobject⟩
  exact (hlocal.evaluate node (.object ⟨1⟩) (by decide : (1 : Nat) < 2) hreach).1

end EcmaEval
