import EcmaEval.Proofs.Heap.Create
import EcmaEval.Proofs.Heap.Listing
import EcmaEval.Proofs.Heap.Open
import EcmaEval.Proofs.Host.Binding
import EcmaEval.Proofs.Host.Enumerate
import EcmaEval.Proofs.Host.WellFormed
import EcmaEval.Proofs.Sound.Arguments
import EcmaEval.Proofs.Sound.Pattern

/-!
# Patterns without expressions

A pattern that has neither defaults nor computed keys runs no code. In a declarative environment it gives the
names that it lists their values and touches nothing else, or it finds a source without properties or a
construct without support.
-/
namespace EcmaEval

mutual

/-- Whether there is no rest pattern outside array patterns. -/
def Pattern.restFree : Pattern → Bool
  | .identifier _ => true
  | .array _ => true
  | .object members => Pattern.membersRestFree members
  | .withDefault target _ => target.restFree
  | .rest _ => false

def Pattern.membersRestFree : List PatternMember → Bool
  | [] => true
  | .keyed _ target :: tail => target.restFree && Pattern.membersRestFree tail
  | .shorthand _ _ :: tail => Pattern.membersRestFree tail
  | .rest _ :: tail => Pattern.membersRestFree tail

end

namespace Machine

/-- Code is running on a sound machine whose mapped keys stand for bindings of declarative environments. -/
structure Ready (m : Machine) : Prop where
  sound : Contract.walks.Sound m
  maps : m.MapsDeclarative
  running : m.contexts ≠ []

/-- A declarative environment has bindings of the names that wait for their values. -/
def Expects (m : Machine) (env : EnvId) (names : List String) : Prop :=
  ∃ r, m.env? env = some (.declarative r) ∧ ∀ n ∈ names, ∃ b, r.get? n = some b ∧ b.value = none

/-- The names have got values in a declarative environment. Its other bindings, the other environments and the
objects that were there are the same, and nothing but objects has been added. -/
structure Fills (m : Machine) (env : EnvId) (names : List String) (m' : Machine) : Prop where
  filled : ∀ r, m.env? env = some (.declarative r) → ∃ r', m'.env? env = some (.declarative r') ∧
    r'.outer = r.outer ∧ r'.call = r.call ∧
    (∀ n ∈ names, ∀ b, r.get? n = some b → ∃ v, r'.get? n = some { b with value := some v }) ∧
    ∀ n, n ∉ names → r'.get? n = r.get? n
  objects : ∀ o, o.Within m.bounds → m'.object? o = m.object? o
  environments : ∀ e, e ≠ env → m'.env? e = m.env? e
  others : m' = { m with objects := m'.objects, environments := m'.environments }

/-- How binding a pattern without expressions may fail. -/
inductive Declines (m : Machine) : Abrupt → Prop
  | nullish {source : Value} {o : ObjectId} {obj : Object} {c : Context} {cs : List Context} {realm : Realm}
      (hsource : source.isNullish = true) (hcontexts : m.contexts = c :: cs)
      (hrealm : m.realm? c.realm = some realm) (ho : m.object? o = some obj)
      (hobj : obj = realm.errorFor (.cannotDestructure source.display))
      (hprototype : obj.prototype = some (realm.intrinsics.errorPrototype .typeError)) :
      m.Declines (.thrown (.object o))
  | array : m.Declines (.fault (.notImplemented .arrayDestructuring))
  | primitive : m.Declines (.fault (.notImplemented .primitiveToObject))
  | getter : m.Declines (.fault (.notImplemented .getter))

end Machine

/-- A run that has `Q` with more to come after it, or fails as the binding of a pattern may. -/
def Eval.Completes (x : Eval α) (m : Machine) (Q : Machine → α → Prop) : Prop :=
  match x m with
  | .ok a m' => m'.Ready ∧ Q m' a
  | .error e m' => m'.Declines e

variable {m m' m'' : Machine} {env : EnvId} {names names' : List String} {o source target : ObjectId}
  {obj dest : Object} {key : Key} {v : Value}

theorem Contract.walks_stored (h : v.Within m.bounds) : Contract.walks.Stored m.bounds v := ⟨h, False.elim⟩

theorem Machine.Ready.steps {A : Grant} (h : m.Ready) (hsteps : Contract.walks.Steps A m m')
    (hcontexts : m'.contexts = m.contexts) : m'.Ready :=
  ⟨Contract.Steps.sound hsteps h.sound, Contract.Steps.mapsDeclarative hsteps h.sound h.maps,
    hcontexts ▸ h.running⟩

namespace Machine.Fills

theorem refl (m : Machine) (env : EnvId) : m.Fills env [] m where
  filled r he := ⟨r, he, rfl, rfl, by simp, fun _ _ => rfl⟩
  objects _ _ := rfl
  environments _ _ := rfl
  others := rfl

theorem within (h : m.Fills env names m') (ho : o.Within m.bounds) : o.Within m'.bounds := by
  obtain ⟨obj, hobj⟩ := exists_object ho
  exact within_of_object? ((h.objects o ho).trans hobj)

theorem trans (h : m.Fills env names m') (h' : m'.Fills env names' m'') :
    m.Fills env (names ++ names') m'' where
  filled r he := by
    obtain ⟨r₁, he₁, houter₁, hcall₁, hfilled₁, hkept₁⟩ := h.filled r he
    obtain ⟨r₂, he₂, houter₂, hcall₂, hfilled₂, hkept₂⟩ := h'.filled r₁ he₁
    refine ⟨r₂, he₂, houter₂.trans houter₁, hcall₂.trans hcall₁, fun n hn b hb => ?_, fun n hn => ?_⟩
    · by_cases hn₁ : n ∈ names
      · obtain ⟨v, hv⟩ := hfilled₁ n hn₁ b hb
        by_cases hn₂ : n ∈ names'
        · obtain ⟨w, hw⟩ := hfilled₂ n hn₂ _ hv
          exact ⟨w, hw⟩
        · exact ⟨v, (hkept₂ n hn₂).trans hv⟩
      · have hn₂ : n ∈ names' := (List.mem_append.mp hn).resolve_left hn₁
        exact hfilled₂ n hn₂ b ((hkept₁ n hn₁).trans hb)
    · rw [List.mem_append, not_or] at hn
      exact (hkept₂ n hn.2).trans (hkept₁ n hn.1)
  objects o ho := (h'.objects o (h.within ho)).trans (h.objects o ho)
  environments e he := (h'.environments e he).trans (h.environments e he)
  others := by
    rw [h'.others, h.others]

theorem store {r : DeclarativeRecord} {name : String} (he : m.env? env = some (.declarative r)) (v : Value) :
    m.Fills env [name] (m.storeEnv env (.declarative (r.put name v))) where
  filled r' he' := by
    rw [he] at he'
    cases he'
    refine ⟨_, env?_storeEnv_self he _, rfl, rfl, fun n hn b hb => ?_, fun n hn => ?_⟩
    · obtain rfl := List.mem_singleton.mp hn
      exact ⟨v, DeclarativeRecord.get?_put_self hb v⟩
    · have hne : n ≠ name := fun h => hn (List.mem_singleton.mpr h)
      rw [DeclarativeRecord.get?_put]
      simp [hne]
  objects _ _ := rfl
  environments e hne := by rw [env?_storeEnv _ _ _ _ he, if_neg hne]
  others := rfl

/-- A new object may be given any properties. -/
theorem pushObject (m : Machine) (env : EnvId) (obj : Object) (f : Object → Object) :
    m.Fills env [] ((m.pushObject obj).updateObject ⟨m.objects.size⟩ f) where
  filled r he := ⟨r, he, rfl, rfl, by simp, fun _ _ => rfl⟩
  objects o ho := by
    have hne : o ≠ ⟨m.objects.size⟩ := by
      rintro rfl
      exact Nat.lt_irrefl _ ho
    rw [object?_updateObject, if_neg hne]
    exact object?_pushObject_of_within _ ho
  environments _ _ := rfl
  others := rfl

end Machine.Fills

namespace Machine.Expects

theorem mono (h : m.Expects env names) (hnames : names' ⊆ names) : m.Expects env names' :=
  have ⟨r, he, hwaiting⟩ := h
  ⟨r, he, fun n hn => hwaiting n (hnames hn)⟩

/-- What is still to come waits while names before it are filled. -/
theorem rest (h : m.Expects env (names ++ names')) (hnodup : (names ++ names').Nodup)
    (hfills : m.Fills env names m') : m'.Expects env names' := by
  obtain ⟨r, he, hwaiting⟩ := h
  obtain ⟨r', he', -, -, -, hkept⟩ := hfills.filled r he
  refine ⟨r', he', fun n hn => ?_⟩
  have hfresh : n ∉ names := fun hn' => (List.nodup_append.mp hnodup).2.2 n hn' n hn rfl
  rw [hkept n hfresh]
  exact hwaiting n (List.mem_append_right _ hn)

end Machine.Expects

namespace Eval.Completes

variable {x : Eval α} {f : α → Eval β} {P : Machine → α → Prop} {Q : Machine → β → Prop}

theorem of_ok {a : α} (hrun : x m = .ok a m') (hready : m'.Ready) (h : P m' a) : x.Completes m P := by
  unfold Completes
  rw [hrun]
  exact ⟨hready, h⟩

theorem of_error {e : Abrupt} (hrun : x m = .error e m') (h : m'.Declines e) : x.Completes m P := by
  unfold Completes
  rw [hrun]
  exact h

theorem pure {a : α} (hready : m.Ready) (h : P m a) : (Pure.pure a : Eval α).Completes m P :=
  of_ok rfl hready h

theorem bind (hx : x.Completes m P) (hf : ∀ a m', m'.Ready → P m' a → (f a).Completes m' Q) :
    (x >>= f).Completes m Q := by
  unfold Completes at hx
  cases hrun : x m with
  | ok a m' =>
    rw [hrun] at hx
    have hrest := hf a m' hx.1 hx.2
    unfold Completes at hrest ⊢
    rwa [bind_ok hrun]
  | error e m' =>
    rw [hrun] at hx
    exact of_error (bind_error hrun) hx

theorem query {q : Query α} {a : α} (hq : q m = .ok a) (hf : (f a).Completes m Q) :
    ((liftM q : Eval α) >>= f).Completes m Q := by
  unfold Completes at hf ⊢
  rwa [bind_ok (lift_ok hq)]

theorem imp {P' : Machine → α → Prop} (hx : x.Completes m P) (h : ∀ m' a, P m' a → P' m' a) :
    x.Completes m P' := by
  unfold Completes at hx ⊢
  split at hx
  · exact ⟨hx.1, h _ _ hx.2⟩
  · exact hx

/-- First some names are filled and then the rest of them. -/
theorem fill {x : Eval Unit} {f : Unit → Eval Unit} (hx : x.Completes m fun m' _ => m.Fills env names m')
    (hf : ∀ m', m'.Ready → m.Fills env names m' →
      (f ()).Completes m' fun m'' _ => m'.Fills env names' m'') :
    (x >>= f).Completes m fun m' _ => m.Fills env (names ++ names') m' :=
  hx.bind fun _ m' hready hfills => (hf m' hready hfills).imp fun _ _ h => hfills.trans h

end Eval.Completes

section Ready

variable (h : m.Ready)

include h

theorem Machine.Ready.realm : ∃ c cs realm, m.contexts = c :: cs ∧ m.realm? c.realm = some realm := by
  cases hcontexts : m.contexts with
  | nil => exact absurd hcontexts h.running
  | cons c cs =>
    obtain ⟨realm, hrealm⟩ := Machine.exists_realm (h.sound.head hcontexts).realm
    exact ⟨c, cs, realm, rfl, hrealm⟩

theorem ObjectId.readOwn_ends (ho : m.object? o = some obj) (key : Key) :
    (∃ found, readOwn key o m = .ok found) ∨ readOwn key o m = .error (.fault (.notImplemented .getter)) := by
  obtain ⟨mapped, hmapped⟩ := mappedValue_total h.maps ho key
  unfold readOwn
  rw [Query.bind_ok hmapped]
  cases mapped with
  | some v => exact .inl ⟨some v, rfl⟩
  | none =>
    dsimp only
    rw [Query.bind_ok (load_eq ho)]
    cases obj.properties.get? key with
    | none => exact .inl ⟨none, rfl⟩
    | some d =>
      cases d with
      | data value writable enumerable configurable => exact .inl ⟨some value, rfl⟩
      | accessor get set enumerable configurable =>
        dsimp only
        split
        · exact .inl ⟨some .undefined, rfl⟩
        · exact .inr rfl

omit h in
/-- A search ends with an answer unless a probe fails. -/
theorem findOnChain_ends {probe : ObjectId → Query (Option β)} {start : Option ObjectId} {l : List ObjectId}
    {steps : Nat} {e : Abrupt} (hchain : m.Chain start l) (hsteps : l.length ≤ steps)
    (hprobe : ∀ o obj, m.object? o = some obj → (∃ b, probe o m = .ok b) ∨ probe o m = .error e) :
    (∃ b, findOnChain probe steps start m = .ok b) ∨ findOnChain probe steps start m = .error e := by
  induction hchain generalizing steps with
  | nil => exact .inl ⟨none, by unfold findOnChain; rfl⟩
  | @cons o obj l hobj _ ih =>
    cases steps with
    | zero => cases hsteps
    | succ steps =>
      unfold findOnChain
      rcases hprobe o obj hobj with ⟨b, hb⟩ | herror
      · rw [Query.bind_ok hb]
        cases b with
        | some b => exact .inl ⟨some b, rfl⟩
        | none =>
          dsimp only
          rw [Query.bind_ok (ObjectId.load_eq hobj)]
          exact ih (Nat.le_of_succ_le_succ hsteps)
      · exact .inr (Query.bind_error herror)

theorem searchChain_ends {probe : ObjectId → Query (Option β)} {e : Abrupt} (ho : o.Within m.bounds)
    (hprobe : ∀ o obj, m.object? o = some obj → (∃ b, probe o m = .ok b) ∨ probe o m = .error e) :
    (∃ b, searchChain (some o) probe m = .ok b) ∨ searchChain (some o) probe m = .error e := by
  obtain ⟨l, hl⟩ := h.sound.chain (some o) fun p hp => by
    cases hp
    exact ho
  exact findOnChain_ends hl (Nat.le_succ_of_le hl.length_le) hprobe

/-- A property is read unless it has a getter. -/
theorem ObjectId.get_ends (ho : o.Within m.bounds) (key : Key) :
    (∃ v, o.get key m = .ok v ∧ v.Within m.bounds) ∨
      o.get key m = .error (.fault (.notImplemented .getter)) := by
  rcases searchChain_ends h ho fun p obj hobj => readOwn_ends h hobj key with ⟨b, hb⟩ | herror
  · have hget : o.get key m = .ok (b.getD .undefined) := Query.bind_ok hb
    have hasks : Contract.walks.Asks m (o.get key) (Contract.walks.Stored m.bounds) := get_asks ho
    have hstored := hasks h.sound
    rw [hget] at hstored
    exact .inl ⟨_, hget, hstored.1⟩
  · exact .inr (Query.bind_error herror)

theorem bindName_completes {name : String} (hname : m.Expects env [name]) (hv : v.Within m.bounds) :
    (bindName (some env) name v).Completes m fun m' _ => m.Fills env [name] m' := by
  obtain ⟨r, he, hwaiting⟩ := hname
  obtain ⟨b, hb, hvalue⟩ := hwaiting name List.mem_cons_self
  have hinit : r.initBinding name v = .ok (r.put name v) := by
    simp [DeclarativeRecord.initBinding, hb, hvalue]
  have hrun := EnvId.initBinding_acts hinit m he
  have hbinds : Contract.walks.Binds m.grant m (some env) [name] :=
    ⟨fun e he' => by cases he'; exact Machine.within_of_env? he, False.elim, False.elim, False.elim⟩
  have hsteps := ((bindName_runs hbinds (Contract.walks_stored hv)).ok (.refl _) h.sound hrun).1
  exact .of_ok hrun (h.steps hsteps rfl) (.store he v)

theorem copyKeys_completes (hs : source.Within m.bounds) (ht : m.object? target = some dest)
    (hopen : dest.Open) (keys : List Key) :
    (copyKeys target source keys).Completes m fun m' _ => ∃ f, m' = m.updateObject target f := by
  induction keys generalizing m dest with
  | nil => exact .pure h ⟨id, (Machine.updateObject_of_eq ht rfl).symm⟩
  | cons key rest ih =>
    obtain ⟨obj, hobj⟩ := Machine.exists_object hs
    obtain ⟨own, hown, -⟩ := ObjectId.getOwnProperty_total h.maps hobj key
    unfold copyKeys
    refine .query hown ?_
    cases own with
    | none => exact ih h hs ht hopen
    | some d =>
      dsimp only
      split
      · rcases ObjectId.get_ends h hs key with ⟨v, hget, hv⟩ | hgetter
        · refine .query hget ?_
          have hrun := hopen.createPropertyOrThrow_eq ht key v
          have hsteps := ((ObjectId.createPropertyOrThrow_runs (Machine.within_of_object? ht)
            (Contract.walks_stored hv)).ok (.refl m.grant) h.sound hrun).1
          have hready := h.steps hsteps rfl
          have hcreate : (target.createPropertyOrThrow key v).Completes m fun m₁ _ =>
              m₁ = m.updateObject target (·.insert key (.plain v)) := .of_ok hrun hready rfl
          refine hcreate.bind fun _ m₁ _ hm₁ => ?_
          subst hm₁
          refine (ih hready (by simpa using hs) (Machine.object?_updateObject_self ht _)
            (hopen.insert key rfl)).imp ?_
          rintro m'' - ⟨f, hf⟩
          exact ⟨_, hf.trans (Machine.updateObject_updateObject m target _ f)⟩
        · exact .of_error (bind_error (lift_error hgetter)) .getter
      · exact ih h hs ht hopen

theorem newObject_completes {prototype : Option ObjectId}
    (hprototype : ∀ p, prototype = some p → p.Within m.bounds) :
    (newObject prototype).Completes m fun m' o =>
      m' = m.pushObject { prototype, kind := .ordinary } ∧ o = ⟨m.objects.size⟩ := by
  have hrun : newObject prototype m = .ok ⟨m.objects.size⟩ (m.pushObject { prototype, kind := .ordinary }) := rfl
  have hsteps := ((newObject_runs (A := m.grant) hprototype).ok (.refl _) h.sound hrun).1
  exact .of_ok hrun (h.steps hsteps rfl) ⟨rfl, rfl⟩

omit h in
/-- What is left of an object goes to a new one. -/
theorem copyProperties_completes {prototype : Option ObjectId}
    (h : (m.pushObject { prototype, kind := .ordinary }).Ready) (hs : source.Within m.bounds) (env : EnvId)
    (excluded : List Key) :
    (copyProperties ⟨m.objects.size⟩ source excluded).Completes (m.pushObject { prototype, kind := .ordinary })
      fun m' _ => m.Fills env [] m' ∧ ObjectId.Within m'.bounds ⟨m.objects.size⟩ := by
  let new : Object := { prototype, kind := .ordinary }
  have hopen : new.Open := ⟨rfl, rfl, fun _ => rfl, nofun⟩
  have htarget : (m.pushObject new).object? ⟨m.objects.size⟩ = some new := m.object?_pushObject_self new
  have hs₁ : source.Within (m.pushObject new).bounds := by
    simp only [Machine.bounds_pushObject]
    exact Nat.lt_succ_of_lt hs
  obtain ⟨obj, hobj⟩ := Machine.exists_object hs₁
  have hkeys : source.ownKeys (m.pushObject new) = .ok obj.properties.orderedKeys :=
    Query.bind_ok (ObjectId.load_eq hobj)
  refine .query hkeys ((copyKeys_completes h hs₁ htarget hopen _).imp fun m' _ ⟨f, hf⟩ => ?_)
  subst hf
  refine ⟨.pushObject m env new f, ?_⟩
  rw [Machine.bounds_updateObject]
  exact Machine.within_of_object? htarget

end Ready

namespace Evaluator

mutual

/-- No evaluator is asked for anything. -/
theorem bindPattern_congr (ev ev' : Evaluator) (env : Option EnvId) (p : Pattern)
    (hp : p.containsExpression = false) : ev.bindPattern env p = ev'.bindPattern env p := by
  cases p with
  | identifier name => rfl
  | array elements => rfl
  | withDefault target default => cases hp
  | rest target => rfl
  | object members =>
    funext v
    unfold Pattern.containsExpression at hp
    unfold bindPattern
    simp only [bindMembers_congr ev ev' env _ members [] hp]

theorem bindMembers_congr (ev ev' : Evaluator) (env : Option EnvId) (source : ObjectId)
    (members : List PatternMember) (taken : List Key)
    (hmembers : Pattern.membersContainExpression members = false) :
    ev.bindMembers env source members taken = ev'.bindMembers env source members taken := by
  cases members with
  | nil => rfl
  | cons member rest =>
    cases member with
    | shorthand name default =>
      unfold Pattern.membersContainExpression at hmembers
      obtain ⟨hdefault, hrest⟩ := Bool.or_eq_false_iff.mp hmembers
      cases default with
      | some default => cases hdefault
      | none =>
        unfold bindMembers
        simp only [bindMembers_congr ev ev' env source rest _ hrest]
    | keyed name target =>
      cases name with
      | computed key => cases hmembers
      | identifier name | string name | number n =>
        unfold Pattern.membersContainExpression at hmembers
        obtain ⟨htarget, hrest⟩ := Bool.or_eq_false_iff.mp hmembers
        unfold bindMembers
        simp only [memberKey, bindPattern_congr ev ev' env target htarget,
          bindMembers_congr ev ev' env source rest _ hrest]
    | rest name =>
      unfold Pattern.membersContainExpression at hmembers
      unfold bindMembers
      simp only [bindMembers_congr ev ev' env source rest _ hmembers]

end

mutual

/-- The names of a pattern are filled, those of each part after those of the parts before it. -/
theorem bindPattern_completes (ev : Evaluator) (m : Machine) (env : EnvId) (p : Pattern) (v : Value)
    (h : m.Ready) (hp : p.containsExpression = false) (hrest : p.restFree = true)
    (hnames : m.Expects env p.boundNames) (hnodup : p.boundNames.Nodup) (hv : v.Within m.bounds) :
    (ev.bindPattern (some env) p v).Completes m fun m' _ => m.Fills env p.boundNames m' := by
  cases p with
  | identifier name => exact bindName_completes h hnames hv
  | array elements => exact .of_error rfl .array
  | withDefault target default => cases hp
  | rest target => cases hrest
  | object members =>
    unfold bindPattern
    split
    · obtain ⟨c, cs, realm, hcontexts, hrealm⟩ := h.realm
      exact .of_error (complain_eq hcontexts hrealm _)
        (.nullish ‹_› hcontexts hrealm (m.object?_pushObject_self _) rfl rfl)
    · rename_i hsource
      cases v with
      | object source => exact bindMembers_completes ev m env source members [] h hp hrest hnames hnodup hv
      | undefined | null => exact absurd rfl hsource
      | _ => exact .of_error rfl .primitive

theorem bindMembers_completes (ev : Evaluator) (m : Machine) (env : EnvId) (source : ObjectId)
    (members : List PatternMember) (taken : List Key) (h : m.Ready)
    (hmembers : Pattern.membersContainExpression members = false)
    (hfree : Pattern.membersRestFree members = true)
    (hnames : m.Expects env (Pattern.memberNames members)) (hnodup : (Pattern.memberNames members).Nodup)
    (hs : source.Within m.bounds) :
    (ev.bindMembers (some env) source members taken).Completes m
      fun m' _ => m.Fills env (Pattern.memberNames members) m' := by
  cases members with
  | nil => exact .pure h (.refl m env)
  | cons member rest =>
    cases member with
    | shorthand name default =>
      unfold Pattern.membersContainExpression at hmembers
      obtain ⟨hdefault, hrest⟩ := Bool.or_eq_false_iff.mp hmembers
      have hnames : m.Expects env ([name] ++ Pattern.memberNames rest) := hnames
      cases default with
      | some default => cases hdefault
      | none =>
        unfold bindMembers
        rcases ObjectId.get_ends h hs (.name name) with ⟨v, hget, hv⟩ | hgetter
        · have hfirst := bindName_completes h (hnames.mono (List.subset_append_left _ _)) hv
          refine .query hget (hfirst.fill fun m' hready hfills => ?_)
          exact bindMembers_completes ev m' env source rest _ hready hrest hfree (hnames.rest hnodup hfills)
            (List.nodup_cons.mp hnodup).2 (hfills.within hs)
        · exact .of_error (bind_error (lift_error hgetter)) .getter
    | keyed name target =>
      have hnames : m.Expects env (target.boundNames ++ Pattern.memberNames rest) := hnames
      obtain ⟨htargetFree, hrestFree⟩ := Bool.and_eq_true_iff.mp hfree
      -- without expressions the key is known before the source is read
      have hkey : ∃ key, ev.memberKey name = pure key ∧ target.containsExpression = false ∧
          Pattern.membersContainExpression rest = false := by
        cases name with
        | computed key => cases hmembers
        | _ => exact ⟨_, rfl, Bool.or_eq_false_iff.mp hmembers⟩
      obtain ⟨key, hkey, htarget, hrest⟩ := hkey
      unfold bindMembers
      rw [hkey, pure_bind]
      rcases ObjectId.get_ends h hs key with ⟨v, hget, hv⟩ | hgetter
      · have hfirst := bindPattern_completes ev m env target v h htarget htargetFree
          (hnames.mono (List.subset_append_left _ _)) (List.nodup_append.mp hnodup).1 hv
        refine .query hget (hfirst.fill fun m' hready hfills => ?_)
        exact bindMembers_completes ev m' env source rest _ hready hrest hrestFree
          (hnames.rest hnodup hfills) (List.nodup_append.mp hnodup).2.1 (hfills.within hs)
      · exact .of_error (bind_error (lift_error hgetter)) .getter
    | rest name =>
      have hnames : m.Expects env ([] ++ ([name] ++ Pattern.memberNames rest)) := hnames
      obtain ⟨c, cs, realm, hcontexts, hrealm⟩ := h.realm
      have hprototype := (h.sound.realms c.realm realm hrealm).intrinsics.objectPrototype
      unfold bindMembers
      refine .query (intrinsics_eq hcontexts hrealm) ?_
      refine (newObject_completes h fun p hp => by cases hp; exact hprototype).bind
        fun others m₁ hready₁ ⟨hm₁, hothers⟩ => ?_
      subst hm₁ hothers
      -- a getter may end the copy before the name of the rest is bound
      refine (copyProperties_completes hready₁ hs env taken).bind fun _ m₂ hready₂ ⟨hfills₂, hothers⟩ => ?_
      have hnames₂ : m₂.Expects env ([name] ++ Pattern.memberNames rest) := hnames.rest hnodup hfills₂
      have hfirst : (bindName (some env) name (.object ⟨m.objects.size⟩)).Completes m₂ _ :=
        bindName_completes hready₂ (hnames₂.mono (List.subset_append_left _ _)) hothers
      refine (hfirst.fill fun m₃ hready₃ hfills₃ => ?_).imp fun m' _ hfills => hfills₂.trans hfills
      exact bindMembers_completes ev m₃ env source rest _ hready₃ hmembers hfree (hnames₂.rest hnodup hfills₃)
        (List.nodup_cons.mp hnodup).2 (hfills₃.within (hfills₂.within hs))

end

end Evaluator

/-- **Patterns without expressions.** While code is running on a sound machine, let a declarative environment
have uninitialized bindings of the different names of a pattern that contains no expression. Binding the pattern
to any value evaluates nothing. If it succeeds, these bindings have values, and every other binding, every other
environment and every object is as it was. If it fails, it throws a type error because a source is undefined or
null, or it meets an array pattern, a source that is another primitive value, or a getter. -/
theorem bindPattern_fills_boundNames {g : Contract} {p : Pattern} (ev : Evaluator) (hm : g.Sound m)
    (hmaps : m.MapsDeclarative) (hrunning : m.contexts ≠ []) (hp : p.containsExpression = false)
    (hrest : p.restFree = true) (hnodup : p.boundNames.Nodup) (hnames : m.Expects env p.boundNames)
    (hv : v.Within m.bounds) :
    (∀ ev' : Evaluator, ev'.bindPattern (some env) p v = ev.bindPattern (some env) p v) ∧
      (∀ m', ev.bindPattern (some env) p v m = .ok () m' → m.Fills env p.boundNames m') ∧
      ∀ e m', ev.bindPattern (some env) p v m = .error e m' → m'.Declines e := by
  have hready : m.Ready := ⟨hm.weaken (Contract.walks_weaker g), hmaps, hrunning⟩
  have hcompletes := Evaluator.bindPattern_completes ev m env p v hready hp hrest hnames hnodup hv
  unfold Eval.Completes at hcompletes
  refine ⟨fun ev' => congrFun (Evaluator.bindPattern_congr ev' ev (some env) p hp) v, fun m' hrun => ?_,
    fun e m' hrun => ?_⟩
  · rw [hrun] at hcompletes
    exact hcompletes.2
  · rw [hrun] at hcompletes
    exact hcompletes

/-- Bindings that can be seen to wait for their values do. -/
theorem Machine.expects_of_check {env : EnvId} {names : List String}
    (h : (match m.env? env with
      | some (.declarative r) => names.all fun n => (r.get? n).any (·.value.isNone)
      | _ => false) = true) : m.Expects env names := by
  split at h
  · rename_i r he
    refine ⟨r, he, fun n hn => ?_⟩
    obtain ⟨b, hb, hvalue⟩ := (Option.any_eq_true _ _).mp (List.all_eq_true.mp h n hn)
    exact ⟨b, hb, Option.isNone_iff_eq_none.mp hvalue⟩
  · cases h

/-- A property and what is left of an object are bound. -/
theorem bindPattern_fills_boundNames_rest :
    let p : Pattern := .object [.shorthand "a" none, .rest "others"]
    let m₁ := Operation.newRealm.run.after {}
    let m₂ := (Operation.pushScriptContext ⟨0⟩ false).run.after m₁
    let m₃ := (Operation.newObject none).run.after m₂
    let m₄ := (Operation.createProperty ⟨14⟩ (.name "b") (.boolean true)).run.after m₃
    let m₅ := (Operation.newDeclarativeEnvironment none).run.after m₄
    let m₆ := (Operation.createMutable ⟨1⟩ "a" false).run.after m₅
    let m₇ := (Operation.createMutable ⟨1⟩ "others" false).run.after m₆
    ∃ m₈, (Evaluator.level 0).bindPattern (some ⟨1⟩) p (.object ⟨14⟩) m₇ = .ok () m₈ ∧
      m₇.Fills ⟨1⟩ ["a", "others"] m₈ := by
  intro p m₁ m₂ m₃ m₄ m₅ m₆ m₇
  have hrealm : RealmId.Within m₁.bounds ⟨0⟩ := by decide +kernel
  have ho₃ : ObjectId.Within m₃.bounds ⟨14⟩ := by decide +kernel
  have ho₇ : ObjectId.Within m₇.bounds ⟨14⟩ := by decide +kernel
  have hsource : (Value.object ⟨14⟩).Within m₇.bounds := ho₇
  have henv₅ : EnvId.Within m₅.bounds ⟨1⟩ := by decide +kernel
  have henv₆ : EnvId.Within m₆.bounds ⟨1⟩ := by decide +kernel
  have h₂ : Contract.checks.Reachable m₂ :=
    ((Contract.Reachable.new _).perform .newRealm trivial).perform (.pushScriptContext ⟨0⟩ false) hrealm
  have h₄ : Contract.checks.Reachable m₄ :=
    (h₂.perform (.newObject none) fun p hp => by cases hp).perform (.createProperty ⟨14⟩ (.name "b") (.boolean true))
      ⟨ho₃, trivial, fun _ => rfl⟩
  have h₇ : Contract.checks.Reachable m₇ :=
    ((h₄.perform (.newDeclarativeEnvironment none) fun e he => by cases he).perform
      (.createMutable ⟨1⟩ "a" false) henv₅).perform
      (.createMutable ⟨1⟩ "others" false) henv₆
  have hrunning : m₇.contexts ≠ [] := by
    have hsome : m₇.contexts.isEmpty = false := by decide +kernel
    exact fun h => by simp [h] at hsome
  have hnames : m₇.Expects ⟨1⟩ p.boundNames := Machine.expects_of_check (by decide +kernel)
  obtain ⟨_, m₈, hrun⟩ := Eval.exists_ok (x := (Evaluator.level 0).bindPattern (some ⟨1⟩) p (.object ⟨14⟩))
    (m := m₇) (by decide +kernel)
  obtain ⟨-, hfills, -⟩ := bindPattern_fills_boundNames (Evaluator.level 0) (h₇.sound Contract.checks_open)
    (h₇.mapsDeclarative Contract.checks_open) hrunning (p := p) rfl rfl (by decide) hnames hsource
  exact ⟨m₈, hrun, hfills m₈ hrun⟩

end EcmaEval
