import EcmaEval.Proofs.Heap.Runs
import Mathlib.Data.List.Nodup
import Mathlib.Data.List.Perm.Subperm
import Mathlib.Data.List.Range

/-!
# Chains

The prototype chain of an object of a sound machine is a finite list of different objects, and the
scope chain of an environment descends. So the searches along both end before their steps run out.
-/
namespace EcmaEval

/-- The objects of a prototype chain, nearest first. -/
inductive Machine.Chain (m : Machine) : Option ObjectId → List ObjectId → Prop
  | nil : Machine.Chain m none []
  | cons (ho : m.object? o = some obj) (h : Machine.Chain m obj.prototype l) :
      Machine.Chain m (some o) (o :: l)

namespace Machine.Chain

variable {m : Machine} {start : Option ObjectId} {l l' : List ObjectId}

theorem unique (h : m.Chain start l) (h' : m.Chain start l') : l = l' := by
  induction h generalizing l' with
  | nil =>
    cases h'
    rfl
  | cons ho _ ih =>
    cases h' with
    | cons ho' h' =>
      rw [ho] at ho'
      cases ho'
      rw [ih h']

theorem within (h : m.Chain start l) : ∀ o ∈ l, o.Within m.bounds := by
  induction h with
  | nil => simp
  | cons ho _ ih =>
    intro o hmem
    rcases List.mem_cons.mp hmem with rfl | hmem
    · exact within_of_object? ho
    · exact ih o hmem

/-- The chain of an object on a chain is a part of it. -/
theorem suffix (h : m.Chain start l) {o : ObjectId} (ho : o ∈ l) :
    ∃ l', m.Chain (some o) l' ∧ l' ⊆ l ∧ l'.length ≤ l.length := by
  induction h with
  | nil => simp at ho
  | @cons o' obj l hobj hchain ih =>
    rcases List.mem_cons.mp ho with rfl | ho
    · exact ⟨_, .cons hobj hchain, List.Subset.refl _, Nat.le_refl _⟩
    · obtain ⟨l', hl', hsub, hlength⟩ := ih ho
      exact ⟨l', hl', List.subset_cons_of_subset _ hsub, Nat.le_succ_of_le hlength⟩

theorem closed (h : m.Chain start l) {x y : ObjectId} (hx : x ∈ l) (hy : m.IsPrototype y x) :
    y ∈ l := by
  obtain ⟨l', hl', hsub, -⟩ := h.suffix hx
  obtain ⟨obj, hobj, hproto⟩ := hy
  cases hl' with
  | cons hobj' hrest =>
    rw [hobj] at hobj'
    cases hobj'
    rw [hproto] at hrest
    cases hrest with
    | cons _ _ => exact hsub (by simp)

theorem nodup (h : m.Chain start l) : l.Nodup := by
  induction h with
  | nil => exact .nil
  | @cons o obj l hobj hchain ih =>
    refine List.nodup_cons.mpr ⟨fun hmem => ?_, ih⟩
    -- The chain of an object that came again would be longer than itself.
    obtain ⟨l', hl', -, hlength⟩ := hchain.suffix hmem
    have hsame := unique hl' (.cons hobj hchain)
    rw [hsame] at hlength
    exact absurd hlength (by simp)

theorem length_le (h : m.Chain start l) : l.length ≤ m.objects.size := by
  have hinj : Function.Injective ObjectId.index := fun a b hab => by
    cases a
    cases b
    simpa using hab
  have hnodup : (l.map ObjectId.index).Nodup := List.Nodup.map hinj h.nodup
  have hsub : l.map ObjectId.index ⊆ List.range m.objects.size := by
    intro i hi
    obtain ⟨o, ho, rfl⟩ := List.mem_map.mp hi
    exact List.mem_range.mpr (h.within o ho)
  simpa using (List.subperm_of_subset hnodup hsub).length_le

end Machine.Chain

variable {g : Contract} {m : Machine}

theorem Contract.Sound.chain (hm : g.Sound m) (start : Option ObjectId)
    (hstart : ∀ o, start = some o → o.Within m.bounds) : ∃ l, m.Chain start l := by
  have hsome (o : ObjectId) : o.Within m.bounds → ∃ l, m.Chain (some o) l := by
    induction o using hm.prototypes.induction with
    | _ o ih =>
      intro ho
      obtain ⟨obj, hobj⟩ := Machine.exists_object ho
      cases hproto : obj.prototype with
      | none => exact ⟨[o], .cons hobj (by rw [hproto]; exact .nil)⟩
      | some p =>
        obtain ⟨l, hl⟩ := ih p ⟨obj, hobj, hproto⟩ ((hm.objects o obj hobj).prototype p hproto)
        exact ⟨o :: l, .cons hobj (by rw [hproto]; exact hl)⟩
  cases start with
  | none => exact ⟨[], .nil⟩
  | some o => exact hsome o (hstart o rfl)

/-- A search gives the answer of a probe on the chain, or none of them gives any. -/
theorem findOnChain_asks {probe : ObjectId → Query (Option β)} {P : β → Prop} {steps : Nat}
    {start : Option ObjectId} {l : List ObjectId} (hchain : m.Chain start l)
    (hsteps : l.length ≤ steps)
    (hprobe : ∀ o ∈ l, g.Asks m (probe o) fun b => ∀ v, b = some v → P v) :
    g.Asks m (findOnChain probe steps start) fun b =>
      (∀ v, b = some v → P v) ∧ (b = none → ∀ o ∈ l, probe o m = .ok none) := by
  induction hchain generalizing steps with
  | nil =>
    unfold findOnChain
    exact .pure ⟨by simp, by simp⟩
  | @cons o obj l hobj _ ih =>
    cases steps with
    | zero => simp at hsteps
    | succ steps =>
      unfold findOnChain
      refine .bind (hprobe o (by simp)) fun b hrun hP => ?_
      cases b with
      | some v => exact .pure ⟨hP, by simp⟩
      | none =>
        refine .bind (ObjectId.load_asks (Machine.within_of_object? hobj)) fun obj' _ hobj' => ?_
        rw [hobj] at hobj'
        cases hobj'
        refine (ih (Nat.le_of_succ_le_succ hsteps) fun o ho => hprobe o (by simp [ho])).imp ?_
        rintro b ⟨hsome, hnone⟩
        refine ⟨hsome, fun hb o' ho' => ?_⟩
        rcases List.mem_cons.mp ho' with rfl | ho'
        · exact hrun
        · exact hnone hb o' ho'

theorem searchChain_asks {probe : ObjectId → Query (Option β)} {P : β → Prop}
    {start : Option ObjectId} (hstart : ∀ o, start = some o → o.Within m.bounds)
    (hprobe : ∀ o, o.Within m.bounds → g.Asks m (probe o) fun b => ∀ v, b = some v → P v) :
    g.Asks m (searchChain start probe) fun b =>
      (∀ v, b = some v → P v) ∧
        (b = none → ∀ l, m.Chain start l → ∀ o ∈ l, probe o m = .ok none) := by
  refine .of_sound fun hm => ?_
  obtain ⟨l, hl⟩ := hm.chain start hstart
  have hfind := findOnChain_asks (g := g) hl (Nat.le_succ_of_le hl.length_le)
    fun o ho => hprobe o (hl.within o ho)
  intro hm
  refine (hfind.imp fun b ⟨hsome, hnone⟩ => ⟨hsome, fun hb l' hl' => ?_⟩) hm
  rw [hl'.unique hl]
  exact hnone hb

/-- The outermost environment of checked code is a global one. -/
theorem Contract.Sound.root (hm : g.Sound m) (hc : g.checked) {env : EnvId} {e : Environment}
    (he : m.env? env = some e) (houter : e.outer? = none) : ∃ r, e = .global r := by
  cases hm.environments env e he with
  | declarative _ hroot _ => exact absurd (hroot hc) (by simp_all [Environment.outer?])
  | object _ hroot _ => exact absurd (hroot hc) (by simp_all [Environment.outer?])
  | global => exact ⟨_, rfl⟩

/-- Outer environments descend, so an index bounds the search from it. In checked code a search that
finds nothing has tried a global environment. -/
theorem findOnScopeChain_asks {probe : EnvId → Query Bool} {P : EnvId → Prop} {steps : Nat}
    {start : Option EnvId} (hstart : ∀ env, start = some env → env.Within m.bounds)
    (hsteps : ∀ env, start = some env → env.index < steps)
    (hprobe : ∀ env, env.Within m.bounds → g.Asks m (probe env) fun b => b = true → P env) :
    g.Asks m (findOnScopeChain probe steps start) fun found =>
      (∀ env, found = some env → P env) ∧
        (found = none → start ≠ none → g.checked →
          ∃ root r, m.env? root = some (.global r) ∧ probe root m = .ok false) := by
  refine .of_sound fun hm => ?_
  induction steps generalizing start with
  | zero =>
    cases start with
    | none => exact .pure ⟨by simp, by simp⟩
    | some env => exact absurd (hsteps env rfl) (Nat.not_lt_zero _)
  | succ steps ih =>
    cases start with
    | none => exact .pure ⟨by simp, by simp⟩
    | some env =>
      have henv := hstart env rfl
      unfold findOnScopeChain
      refine .bind (hprobe env henv) fun b hrun hP => ?_
      cases b with
      | true => exact .pure ⟨fun _ h => by cases h; exact hP rfl, by simp⟩
      | false =>
        refine .bind (EnvId.load_asks henv) fun e _ he => ?_
        have hok := hm.environments env e he
        have hrest := @ih e.outer? (fun outer hout => Nat.lt_trans (hok.outer hout) henv)
          fun outer hout => Nat.lt_of_lt_of_le (hok.outer hout) (Nat.le_of_lt_succ (hsteps env rfl))
        refine hrest.imp ?_
        rintro found ⟨hsome, hnone⟩
        refine ⟨hsome, fun hfound _ hc => ?_⟩
        cases houter : e.outer? with
        | none =>
          obtain ⟨r, rfl⟩ := hm.root hc he houter
          exact ⟨env, r, he, hrun⟩
        | some outer => exact hnone hfound (by simp [houter]) hc

theorem searchScopeChain_asks {probe : EnvId → Query Bool} {P : EnvId → Prop} {env : EnvId}
    (henv : env.Within m.bounds)
    (hprobe : ∀ env, env.Within m.bounds → g.Asks m (probe env) fun b => b = true → P env) :
    g.Asks m (searchScopeChain (some env) probe) fun found =>
      (∀ env, found = some env → P env) ∧
        (found = none → g.checked →
          ∃ root r, m.env? root = some (.global r) ∧ probe root m = .ok false) := by
  intro hm
  have hstart (e : EnvId) (h : some env = some e) : e.Within m.bounds := by
    cases h
    exact henv
  have hfind : g.Asks m (findOnScopeChain probe (m.environments.size + 1) (some env)) _ :=
    findOnScopeChain_asks hstart (fun e h => Nat.lt_succ_of_lt (hstart e h)) hprobe
  exact (hfind.imp fun found ⟨hsome, hnone⟩ => ⟨hsome, fun hf => hnone hf (by simp)⟩) hm

/-- A search ends where it starts if the probe answers there. -/
theorem searchScopeChain_here {probe : EnvId → Query Bool} {env : EnvId}
    (h : probe env m = .ok true) : searchScopeChain (some env) probe m = .ok (some env) := by
  change findOnScopeChain probe (m.environments.size + 1) (some env) m = _
  unfold findOnScopeChain
  rw [Query.bind_ok h]
  rfl

end EcmaEval
