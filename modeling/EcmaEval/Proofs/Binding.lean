import Mathlib.Logic.Relation
import EcmaEval.Proofs.Heap.Record

/-!
# The life of a binding

A record changes by its own operations only: it creates, initializes, assigns to and deletes bindings,
and sets its `this`. Through each of them a binding keeps its flags, stays initialized once it is, and
keeps its value if it is immutable, unless it is deletable and deleted.
-/
namespace EcmaEval

/-- The state of a binding at a later time. -/
structure Binding.Later (b b' : Binding) : Prop where
  isMutable : b'.isMutable = b.isMutable
  deletable : b'.deletable = b.deletable
  strict : b'.strict = b.strict
  initialized : b.value.isSome = true → b'.value.isSome = true
  constant : b.isMutable = false → ∀ v, b.value = some v → b'.value = some v

namespace Binding.Later

variable {b b' b'' : Binding}

theorem refl (b : Binding) : b.Later b := ⟨rfl, rfl, rfl, id, fun _ _ => id⟩

theorem trans (h : b.Later b') (h' : b'.Later b'') : b.Later b'' where
  isMutable := h'.isMutable.trans h.isMutable
  deletable := h'.deletable.trans h.deletable
  strict := h'.strict.trans h.strict
  initialized hb := h'.initialized (h.initialized hb)
  constant hb v hv := h'.constant (h.isMutable.trans hb) v (h.constant hb v hv)

/-- A value may be given to a binding that has none, and to a mutable one at any time. -/
theorem withValue (h : b.value = none ∨ b.isMutable = true) (v : Value) :
    b.Later { b with value := some v } where
  isMutable := rfl
  deletable := rfl
  strict := rfl
  initialized _ := rfl
  constant hb w hw := by
    rcases h with h | h
    · rw [h] at hw
      cases hw
    · rw [h] at hb
      cases hb

end Binding.Later

namespace DeclarativeRecord

/-- One operation on a record. -/
inductive Change (r : DeclarativeRecord) : DeclarativeRecord → Prop
  | create (h : r.create name isMutable deletable strict = .ok r') : Change r r'
  | initBinding (h : r.initBinding name value = .ok r') : Change r r'
  | assign (h : r.assign name value strict = .ok r') : Change r r'
  | delete (h : r.delete name = .ok (deleted, r')) : Change r r'
  | bindThis (call : Option CallSlots) : Change r { r with call }

/-- Operations on a record, one after the other. -/
abbrev Evolves : DeclarativeRecord → DeclarativeRecord → Prop := Relation.ReflTransGen Change

variable {r r' : DeclarativeRecord} {name : String} {b : Binding}

theorem later_put {key : String} {x : Binding} {v : Value} (hx : r.get? key = some x)
    (hmay : x.value = none ∨ x.isMutable = true) (hb : r.get? name = some b) :
    ∃ b', (r.put key v).get? name = some b' ∧ b.Later b' := by
  rw [get?_put, hb]
  by_cases h : name = key
  · subst h
    rw [hx] at hb
    cases hb
    exact ⟨_, rfl, by simpa using Binding.Later.withValue hmay v⟩
  · exact ⟨b, by simp [h], .refl b⟩

theorem later_cons {key : String} {x : Binding} (hkey : r.get? key = none)
    (hb : r.get? name = some b) :
    ∃ b', ({ r with bindings := (key, x) :: r.bindings } : DeclarativeRecord).get? name = some b' ∧
      b.Later b' := by
  have hne : name ≠ key := by
    rintro rfl
    rw [hkey] at hb
    cases hb
  exact ⟨b, by rw [get?_cons, if_neg hne, hb], .refl b⟩

/-- **The law of one operation.** A binding is there afterwards in a later state, or it was deletable
and is gone. -/
theorem Change.binding (h : r.Change r') (hb : r.get? name = some b) :
    (∃ b', r'.get? name = some b' ∧ b.Later b') ∨ b.deletable = true ∧ r'.get? name = none := by
  cases h with
  | create h =>
    obtain ⟨hkey, rfl⟩ := create_ok h
    exact .inl (later_cons hkey hb)
  | initBinding h =>
    obtain ⟨x, hx, hnone, rfl⟩ := initBinding_ok h
    exact .inl (later_put hx (.inl hnone) hb)
  | assign h =>
    obtain ⟨hkey, rfl⟩ | ⟨x, hx, -, ⟨hmutable, rfl⟩ | ⟨-, rfl⟩⟩ := assign_ok h
    · exact .inl (later_cons hkey hb)
    · exact .inl (later_put hx (.inr hmutable) hb)
    · exact .inl ⟨b, hb, .refl b⟩
  | @delete key _ _ h =>
    obtain ⟨x, hx, ⟨hdeletable, rfl⟩ | ⟨-, rfl⟩⟩ := delete_ok h
    · by_cases hname : name = key
      · subst hname
        rw [hx] at hb
        cases hb
        exact .inr ⟨hdeletable, by rw [get?_filter, if_pos rfl]⟩
      · exact .inl ⟨b, by rw [get?_filter, if_neg hname, hb], .refl b⟩
    · exact .inl ⟨b, hb, .refl b⟩
  | bindThis call => exact .inl ⟨b, hb, .refl b⟩

/-- **The law of many operations.** A binding is there afterwards in a later state, unless it is
deletable and was gone at some time in between. -/
theorem Evolves.binding (h : r.Evolves r') (hb : r.get? name = some b) :
    (∃ b', r'.get? name = some b' ∧ b.Later b') ∨
      b.deletable = true ∧ ∃ r₁, r.Evolves r₁ ∧ r₁.get? name = none ∧ r₁.Evolves r' := by
  induction h with
  | refl => exact .inl ⟨b, hb, .refl b⟩
  | tail hfirst hlast ih =>
    obtain ⟨b₁, hb₁, hlater⟩ | ⟨hdeletable, r₁, hbefore, hnone, hafter⟩ := ih
    · obtain ⟨b₂, hb₂, hlater'⟩ | ⟨hdeletable, hnone⟩ := hlast.binding hb₁
      · exact .inl ⟨b₂, hb₂, hlater.trans hlater'⟩
      · exact .inr ⟨hlater.deletable ▸ hdeletable, _, hfirst.tail hlast, hnone, .refl⟩
    · exact .inr ⟨hdeletable, r₁, hbefore, hnone, hafter.tail hlast⟩

end DeclarativeRecord

end EcmaEval
