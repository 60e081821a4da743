import EcmaEval.Proofs.Remit.Run

/-!
# What a remit leaves alone

Objects that a remit does not own and environments that it cannot name stay exactly as they are, however
long the run is. Where no realm may be made the realms are the same, and where no prototype may be set
every object keeps its own.
-/
namespace EcmaEval

namespace Machine

variable {R : Remit} {m m' : Machine} {o : ObjectId} {env : EnvId}

theorem Touch.object? (h : m.Touch R m') (ho : o.Within m.bounds) (hout : ¬ R.Owns o) :
    o.Within m'.bounds ∧ m'.object? o = m.object? o := by
  cases h with
  | object _ _ =>
    rw [bounds_pushObject]
    exact ⟨Nat.lt_succ_of_lt ho, object?_pushObject_of_within _ ho⟩
  | update _ howns _ _ _ =>
    rw [object?_updateObject, bounds_updateObject, if_neg]
    · exact ⟨ho, rfl⟩
    · rintro rfl
      exact hout howns
  | record | varNames =>
    rw [bounds_storeEnv]
    exact ⟨ho, rfl⟩
  | _ => exact ⟨ho, rfl⟩

/-- An object that the remit does not own stays as it is. -/
theorem Touches.object? (h : m.Touches R m') (ho : o.Within m.bounds) (hout : ¬ R.Owns o) :
    m'.object? o = m.object? o := by
  have hall : o.Within m'.bounds ∧ m'.object? o = m.object? o := by
    induction h with
    | refl => exact ⟨ho, rfl⟩
    | tail _ hlast ih =>
      obtain ⟨hwithin, hsame⟩ := hlast.object? ih.1 hout
      exact ⟨hwithin, hsame.trans ih.2⟩
  exact hall.2

theorem Touch.env? (h : m.Touch R m') (henv : env.Within m.bounds) (hout : ¬ R.Holds env) :
    env.Within m'.bounds ∧ m'.env? env = m.env? env := by
  cases h with
  | environment _ _ =>
    rw [bounds_pushEnv]
    exact ⟨Nat.lt_succ_of_lt henv, env?_pushEnv_of_within henv⟩
  | record he hholds | varNames he hholds =>
    rw [env?_storeEnv _ _ _ _ he, bounds_storeEnv, if_neg]
    · exact ⟨henv, rfl⟩
    · rintro rfl
      exact hout hholds
  | update =>
    rw [bounds_updateObject]
    exact ⟨henv, rfl⟩
  | _ => exact ⟨henv, rfl⟩

/-- An environment that the remit cannot name stays as it is. -/
theorem Touches.env? (h : m.Touches R m') (henv : env.Within m.bounds) (hout : ¬ R.Holds env) :
    m'.env? env = m.env? env := by
  have hall : env.Within m'.bounds ∧ m'.env? env = m.env? env := by
    induction h with
    | refl => exact ⟨henv, rfl⟩
    | tail _ hlast ih =>
      obtain ⟨hwithin, hsame⟩ := hlast.env? ih.1 hout
      exact ⟨hwithin, hsame.trans ih.2⟩
  exact hall.2

theorem Touches.realms (h : m.Touches R m') (hrealms : ¬ R.realms) : m'.realms = m.realms := by
  induction h with
  | refl => rfl
  | tail _ hlast ih =>
    rw [← ih]
    cases hlast with
    | realm hmade _ => exact absurd hmade hrealms
    | _ => rfl

theorem Touch.prototype (h : m.Touch R m') (hprototypes : ¬ R.prototypes) {obj : Object}
    (ho : m.object? o = some obj) : ∃ obj', m'.object? o = some obj' ∧ obj'.prototype = obj.prototype := by
  cases h with
  | object _ _ => exact ⟨obj, (object?_pushObject_of_within _ (within_of_object? ho)).trans ho, rfl⟩
  | @update o' old f hold _ _ _ hprototype =>
    rw [object?_updateObject]
    split
    · subst o'
      cases hold.symm.trans ho
      exact ⟨f obj, by rw [ho]; rfl, hprototype.resolve_left hprototypes⟩
    · exact ⟨obj, ho, rfl⟩
  | _ => exact ⟨obj, ho, rfl⟩

/-- An object keeps its prototype. -/
theorem Touches.prototype (h : m.Touches R m') (hprototypes : ¬ R.prototypes) {obj : Object}
    (ho : m.object? o = some obj) : ∃ obj', m'.object? o = some obj' ∧ obj'.prototype = obj.prototype := by
  induction h with
  | refl => exact ⟨obj, ho, rfl⟩
  | tail _ hlast ih =>
    obtain ⟨obj₁, ho₁, hfirst⟩ := ih
    obtain ⟨obj₂, ho₂, hsecond⟩ := hlast.prototype hprototypes ho₁
    exact ⟨obj₂, ho₂, hsecond.trans hfirst⟩

end Machine

end EcmaEval
