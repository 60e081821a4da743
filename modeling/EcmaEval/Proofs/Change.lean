import EcmaEval.Proofs.Binding

/-!
# Changes of a machine

What a run can do to any machine, whatever handles it is given and however it ends, is a series of
changes: objects keep their code and records change by their own operations. A jump that escaped a
function is found only where a function is left behind in whose body a jump is not bound.
-/
namespace EcmaEval

def ObjectKind.code? : ObjectKind → Option FunctionCode
  | .function slots => some slots.code
  | _ => none

/-- The code of a function object. -/
@[grind] def Object.code? (obj : Object) : Option FunctionCode := obj.kind.code?

namespace Machine

/-- One change of a machine. -/
inductive Change (m : Machine) : Machine → Prop
  | contexts (contexts : List Context) : Change m { m with contexts }
  | symbols (symbols : Nat) : Change m { m with symbols }
  | realm (r : Realm) : Change m (m.pushRealm r)
  | object (obj : Object) : Change m (m.pushObject obj)
  | update (ho : m.object? o = some obj) (hcode : (f obj).code? = obj.code?) :
      Change m (m.updateObject o f)
  | environment (e : Environment) : Change m (m.pushEnv e)
  | record (he : m.env? env = some e) (hr : e.record? = some r) (h : r.Change r') :
      Change m (m.storeEnv env (e.withRecord r'))
  | varNames (he : m.env? env = some (.global g)) (varNames : List String) :
      Change m (m.storeEnv env (.global { g with varNames }))

/-- Changes of a machine, one after the other. -/
abbrev Changes : Machine → Machine → Prop := Relation.ReflTransGen Change

variable {m m' : Machine} {env : EnvId} {e : Environment} {r : DeclarativeRecord}

theorem record?_pushEnv (hr : m.record? env = some r) : (m.pushEnv e).record? env = some r := by
  obtain ⟨old, hold, -⟩ := Option.bind_eq_some_iff.mp hr
  rw [record?, env?_pushEnv_of_within (within_of_env? hold)]
  exact hr

theorem record?_storeEnv {env' : EnvId} {old : Environment} (h : m.env? env' = some old) :
    (m.storeEnv env' e).record? env = if env = env' then e.record? else m.record? env := by
  unfold record?
  rw [env?_storeEnv m env env' e h]
  split <;> rfl

theorem Change.record? (h : m.Change m') (hr : m.record? env = some r) :
    ∃ r', m'.record? env = some r' ∧ r.Evolves r' := by
  cases h with
  | contexts contexts => exact ⟨r, hr, .refl⟩
  | symbols symbols => exact ⟨r, hr, .refl⟩
  | realm realm => exact ⟨r, hr, .refl⟩
  | object obj => exact ⟨r, hr, .refl⟩
  | update ho hcode => exact ⟨r, hr, .refl⟩
  | environment e' => exact ⟨r, record?_pushEnv hr, .refl⟩
  | record he hold hchange =>
    rw [record?_storeEnv he]
    split
    · subst env
      rw [Machine.record?, he, Option.bind_some, hold] at hr
      cases hr
      exact ⟨_, Environment.record?_withRecord hold _, .single hchange⟩
    · exact ⟨r, hr, .refl⟩
  | varNames he names =>
    rw [record?_storeEnv he]
    split
    · subst env
      rw [Machine.record?, he] at hr
      exact ⟨r, hr, .refl⟩
    · exact ⟨r, hr, .refl⟩

/-- A record outlives every run, changed by its own operations only. -/
theorem Changes.record? (h : m.Changes m') (hr : m.record? env = some r) :
    ∃ r', m'.record? env = some r' ∧ r.Evolves r' := by
  induction h with
  | refl => exact ⟨r, hr, .refl⟩
  | tail _ hlast ih =>
    obtain ⟨r₁, hr₁, hfirst⟩ := ih
    obtain ⟨r₂, hr₂, hsecond⟩ := hlast.record? hr₁
    exact ⟨r₂, hr₂, hfirst.trans hsecond⟩

variable {o : ObjectId} {obj : Object}

theorem Change.code? (h : m.Change m') (ho : m.object? o = some obj) :
    ∃ obj', m'.object? o = some obj' ∧ obj'.code? = obj.code? := by
  cases h with
  | object obj' =>
    exact ⟨obj, (object?_pushObject_of_within obj' (within_of_object? ho)).trans ho, rfl⟩
  | @update o' old f hold hcode =>
    rw [object?_updateObject]
    split
    · subst o'
      rw [ho] at hold
      cases hold
      exact ⟨f obj, by rw [ho]; rfl, hcode⟩
    · exact ⟨obj, ho, rfl⟩
  | _ => exact ⟨obj, ho, rfl⟩

/-- An object outlives every run with the same code. -/
theorem Changes.code? (h : m.Changes m') (ho : m.object? o = some obj) :
    ∃ obj', m'.object? o = some obj' ∧ obj'.code? = obj.code? := by
  induction h with
  | refl => exact ⟨obj, ho, rfl⟩
  | tail _ hlast ih =>
    obtain ⟨obj₁, ho₁, hfirst⟩ := ih
    obtain ⟨obj₂, ho₂, hsecond⟩ := hlast.code? ho₁
    exact ⟨obj₂, ho₂, hsecond.trans hfirst⟩

/-- There is a function in whose body a `break` or `continue` is not bound. -/
def HasStrayJump (m : Machine) : Prop :=
  ∃ o obj code, m.object? o = some obj ∧ obj.code? = some code ∧ ¬ code.BindsJumps

theorem HasStrayJump.changes (h : m.HasStrayJump) (hm : m.Changes m') : m'.HasStrayJump := by
  obtain ⟨o, obj, code, ho, hcode, hstray⟩ := h
  obtain ⟨obj', ho', hcode'⟩ := hm.code? ho
  exact ⟨o, obj', code, ho', hcode'.trans hcode, hstray⟩

end Machine

/-- The condition is that no jump escapes a function body. -/
@[grind] def Breach.isEscape : Breach → Bool
  | .escapedFunction | .escapedConstructor => true
  | _ => false

@[grind] def Fault.isEscape : Fault → Bool
  | .assertion b => b.isEscape
  | _ => false

/-- A failure because a jump escaped a function body. -/
@[grind] def Abrupt.isEscape : Abrupt → Bool
  | .fault f => f.isEscape
  | _ => false

end EcmaEval
