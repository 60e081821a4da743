import EcmaEval.Proofs.Host.Operation
import EcmaEval.Proofs.Remit.Statement

/-!
# Operations of a host within a remit

Where everything may be named and code may do what it likes, an operation makes only changes that are
open to the remit, as long as the host hands in no reference that may not be stored.
-/
namespace EcmaEval

/-- The values that an operation is given are proper. Only what is to be read, written or initialized
may be a reference, and then its parts are proper. -/
def Operation.IsProper : Operation → Prop
  | .define _ _ d | .defineOrThrow _ _ d | .defineOrdinary _ _ d => Proper d
  | .validateAndApply _ _ _ d current => Proper d ∧ Proper current
  | .createProperty _ _ value | .createPropertyOrThrow _ _ value | .initBinding _ _ value
  | .assign _ _ value _ | .bindThis _ value | .createGlobalFunction _ _ value _
  | .newFunctionEnvironment _ value | .toNumber value | .toNumeric value | .toText value
  | .toObject value | .toKey value => Proper value
  | .set _ _ value receiver => Proper value ∧ Proper receiver
  | .hasInstance constructor value => Proper constructor ∧ Proper value
  | .less x y _ => Proper x ∧ Proper y
  | .getValue target => target.Shallow
  | .putValue target value | .initReferenced target value => target.Shallow ∧ Proper value
  | .call _ f thisValue arguments =>
    Proper f ∧ Proper thisValue ∧ Proper arguments
  | .construct _ f arguments newTarget =>
    Proper f ∧ Proper arguments ∧ Proper newTarget
  | _ => True

namespace Operation

variable {R : Remit} (hopen : R.IsOpen) (hmentions : ∀ h, R.mentions h) (hprototypes : R.prototypes)

include hopen hmentions hprototypes

theorem run_touches {op : Operation} (hrealms : R.realms ∨ op ≠ .newRealm) (hop : R.references ∨ op.IsProper)
    {m : Machine} (hm : m.ClosedIn R) : m.Touches R (op.run.after m) := by
  have hholds {α : Type} [Tracked α] [Carrier α] (a : α) (ha : R.references ∨ Proper a) : R.Holds a :=
    ⟨fun h _ => hmentions h, ha⟩
  have hadmits (v : Value) (hv : R.references ∨ v.Shallow) : R.Admits v := ⟨fun h _ => hmentions h, hv⟩
  have hobject (o : ObjectId) : R.Holds o := hholds o (.inr trivial)
  have hprototype (p : Option ObjectId) : R.Holds p := hholds p (.inr fun _ _ => trivial)
  have hown (o : ObjectId) : R.Owns o := .inl (hmentions _)
  have henv (env : EnvId) : R.Holds env := hholds env (.inr trivial)
  have houter (outer : Option EnvId) : R.Holds outer := hholds outer (.inr fun _ _ => trivial)
  have hcontext (c : Context) : R.Holds c := hholds c (.inr trivial)
  have hvalue (v : Value) := hholds v
  have hdescriptor (d : Descriptor) := hholds d
  have harguments (vs : List Value) := hholds vs
  have htarget (v : Option Value) := hholds v
  have hscopes := hopen.scopes
  have hcalls := hopen.calls
  have hev := Evaluator.level_stays hopen
  have hrun {x : Eval Unit} (hx : x.StaysIn R R.Holds) : m.Touches R (x.after m) := hx.touches_after hm
  cases op with
  | ask q =>
    have hsame : id ((liftM q : Eval _).after m) = id m := Eval.Fixes.lift q m
    change m.Touches R ((discard (liftM q : Eval _)).after m)
    rw [Eval.after_discard, show (liftM q : Eval _).after m = m from hsame]
  | newRealm => exact hrun (.discard (newRealm_stays hscopes (hrealms.resolve_right fun h => h rfl)))
  | evaluate level node => exact hrun (.discard (evaluate_stays hopen level node))
  | _ =>
    refine hrun ?_
    simp only [Operation.IsProper] at hop
    unfold run
    grind

end Operation

end EcmaEval
