import EcmaEval.Proofs.Hoist.Inside
import EcmaEval.Proofs.Scope.Entry
import EcmaEval.Proofs.Stack.Restore

/-!
# Initialized names

A block-scoped declaration that ends normally has given a value to every name it binds: each of them is
resolved where it was created, and a pattern binds its names one after the other. A name that has a value
keeps one through every run.
-/
namespace EcmaEval

variable {m m' : Machine} {env : EnvId} {name : String} {names : List String} {initialized : Bool}

namespace Machine

theorem Change.declarative {r : DeclarativeRecord} (h : m.Change m')
    (he : m.env? env = some (.declarative r)) : ∃ r', m'.env? env = some (.declarative r') := by
  cases h with
  | environment new => exact ⟨r, (env?_pushEnv_of_within (within_of_env? he)).trans he⟩
  | @record _ e _ r' hold hr hchange =>
    rw [env?_storeEnv _ _ _ _ hold]
    split
    · subst env
      cases hold.symm.trans he
      exact ⟨r', rfl⟩
    · exact ⟨r, he⟩
  | varNames hold names =>
    rw [env?_storeEnv _ _ _ _ hold]
    split
    · subst env
      cases hold.symm.trans he
    · exact ⟨r, he⟩
  | _ => exact ⟨r, he⟩

/-- A declarative environment outlives every run, around the same scope and with a record that has changed by its
own operations. -/
theorem Changes.declarative {r : DeclarativeRecord} (h : m.Changes m')
    (he : m.env? env = some (.declarative r)) :
    ∃ r', m'.env? env = some (.declarative r') ∧ r.Evolves r' ∧ r'.outer = r.outer := by
  have hkind : ∃ r', m'.env? env = some (.declarative r') := by
    induction h with
    | refl => exact ⟨r, he⟩
    | tail _ hlast ih =>
      obtain ⟨r₁, hr₁⟩ := ih
      exact hlast.declarative hr₁
  obtain ⟨r', he'⟩ := hkind
  have hold : m.record? env = some r := by simp [Machine.record?, he, Environment.record?]
  have hnew : m'.record? env = some r' := by simp [Machine.record?, he', Environment.record?]
  obtain ⟨_, hrecord, hevolves⟩ := h.record? hold
  obtain ⟨_, hsame, houter⟩ := h.outer? he
  cases hnew.symm.trans hrecord
  cases he'.symm.trans hsame
  exact ⟨r', he', hevolves, houter⟩

/-- A declarative environment binds the name for good, and to a value if it is to be initialized. -/
def HoldsName (m : Machine) (env : EnvId) (initialized : Bool) (name : String) : Prop :=
  ∃ r b, m.env? env = some (.declarative r) ∧ r.get? name = some b ∧ b.deletable = false ∧
    (initialized = true → b.value.isSome = true)

theorem Changes.holdsName (h : m.Changes m') (hname : m.HoldsName env initialized name) :
    m'.HoldsName env initialized name := by
  obtain ⟨r, b, he, hb, hfixed, hvalue⟩ := hname
  obtain ⟨r', he', hevolves, -⟩ := h.declarative he
  obtain ⟨b', hb', hlater⟩ | ⟨hdeletable, -⟩ := hevolves.binding hb
  · exact ⟨r', b', he', hb', hlater.deletable.trans hfixed, fun hi => hlater.initialized (hvalue hi)⟩
  · cases hfixed.symm.trans hdeletable

theorem HoldsName.hasBinding (h : m.HoldsName env initialized name) : env.hasBinding name m = .ok true := by
  obtain ⟨r, b, he, hb, -⟩ := h
  rw [EnvId.hasBinding_eq he, DeclarativeRecord.has, hb]
  rfl

end Machine

/-- A run that succeeds where an environment holds the names leaves all of them initialized. -/
def Eval.Initializes (x : Eval α) (env : EnvId) (names : List String) : Prop :=
  ∀ m a m', (∀ n ∈ names, m.HoldsName env false n) → x m = .ok a m' → ∀ n ∈ names, m'.HoldsName env true n

namespace Eval.Initializes

variable {x : Eval α} {f : α → Eval β}

theorem nothing (x : Eval α) (env : EnvId) : x.Initializes env [] := fun _ _ _ _ _ _ hn => nomatch hn

/-- A run that never succeeds. -/
theorem of_fails (h : ∀ m a m', x m ≠ .ok a m') : x.Initializes env names :=
  fun m a m' _ hrun => absurd hrun (h m a m')

/-- What comes first leaves the names where they are. -/
theorem after (hx : x.Proceeds) (hf : ∀ a, (f a).Initializes env names) :
    Eval.Initializes (x >>= f) env names := by
  intro m b m' hnames hrun
  obtain ⟨a, m₁, hfirst, hsecond⟩ := bind_eq_ok hrun
  exact hf a m₁ b m' (fun n hn => (hx.changes_ok hfirst).holdsName (hnames n hn)) hsecond

/-- Names are initialized in turn. -/
theorem append {first second : List String} (hx : x.Initializes env first) (hproceeds : x.Proceeds)
    (hf : ∀ a, (f a).Initializes env second) (hproceeds' : ∀ a, (f a).Proceeds) :
    Eval.Initializes (x >>= f) env (first ++ second) := by
  intro m b m' hnames hrun n hn
  obtain ⟨a, m₁, hfirst, hsecond⟩ := bind_eq_ok hrun
  rcases List.mem_append.mp hn with hn | hn
  · exact ((hproceeds' a).changes_ok hsecond).holdsName
      (hx m a m₁ (fun n hn => hnames n (List.mem_append_left _ hn)) hfirst n hn)
  · exact (Eval.Initializes.after hproceeds hf) m b m' (fun n hn => hnames n (List.mem_append_right _ hn)) hrun n hn

end Eval.Initializes

/-- A declarative environment that initializes a binding gives it its value. -/
theorem EnvId.initBinding_eq_ok {r : DeclarativeRecord} {value : Value} (he : m.env? env = some (.declarative r))
    (h : env.initBinding name value m = .ok () m') : m' = m.storeEnv env (.declarative (r.put name value)) := by
  unfold initBinding at h
  rw [bind_ok (lift_ok (load_eq he))] at h
  obtain ⟨r', m₁, hsettle, hstore⟩ := bind_eq_ok h
  obtain ⟨hinit, rfl⟩ := settle_eq_ok hsettle
  obtain ⟨-, -, -, rfl⟩ := DeclarativeRecord.initBinding_ok hinit
  rw [store_eq (Machine.within_of_env? he)] at hstore
  cases hstore
  rfl

theorem EnvId.initBinding_initializes (env : EnvId) (name : String) (value : Value) :
    (env.initBinding name value).Initializes env [name] := by
  intro m a m' hnames hrun n hn
  obtain rfl := List.mem_singleton.mp hn
  obtain ⟨r, b, he, hb, hfixed, -⟩ := hnames n hn
  rw [initBinding_eq_ok he hrun]
  refine ⟨_, { b with value := some value }, Machine.env?_storeEnv_self he _, ?_, hfixed, fun _ => rfl⟩
  rw [DeclarativeRecord.get?_put, hb, Option.map_some, if_pos rfl]

theorem complain_initializes (c : Complaint) : (complain c : Eval α).Initializes env names :=
  .of_fails fun _ _ _ => complain_ne_ok

namespace Evaluator

variable {ev : Evaluator} (hev : ev.StaysIn .whole)

include hev

mutual

/-- A pattern that is bound has initialized its names. -/
theorem bindPattern_initializes (env : EnvId) (p : Pattern) (value : Value) :
    (ev.bindPattern (some env) p value).Initializes env p.boundNames := by
  cases p with
  | identifier name => exact env.initBinding_initializes name value
  | array elements => exact .of_fails fun _ _ _ => nofun
  | object members =>
    have hmembers (source : ObjectId) := bindMembers_initializes env source members []
    unfold bindPattern
    split
    · exact complain_initializes _
    · exact .after (by grind) hmembers
  | withDefault target default =>
    have htarget (v : Value) := bindPattern_initializes env target v
    unfold bindPattern
    split
    · split
      · exact .after (by grind) htarget
      · exact .after (by grind) htarget
    · exact .after (.pure value) htarget
  | rest target => exact .of_fails fun _ _ _ => nofun

theorem bindMembers_initializes (env : EnvId) (source : ObjectId) (members : List PatternMember) (taken : List Key) :
    (ev.bindMembers (some env) source members taken).Initializes env (Pattern.memberNames members) := by
  cases members with
  | nil => exact .nothing _ env
  | cons member rest =>
    have hrest (taken : List Key) := bindMembers_initializes env source rest taken
    have hproceeds (taken : List Key) : (ev.bindMembers (some env) source rest taken).Proceeds :=
      .of_whole (bindMembers_stays hev (by grind) (by grind) rest taken)
    have hname (name : String) (value : Value) (taken : List Key) : Eval.Initializes (do
        bindName (some env) name value
        ev.bindMembers (some env) source rest taken) env (name :: Pattern.memberNames rest) := by
      have hfirst : (bindName (some env) name value).Initializes env [name] := env.initBinding_initializes name value
      exact .append hfirst (by grind) (fun _ => hrest taken) fun _ => hproceeds taken
    cases member with
    | keyed name target =>
      have htarget (v : Value) := bindPattern_initializes env target v
      unfold bindMembers
      refine .after (by grind) fun key => .after (.lift _) fun value => ?_
      have hfirst : (ev.bindPattern (some env) target value).Proceeds :=
        .of_whole (bindPattern_stays hev (by grind) target (by grind))
      exact .append (htarget value) hfirst (fun _ => hrest _) fun _ => hproceeds _
    | shorthand name default =>
      unfold bindMembers
      refine .after (.lift _) fun value => ?_
      cases default with
      | none => exact hname name value _
      | some default =>
        dsimp only
        split
        · exact .after (by grind) fun value => hname name value _
        · exact .after (.pure value) fun value => hname name value _
    | rest name =>
      unfold bindMembers
      refine .after (.lift _) fun i => .after (by grind) fun others => ?_
      exact .after (by grind) fun _ => hname name _ taken

end

omit hev in
theorem declarator_identifier (constant : Bool) (name : String) (init : Option Expression) :
    ev.declarator (.lexical constant) ⟨.identifier name, init⟩ = (do
      let target ← resolveBinding name none
      let value ←
        match init with
        | some e => ev.valueNamed e (.name name)
        | none => pure .undefined
      target.initReferenced value) := by
  cases init <;> rfl

omit hev in
theorem declarator_pattern (constant : Bool) {p : Pattern} (hp : p.isIdentifier = false) (e : Expression) :
    ev.declarator (.lexical constant) ⟨p, some e⟩ = (do
      let value ← ev.value e
      let env ← lexicalEnv
      ev.bindPattern (some env) p value) := by
  cases p <;> simp [Pattern.isIdentifier] at hp <;> simp [declarator]

variable (hrestores : ev.Restores)

include hrestores

/-- A declarator that is evaluated where its names were created has initialized them. -/
theorem declarator_initializes {constant : Bool} {d : Declarator} (hscope : lexicalEnv m = .ok env)
    (hnames : ∀ n ∈ d.pattern.boundNames, m.HoldsName env false n)
    (hrun : ev.declarator (.lexical constant) d m = .ok () m') :
    ∀ n ∈ d.pattern.boundNames, m'.HoldsName env true n := by
  obtain ⟨p, init⟩ := d
  obtain ⟨c, cs, hc, rfl⟩ := lexicalEnv_ok hscope
  cases hp : p.isIdentifier with
  | true =>
    cases p with
    | identifier name =>
      have hname : c.lexicalEnv.hasBinding name m = .ok true := (hnames name (by simp [Pattern.boundNames])).hasBinding
      rw [declarator_identifier, bind_ok (lift_ok (resolveBinding_here hc hname))] at hrun
      have hbind : Eval.Initializes (do
          let value ←
            match init with
            | some e => ev.valueNamed e (.name name)
            | none => pure .undefined
          c.lexicalEnv.initBinding name value) c.lexicalEnv [name] := by
        have hinit (value : Value) := c.lexicalEnv.initBinding_initializes name value
        cases init with
        | none => exact .after (.pure _) hinit
        | some e => exact .after (by grind) hinit
      exact hbind m () m' hnames hrun
    | _ => cases hp
  | false =>
    cases init with
    | none =>
      have hfails : ev.declarator (.lexical constant) ⟨p, none⟩ = breach .patternWithoutInit := by
        cases p <;> simp [Pattern.isIdentifier] at hp <;> rfl
      rw [hfails] at hrun
      cases hrun
    | some e =>
      rw [declarator_pattern constant hp] at hrun
      obtain ⟨value, m₁, hvalue, hrest⟩ := bind_eq_ok hrun
      have hscope₁ : lexicalEnv m₁ = .ok c.lexicalEnv :=
        ((value_keepsStack hrestores e).lexicalEnv hvalue).trans hscope
      rw [bind_ok (lift_ok hscope₁)] at hrest
      have hproceeds : (ev.value e).Proceeds := by grind
      have hchanges := hproceeds.changes_ok hvalue
      exact bindPattern_initializes hev c.lexicalEnv p value m₁ () m'
        (fun n hn => hchanges.holdsName (hnames n hn)) hrest

/-- **A declaration that ends normally has initialized its names.** -/
theorem declare_initializes {constant : Bool} {declarators : List Declarator} (hscope : lexicalEnv m = .ok env)
    (hnames : ∀ n ∈ declarators.flatMap (·.pattern.boundNames), m.HoldsName env false n)
    (hrun : ev.declare (.lexical constant) declarators m = .ok () m') :
    ∀ n ∈ declarators.flatMap (·.pattern.boundNames), m'.HoldsName env true n := by
  induction declarators generalizing m with
  | nil => exact fun n hn => nomatch hn
  | cons d rest ih =>
    rw [List.flatMap_cons] at hnames ⊢
    obtain ⟨⟨⟩, m₁, hfirst, hrest⟩ := bind_eq_ok hrun
    have hchanges := (Eval.Proceeds.of_whole (declarator_stays hev _ d)).changes_ok hfirst
    have hscope₁ := ((declarator_keepsStack hrestores _ d).lexicalEnv hfirst).trans hscope
    intro n hn
    rcases List.mem_append.mp hn with hn | hn
    · have hd := declarator_initializes hev hrestores hscope (fun n hn => hnames n (List.mem_append_left _ hn)) hfirst
      exact ((Eval.Proceeds.of_whole (declare_stays hev _ rest)).changes_ok hrest).holdsName (hd n hn)
    · exact ih hscope₁ (fun n hn => hchanges.holdsName (hnames n (List.mem_append_right _ hn))) hrest n hn

end Evaluator

end EcmaEval
