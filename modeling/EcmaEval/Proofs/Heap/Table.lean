import EcmaEval.Evaluate

/-!
# Property tables, parameter maps and declarative records

What each operation on a table of properties, on the map of an arguments object and on the bindings
of a declarative record does to a lookup. Keys are compared as texts or as symbols by identity, which
is an equivalence but not equality.
-/
namespace EcmaEval

instance : EquivBEq Symbol where
  rfl {a} := beq_self_eq_true a.id
  symm {a b} h := by
    change (b.id == a.id) = true
    have h : (a.id == b.id) = true := h
    simp_all
  trans {a b c} h₁ h₂ := by
    change (a.id == c.id) = true
    have h₁ : (a.id == b.id) = true := h₁
    have h₂ : (b.id == c.id) = true := h₂
    simp_all

theorem Key.beq_eq (a b : Key) : (a == b) = Key.same a b := rfl

instance : EquivBEq Key where
  rfl {a} := by cases a <;> simp [Key.beq_eq, Key.same]
  symm {a b} h := by
    cases a <;> cases b <;> simp_all [Key.beq_eq, Key.same]
    exact BEq.symm h
  trans {a b c} h₁ h₂ := by
    cases a <;> cases b <;> cases c <;> simp_all [Key.beq_eq, Key.same]
    exact BEq.trans h₁ h₂

namespace Value

theorem same_refl {v : Value} (h : v.isReference = false) : v.same v = true := by
  cases v <;> simp_all [same, sameNonNumber, isReference]

theorem same_trans {u v w : Value} (h₁ : u.same v = true) (h₂ : v.same w = true) :
    u.same w = true := by
  cases u <;> cases v <;> simp_all [same, sameNonNumber]
  case symbol.symbol =>
    cases w <;> simp_all
    exact BEq.trans h₁ h₂

end Value

/-- The numeral of an index has digits only. -/
theorem Text.digit_of_mem_repr {n : Nat} {u : UInt16} (h : u ∈ (Text.ofString n.repr).units) :
    48 ≤ u ∧ u ≤ 57 := by
  unfold Text.ofString at h
  obtain ⟨c, hc, hu⟩ := List.mem_flatMap.mp h
  have hc : c ∈ Nat.toDigits 10 n := by
    rw [Nat.repr] at hc
    simpa using hc
  have hdigit := Nat.isDigit_of_mem_toDigits (by decide) (by decide) hc
  have hrange : 48 ≤ c.toNat ∧ c.toNat ≤ 57 := by
    simp only [Char.isDigit, Bool.and_eq_true, decide_eq_true_eq] at hdigit
    exact ⟨hdigit.1, hdigit.2⟩
  have hsmall : c.toNat < 0x10000 := by omega
  simp only [Text.encodeChar, if_pos hsmall, List.mem_singleton] at hu
  subst hu
  constructor
  · simp only [UInt16.le_iff_toNat_le]
    simp
    omega
  · simp only [UInt16.le_iff_toNat_le]
    simp
    omega

theorem Key.ofIndex_ne_name {s : String} (h : ∃ u ∈ (Text.ofString s).units, ¬(48 ≤ u ∧ u ≤ 57))
    (index : Nat) : ¬(Key.ofIndex index == .name s) = true := by
  intro heq
  obtain ⟨u, hu, hnot⟩ := h
  have htext : Text.ofString index.repr = Text.ofString s := by
    rw [Key.beq_eq] at heq
    exact eq_of_beq heq
  exact hnot (Text.digit_of_mem_repr (htext ▸ hu))

/-- A key that equals `k` and another that does not are different keys. -/
theorem Key.ne_of_beq {a b k : Key} (ha : (a == k) = true) (hab : ¬(a == b) = true) :
    (b == k) = false := by
  cases h : b == k with
  | false => rfl
  | true => exact absurd (BEq.trans ha (BEq.symm h)) hab

/-- Lookup among the entries that do not have a key. -/
theorem Key.find?_filter (key k : Key) (entries : List (Key × β)) :
    ((entries.filter fun e => !(e.1 == key)).find? (·.1 == k)).map (·.2) =
      if key == k then none else (entries.find? (·.1 == k)).map (·.2) := by
  induction entries with
  | nil => simp
  | cons e rest ih =>
    by_cases he : e.1 == key
    · have hkey : (e.1 == k) = (key == k) := BEq.congr_left he
      rw [List.filter_cons_of_neg (by simpa using he), ih]
      cases h : key == k <;> simp [hkey, h]
    · rw [List.filter_cons_of_pos (by simpa using he)]
      by_cases hk : e.1 == k
      · simp [hk, Key.ne_of_beq hk he]
      · simpa [hk] using ih

namespace PropertyTable

theorem find?_insertEntry (key k : Key) (d : Descriptor) (entries : List (Key × Descriptor)) :
    ((insertEntry key d entries).find? (·.1 == k)).map (·.2) =
      if key == k then some d else (entries.find? (·.1 == k)).map (·.2) := by
  induction entries with
  | nil =>
    unfold insertEntry
    cases h : key == k <;> simp [h]
  | cons e rest ih =>
    unfold insertEntry
    by_cases he : e.1 == key
    · rw [if_pos he]
      have hkey : (e.1 == k) = (key == k) := BEq.congr_left he
      cases h : key == k <;> simp [hkey, h]
    · rw [if_neg he]
      by_cases hk : e.1 == k
      · simp [hk, Key.ne_of_beq hk he]
      · simpa [hk] using ih

/-- Equal keys have one property. -/
theorem get?_congr (t : PropertyTable) {key k : Key} (h : (key == k) = true) :
    t.get? key = t.get? k := by
  unfold get?
  congr 2
  funext e
  exact BEq.congr_right h

theorem get?_insert (t : PropertyTable) (key k : Key) (d : Descriptor) :
    (t.insert key d).get? k = if key == k then some d else t.get? k :=
  find?_insertEntry key k d t.entries

/-- Of two descriptors stored under one key the second stays. -/
theorem insert_insert (t : PropertyTable) (key : Key) (d d' : Descriptor) :
    (t.insert key d).insert key d' = t.insert key d' := by
  have hentries (entries : List (Key × Descriptor)) :
      insertEntry key d' (insertEntry key d entries) = insertEntry key d' entries := by
    induction entries with
    | nil => simp [insertEntry]
    | cons e rest ih =>
      by_cases he : e.1 == key
      · simp [insertEntry, he]
      · simp [insertEntry, he, ih]
  exact congrArg PropertyTable.mk (hentries t.entries)

theorem get?_erase (t : PropertyTable) (key k : Key) :
    (t.erase key).get? k = if key == k then none else t.get? k :=
  Key.find?_filter key k t.entries

theorem contains_eq (t : PropertyTable) (key : Key) :
    t.contains key = (t.get? key).isSome := by
  unfold contains get?
  rw [Option.isSome_map, Bool.eq_iff_iff, List.find?_isSome, List.any_eq_true]

theorem mem_of_get? {t : PropertyTable} {key : Key} {d : Descriptor} (h : t.get? key = some d) :
    ∃ e ∈ t.entries, e.2 = d := by
  unfold get? at h
  obtain ⟨e, he, hd⟩ := Option.map_eq_some_iff.mp h
  exact ⟨e, List.mem_of_find?_eq_some he, hd⟩

theorem mem_insert {t : PropertyTable} {key : Key} {d : Descriptor} {e : Key × Descriptor}
    (h : e ∈ (t.insert key d).entries) : e.2 = d ∨ e ∈ t.entries := by
  unfold insert at h
  generalize t.entries = entries at *
  induction entries with
  | nil => simp_all [insertEntry]
  | cons x rest ih =>
    simp only [insertEntry] at h
    split at h
    · rcases List.mem_cons.mp h with rfl | h
      · exact .inl rfl
      · exact .inr (List.mem_cons_of_mem _ h)
    · rcases List.mem_cons.mp h with rfl | h
      · exact .inr List.mem_cons_self
      · exact (ih h).imp_right (List.mem_cons_of_mem _)

/-- No key stands twice. -/
def Distinct (t : PropertyTable) : Prop := t.keys.Pairwise fun a b => ¬(a == b) = true

/-- A key that is there keeps its place, and a new one comes last. -/
theorem keys_insert (t : PropertyTable) (key : Key) (d : Descriptor) :
    (t.insert key d).keys = if t.contains key then t.keys else t.keys ++ [key] := by
  unfold keys contains PropertyTable.insert
  generalize t.entries = entries
  induction entries with
  | nil => simp [insertEntry]
  | cons e rest ih =>
    by_cases he : (e.1 == key) = true
    · simp [insertEntry, he]
    · have he : (e.1 == key) = false := Bool.eq_false_iff.mpr he
      simp only [insertEntry, he, Bool.false_eq_true, if_false, List.map_cons, List.any_cons,
        Bool.false_or] at ih ⊢
      rw [ih]
      split <;> rfl

theorem Distinct.insert {t : PropertyTable} (h : t.Distinct) (key : Key) (d : Descriptor) :
    (t.insert key d).Distinct := by
  unfold Distinct
  rw [keys_insert]
  split
  · exact h
  · rename_i hnew
    refine List.pairwise_append.mpr ⟨h, List.pairwise_singleton _ _, fun a ha b hb hbeq => hnew ?_⟩
    obtain ⟨e, he, rfl⟩ := List.mem_map.mp ha
    obtain rfl := List.mem_singleton.mp hb
    exact List.any_eq_true.mpr ⟨e, he, hbeq⟩

theorem Distinct.erase {t : PropertyTable} (h : t.Distinct) (key : Key) : (t.erase key).Distinct :=
  List.Pairwise.sublist (List.filter_sublist.map _) h

theorem mem_erase {t : PropertyTable} {key : Key} {e : Key × Descriptor}
    (h : e ∈ (t.erase key).entries) : e ∈ t.entries :=
  (List.mem_filter.mp h).1

end PropertyTable

namespace ParameterMap

theorem get?_erase (map : ParameterMap) (key k : Key) :
    (map.erase key).get? k = if key == k then none else map.get? k :=
  Key.find?_filter key k map.names

theorem get?_congr (map : ParameterMap) {key k : Key} (h : (key == k) = true) :
    map.get? key = map.get? k := by
  unfold get?
  congr 2
  funext e
  exact BEq.congr_right h

@[simp] theorem env_erase (map : ParameterMap) (key : Key) : (map.erase key).env = map.env := rfl

/-- No two keys stand for one parameter. -/
def Distinct (map : ParameterMap) : Prop :=
  ∀ key k name, map.get? key = some name → map.get? k = some name → (key == k) = true

theorem Distinct.erase {map : ParameterMap} (h : map.Distinct) (key : Key) : (map.erase key).Distinct := by
  intro a b name ha hb
  rw [get?_erase] at ha hb
  split at ha
  · cases ha
  · split at hb
    · cases hb
    · exact h a b name ha hb

end ParameterMap

namespace DeclarativeRecord

theorem lookup_cons (name n : String) (b : Binding) (bindings : List (String × Binding)) :
    ((name, b) :: bindings).lookup n = if n = name then some b else bindings.lookup n := by
  by_cases h : n = name
  · simp [h]
  · have hbeq : (n == name) = false := by simpa using h
    rw [List.lookup_cons, hbeq, if_neg h]

theorem lookup_put (name n : String) (value : Value) (bindings : List (String × Binding)) :
    (bindings.map fun e => if e.1 == name then (e.1, { e.2 with value := some value }) else e).lookup n =
      (bindings.lookup n).map fun b => if n = name then { b with value := some value } else b := by
  induction bindings with
  | nil => rfl
  | cons e rest ih =>
    obtain ⟨x, b⟩ := e
    by_cases hx : x = name
    · by_cases hn : n = x <;> simp_all [lookup_cons]
    · by_cases hn : n = x <;> simp_all [lookup_cons]

theorem get?_put (r : DeclarativeRecord) (name n : String) (value : Value) :
    (r.put name value).get? n =
      (r.get? n).map fun b => if n = name then { b with value := some value } else b :=
  lookup_put name n value r.bindings

@[simp] theorem has_put (r : DeclarativeRecord) (name n : String) (value : Value) :
    (r.put name value).has n = r.has n := by
  simp [has, get?_put]

theorem get?_cons (r : DeclarativeRecord) (name n : String) (b : Binding) :
    ({ r with bindings := (name, b) :: r.bindings } : DeclarativeRecord).get? n =
      if n = name then some b else r.get? n := by
  simp [get?, lookup_cons]

theorem get?_filter (r : DeclarativeRecord) (name n : String) :
    ({ r with bindings := r.bindings.filter (·.1 != name) } : DeclarativeRecord).get? n =
      if n = name then none else r.get? n := by
  unfold get?
  induction r.bindings with
  | nil => simp
  | cons e rest ih =>
    obtain ⟨x, b⟩ := e
    by_cases hx : x = name
    · rw [List.filter_cons_of_neg (by simpa using hx), ih, lookup_cons]
      by_cases h : n = name <;> simp [h, hx]
    · rw [List.filter_cons_of_pos (by simpa using hx), lookup_cons, lookup_cons, ih]
      by_cases hn : n = x <;> simp [hn, hx]

theorem mem_of_get? {r : DeclarativeRecord} {name : String} {b : Binding}
    (h : r.get? name = some b) : (name, b) ∈ r.bindings := by
  unfold get? at h
  generalize r.bindings = bindings at *
  induction bindings with
  | nil => simp at h
  | cons e rest ih =>
    obtain ⟨x, b'⟩ := e
    rw [lookup_cons] at h
    split at h
    · simp_all
    · exact List.mem_cons_of_mem _ (ih h)

end DeclarativeRecord

end EcmaEval
