import EcmaEval.Proofs.Text
import Mathlib.Data.List.Chain
import Mathlib.Data.List.Forall2
import Mathlib.Data.List.TakeWhile
import Mathlib.Data.Nat.Digits.Defs

/-!
# Integers in text

Which texts are read as integers, and as which. The grammar of the language allows spacing around a signed
decimal integer or around digits after the mark of a radix, and takes spacing alone as zero. What is read
is a little more: next line counts as a blank, and the digits after a mark may have a sign and underscores.
-/
namespace EcmaEval

namespace Numeral

/-- The white space of source text: tabs, form feed, the byte order mark and the space separators. -/
def IsWhiteSpace (c : Char) : Prop :=
  c.toNat ∈ [0x9, 0xb, 0xc, 0xfeff, 0x20, 0xa0, 0x1680, 0x202f, 0x205f, 0x3000] ∨
    0x2000 ≤ c.toNat ∧ c.toNat ≤ 0x200a

def IsLineTerminator (c : Char) : Prop := c.toNat ∈ [0xa, 0xd, 0x2028, 0x2029]

/-- What may stand around a literal. -/
def IsSpacing (c : Char) : Prop := IsWhiteSpace c ∨ IsLineTerminator c

/-- A character is the digit of a value in a radix; letters of either case count from ten. -/
def IsDigit (radix : Nat) (c : Char) (d : Nat) : Prop :=
  d < radix ∧ (c = d.digitChar ∨ c = d.digitChar.toUpper)

/-- Digits in a radix, the most significant first, denote a number. -/
def Digits (radix : Nat) (cs : List Char) (n : Nat) : Prop :=
  cs ≠ [] ∧ ∃ ds, List.Forall₂ (IsDigit radix) cs ds ∧ n = Nat.ofDigits radix ds.reverse

/-- Underscores may stand after the first character. -/
def Separated (numeral : List Char → Nat → Prop) (cs : List Char) (n : Nat) : Prop :=
  cs.head? ≠ some '_' ∧ numeral (cs.filter (· ≠ '_')) n

/-- One sign may stand before a numeral. -/
inductive Signed (numeral : List Char → Nat → Prop) : List Char → Int → Prop
  | unsigned (h : numeral cs n) : Signed numeral cs n
  | plus (h : numeral cs n) : Signed numeral ('+' :: cs) n
  | minus (h : numeral cs n) : Signed numeral ('-' :: cs) (-n)

/-- The letter after a zero that announces a radix. -/
def IsMark (radix : Nat) (c : Char) : Prop :=
  (radix, c) ∈ [(16, 'x'), (16, 'X'), (8, 'o'), (8, 'O'), (2, 'b'), (2, 'B')]

/-- The integer that a literal denotes. Nothing is zero, and a decimal integer may have a sign; what follows
the mark of a radix is left open. -/
inductive Literal (marked : Nat → List Char → Int → Prop) : List Char → Int → Prop
  | empty : Literal marked [] 0
  | decimal (h : Signed (Digits 10) cs k) : Literal marked cs k
  | marked (hmark : IsMark radix c) (h : marked radix cs k) : Literal marked ('0' :: c :: cs) k

/-- The literals of the language: only digits follow a mark. -/
abbrev StrictLiteral : List Char → Int → Prop :=
  Literal fun radix cs k => ∃ n : Nat, Digits radix cs n ∧ k = n

/-- The literals that are read: the digits after a mark may have a sign and underscores. -/
abbrev LenientLiteral : List Char → Int → Prop := Literal fun radix => Signed (Separated (Digits radix))

/-- The Unicode blanks are the spacing of source text and next line. -/
theorem isBlank_iff {c : Char} : isBlank c = true ↔ IsSpacing c ∨ c = '\u0085' := by
  have hnext : c = '\u0085' ↔ c.toNat = 0x85 := by
    refine ⟨fun h => h ▸ rfl, fun h => ?_⟩
    rw [← Char.ofNat_toNat c, h]
  rw [hnext]
  simp [isBlank, IsSpacing, IsWhiteSpace, IsLineTerminator]
  omega

theorem exists_trim (cs : List Char) : ∃ lead trail, cs = lead ++ trim cs ++ trail ∧
    (∀ c ∈ lead, isBlank c = true) ∧ ∀ c ∈ trail, isBlank c = true := by
  refine ⟨cs.takeWhile isBlank, ((cs.dropWhile isBlank).reverse.takeWhile isBlank).reverse, ?_,
    fun c hc => List.mem_takeWhile_imp hc, fun c hc => List.mem_takeWhile_imp (List.mem_reverse.mp hc)⟩
  unfold trim
  rw [List.append_assoc, ← List.reverse_append, List.takeWhile_append_dropWhile, List.reverse_reverse,
    List.takeWhile_append_dropWhile]

/-- Trimming takes blanks off up to what has none. -/
theorem trim_append {lead body trail : List Char} (hlead : ∀ c ∈ lead, isBlank c = true)
    (htrail : ∀ c ∈ trail, isBlank c = true) (hbody : ∀ c ∈ body, isBlank c = false) :
    trim (lead ++ body ++ trail) = body := by
  have hstop {body : List Char} (hbody : ∀ c ∈ body, isBlank c = false) :
      body.dropWhile isBlank = body := by
    cases body with
    | nil => rfl
    | cons c rest => exact List.dropWhile_cons_of_neg (by simp [hbody c])
  unfold trim
  rw [List.append_assoc, List.dropWhile_append_of_pos hlead, List.dropWhile_append, hstop hbody]
  split
  · rename_i hempty
    obtain rfl := List.isEmpty_iff.mp hempty
    rw [List.dropWhile_eq_nil_iff.mpr htrail]
    rfl
  · rw [List.reverse_append, List.dropWhile_append_of_pos (by simpa using htrail),
      hstop (by simpa using hbody), List.reverse_reverse]

theorem digit?_of_le {radix : Nat} (hradix : radix ≤ 16) (c : Char) :
    digit? radix c = (digit? 16 c).filter (· < radix) := by
  have hboth : (fun d => decide (d < 16) && decide (d < radix)) = fun d => decide (d < radix) := by
    funext d
    have hiff : d < 16 ∧ d < radix ↔ d < radix := by omega
    simpa using hiff
  unfold digit?
  dsimp only
  rw [Option.filter_filter, hboth]

theorem digit?_digitChar :
    ∀ d < 16, digit? 16 d.digitChar = some d ∧ digit? 16 d.digitChar.toUpper = some d := by
  decide

theorem lt_of_digit? {c : Char} {d : Nat} (h : digit? 16 c = some d) : c.toNat < 103 := by
  obtain ⟨hvalue, hlt⟩ := Option.filter_eq_some_iff.mp h
  have hlt : d < 16 := of_decide_eq_true hlt
  have hle {a b : Char} : a ≤ b ↔ a.toNat ≤ b.toNat := UInt32.le_iff_toNat_le
  simp only [hle] at hvalue
  change (if 48 ≤ c.toNat ∧ c.toNat ≤ 57 then some (c.toNat - 48)
    else if 97 ≤ c.toNat ∧ c.toNat ≤ 122 then some (c.toNat - 87)
    else if 65 ≤ c.toNat ∧ c.toNat ≤ 90 then some (c.toNat - 55) else none) = some d at hvalue
  split at hvalue
  · omega
  · split at hvalue
    · cases hvalue
      omega
    · split at hvalue
      · omega
      · cases hvalue

theorem digitChar_of_digit? : ∀ n < 103, (digit? 16 (Char.ofNat n)).all fun d =>
    Char.ofNat n == d.digitChar || Char.ofNat n == d.digitChar.toUpper := by
  decide

theorem digit?_eq_some {radix : Nat} (hradix : radix ≤ 16) {c : Char} {d : Nat} :
    digit? radix c = some d ↔ IsDigit radix c d := by
  rw [digit?_of_le hradix, Option.filter_eq_some_iff]
  constructor
  · rintro ⟨hvalue, hlt⟩
    have hchar := digitChar_of_digit? c.toNat (lt_of_digit? hvalue)
    rw [Char.ofNat_toNat, hvalue] at hchar
    exact ⟨of_decide_eq_true hlt, by simpa using hchar⟩
  · rintro ⟨hlt, hc⟩
    obtain ⟨hlower, hupper⟩ := digit?_digitChar d (Nat.lt_of_lt_of_le hlt hradix)
    refine ⟨?_, decide_eq_true hlt⟩
    rcases hc with rfl | rfl
    · exact hlower
    · exact hupper

/-- A character that a numeral may consist of. -/
structure IsPlain (c : Char) : Prop where
  notBlank : isBlank c = false
  ascii : c.toNat < 0x80

instance (c : Char) : Decidable (IsPlain c) :=
  decidable_of_iff (isBlank c = false ∧ c.toNat < 0x80) ⟨fun h => ⟨h.1, h.2⟩, fun h => ⟨h.1, h.2⟩⟩

theorem digitChar_plain {c : Char} {d : Nat} (hd : d < 16) (hc : c = d.digitChar ∨ c = d.digitChar.toUpper) :
    IsPlain c ∧ isSign c = false ∧ c ≠ '_' ∧ (c.isDigit = true ↔ d < 10) := by
  obtain rfl | rfl := hc
  · decide +revert
  · decide +revert

section Digit

variable {radix : Nat} (hradix : radix ≤ 16) {c : Char} {d : Nat}

include hradix

theorem IsDigit.plain (h : IsDigit radix c d) : IsPlain c :=
  (digitChar_plain (Nat.lt_of_lt_of_le h.1 hradix) h.2).1

theorem IsDigit.not_sign (h : IsDigit radix c d) : isSign c = false :=
  (digitChar_plain (Nat.lt_of_lt_of_le h.1 hradix) h.2).2.1

theorem IsDigit.ne_underscore (h : IsDigit radix c d) : c ≠ '_' :=
  (digitChar_plain (Nat.lt_of_lt_of_le h.1 hradix) h.2).2.2.1

omit hradix in
theorem IsDigit.isDigit (h : IsDigit 10 c d) : c.isDigit = true :=
  (digitChar_plain (Nat.lt_of_lt_of_le h.1 (by decide)) h.2).2.2.2.mpr h.1

end Digit

variable {radix : Nat} {cs : List Char} {n : Nat} {k : Int}

theorem exists_digit {ds : List Nat} (h : List.Forall₂ (IsDigit radix) cs ds) {c : Char} (hc : c ∈ cs) :
    ∃ d, IsDigit radix c d := by
  induction h with
  | nil => cases hc
  | cons hd _ ih =>
    rcases List.mem_cons.mp hc with rfl | hc
    · exact ⟨_, hd⟩
    · exact ih hc

theorem Digits.exists_digit (h : Digits radix cs n) {c : Char} (hc : c ∈ cs) : ∃ d, IsDigit radix c d := by
  obtain ⟨-, ds, hds, -⟩ := h
  exact Numeral.exists_digit hds hc

theorem Separated.exists_digit (h : Separated (Digits radix) cs n) {c : Char} (hc : c ∈ cs) :
    c = '_' ∨ ∃ d, IsDigit radix c d := by
  by_cases hline : c = '_'
  · exact .inl hline
  · exact .inr (h.2.exists_digit (List.mem_filter.mpr ⟨hc, by simpa using hline⟩))

theorem separated_iff {numeral : List Char → Nat → Prop} (hline : '_' ∉ cs) :
    Separated numeral cs n ↔ numeral cs n := by
  have hfilter : cs.filter (· ≠ '_') = cs := by
    refine List.filter_eq_self.mpr fun c hc => ?_
    have hne : c ≠ '_' := by
      rintro rfl
      exact hline hc
    simpa using hne
  have hhead : cs.head? ≠ some '_' := fun h => hline (List.mem_of_head? h)
  unfold Separated
  rw [hfilter]
  exact and_iff_right hhead

section Readers

variable (hradix : radix ≤ 16)

include hradix

theorem readNatural_eq_some {acc : Nat} :
    readNatural radix cs acc = some n ↔ ∃ ds, List.Forall₂ (IsDigit radix) (cs.filter (· ≠ '_')) ds ∧
      n = ds.foldl (fun n d => n * radix + d) acc := by
  induction cs generalizing acc with
  | nil => simp [readNatural, eq_comm]
  | cons c rest ih =>
    by_cases hc : c = '_'
    · subst hc
      rw [readNatural, ih]
      simp
    · have hfilter : (c :: rest).filter (· ≠ '_') = c :: rest.filter (· ≠ '_') := by simp [hc]
      have hstep : readNatural radix (c :: rest) acc =
          (digit? radix c).bind fun d => readNatural radix rest (acc * radix + d) := by
        rw [readNatural.eq_def]
        split
        · contradiction
        · rename_i h
          cases h
          contradiction
        · rename_i h
          cases h
          rfl
      rw [hstep, hfilter, Option.bind_eq_some_iff]
      constructor
      · rintro ⟨d, hd, hrest⟩
        obtain ⟨ds, hds, hn⟩ := ih.mp hrest
        exact ⟨d :: ds, .cons ((digit?_eq_some hradix).mp hd) hds, hn⟩
      · rintro ⟨_, hds, hn⟩
        cases hds with
        | cons hd hds => exact ⟨_, (digit?_eq_some hradix).mpr hd, ih.mpr ⟨_, hds, hn⟩⟩

theorem readNatural_separated (hne : cs ≠ []) (hhead : cs.head? ≠ some '_') :
    readNatural radix cs 0 = some n ↔ Separated (Digits radix) cs n := by
  have hfilter : cs.filter (· ≠ '_') ≠ [] := by
    cases cs with
    | nil => exact absurd rfl hne
    | cons c rest =>
      simp only [List.head?_cons, ne_eq, Option.some.injEq] at hhead
      simp [hhead]
  have hfold (ds : List Nat) : ds.foldl (fun n d => n * radix + d) 0 = Nat.ofDigits radix ds.reverse := by
    rw [Nat.ofDigits_eq_foldr, List.foldr_reverse]
    simp [Nat.mul_comm, Nat.add_comm]
  rw [readNatural_eq_some hradix]
  simp only [hfold]
  exact ⟨fun h => ⟨hhead, hfilter, h⟩, fun h => h.2.2⟩

end Readers

namespace Signed

variable {numeral numeral' : List Char → Nat → Prop}

theorem imp (h : Signed numeral cs k) (hnumeral : ∀ cs' n, cs' <:+ cs → numeral cs' n → numeral' cs' n) :
    Signed numeral' cs k := by
  cases h with
  | unsigned h => exact .unsigned (hnumeral _ _ (List.suffix_refl _) h)
  | plus h => exact .plus (hnumeral _ _ (List.suffix_cons _ _) h)
  | minus h => exact .minus (hnumeral _ _ (List.suffix_cons _ _) h)

/-- After its signs there is only the numeral. -/
theorem exists_dropWhile (h : Signed numeral cs k) (hsigns : ∀ cs n, numeral cs n → cs.dropWhile isSign = cs) :
    ∃ n, numeral (cs.dropWhile isSign) n := by
  cases h with
  | unsigned h => exact ⟨_, (hsigns _ _ h).symm ▸ h⟩
  | plus h => exact ⟨_, (hsigns _ _ h).symm ▸ h⟩
  | minus h => exact ⟨_, (hsigns _ _ h).symm ▸ h⟩

theorem plain (h : Signed numeral cs k) (hplain : ∀ cs n, numeral cs n → ∀ c ∈ cs, IsPlain c) :
    ∀ c ∈ cs, IsPlain c := by
  cases h with
  | unsigned h => exact hplain _ _ h
  | plus h => exact List.forall_mem_cons.mpr ⟨by decide, hplain _ _ h⟩
  | minus h => exact List.forall_mem_cons.mpr ⟨by decide, hplain _ _ h⟩

end Signed

theorem takeSign_eq (cs : List Char) : (∃ rest, cs = '-' :: rest ∧ takeSign cs = (true, rest)) ∨
    (∃ rest, cs = '+' :: rest ∧ takeSign cs = (false, rest)) ∨
    takeSign cs = (false, cs) ∧ ∀ c rest, cs = c :: rest → isSign c = false := by
  unfold takeSign
  split
  · exact .inl ⟨_, rfl, rfl⟩
  · exact .inr (.inl ⟨_, rfl, rfl⟩)
  · rename_i hminus hplus
    refine .inr (.inr ⟨rfl, ?_⟩)
    rintro c rest rfl
    have hne : c ≠ '-' ∧ c ≠ '+' :=
      ⟨fun h => hminus rest (h ▸ rfl), fun h => hplus rest (h ▸ rfl)⟩
    simp [isSign, hne]

theorem readInteger_eq_some (hradix : radix ≤ 16) :
    readInteger radix cs = some k ↔ Signed (Separated (Digits radix)) cs k := by
  have hread {negative : Bool} {digits : List Char} (h : takeSign cs = (negative, digits)) :
      readInteger radix cs = some k ↔ ∃ n : Nat, Separated (Digits radix) digits n ∧
        k = if negative then -(n : Int) else n := by
    unfold readInteger
    rw [h]
    dsimp only
    split
    · rename_i hskip
      refine ⟨nofun, fun ⟨n, ⟨hhead, hne, _⟩, _⟩ => ?_⟩
      cases digits with
      | nil => exact absurd rfl hne
      | cons c rest => simp_all
    · rename_i hstart
      simp only [Bool.or_eq_true, not_or] at hstart
      have hn (n : Nat) : readNatural radix digits 0 = some n ↔ Separated (Digits radix) digits n :=
        readNatural_separated hradix (by simpa using hstart.1) (by simpa using hstart.2)
      simp only [← hn]
      cases readNatural radix digits 0 with
      | none => exact ⟨nofun, fun ⟨n, hn, _⟩ => nomatch hn⟩
      | some n =>
        refine ⟨fun h => ⟨n, rfl, (Option.some.inj h).symm⟩, fun ⟨n', hn', hk⟩ => ?_⟩
        cases hn'
        rw [hk]
        rfl
  -- a sign that has been taken off is no digit, so it does not begin an unsigned numeral
  have hsign {c : Char} {rest : List Char} {n : Nat} (h : Separated (Digits radix) (c :: rest) n)
      (hc : isSign c = true) : False := by
    rcases h.exists_digit List.mem_cons_self with rfl | ⟨d, hd⟩
    · cases hc
    · cases (hd.not_sign hradix).symm.trans hc
  obtain ⟨rest, rfl, h⟩ | ⟨rest, rfl, h⟩ | ⟨h, hnone⟩ := takeSign_eq cs
  · refine (hread h).trans ⟨fun ⟨n, hn, hk⟩ => hk ▸ .minus hn, fun h => ?_⟩
    cases h with
    | unsigned h => exact (hsign h rfl).elim
    | minus h => exact ⟨_, h, rfl⟩
  · refine (hread h).trans ⟨fun ⟨n, hn, hk⟩ => hk ▸ .plus hn, fun h => ?_⟩
    cases h with
    | unsigned h => exact (hsign h rfl).elim
    | plus h => exact ⟨_, h, rfl⟩
  · refine (hread h).trans ⟨fun ⟨n, hn, hk⟩ => hk ▸ .unsigned hn, fun h => ?_⟩
    cases h with
    | unsigned h => exact ⟨_, h, rfl⟩
    | plus h => cases hnone _ _ rfl
    | minus h => cases hnone _ _ rfl

/-- What is assumed of a parser of integers: one sign may stand before the digits, the first of which must be
there, and underscores after it are skipped. -/
def ParsesIntegers (parse : Nat → List Char → Option Int) : Prop :=
  ∀ radix ≤ 16, ∀ cs k, parse radix cs = some k ↔ Signed (Separated (Digits radix)) cs k

theorem parsesIntegers_readInteger : ParsesIntegers readInteger := fun _ hradix _ _ => readInteger_eq_some hradix

/-- The assumption leaves no choice. -/
theorem ParsesIntegers.eq_readInteger {parse : Nat → List Char → Option Int} (hparse : ParsesIntegers parse)
    (hradix : radix ≤ 16) (cs : List Char) : parse radix cs = readInteger radix cs :=
  Option.ext fun k => (hparse radix hradix cs k).trans (readInteger_eq_some hradix).symm

theorem Digits.dropWhile_isSign (h : Digits 10 cs n) : cs.dropWhile isSign = cs := by
  cases cs with
  | nil => rfl
  | cons c rest =>
    obtain ⟨d, hd⟩ := h.exists_digit List.mem_cons_self
    exact List.dropWhile_cons_of_neg (by simp [hd.not_sign (by decide)])

theorem Digits.all_isDigit (h : Digits 10 cs n) : cs.all Char.isDigit = true := by
  refine List.all_eq_true.mpr fun c hc => ?_
  obtain ⟨d, hd⟩ := h.exists_digit hc
  exact hd.isDigit

/-- A decimal integer is read where only digits follow the signs, so that there are no underscores. -/
theorem readDecimalInteger_eq_some :
    (if (cs.dropWhile isSign).isEmpty || !(cs.dropWhile isSign).all Char.isDigit then none
      else readInteger 10 cs) = some k ↔ Signed (Digits 10) cs k := by
  split
  · rename_i hskip
    refine ⟨nofun, fun h => ?_⟩
    obtain ⟨n, hn⟩ := h.exists_dropWhile fun _ _ h => h.dropWhile_isSign
    rw [hn.all_isDigit] at hskip
    exact absurd (by simpa using hskip) hn.1
  · rename_i hstart
    have hline : '_' ∉ cs := by
      intro hmem
      rw [← List.takeWhile_append_dropWhile (p := isSign) (l := cs)] at hmem
      rcases List.mem_append.mp hmem with hmem | hmem
      · exact absurd (List.mem_takeWhile_imp hmem) (by decide)
      · have hall : (cs.dropWhile isSign).all Char.isDigit = true := by simp_all
        exact absurd (List.all_eq_true.mp hall '_' hmem) (by decide)
    have hsep (cs' : List Char) (n : Nat) (hsuffix : cs' <:+ cs) :
        Separated (Digits 10) cs' n ↔ Digits 10 cs' n :=
      separated_iff fun hmem => hline (hsuffix.mem hmem)
    rw [readInteger_eq_some (by decide)]
    exact ⟨fun h => h.imp fun _ _ hs => (hsep _ _ hs).mp, fun h => h.imp fun _ _ hs => (hsep _ _ hs).mpr⟩

namespace IsMark

variable {c : Char}

theorem cases (h : IsMark radix c) : radix = 16 ∧ (c = 'x' ∨ c = 'X') ∨ radix = 8 ∧ (c = 'o' ∨ c = 'O') ∨
    radix = 2 ∧ (c = 'b' ∨ c = 'B') := by
  simp only [IsMark, List.mem_cons, Prod.mk.injEq, List.not_mem_nil, or_false] at h
  tauto

theorem le (h : IsMark radix c) : radix ≤ 16 := by
  have := h.cases
  omega

theorem letter (h : IsMark radix c) : IsPlain c ∧ c.isAlpha = true ∧ c.isDigit = false := by
  obtain ⟨-, rfl | rfl⟩ | ⟨-, rfl | rfl⟩ | ⟨-, rfl | rfl⟩ := h.cases <;> decide

end IsMark

theorem radixMark?_eq_some {rest : List Char} :
    radixMark? cs = some (radix, rest) ↔ ∃ c, cs = '0' :: c :: rest ∧ IsMark radix c := by
  unfold radixMark?
  split
  · rename_i c tail
    constructor
    · intro h
      refine ⟨c, ?_⟩
      split at h
      · cases h
        simp_all [IsMark]
      · split at h
        · cases h
          simp_all [IsMark]
        · split at h
          · cases h
            simp_all [IsMark]
          · cases h
    · rintro ⟨c, hcs, hmark⟩
      cases hcs
      obtain ⟨rfl, rfl | rfl⟩ | ⟨rfl, rfl | rfl⟩ | ⟨rfl, rfl | rfl⟩ := hmark.cases <;> rfl
  · rename_i hnone
    exact ⟨nofun, fun ⟨c, hcs, _⟩ => absurd hcs (hnone c rest)⟩

theorem LenientLiteral.plain (h : LenientLiteral cs k) : ∀ c ∈ cs, IsPlain c := by
  cases h with
  | empty => simp
  | decimal h =>
    refine h.plain fun cs n h c hc => ?_
    obtain ⟨d, hd⟩ := h.exists_digit hc
    exact hd.plain (by decide)
  | marked hmark h =>
    refine List.forall_mem_cons.mpr ⟨by decide, List.forall_mem_cons.mpr ⟨hmark.letter.1, ?_⟩⟩
    refine h.plain fun cs n h c hc => ?_
    rcases h.exists_digit hc with rfl | ⟨d, hd⟩
    · decide
    · exact hd.plain hmark.le

/-- Reads a literal without blanks around it, with a parser of integers. -/
def readLiteral (parse : Nat → List Char → Option Int) (cs : List Char) : Option Int :=
  if cs.isEmpty then some 0
  else
    match radixMark? cs with
    | some (radix, digits) => parse radix digits
    | none =>
      let digits := cs.dropWhile isSign
      if digits.isEmpty || !digits.all Char.isDigit then none else parse 10 cs

theorem readLiteral_eq_some {parse : Nat → List Char → Option Int} (hparse : ParsesIntegers parse) :
    readLiteral parse cs = some k ↔ LenientLiteral cs k := by
  unfold readLiteral
  split
  · rename_i hempty
    obtain rfl := List.isEmpty_iff.mp hempty
    constructor
    · intro h
      cases h
      exact .empty
    · intro h
      cases h with
      | empty => rfl
      | decimal h =>
        cases h with
        | unsigned h => exact absurd rfl h.1
  · rename_i hne
    split
    · rename_i radix digits hread
      obtain ⟨c, rfl, hmark⟩ := radixMark?_eq_some.mp hread
      rw [hparse radix hmark.le]
      refine ⟨fun h => .marked hmark h, fun h => ?_⟩
      cases h with
      | decimal h =>
        cases h with
        | unsigned h =>
          exact absurd (List.all_eq_true.mp h.all_isDigit c (by simp)) (by simp [hmark.letter.2.2])
      | @marked radix' _ _ _ hmark' h =>
        have hread' : radixMark? ('0' :: c :: digits) = some (radix', digits) :=
          radixMark?_eq_some.mpr ⟨c, rfl, hmark'⟩
        cases hread.symm.trans hread'
        exact h
    · rename_i hnone
      rw [hparse.eq_readInteger (by decide), readDecimalInteger_eq_some]
      refine ⟨.decimal, fun h => ?_⟩
      cases h with
      | empty => exact absurd rfl hne
      | decimal h => exact h
      | @marked radix c rest _ hmark h =>
        have hread : radixMark? ('0' :: c :: rest) = some (radix, rest) :=
          radixMark?_eq_some.mpr ⟨c, rfl, hmark⟩
        cases hnone.symm.trans hread

end Numeral

open Numeral

namespace Text

/-- The text is a literal of a grammar with blanks around it. -/
def Spells (t : Text) (blank : Char → Prop) (literal : List Char → Prop) : Prop :=
  ∃ lead body trail, t = .ofString (.ofList (lead ++ body ++ trail)) ∧ literal body ∧
    (∀ c ∈ lead, blank c) ∧ ∀ c ∈ trail, blank c

/-- The text has nothing that only lenient reading takes: no next line, no underscore and no sign after a
letter. -/
structure IsStrict (t : Text) : Prop where
  noNextLine : '\u0085' ∉ t.toString.toList
  noUnderscore : '_' ∉ t.toString.toList
  noMarkedSign : t.toString.toList.IsChain fun c sign => c.isAlpha = true → isSign sign = false

variable {t : Text} {k : Int} {literal literal' : List Char → Prop} {blank blank' : Char → Prop}

theorem toString_split {lead body trail : List Char} (h : t = .ofString (.ofList (lead ++ body ++ trail))) :
    t.toString.toList = lead ++ body ++ trail := by
  rw [h, toString_ofString, String.toList_ofList]

/-- Spelling in another grammar, given that it takes the parts. -/
theorem Spells.imp (h : t.Spells blank literal)
    (hblank : ∀ c ∈ t.toString.toList, blank c → blank' c)
    (hliteral : ∀ body, body <:+: t.toString.toList → literal body → literal' body) : t.Spells blank' literal' := by
  obtain ⟨lead, body, trail, ht, hbody, hlead, htrail⟩ := h
  have hsplit := toString_split ht
  refine ⟨lead, body, trail, ht, hliteral body ⟨lead, trail, hsplit.symm⟩ hbody, fun c hc => ?_, fun c hc => ?_⟩
  · exact hblank c (by simp [hsplit, hc]) (hlead c hc)
  · exact hblank c (by simp [hsplit, hc]) (htrail c hc)

/-- Trimming leaves the literal that a text spells. -/
theorem spells_iff_trim (hplain : ∀ body, literal body → ∀ c ∈ body, IsPlain c) :
    t.Spells (isBlank · = true) literal ↔ literal (trim t.toString.toList) := by
  constructor
  · rintro ⟨lead, body, trail, ht, hbody, hlead, htrail⟩
    rw [toString_split ht, trim_append hlead htrail fun c hc => (hplain body hbody c hc).notBlank]
    exact hbody
  · intro h
    obtain ⟨lead, trail, hsplit, hlead, htrail⟩ := exists_trim t.toString.toList
    refine ⟨lead, trim t.toString.toList, trail, ?_, h, hlead, htrail⟩
    rw [← hsplit, String.ofList_toList]
    refine (ofString_toString fun hlost => ?_).symm
    -- the replacement character is no blank and no part of a literal
    rw [hsplit, List.append_assoc, List.mem_append, List.mem_append] at hlost
    rcases hlost with hlost | hlost | hlost
    · exact absurd (hlead _ hlost) (by decide)
    · exact absurd (hplain _ h _ hlost).ascii (by decide)
    · exact absurd (htrail _ hlost) (by decide)

theorem toInt?_eq (t : Text) : t.toInt? = readLiteral readInteger (trim t.toString.toList) := rfl

/-- The texts that are read as an integer. -/
theorem toInt?_eq_some : t.toInt? = some k ↔ t.Spells (isBlank · = true) (LenientLiteral · k) := by
  rw [toInt?_eq, readLiteral_eq_some parsesIntegers_readInteger]
  exact (spells_iff_trim fun _ h => LenientLiteral.plain h).symm

/-- Reading takes all literals of the language. -/
theorem lenient_of_strict {cs : List Char} (h : StrictLiteral cs k) : LenientLiteral cs k := by
  cases h with
  | empty => exact .empty
  | decimal h => exact .decimal h
  | marked hmark h =>
    obtain ⟨n, hn, rfl⟩ := h
    refine .marked hmark (.unsigned ((separated_iff fun hline => ?_).mpr hn))
    obtain ⟨d, hd⟩ := hn.exists_digit hline
    exact hd.ne_underscore hmark.le rfl

/-- Without underscores and signs after letters a literal is one of the language. -/
theorem strict_of_lenient {cs : List Char} (h : LenientLiteral cs k) (hline : '_' ∉ cs)
    (hsigns : cs.IsChain fun c sign => c.isAlpha = true → isSign sign = false) : StrictLiteral cs k := by
  cases h with
  | empty => exact .empty
  | decimal h => exact .decimal h
  | @marked radix c cs _ hmark h =>
    have hline : '_' ∉ cs := fun hmem => hline (by simp [hmem])
    have hsign {sign : Char} {rest : List Char} (hcs : cs = sign :: rest) : isSign sign = false := by
      rw [hcs, List.isChain_cons_cons, List.isChain_cons_cons] at hsigns
      exact hsigns.2.1 hmark.letter.2.1
    cases h with
    | unsigned h => exact .marked hmark ⟨_, (separated_iff hline).mp h, rfl⟩
    | plus h => cases hsign rfl
    | minus h => cases hsign rfl

/-- **Integers in text.** A text is read as an integer exactly if it is a literal of the lenient grammar for
this integer, with spacing or next lines around it. All literals of the language are read, and no others
where the text has nothing that only the lenient grammar allows. -/
theorem toInt?_reads_literals (t : Text) (k : Int) :
    (t.toInt? = some k ↔ t.Spells (fun c => IsSpacing c ∨ c = '\u0085') (LenientLiteral · k)) ∧
    (t.Spells IsSpacing (StrictLiteral · k) → t.toInt? = some k) ∧
    (t.IsStrict → t.toInt? = some k → t.Spells IsSpacing (StrictLiteral · k)) := by
  have hread : t.toInt? = some k ↔ t.Spells (fun c => IsSpacing c ∨ c = '\u0085') (LenientLiteral · k) := by
    simp only [toInt?_eq_some, isBlank_iff]
  refine ⟨hread, fun h => ?_, fun hstrict h => ?_⟩
  · exact hread.mpr (h.imp (fun _ _ => .inl) fun _ _ => lenient_of_strict)
  · refine (hread.mp h).imp (fun c hc hblank => ?_) fun body hbody hliteral => ?_
    · refine hblank.resolve_right ?_
      rintro rfl
      exact hstrict.noNextLine hc
    · have hsigns := List.IsChain.infix hstrict.noMarkedSign hbody
      exact strict_of_lenient hliteral (fun hline => hstrict.noUnderscore (hbody.mem hline)) hsigns

/-- A number in hexadecimal digits of both cases, with spacing around it. -/
theorem toInt?_reads_literals_hexadecimal :
    let t := ofString "\n0x1Fa\t"
    t.IsStrict ∧ t.toInt? = some 0x1fa ∧ t.Spells IsSpacing (StrictLiteral · 0x1fa) := by
  intro t
  have hstrict : t.IsStrict := ⟨by decide +kernel, by decide +kernel, by decide +kernel⟩
  have hread : t.toInt? = some 0x1fa := by decide +kernel
  exact ⟨hstrict, hread, (toInt?_reads_literals t 0x1fa).2.2 hstrict hread⟩

/-- A sign after a mark is read, though no literal of the language has one. -/
theorem toInt?_marked_sign : (ofString "0x-1").toInt? = some (-1) ∧
    ∀ k, ¬ (ofString "0x-1").Spells IsSpacing (StrictLiteral · k) := by
  refine ⟨by decide +kernel, fun k h => ?_⟩
  have htrim : trim (ofString "0x-1").toString.toList = ['0', 'x', '-', '1'] := by decide +kernel
  have hliteral : StrictLiteral ['0', 'x', '-', '1'] k := by
    rw [← htrim]
    refine (spells_iff_trim fun _ h => (lenient_of_strict h).plain).mp ?_
    exact h.imp (fun c _ hc => isBlank_iff.mpr (.inl hc)) fun _ _ => id
  cases hliteral with
  | decimal hdecimal =>
    cases hdecimal with
    | unsigned hdigits => exact absurd hdigits.all_isDigit (by decide)
  | marked hmark hdigits =>
    obtain ⟨n, hn, -⟩ := hdigits
    obtain ⟨d, hd⟩ := hn.exists_digit List.mem_cons_self
    cases hd.not_sign hmark.le

end Text

end EcmaEval
