import EcmaEval.Proofs.Number
import EcmaEval.Proofs.Numeral

/-!
# Numbers in text

Which texts are read as numbers, and do not give NaN. The grammar of the language allows spacing around a
decimal literal with a sign, around `Infinity` with a sign, and around digits after the mark of a radix,
which have none. What is read is the same but for one more blank, next line.
-/
namespace EcmaEval

namespace Number

theorem ofScaled_ne_nan (negative : Bool) (mantissa shift : Nat) : ofScaled negative mantissa shift ≠ .nan := by
  unfold ofScaled
  split <;> nofun

theorem ofRatio_ne_nan (negative : Bool) (num den : Nat) : ofRatio negative num den ≠ .nan := by
  unfold ofRatio
  dsimp only
  split <;> split <;> exact ofScaled_ne_nan _ _ _

theorem ofSteps_ne_nan (zeroNegative : Bool) (value : Int) : ofSteps zeroNegative value ≠ .nan := by
  unfold ofSteps
  split
  · exact ofScaled_ne_nan _ _ _
  · exact ofRatio_ne_nan _ _ _

theorem zero_ne_nan : zero ≠ .nan := by
  unfold zero ofInt
  exact ofRatio_ne_nan _ _ _

theorem ofDecimal_ne_nan (negative : Bool) (d : Decimal) : ofDecimal negative d ≠ .nan := by
  unfold ofDecimal
  dsimp only
  split
  · exact ofScaled_ne_nan _ _ _
  · split
    · nofun
    · exact ofRatio_ne_nan _ _ _

variable {x : Number} {n : Nat}

/-- A product with a positive whole number is NaN only if the other factor is. -/
theorem mul_ofNat_ne_nan (hx : x ≠ .nan) (hpos : 0 < n) (hn : n < mantissaLimit) : x.mul (.ofNat n) ≠ .nan := by
  obtain ⟨y, hy, -, hsteps⟩ := ofNat_eq hn
  have hzero : y.mantissa ≠ 0 := by
    intro hmantissa
    rw [y.steps_eq, hmantissa, Nat.zero_mul] at hsteps
    exact absurd hsteps.symm (Nat.ne_of_gt (Nat.mul_pos hpos stepsPerUnit_pos))
  rw [hy]
  cases x with
  | nan => exact absurd rfl hx
  | infinite negative => simp [mul, isZero, hzero]
  | finite z =>
    rw [mul]
    exact ofRatio_ne_nan _ _ _

/-- A sum with a whole number is NaN only if the other summand is. -/
theorem add_ofNat_ne_nan (hx : x ≠ .nan) (hn : n < mantissaLimit) : x.add (.ofNat n) ≠ .nan := by
  obtain ⟨y, hy, -⟩ := ofNat_eq hn
  rw [hy]
  cases x with
  | nan => exact absurd rfl hx
  | infinite negative => nofun
  | finite z => exact ofSteps_ne_nan _ _

end Number

namespace Numeral

/-- Each character is a digit in a radix. -/
def AllDigits (radix : Nat) (cs : List Char) : Prop := ∀ c ∈ cs, ∃ d, IsDigit radix c d

/-- One sign may stand before a literal. -/
inductive MaybeSigned (literal : List Char → Prop) : List Char → Prop
  | unsigned (h : literal cs) : MaybeSigned literal cs
  | signed (hsign : isSign c = true) (h : literal cs) : MaybeSigned literal (c :: cs)

/-- Decimal digits, or decimal digits on either side of a point, of which there is at least one. -/
inductive Mantissa : List Char → Prop
  | whole (hne : cs ≠ []) (h : AllDigits 10 cs) : Mantissa cs
  | pointed (hne : whole ++ fraction ≠ []) (hwhole : AllDigits 10 whole) (hfraction : AllDigits 10 fraction) :
      Mantissa (whole ++ '.' :: fraction)

/-- Nothing, or a letter `e` and an integer. -/
inductive ExponentPart : List Char → Prop
  | absent : ExponentPart []
  | present (hmark : c = 'e' ∨ c = 'E') (h : MaybeSigned (fun cs => cs ≠ [] ∧ AllDigits 10 cs) cs) :
      ExponentPart (c :: cs)

/-- A decimal literal without a sign. -/
inductive UnsignedDecimal : List Char → Prop
  | infinity : UnsignedDecimal "Infinity".toList
  | finite (hmantissa : Mantissa mantissa) (hexponent : ExponentPart exponent) :
      UnsignedDecimal (mantissa ++ exponent)

/-- The literals of the language that denote a number. -/
inductive NumericLiteral : List Char → Prop
  | empty : NumericLiteral []
  | decimal (h : MaybeSigned UnsignedDecimal cs) : NumericLiteral cs
  | marked (hmark : IsMark radix c) (hne : cs ≠ []) (h : AllDigits radix cs) : NumericLiteral ('0' :: c :: cs)

variable {radix : Nat} {cs body : List Char} {literal : List Char → Prop}

theorem isDigit_iff {c : Char} : c.isDigit = true ↔ ∃ d, IsDigit 10 c d := by
  refine ⟨fun h => ⟨c.toNat - 48, (digit?_eq_some (by decide)).mp ?_⟩, fun ⟨_, hd⟩ => hd.isDigit⟩
  have hrange : '0' ≤ c ∧ c ≤ '9' := by
    simpa [Char.isDigit, Char.le_def] using h
  have hle : c.toNat ≤ 57 := UInt32.le_iff_toNat_le.mp hrange.2
  unfold digit?
  rw [if_pos hrange, Option.filter_some, if_pos (decide_eq_true (by omega))]

theorem allDigits_iff : AllDigits 10 cs ↔ ∀ c ∈ cs, c.isDigit = true := by
  simp only [AllDigits, isDigit_iff]

/-- Digits denote a natural number. -/
theorem AllDigits.exists_digits (hne : cs ≠ []) (h : AllDigits radix cs) : ∃ n, Digits radix cs n := by
  suffices hvalues : ∃ ds, List.Forall₂ (IsDigit radix) cs ds from
    have ⟨ds, hds⟩ := hvalues
    ⟨_, hne, ds, hds, rfl⟩
  clear hne
  induction cs with
  | nil => exact ⟨[], .nil⟩
  | cons c rest ih =>
    obtain ⟨d, hd⟩ := h c List.mem_cons_self
    obtain ⟨ds, hds⟩ := ih fun c hc => h c (List.mem_cons_of_mem _ hc)
    exact ⟨d :: ds, .cons hd hds⟩

theorem readNatural_isSome (hne : cs ≠ []) (h : AllDigits 10 cs) : ∃ n, readNatural 10 cs 0 = some n := by
  obtain ⟨n, hn⟩ := h.exists_digits hne
  have hline : '_' ∉ cs := by
    intro hmem
    obtain ⟨d, hd⟩ := h '_' hmem
    exact hd.ne_underscore (by decide) rfl
  have hhead : cs.head? ≠ some '_' := fun hhead => hline (List.mem_of_head? hhead)
  exact ⟨n, (readNatural_separated (by decide) hne hhead).mpr ((separated_iff hline).mpr hn)⟩

/-- Nothing starts with a sign that is a literal without one. -/
theorem maybeSigned_iff (hunsigned : ∀ c cs, literal (c :: cs) → isSign c = false) :
    MaybeSigned literal cs ↔ literal (takeSign cs).2 := by
  constructor
  · intro h
    cases h with
    | unsigned h =>
      obtain ⟨rest, rfl, -⟩ | ⟨rest, rfl, -⟩ | ⟨htake, -⟩ := takeSign_eq cs
      · cases hunsigned _ _ h
      · cases hunsigned _ _ h
      · rwa [htake]
    | @signed c cs hsign h =>
      have hc : c = '+' ∨ c = '-' := by simpa [isSign] using hsign
      obtain rfl | rfl := hc <;> exact h
  · intro h
    obtain ⟨rest, rfl, htake⟩ | ⟨rest, rfl, htake⟩ | ⟨htake, -⟩ := takeSign_eq cs
    · exact .signed rfl (by rwa [htake] at h)
    · exact .signed rfl (by rwa [htake] at h)
    · exact .unsigned (by rwa [htake] at h)

theorem AllDigits.not_sign (h : AllDigits 10 (c :: cs)) : isSign c = false := by
  obtain ⟨d, hd⟩ := h c List.mem_cons_self
  exact hd.not_sign (by decide)

/-- Digits end where something else begins. -/
theorem span_digits {digits rest : List Char} (hdigits : AllDigits 10 digits)
    (hrest : ∀ c ∈ rest.head?, c.isDigit = false) :
    (digits ++ rest).takeWhile Char.isDigit = digits ∧ (digits ++ rest).dropWhile Char.isDigit = rest := by
  have hall := allDigits_iff.mp hdigits
  rw [List.takeWhile_append_of_pos hall, List.dropWhile_append_of_pos hall]
  cases rest with
  | nil => simp
  | cons c rest =>
    have hc : c.isDigit = false := hrest c rfl
    simp [hc]

theorem readExponent_isSome : (readExponent cs).isSome = true ↔ ExponentPart cs := by
  cases cs with
  | nil => exact iff_of_true rfl .absent
  | cons mark rest =>
    have hsigned : MaybeSigned (fun cs => cs ≠ [] ∧ AllDigits 10 cs) rest ↔
        (takeSign rest).2 ≠ [] ∧ AllDigits 10 (takeSign rest).2 :=
      maybeSigned_iff fun _ _ h => h.2.not_sign
    have hread : (readExponent (mark :: rest)).isSome = true ↔
        (mark = 'e' ∨ mark = 'E') ∧ (takeSign rest).2 ≠ [] ∧ AllDigits 10 (takeSign rest).2 := by
      unfold readExponent
      dsimp only
      rw [allDigits_iff]
      split
      · rename_i hguard
        obtain ⟨hmark, hne, hall⟩ := hguard
        have hne : (takeSign rest).2 ≠ [] := by simpa using hne
        have hall : ∀ c ∈ (takeSign rest).2, c.isDigit = true := List.all_eq_true.mp hall
        obtain ⟨n, hn⟩ := readNatural_isSome hne (allDigits_iff.mpr hall)
        rw [hn]
        exact iff_of_true rfl ⟨hmark, hne, hall⟩
      · rename_i hguard
        refine iff_of_false nofun fun ⟨hmark, hne, hall⟩ => hguard ⟨hmark, ?_, List.all_eq_true.mpr hall⟩
        simpa using hne
    rw [hread, ← hsigned]
    exact ⟨fun ⟨hmark, h⟩ => .present hmark h, fun h => by cases h with | present hmark h => exact ⟨hmark, h⟩⟩

/-- An exponent part starts with its letter. -/
theorem ExponentPart.head {exponent : List Char} (h : ExponentPart exponent) :
    ∀ c ∈ exponent.head?, c.isDigit = false ∧ c ≠ '.' := by
  cases h with
  | absent => nofun
  | present hmark _ =>
    rintro c ⟨rfl⟩
    obtain rfl | rfl := hmark <;> decide

/-- A decimal literal without a sign, other than `Infinity`. -/
def FiniteDecimal (cs : List Char) : Prop :=
  ∃ mantissa exponent, cs = mantissa ++ exponent ∧ Mantissa mantissa ∧ ExponentPart exponent

theorem unsignedDecimal_iff : UnsignedDecimal cs ↔ cs = "Infinity".toList ∨ FiniteDecimal cs := by
  constructor
  · intro h
    cases h with
    | infinity => exact .inl rfl
    | finite hmantissa hexponent => exact .inr ⟨_, _, rfl, hmantissa, hexponent⟩
  · rintro (rfl | ⟨mantissa, exponent, rfl, hmantissa, hexponent⟩)
    · exact .infinity
    · exact .finite hmantissa hexponent

/-- The digits after a point, and what follows them. -/
def splitFraction (rest : List Char) : List Char × List Char :=
  match rest with
  | '.' :: tail => (tail.takeWhile Char.isDigit, tail.dropWhile Char.isDigit)
  | _ => ([], rest)

theorem allDigits_takeWhile (cs : List Char) : AllDigits 10 (cs.takeWhile Char.isDigit) :=
  allDigits_iff.mpr fun _ hc => List.mem_takeWhile_imp hc

theorem splitFraction_eq (rest : List Char) :
    (∃ tail, rest = '.' :: tail ∧
      splitFraction rest = (tail.takeWhile Char.isDigit, tail.dropWhile Char.isDigit)) ∨
    splitFraction rest = ([], rest) := by
  unfold splitFraction
  split
  · exact .inl ⟨_, rfl, rfl⟩
  · exact .inr rfl

theorem allDigits_splitFraction (rest : List Char) : AllDigits 10 (splitFraction rest).1 := by
  obtain ⟨tail, -, hsplit⟩ | hsplit := splitFraction_eq rest
  · rw [hsplit]
    exact allDigits_takeWhile tail
  · rw [hsplit]
    nofun

theorem readDecimal_eq (negative : Bool) (h : takeSign cs = (negative, body)) : readDecimal cs =
    let digits := body.takeWhile Char.isDigit ++ (splitFraction (body.dropWhile Char.isDigit)).1
    let (fraction, rest) := splitFraction (body.dropWhile Char.isDigit)
    if digits.isEmpty then none
    else (readExponent rest).bind fun exponent => (readNatural 10 digits 0).bind fun mantissa =>
      some (.ofDecimal negative ⟨mantissa, exponent - fraction.length⟩) := by
  unfold readDecimal
  rw [h]
  rfl

/-- A decimal is read if there are digits and an exponent part follows them. -/
theorem readDecimal_isSome {negative : Bool} (h : takeSign cs = (negative, body)) :
    (readDecimal cs).isSome = true ↔
      body.takeWhile Char.isDigit ++ (splitFraction (body.dropWhile Char.isDigit)).1 ≠ [] ∧
        ExponentPart (splitFraction (body.dropWhile Char.isDigit)).2 := by
  have hdigits : AllDigits 10 (body.takeWhile Char.isDigit ++
      (splitFraction (body.dropWhile Char.isDigit)).1) := by
    intro c hc
    exact (List.mem_append.mp hc).elim (allDigits_takeWhile body c) (allDigits_splitFraction _ c)
  rw [readDecimal_eq negative h, ← readExponent_isSome]
  dsimp only
  split
  · rename_i hempty
    exact iff_of_false nofun fun h => h.1 (List.isEmpty_iff.mp hempty)
  · rename_i hne
    have hne := mt List.isEmpty_iff.mpr hne
    obtain ⟨n, hn⟩ := readNatural_isSome hne hdigits
    rw [and_iff_right hne]
    cases readExponent (splitFraction (body.dropWhile Char.isDigit)).2 with
    | none => rfl
    | some exponent => rw [Option.bind_some, hn, Option.bind_some]; rfl

theorem readDecimal_ne_nan {x : Number} (h : readDecimal cs = some x) : x ≠ .nan := by
  obtain ⟨⟨negative, body⟩, htake⟩ : ∃ split, takeSign cs = split := ⟨_, rfl⟩
  rw [readDecimal_eq negative htake] at h
  dsimp only at h
  split at h
  · cases h
  · obtain ⟨exponent, -, h⟩ := Option.bind_eq_some_iff.mp h
    obtain ⟨mantissa, -, h⟩ := Option.bind_eq_some_iff.mp h
    cases h
    exact Number.ofDecimal_ne_nan _ _

/-- What is split off is a literal, and only it. -/
theorem finiteDecimal_iff : FiniteDecimal body ↔
    body.takeWhile Char.isDigit ++ (splitFraction (body.dropWhile Char.isDigit)).1 ≠ [] ∧
      ExponentPart (splitFraction (body.dropWhile Char.isDigit)).2 := by
  constructor
  · rintro ⟨mantissa, exponent, rfl, hmantissa, hexponent⟩
    have hhead := hexponent.head
    cases hmantissa with
    | whole hne h =>
      obtain ⟨hwhole, hrest⟩ := span_digits h fun c hc => (hhead c hc).1
      have hsplit : splitFraction exponent = ([], exponent) := by
        unfold splitFraction
        split
        · exact absurd rfl (hhead _ rfl).2
        · rfl
      rw [hwhole, hrest, hsplit, List.append_nil]
      exact ⟨hne, hexponent⟩
    | @pointed whole fraction hne hwhole hfraction =>
      have hpoint : ∀ c ∈ ('.' :: fraction ++ exponent).head?, c.isDigit = false := by simp
      obtain ⟨htake, hdrop⟩ := span_digits hwhole hpoint
      obtain ⟨htake', hdrop'⟩ := span_digits hfraction fun c hc => (hhead c hc).1
      rw [List.append_assoc, htake, hdrop]
      have hsplit : splitFraction ('.' :: fraction ++ exponent) = (fraction, exponent) :=
        Prod.ext htake' hdrop'
      rw [hsplit]
      exact ⟨hne, hexponent⟩
  · rintro ⟨hne, hexponent⟩
    have hbody : body = body.takeWhile Char.isDigit ++ body.dropWhile Char.isDigit :=
      List.takeWhile_append_dropWhile.symm
    have hwhole := allDigits_takeWhile body
    generalize body.takeWhile Char.isDigit = whole at *
    generalize body.dropWhile Char.isDigit = rest at *
    obtain ⟨tail, rfl, hsplit⟩ | hsplit := splitFraction_eq rest
    · rw [hsplit] at hne hexponent
      refine ⟨_, _, ?_, .pointed hne hwhole (allDigits_takeWhile tail), hexponent⟩
      rw [hbody, List.append_assoc, List.cons_append, List.takeWhile_append_dropWhile]
    · rw [hsplit, List.append_nil] at hne
      rw [hsplit] at hexponent
      exact ⟨whole, rest, hbody, .whole hne hwhole, hexponent⟩

theorem UnsignedDecimal.not_sign {c : Char} (h : UnsignedDecimal (c :: cs)) : isSign c = false := by
  rcases unsignedDecimal_iff.mp h with h | ⟨mantissa, exponent, hsplit, hmantissa, -⟩
  · cases h
    rfl
  · cases hmantissa with
    | whole hne hdigits =>
      cases mantissa with
      | nil => exact absurd rfl hne
      | cons c' rest =>
        cases hsplit
        exact hdigits.not_sign
    | @pointed whole fraction hne hwhole hfraction =>
      cases whole with
      | nil =>
        cases hsplit
        rfl
      | cons c' rest =>
        cases hsplit
        exact hwhole.not_sign

/-- Rounding after every digit does not make NaN of a number. -/
theorem readRounded_isSome (cs : List Char) (hradix : radix ≤ 16) (hpos : 0 < radix) {acc : Number}
    (hacc : acc ≠ .nan) :
    (∀ x, readRounded radix cs acc = some x → x ≠ .nan) ∧
      ((readRounded radix cs acc).isSome = true ↔ AllDigits radix cs) := by
  induction cs generalizing acc with
  | nil => exact ⟨fun x hx => by cases hx; exact hacc, iff_of_true rfl nofun⟩
  | cons c rest ih =>
    have hlimit {n : Nat} (hn : n ≤ 16) : n < mantissaLimit := Nat.lt_of_le_of_lt hn (by decide)
    have hread : readRounded radix (c :: rest) acc = (digit? radix c).bind fun d =>
        readRounded radix rest ((acc.mul (.ofNat radix)).add (.ofNat d)) := rfl
    rw [hread]
    cases hdigit : digit? radix c with
    | none =>
      refine ⟨nofun, iff_of_false nofun fun h => ?_⟩
      obtain ⟨d, hd⟩ := h c List.mem_cons_self
      rw [(digit?_eq_some hradix).mpr hd] at hdigit
      cases hdigit
    | some d =>
      have hd := (digit?_eq_some hradix).mp hdigit
      have hnext : (acc.mul (.ofNat radix)).add (.ofNat d) ≠ .nan :=
        Number.add_ofNat_ne_nan (Number.mul_ofNat_ne_nan hacc hpos (hlimit hradix))
          (hlimit (Nat.le_of_lt (Nat.lt_of_lt_of_le hd.1 hradix)))
      obtain ⟨hvalue, hsome⟩ := ih hnext
      refine ⟨hvalue, hsome.trans ⟨fun h => List.forall_mem_cons.mpr ⟨⟨d, hd⟩, h⟩, fun h => ?_⟩⟩
      exact (List.forall_mem_cons.mp h).2

/-- The characters of a literal are plain. -/
theorem AllDigits.plain (hradix : radix ≤ 16) (h : AllDigits radix cs) : ∀ c ∈ cs, IsPlain c := by
  intro c hc
  obtain ⟨d, hd⟩ := h c hc
  exact hd.plain hradix

theorem MaybeSigned.plain (h : MaybeSigned literal cs) (hplain : ∀ cs, literal cs → ∀ c ∈ cs, IsPlain c) :
    ∀ c ∈ cs, IsPlain c := by
  cases h with
  | unsigned h => exact hplain _ h
  | @signed c cs hsign h =>
    have hc : c = '+' ∨ c = '-' := by simpa [isSign] using hsign
    refine List.forall_mem_cons.mpr ⟨?_, hplain _ h⟩
    obtain rfl | rfl := hc <;> decide

/-- The characters of decimal literals other than `Infinity`. -/
def isDecimalChar (c : Char) : Bool := c.isDigit || c == '.' || c == 'e' || c == 'E' || c == '+' || c == '-'

theorem plain_of_isDecimalChar {c : Char} (h : isDecimalChar c = true) : IsPlain c := by
  simp only [isDecimalChar, Bool.or_eq_true, beq_iff_eq] at h
  obtain ((((h | rfl) | rfl) | rfl) | rfl) | rfl := h
  · obtain ⟨d, hd⟩ := isDigit_iff.mp h
    exact hd.plain (by decide)
  all_goals decide

theorem AllDigits.isDecimalChar (h : AllDigits 10 cs) : ∀ c ∈ cs, isDecimalChar c = true := by
  intro c hc
  have hdigit := allDigits_iff.mp h c hc
  simp [Numeral.isDecimalChar, hdigit]

theorem MaybeSigned.isDecimalChar (h : MaybeSigned literal cs)
    (hliteral : ∀ cs, literal cs → ∀ c ∈ cs, isDecimalChar c = true) : ∀ c ∈ cs, isDecimalChar c = true := by
  cases h with
  | unsigned h => exact hliteral _ h
  | @signed c cs hsign h =>
    have hc : c = '+' ∨ c = '-' := by simpa [isSign] using hsign
    refine List.forall_mem_cons.mpr ⟨?_, hliteral _ h⟩
    obtain rfl | rfl := hc <;> decide

theorem FiniteDecimal.isDecimalChar (h : FiniteDecimal cs) : ∀ c ∈ cs, isDecimalChar c = true := by
  obtain ⟨mantissa, exponent, rfl, hmantissa, hexponent⟩ := h
  intro c hc
  rcases List.mem_append.mp hc with hc | hc
  · cases hmantissa with
    | whole hne hdigits => exact hdigits.isDecimalChar c hc
    | pointed hne hwhole hfraction =>
      rcases List.mem_append.mp hc with hc | hc
      · exact hwhole.isDecimalChar c hc
      · exact List.forall_mem_cons.mpr ⟨by decide, hfraction.isDecimalChar⟩ c hc
  · cases hexponent with
    | absent => cases hc
    | @present mark cs hmark hsigned =>
      refine List.forall_mem_cons.mpr ⟨?_, hsigned.isDecimalChar fun _ h => h.2.isDecimalChar⟩ c hc
      obtain rfl | rfl := hmark <;> decide

theorem UnsignedDecimal.plain (h : UnsignedDecimal cs) : ∀ c ∈ cs, IsPlain c := by
  rcases unsignedDecimal_iff.mp h with rfl | h
  · have hletters : ("Infinity".toList.all fun c => decide (IsPlain c)) = true := by decide
    exact fun c hc => of_decide_eq_true (List.all_eq_true.mp hletters c hc)
  · exact fun c hc => plain_of_isDecimalChar (h.isDecimalChar c hc)

theorem NumericLiteral.plain (h : NumericLiteral cs) : ∀ c ∈ cs, IsPlain c := by
  cases h with
  | empty => nofun
  | decimal h => exact h.plain fun _ => UnsignedDecimal.plain
  | marked hmark hne h =>
    exact List.forall_mem_cons.mpr ⟨by decide, List.forall_mem_cons.mpr ⟨hmark.letter.1, h.plain hmark.le⟩⟩

theorem getD_ne_nan {x : Option Number} (h : ∀ y, x = some y → y ≠ .nan) :
    x.getD .nan ≠ .nan ↔ x.isSome = true := by
  cases x with
  | none => exact iff_of_false (fun h => h rfl) nofun
  | some y => exact iff_of_true (h y rfl) rfl

/-- What is assumed of a parser of floating point numbers: of texts over digits, points, letters for exponents
and signs it takes the decimal literals with at most one sign, and never gives NaN. -/
def ParsesDecimals (parse : List Char → Option Number) : Prop :=
  ∀ cs, cs.all isDecimalChar = true →
    ((parse cs).isSome = true ↔ MaybeSigned FiniteDecimal cs) ∧ ∀ x, parse cs = some x → x ≠ .nan

/-- Reads a number that has no mark of a radix: `Infinity` after at most one sign, or what the parser makes of
characters that may stand in a decimal literal. -/
def readUnmarked (parse : List Char → Option Number) (cs : List Char) : Number :=
  let unsigned := cs.dropWhile isSign
  if unsigned = "Infinity".toList ∧ cs.length - unsigned.length ≤ 1 then .infinite (cs.head? == some '-')
  else if !cs.all isDecimalChar then .nan
  else (parse cs).getD .nan

/-- Reads a number without blanks around it. -/
def readNumber (parse : List Char → Option Number) (cs : List Char) : Number :=
  if cs.isEmpty then .zero
  else
    match radixMark? cs with
    | some (_, []) => .nan
    | some (radix, digits) => (readRounded radix digits .zero).getD .nan
    | none => readUnmarked parse cs

theorem maybeSigned_finiteDecimal : MaybeSigned FiniteDecimal cs ↔ FiniteDecimal (takeSign cs).2 :=
  maybeSigned_iff fun _ _ h => (unsignedDecimal_iff.mpr (.inr h)).not_sign

theorem parsesDecimals_readDecimal : ParsesDecimals readDecimal := by
  intro cs _
  obtain ⟨⟨negative, body⟩, htake⟩ : ∃ split, takeSign cs = split := ⟨_, rfl⟩
  refine ⟨?_, fun _ => readDecimal_ne_nan⟩
  rw [maybeSigned_finiteDecimal, htake, finiteDecimal_iff, readDecimal_isSome htake]

/-- Taking off all signs leaves `Infinity` and took at most one exactly if taking off one leaves it. -/
theorem infinity_iff : cs.dropWhile isSign = "Infinity".toList ∧ cs.length - (cs.dropWhile isSign).length ≤ 1 ↔
    (takeSign cs).2 = "Infinity".toList := by
  have hsigned (rest : List Char) : rest.dropWhile isSign = "Infinity".toList ∧
      rest.length + 1 - (rest.dropWhile isSign).length ≤ 1 ↔ rest = "Infinity".toList := by
    constructor
    · rintro ⟨hdrop, hlength⟩
      have hsuffix : rest.dropWhile isSign <:+ rest := List.dropWhile_suffix _
      exact (hsuffix.eq_of_length_le (by omega)).symm.trans hdrop
    · rintro rfl
      exact ⟨rfl, by decide⟩
  obtain ⟨rest, rfl, htake⟩ | ⟨rest, rfl, htake⟩ | ⟨htake, hnone⟩ := takeSign_eq cs
  · rw [htake]
    exact hsigned rest
  · rw [htake]
    exact hsigned rest
  · have hdrop : cs.dropWhile isSign = cs := by
      cases cs with
      | nil => rfl
      | cons c rest => exact List.dropWhile_cons_of_neg (by simp [hnone c rest rfl])
    rw [htake, hdrop]
    simp

/-- The mark of minus is taken off. -/
theorem takeSign_negative (cs : List Char) : (takeSign cs).1 = (cs.head? == some '-') := by
  obtain ⟨rest, rfl, htake⟩ | ⟨rest, rfl, htake⟩ | ⟨htake, hnone⟩ := takeSign_eq cs
  · rw [htake]
    rfl
  · rw [htake]
    rfl
  · rw [htake]
    cases cs with
    | nil => rfl
    | cons c rest =>
      have hminus : c ≠ '-' := by
        rintro rfl
        cases hnone _ _ rfl
      simp [hminus]

/-- Reading without a mark takes `Infinity` and the decimal literals, each with at most one sign. -/
theorem readUnmarked_ne_nan {parse : List Char → Option Number} (hparse : ParsesDecimals parse) :
    readUnmarked parse cs ≠ .nan ↔ UnsignedDecimal (takeSign cs).2 := by
  unfold readUnmarked
  dsimp only
  rw [unsignedDecimal_iff, ← maybeSigned_finiteDecimal]
  split
  · rename_i hinfinity
    exact iff_of_true nofun (.inl (infinity_iff.mp hinfinity))
  · rename_i hinfinity
    rw [or_iff_right (mt infinity_iff.mpr hinfinity)]
    cases hall : cs.all isDecimalChar with
    | true =>
      obtain ⟨hsome, hvalue⟩ := hparse cs hall
      exact (getD_ne_nan hvalue).trans hsome
    | false =>
      refine iff_of_false (fun h => h rfl) fun h => ?_
      have hchars := List.all_eq_true.mpr (h.isDecimalChar fun _ => FiniteDecimal.isDecimalChar)
      cases hall.symm.trans hchars

/-- With the parser of decimals this is the sign, `Infinity` and a decimal, in turn. -/
theorem readUnmarked_readDecimal (cs : List Char) : readUnmarked readDecimal cs =
    if (takeSign cs).2 = "Infinity".toList then .infinite (takeSign cs).1 else (readDecimal cs).getD .nan := by
  unfold readUnmarked
  dsimp only
  rw [takeSign_negative]
  by_cases hinfinity : (takeSign cs).2 = "Infinity".toList
  · rw [if_pos (infinity_iff.mpr hinfinity), if_pos hinfinity]
  · rw [if_neg (mt infinity_iff.mp hinfinity), if_neg hinfinity]
    cases hall : cs.all isDecimalChar with
    | true => rfl
    | false =>
      cases hread : readDecimal cs with
      | none => rfl
      | some x =>
        obtain ⟨⟨negative, body⟩, htake⟩ : ∃ split, takeSign cs = split := ⟨_, rfl⟩
        have hbody : FiniteDecimal (takeSign cs).2 := by
          rw [htake, finiteDecimal_iff, ← readDecimal_isSome htake, hread]
          rfl
        have hchars := List.all_eq_true.mpr ((maybeSigned_finiteDecimal.mpr hbody).isDecimalChar
          fun _ => FiniteDecimal.isDecimalChar)
        cases hall.symm.trans hchars

/-- A zero with the letter of a radix begins no decimal literal. -/
theorem IsMark.not_decimal {c : Char} (hmark : IsMark radix c) : ¬ MaybeSigned UnsignedDecimal ('0' :: c :: cs) := by
  rw [maybeSigned_iff fun _ _ => UnsignedDecimal.not_sign]
  change ¬ UnsignedDecimal ('0' :: c :: cs)
  rw [unsignedDecimal_iff, finiteDecimal_iff]
  have hletter : c.isDigit = false := hmark.letter.2.2
  have hrest : ('0' :: c :: cs).dropWhile Char.isDigit = c :: cs := by simp [hletter]
  have hother : c ≠ '.' ∧ c ≠ 'e' ∧ c ≠ 'E' := by
    obtain ⟨-, rfl | rfl⟩ | ⟨-, rfl | rfl⟩ | ⟨-, rfl | rfl⟩ := hmark.cases <;> decide
  rintro (h | ⟨-, h⟩)
  · cases h
  · rw [hrest] at h
    obtain ⟨tail, htail, -⟩ | hsplit := splitFraction_eq (c :: cs)
    · cases htail
      exact hother.1 rfl
    · rw [hsplit] at h
      cases h with
      | present hexponent _ => exact hexponent.elim hother.2.1 hother.2.2

theorem numericLiteral_marked {c : Char} (hmark : IsMark radix c) :
    NumericLiteral ('0' :: c :: cs) ↔ cs ≠ [] ∧ AllDigits radix cs := by
  refine ⟨fun h => ?_, fun ⟨hne, h⟩ => .marked hmark hne h⟩
  cases h with
  | decimal h => exact absurd h hmark.not_decimal
  | @marked radix' _ _ hmark' hne h =>
    have hread : radixMark? ('0' :: c :: cs) = some (radix, cs) := radixMark?_eq_some.mpr ⟨c, rfl, hmark⟩
    have hread' : radixMark? ('0' :: c :: cs) = some (radix', cs) := radixMark?_eq_some.mpr ⟨c, rfl, hmark'⟩
    cases hread.symm.trans hread'
    exact ⟨hne, h⟩

theorem numericLiteral_unmarked (hne : cs ≠ []) (hnone : radixMark? cs = none) :
    NumericLiteral cs ↔ UnsignedDecimal (takeSign cs).2 := by
  rw [← maybeSigned_iff fun _ _ => UnsignedDecimal.not_sign]
  refine ⟨fun h => ?_, .decimal⟩
  cases h with
  | empty => exact absurd rfl hne
  | decimal h => exact h
  | @marked radix c rest hmark _ _ =>
    have hread : radixMark? ('0' :: c :: rest) = some (radix, rest) := radixMark?_eq_some.mpr ⟨c, rfl, hmark⟩
    cases hnone.symm.trans hread

/-- What is read is a literal, and every literal is read. -/
theorem readNumber_ne_nan {parse : List Char → Option Number} (hparse : ParsesDecimals parse) :
    readNumber parse cs ≠ .nan ↔ NumericLiteral cs := by
  unfold readNumber
  split
  · rename_i hempty
    obtain rfl := List.isEmpty_iff.mp hempty
    exact iff_of_true Number.zero_ne_nan .empty
  · rename_i hne
    have hne : cs ≠ [] := mt List.isEmpty_iff.mpr hne
    split
    · rename_i radix hread
      obtain ⟨c, rfl, hmark⟩ := radixMark?_eq_some.mp hread
      rw [numericLiteral_marked hmark]
      exact iff_of_false (fun h => h rfl) fun h => h.1 rfl
    · rename_i radix digits hdigits hread
      obtain ⟨c, rfl, hmark⟩ := radixMark?_eq_some.mp hread
      have hpos : 0 < radix := by
        have := hmark.cases
        omega
      obtain ⟨hvalue, hsome⟩ := readRounded_isSome digits hmark.le hpos Number.zero_ne_nan
      rw [numericLiteral_marked hmark, getD_ne_nan hvalue, hsome]
      exact (and_iff_right hdigits).symm
    · rename_i hnone
      rw [numericLiteral_unmarked hne hnone, readUnmarked_ne_nan hparse]

end Numeral

open Numeral

namespace Text

variable {t : Text}

theorem toNumber_eq (t : Text) : t.toNumber = readNumber readDecimal (trim t.toString.toList) := by
  unfold readNumber
  rw [readUnmarked_readDecimal]
  rfl

/-- **Numbers in text.** A text is read as a number exactly if it is a literal of the language with spacing
or next lines around it; any other text is NaN. So all literals of the language are read, and no others where
the text has no next line. -/
theorem toNumber_reads_literals (t : Text) :
    (t.toNumber ≠ .nan ↔ t.Spells (fun c => IsSpacing c ∨ c = '\u0085') NumericLiteral) ∧
    (t.Spells IsSpacing NumericLiteral → t.toNumber ≠ .nan) ∧
    ('\u0085' ∉ t.toString.toList → t.toNumber ≠ .nan → t.Spells IsSpacing NumericLiteral) := by
  have hread : t.toNumber ≠ .nan ↔ t.Spells (fun c => IsSpacing c ∨ c = '\u0085') NumericLiteral := by
    rw [toNumber_eq, readNumber_ne_nan parsesDecimals_readDecimal, ← spells_iff_trim fun _ => NumericLiteral.plain]
    simp only [isBlank_iff]
  refine ⟨hread, fun h => ?_, fun hline h => ?_⟩
  · exact hread.mpr (h.imp (fun _ _ => .inl) fun _ _ => id)
  · refine (hread.mp h).imp (fun c hc hblank => ?_) fun _ _ => id
    refine hblank.resolve_right ?_
    rintro rfl
    exact hline hc

/-- A decimal literal with all its parts and spacing around it. -/
theorem toNumber_reads_literals_exponent :
    let t := ofString "\n-.5e+3\t"
    '\u0085' ∉ t.toString.toList ∧ t.toNumber ≠ .nan ∧ t.Spells IsSpacing NumericLiteral := by
  intro t
  have hline : '\u0085' ∉ t.toString.toList := by decide +kernel
  have hread : t.toNumber ≠ .nan := by decide +kernel
  exact ⟨hline, hread, (toNumber_reads_literals t).2.2 hline hread⟩

/-- A next line is read as zero, though it is no spacing. -/
theorem toNumber_nextLine : (ofString "\u0085").toNumber ≠ .nan ∧
    ¬ (ofString "\u0085").Spells IsSpacing NumericLiteral := by
  refine ⟨by decide +kernel, ?_⟩
  rintro ⟨lead, body, trail, ht, hbody, hlead, htrail⟩
  have hsplit : lead ++ body ++ trail = ['\u0085'] := (toString_split ht).symm.trans (by decide +kernel)
  have hmem : '\u0085' ∈ lead ++ body ++ trail := hsplit ▸ List.mem_singleton_self _
  have hspacing : ¬ IsSpacing '\u0085' := by simp [IsSpacing, IsWhiteSpace, IsLineTerminator]
  rcases List.mem_append.mp hmem with hmem | hmem
  · rcases List.mem_append.mp hmem with hmem | hmem
    · exact hspacing (hlead _ hmem)
    · exact absurd (hbody.plain _ hmem).notBlank (by decide)
  · exact hspacing (htrail _ hmem)

end Text

end EcmaEval
