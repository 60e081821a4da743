import EcmaEval.Number.Decimal

/-!
# Text

String values are sequences of UTF-16 code units, lone surrogates included. Names in syntax trees
are ordinary strings; `Text.ofString` carries them over, and `Text.toString` goes back with the
replacement character for each lone surrogate. The readers of numbers and integers ignore blanks at
either end and take blank text as zero.
-/
namespace EcmaEval

def maxArrayLength : Nat := 4294967295

structure Text where
  units : List UInt16
  deriving DecidableEq, Hashable, Inhabited

namespace Text

def encodeChar (c : Char) : List UInt16 :=
  if c.toNat < 0x10000 then [c.toNat.toUInt16]
  else
    let offset := c.toNat - 0x10000
    [(0xd800 + offset / 1024).toUInt16, (0xdc00 + offset % 1024).toUInt16]

def ofString (s : String) : Text := ⟨s.toList.flatMap encodeChar⟩

def isHighSurrogate (u : UInt16) : Bool := 0xd800 ≤ u && u < 0xdc00

def isLowSurrogate (u : UInt16) : Bool := 0xdc00 ≤ u && u < 0xe000

def pairChar (high low : UInt16) : Char :=
  Char.ofNat (0x10000 + (high.toNat - 0xd800) * 1024 + (low.toNat - 0xdc00))

/-- Characters of a unit sequence, with `none` for each lone surrogate. -/
def decode : List UInt16 → List (Option Char)
  | [] => []
  | u :: rest =>
    if isHighSurrogate u then
      match rest with
      | [] => [none]
      | v :: tail =>
        if isLowSurrogate v then some (pairChar u v) :: decode tail else none :: decode (v :: tail)
    else if isLowSurrogate u then none :: decode rest
    else some (Char.ofNat u.toNat) :: decode rest

/-- The text as a string, each lone surrogate replaced by U+FFFD. -/
def toString (t : Text) : String := String.ofList ((decode t.units).map (·.getD '\ufffd'))

def toString? (t : Text) : Option String := ((decode t.units).mapM id).map String.ofList

def isEmpty (t : Text) : Bool := t.units.isEmpty

def append (s t : Text) : Text := ⟨s.units ++ t.units⟩

instance : Append Text := ⟨append⟩

def readDigits : List UInt16 → Nat → Option Nat
  | [], n => some n
  | u :: rest, n => if 48 ≤ u ∧ u ≤ 57 then readDigits rest (n * 10 + (u.toNat - 48)) else none

/-- The array index a text spells: a canonical decimal numeral below the greatest length. -/
def arrayIndex? (t : Text) : Option Nat :=
  if t.units.isEmpty || 10 < t.units.length then none
  else if 1 < t.units.length && t.units.head? == some 48 then none
  else (readDigits t.units 0).filter (· < maxArrayLength)

end Text

namespace Numeral

/-- Blank characters: the Unicode white space characters and the byte order mark. -/
def isBlank (c : Char) : Bool :=
  let n := c.toNat
  (9 ≤ n && n ≤ 13) || n == 0x20 || n == 0x85 || n == 0xa0 || n == 0x1680 ||
    (0x2000 ≤ n && n ≤ 0x200a) || n == 0x2028 || n == 0x2029 || n == 0x202f || n == 0x205f ||
    n == 0x3000 || n == 0xfeff

def trim (cs : List Char) : List Char :=
  ((cs.dropWhile isBlank).reverse.dropWhile isBlank).reverse

def digit? (radix : Nat) (c : Char) : Option Nat :=
  let value :=
    if '0' ≤ c ∧ c ≤ '9' then some (c.toNat - 48)
    else if 'a' ≤ c ∧ c ≤ 'z' then some (c.toNat - 87)
    else if 'A' ≤ c ∧ c ≤ 'Z' then some (c.toNat - 55)
    else none
  value.filter (· < radix)

/-- The radix announced by a leading `0x`, `0o` or `0b` of either case, and what follows it. -/
def radixMark? : List Char → Option (Nat × List Char)
  | '0' :: mark :: rest =>
    if mark = 'x' ∨ mark = 'X' then some (16, rest)
    else if mark = 'o' ∨ mark = 'O' then some (8, rest)
    else if mark = 'b' ∨ mark = 'B' then some (2, rest)
    else none
  | _ => none

def isSign (c : Char) : Bool := c == '+' || c == '-'

/-- Splits off one leading sign; `true` is minus. -/
def takeSign : List Char → Bool × List Char
  | '-' :: rest => (true, rest)
  | '+' :: rest => (false, rest)
  | cs => (false, cs)

/-- The natural number spelled by digits in a radix. An underscore between or after digits is
skipped. -/
def readNatural (radix : Nat) : List Char → Nat → Option Nat
  | [], n => some n
  | '_' :: rest, n => readNatural radix rest n
  | c :: rest, n => do readNatural radix rest (n * radix + (← digit? radix c))

/-- The integer spelled by an optional sign and digits in a radix. It stands for the parser of a library
of large integers, of which this much is assumed: one sign is taken, a digit comes first, and
underscores after it are skipped. -/
def readInteger (radix : Nat) (cs : List Char) : Option Int :=
  let (negative, digits) := takeSign cs
  if digits.isEmpty || digits.head? == some '_' then none
  else (readNatural radix digits 0).map fun n => if negative then -(n : Int) else n

/-- The number spelled by digits in a radix, rounded after every digit. -/
def readRounded (radix : Nat) : List Char → Number → Option Number
  | [], n => some n
  | c :: rest, n => do
    readRounded radix rest ((n.mul (.ofNat radix)).add (.ofNat (← digit? radix c)))

def readExponent : List Char → Option Int
  | [] => some 0
  | mark :: rest =>
    let (negative, digits) := takeSign rest
    if (mark = 'e' ∨ mark = 'E') ∧ !digits.isEmpty ∧ digits.all Char.isDigit then
      (readNatural 10 digits 0).map fun n => if negative then -(n : Int) else n
    else none

/-- The number spelled by a decimal literal: an optional sign, digits with an optional point, and
an optional exponent. -/
def readDecimal (cs : List Char) : Option Number :=
  let (negative, body) := takeSign cs
  let whole := body.takeWhile Char.isDigit
  let rest := body.dropWhile Char.isDigit
  let (fraction, rest) :=
    match rest with
    | '.' :: tail => (tail.takeWhile Char.isDigit, tail.dropWhile Char.isDigit)
    | _ => ([], rest)
  let digits := whole ++ fraction
  if digits.isEmpty then none
  else do
    let exponent ← readExponent rest
    let mantissa ← readNatural 10 digits 0
    some (.ofDecimal negative ⟨mantissa, exponent - fraction.length⟩)

end Numeral

open Numeral

def Text.toNumber (t : Text) : Number :=
  let cs := trim t.toString.toList
  if cs.isEmpty then .zero
  else
    match radixMark? cs with
    | some (_, []) => .nan
    | some (radix, digits) => (readRounded radix digits .zero).getD .nan
    | none =>
      let (negative, body) := takeSign cs
      if body = "Infinity".toList then .infinite negative else (readDecimal cs).getD .nan

def Text.toInt? (t : Text) : Option Int :=
  let cs := trim t.toString.toList
  if cs.isEmpty then some 0
  else
    match radixMark? cs with
    | some (radix, digits) => readInteger radix digits
    | none =>
      let digits := cs.dropWhile isSign
      if digits.isEmpty || !digits.all Char.isDigit then none else readInteger 10 cs

end EcmaEval
