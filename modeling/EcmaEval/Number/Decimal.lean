import EcmaEval.Number.Basic

/-!
# Decimal text of numbers

A number is written with the fewest digits that read back as the same number; among those, the
digits nearest to it, a tie going to the even last digit. The position of the decimal point decides
between positional and exponent form.
-/
namespace EcmaEval

structure Decimal where
  digits : Nat
  exponent : Int
  deriving DecidableEq

namespace Double

def quartersPerUnit : Nat := 4 * stepsPerUnit

/-- The least magnitude that rounds to `x`, in quarter steps. Below a power of two the doubles are
twice as dense. -/
def lowerEnd (x : Double) : Nat :=
  4 * x.steps - (if x.mantissa = leadingBit ∧ 0 < x.shift then 1 else 2) <<< x.shift

def upperEnd (x : Double) : Nat := 4 * x.steps + 2 <<< x.shift

/-- Whether `num / den` quarter steps round to `x`: the ends belong to an even mantissa. -/
def rounds (x : Double) (num den : Nat) : Bool :=
  if x.mantissa % 2 = 0 then x.lowerEnd * den ≤ num && num ≤ x.upperEnd * den
  else x.lowerEnd * den < num && num < x.upperEnd * den

def onGrid? (x : Double) (exponent : Int) : Option Decimal :=
  let unit := quartersPerUnit * Nat.pow 10 exponent.toNat
  let den := Nat.pow 10 (-exponent).toNat
  let exact := 4 * x.steps * den
  let below := exact / unit
  let above := below + 1
  let toBelow := exact - below * unit
  let toAbove := above * unit - exact
  match x.rounds (below * unit) den, x.rounds (above * unit) den with
  | false, false => none
  | true, false => some ⟨below, exponent⟩
  | false, true => some ⟨above, exponent⟩
  | true, true =>
    if toBelow < toAbove ∨ (toBelow = toAbove ∧ below % 2 = 0) then some ⟨below, exponent⟩
    else some ⟨above, exponent⟩

/-- The first hit on ever finer grids; the exact expansion if there is none. -/
def searchGrids (x : Double) (exponent : Int) : Nat → Decimal
  | 0 => ⟨x.steps * Nat.pow 5 1074, -1074⟩
  | tries + 1 => (x.onGrid? exponent).getD (x.searchGrids (exponent - 1) tries)

def coarsest (x : Double) : Int := ((x.steps.log2 : Int) - 1073) * 30103 / 100000 + 1

def shortest (x : Double) : Decimal := x.searchGrids x.coarsest 25

end Double

namespace Decimal

def zeros (n : Nat) : String := String.ofList (List.replicate n '0')

/-- Writes `digits * 10 ^ exponent` positionally while the point stands at most six places before
the first digit or twenty-one after it, and with an exponent otherwise. -/
def render (d : Decimal) : String :=
  let text := d.digits.repr
  let count := text.length
  let point : Int := d.exponent + count
  if count ≤ point ∧ point ≤ 21 then text ++ zeros (point - count).toNat
  else if 0 < point ∧ point ≤ 21 then
    String.ofList (text.toList.take point.toNat) ++ "." ++
      String.ofList (text.toList.drop point.toNat)
  else if -6 < point ∧ point ≤ 0 then "0." ++ zeros (-point).toNat ++ text
  else
    let lead := String.ofList (text.toList.take 1)
    let tail := text.toList.drop 1
    let fraction := if tail.isEmpty then "" else "." ++ String.ofList tail
    let power := point - 1
    let sign := if power < 0 then "-" else "+"
    lead ++ fraction ++ "e" ++ sign ++ power.natAbs.repr

end Decimal

namespace Number

/-- The text of a number. Both zeros are written `0`. The digits of the others stand for a library that
prints numbers, of which is assumed that it picks them as the language prescribes: the fewest that read
back as the same number, and of those the nearest. -/
def toText : Number → String
  | .nan => "NaN"
  | .infinite negative => if negative then "-Infinity" else "Infinity"
  | .finite x =>
    if x.mantissa = 0 then "0"
    else (if x.negative then "-" else "") ++ x.shortest.render

/-- The number nearest to a decimal. Magnitudes far outside the finite range are settled by their
number of digits. -/
def ofDecimal (negative : Bool) (d : Decimal) : Number :=
  let magnitude : Int := d.digits.repr.length + d.exponent
  if d.digits = 0 ∨ magnitude < -400 then signedZero negative
  else if 310 < magnitude then .infinite negative
  else ofRatio negative (d.digits * Nat.pow 10 d.exponent.toNat * stepsPerUnit)
    (Nat.pow 10 (-d.exponent).toNat)

end Number

end EcmaEval
