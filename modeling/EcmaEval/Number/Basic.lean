/-!
# Numbers

The numeric values of the language: one NaN, two infinities and the finite doubles. Every finite
double is a whole number of *steps* of `2 ^ -1074`, the smallest positive double, so comparison,
truncation and remainder are integer operations on steps, and each arithmetic operation is an exact
ratio of steps followed by one rounding, `Number.ofRatio`. The bit operators work on 32-bit residues.
Powers come from the platform's `pow`, with the language's own rules for a NaN exponent and for bases of
magnitude one.
-/
namespace EcmaEval

def stepsPerUnit : Nat := Nat.pow 2 1074

/-- The leading bit of a full mantissa, which the interchange format leaves out. -/
def leadingBit : Nat := Nat.pow 2 52

def mantissaLimit : Nat := Nat.pow 2 53

/-- The pairs that name a double: of the ways to write a magnitude as `mantissa * 2 ^ shift` steps
with a mantissa of at most 53 bits, the one with the smallest shift. -/
def Canonical (mantissa shift : Nat) : Prop :=
  mantissa < mantissaLimit ∧ shift ≤ 2045 ∧ (leadingBit ≤ mantissa ∨ shift = 0)

instance (mantissa shift : Nat) : Decidable (Canonical mantissa shift) :=
  inferInstanceAs (Decidable (_ ∧ _ ∧ _))

/-- A finite double. Zero has both signs. -/
structure Double where
  negative : Bool
  mantissa : Nat
  shift : Nat
  canonical : Canonical mantissa shift
  deriving DecidableEq

namespace Double

def steps (x : Double) : Nat := x.mantissa <<< x.shift

def value (x : Double) : Int := if x.negative then -(x.steps : Int) else x.steps

def truncate (x : Double) : Int := x.value.tdiv stepsPerUnit

end Double

/-- A numeric value. Structural equality tells the two zeros apart and identifies NaN with itself. -/
inductive Number where
  | nan
  | infinite (negative : Bool)
  | finite (x : Double)
  deriving DecidableEq

namespace Number

/-- `mantissa * 2 ^ shift` steps; what lies outside the finite range is infinite. -/
def ofScaled (negative : Bool) (mantissa shift : Nat) : Number :=
  if h : Canonical mantissa shift then .finite ⟨negative, mantissa, shift, h⟩
  else .infinite negative

/-- The number nearest to `num / den` steps; a half goes to the even mantissa. -/
def ofRatio (negative : Bool) (num den : Nat) : Number :=
  let shift := (num / den).log2 - 52
  let unit := den <<< shift
  let floor := num / unit
  let twice := 2 * (num % unit)
  let mantissa := if twice < unit ∨ (twice = unit ∧ floor % 2 = 0) then floor else floor + 1
  if mantissa = mantissaLimit then ofScaled negative leadingBit (shift + 1)
  else ofScaled negative mantissa shift

def signedZero (negative : Bool) : Number := ofScaled negative 0 0

def ofInt (n : Int) : Number := ofRatio (decide (n < 0)) (n.natAbs * stepsPerUnit) 1

def ofNat (n : Nat) : Number := ofInt n

def zero : Number := ofInt 0

def one : Number := ofInt 1

instance : Inhabited Number := ⟨zero⟩

/-- Reads the interchange format: sign, eleven exponent bits, fifty-two fraction bits. All NaN
patterns are one value. -/
def ofBits (bits : UInt64) : Number :=
  let negative := bits >>> 63 == 1
  let exponent := ((bits >>> 52) &&& 0x7ff).toNat
  let fraction := (bits &&& 0xfffffffffffff).toNat
  if exponent = 2047 then
    if fraction = 0 then .infinite negative else .nan
  else if exponent = 0 then ofScaled negative fraction 0
  else ofScaled negative (fraction + leadingBit) (exponent - 1)

/-- Writes the interchange format; NaN is the quiet pattern without payload. -/
def toBits : Number → UInt64
  | .nan => 0x7ff8000000000000
  | .infinite negative => if negative then 0xfff0000000000000 else 0x7ff0000000000000
  | .finite x =>
    let sign : UInt64 := if x.negative then 0x8000000000000000 else 0
    let magnitude :=
      if x.mantissa < leadingBit then x.mantissa else x.shift * leadingBit + x.mantissa
    sign ||| magnitude.toUInt64

def isNaN : Number → Bool
  | .nan => true
  | _ => false

def isInfinite : Number → Bool
  | .infinite _ => true
  | _ => false

def isZero : Number → Bool
  | .finite x => x.mantissa == 0
  | _ => false

/-- The sign bit; NaN has none. -/
def isNegative : Number → Bool
  | .nan => false
  | .infinite negative => negative
  | .finite x => x.negative

def toInt? : Number → Option Int
  | .finite x => if x.steps % stepsPerUnit = 0 then some x.truncate else none
  | _ => none

/-- The value without its fraction; zero for NaN and the infinities. -/
def truncate : Number → Int
  | .finite x => x.truncate
  | _ => 0

/-- Equality that identifies the two zeros, and NaN with itself. -/
def sameValueZero (x y : Number) : Bool := x == y || (x.isZero && y.isZero)

/-- Numeric equality: NaN differs from everything, the two zeros agree. -/
def equal (x y : Number) : Bool := !x.isNaN && x.sameValueZero y

/-- Numeric order; undefined when an operand is NaN. -/
def less? : Number → Number → Option Bool
  | .nan, _ => none
  | _, .nan => none
  | .infinite n, .infinite k => some (n && !k)
  | .infinite n, .finite _ => some n
  | .finite _, .infinite k => some (!k)
  | .finite x, .finite y => some (decide (x.value < y.value))

def toUint32 (x : Number) : UInt32 := UInt32.ofInt x.truncate

def toInt32 (x : Number) : Int32 := x.toUint32.toInt32


/-- A signed number of steps; a zero result takes the given sign. -/
def ofSteps (zeroNegative : Bool) (value : Int) : Number :=
  if value = 0 then signedZero zeroNegative else ofRatio (decide (value < 0)) value.natAbs 1

def neg : Number → Number
  | .nan => .nan
  | .infinite negative => .infinite (!negative)
  | .finite x => .finite { x with negative := !x.negative }

/-- An exact zero sum is negative only if both operands are. -/
def add : Number → Number → Number
  | .nan, _ => .nan
  | _, .nan => .nan
  | .infinite n, .infinite k => if n == k then .infinite n else .nan
  | .infinite n, .finite _ => .infinite n
  | .finite _, .infinite k => .infinite k
  | .finite x, .finite y => ofSteps (x.negative && y.negative) (x.value + y.value)

def sub (x y : Number) : Number := x.add y.neg

def mul : Number → Number → Number
  | .nan, _ => .nan
  | _, .nan => .nan
  | .infinite n, y => if y.isZero then .nan else .infinite (n != y.isNegative)
  | x, .infinite k => if x.isZero then .nan else .infinite (x.isNegative != k)
  | .finite x, .finite y => ofRatio (x.negative != y.negative) (x.steps * y.steps) stepsPerUnit

def div : Number → Number → Number
  | .nan, _ => .nan
  | _, .nan => .nan
  | .infinite n, y => if y.isInfinite then .nan else .infinite (n != y.isNegative)
  | .finite x, .infinite k => signedZero (x.negative != k)
  | .finite x, .finite y =>
    if y.mantissa = 0 then
      if x.mantissa = 0 then .nan else .infinite (x.negative != y.negative)
    else ofRatio (x.negative != y.negative) (x.steps * stepsPerUnit) y.steps

/-- What is left after removing whole multiples of the divisor toward zero, with the sign of the
dividend. -/
def rem : Number → Number → Number
  | .nan, _ => .nan
  | _, .nan => .nan
  | .infinite _, _ => .nan
  | .finite x, .infinite _ => .finite x
  | .finite x, .finite y =>
    if y.mantissa = 0 then .nan else ofSteps x.negative (x.value.tmod y.value)

def platformPow (base exponent : Number) : Number :=
  ofBits (Float.pow (Float.ofBits base.toBits) (Float.ofBits exponent.toBits)).toBits

/-- A NaN exponent gives NaN, a zero exponent gives one, and a base of magnitude one with an
infinite exponent gives NaN. -/
def pow (base exponent : Number) : Number :=
  if exponent.isNaN then .nan
  else if exponent.isZero then one
  else if (base == one || base == one.neg) && exponent.isInfinite then .nan
  else platformPow base exponent

def shiftAmount (x : Number) : UInt32 := x.toUint32 &&& 31

def bitNot (x : Number) : Number := ofInt (~~~x.toInt32).toInt

def bitAnd (x y : Number) : Number := ofInt (x.toInt32 &&& y.toInt32).toInt

def bitOr (x y : Number) : Number := ofInt (x.toInt32 ||| y.toInt32).toInt

def bitXor (x y : Number) : Number := ofInt (x.toInt32 ^^^ y.toInt32).toInt

def shiftLeft (x y : Number) : Number := ofInt (x.toInt32 <<< y.shiftAmount.toInt32).toInt

def shiftRight (x y : Number) : Number := ofInt (x.toInt32 >>> y.shiftAmount.toInt32).toInt

def shiftRightZero (x y : Number) : Number := ofNat (x.toUint32 >>> y.shiftAmount).toNat

end Number

end EcmaEval
