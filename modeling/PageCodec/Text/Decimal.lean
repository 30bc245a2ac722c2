/-!
# Floating-point numbers with one decimal place

A finite floating-point number is a whole number times a power of two.  Its tenths are computed
from that exact value and rounded to the nearest whole number of tenths, a half to the even one, so
6.25 is written as 6.2 and 18.75 as 18.8.  However large the number is, it is written in full.
-/

namespace PageCodec

namespace Decimal

/-- The whole number nearest to `num / den`; of two that are equally near, the even one. -/
def roundDiv (num den : Nat) : Nat :=
  let q := num / den
  let r := num % den
  if 2 * r < den then q
  else if den < 2 * r then q + 1
  else q + q % 2

/-- What the bits of a floating-point number say. -/
inductive Decoded where
  /-- The number `mantissa * 2 ^ exponent`, or its opposite. -/
  | finite (negative : Bool) (mantissa : Nat) (exponent : Int)
  /-- One of the two infinities. -/
  | infinite (negative : Bool)
  /-- Not a number. -/
  | notANumber
  deriving DecidableEq, Repr

/-- Reads the sign, the exponent and the fraction of a number from its 64 bits. -/
def decode (bits : UInt64) : Decoded :=
  let negative := bits >>> 63 == 1
  let fraction := (bits &&& 0xfffffffffffff).toNat
  match (bits >>> 52 &&& 0x7ff).toNat with
  | 0 => .finite negative fraction (-1074)
  | 2047 => if fraction = 0 then .infinite negative else .notANumber
  | exponent => .finite negative (0x10000000000000 + fraction) (exponent - 1075)

/-- The tenths in `mantissa * 2 ^ exponent`, rounded to a whole number. -/
def tenths (mantissa : Nat) (exponent : Int) : Nat :=
  match exponent with
  | .ofNat e => (10 * mantissa) <<< e
  | .negSucc e => roundDiv (10 * mantissa) (1 <<< (e + 1))

/-- The sign of a number as text. -/
def sign (negative : Bool) : String := if negative then "-" else ""

/-- A number with one decimal place. -/
def text (x : Float) : String :=
  match decode x.toBits with
  | .finite negative mantissa exponent =>
    let n := tenths mantissa exponent
    s!"{sign negative}{n / 10}.{n % 10}"
  | .infinite negative => s!"{sign negative}inf"
  | .notANumber => "NaN"

end Decimal

end PageCodec
