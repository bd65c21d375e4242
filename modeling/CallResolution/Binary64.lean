/-!
Quotients of counts as 64-bit binary floating-point numbers, in exact arithmetic. A
number has 53 significant bits, and what lies half way goes to the even neighbour.
-/

namespace CallResolution.Binary64

/-- The integer nearest to a quotient, the even one of two that are equally near. -/
def roundDiv (dividend divisor : Nat) : Nat :=
  let quotient := dividend / divisor
  let rest := dividend % divisor
  if 2 * rest < divisor then quotient
  else if divisor < 2 * rest then quotient + 1
  else quotient + quotient % 2

/-- The number with 53 significant bits nearest to a count. -/
def nearest (count : Nat) : Nat :=
  let unit := Nat.pow 2 (count.log2 - 52)
  roundDiv count unit * unit

/-- The bits of the number nearest to `dividend / divisor`, for a quotient that is zero or
in the normal range. The dividend is scaled so that its quotient has more than 53 bits,
and the significand's leading bit carries into the exponent. -/
def quotientBits (dividend divisor : Nat) : Nat :=
  if dividend = 0 then 0
  else
    let scale := 54 + divisor.log2
    let scaled := dividend * Nat.pow 2 scale
    let shift := (scaled / divisor).log2 - 52
    let significand := roundDiv scaled (divisor * Nat.pow 2 shift)
    (shift + 1074 - scale) * Nat.pow 2 52 + significand

/-- The bits of the ratio of two counts, each rounded before they are divided. -/
def ratioBits (part whole : Nat) : Nat :=
  quotientBits (nearest part) (nearest whole)

def hexadecimal (bits : Nat) : String :=
  let digits := Nat.toDigits 16 bits
  String.ofList (List.replicate (16 - digits.length) '0' ++ digits)

end CallResolution.Binary64
