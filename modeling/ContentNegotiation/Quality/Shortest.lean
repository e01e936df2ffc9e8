import ContentNegotiation.Quality.Basic
import ContentNegotiation.Text.Basic

/-!
Writing a quality with the fewest digits that read back to it.

For one digit, two digits and so on, the two neighbours of the number with that many digits are
tried; the first number of digits at which a neighbour rounds to the number wins. Of two such
neighbours the nearer is taken, and the upper one if both are equally near. The digits are laid out
without a power of ten, and without a point when the number is whole.
-/

namespace ContentNegotiation

attribute [local instance (high)] instPowNat

namespace Decimal

def exact (code : Nat) : Decimal := { digits := units code * Nat.pow 5 1075, exponent := -1075 }

/-- The least `k` from `-400` on with the number below `10 ^ k`. -/
def magnitude (code : Nat) : Int :=
  (bisect (fun i => units code * 10 ^ (400 - i) < 10 ^ (i - 400) * unitsOfOne) 10 0 : Int) - 400

/-- The one of two decimals that rounds to the code, or the one that is preferred if both do. -/
def pick? (code : Nat) (below above : Decimal) (preferBelow : Bool) : Option Decimal :=
  if below.roundsTo code && (preferBelow || !above.roundsTo code) then some below
  else if above.roundsTo code then some above
  else none

/-- The better of the two multiples of `10 ^ exponent` around the number, among those that round
to it. -/
def onGrid? (code : Nat) (exponent : Int) : Option Decimal :=
  let number := units code * 10 ^ (-exponent).toNat
  let step := 10 ^ exponent.toNat * unitsOfOne
  let multiple := number / step
  pick? code { digits := multiple, exponent } { digits := multiple + 1, exponent }
    (2 * number < (multiple + (multiple + 1)) * step)

/-- The decimal with the fewest digits that rounds to the code. Seventeen digits are enough for any
finite number; were they not, the exact number would be taken. -/
def shortest (code : Nat) : Decimal :=
  let k := magnitude code
  ((List.range 17).findSome? fun (n : Nat) => onGrid? code (k - (n + 1))).getD (exact code)

/-- The decimal digits of the whole part, and of the fraction if it is not zero, around a point. -/
def layOut (d : Decimal) : Text :=
  let places := (-d.exponent).toNat
  let whole := d.numerator / 10 ^ places
  let fraction := Nat.toDigits 10 (d.numerator % 10 ^ places)
  let padded := List.replicate (places - fraction.length) '0' ++ fraction
  let significant := (padded.reverse.dropWhile (· = '0')).reverse
  Nat.toDigits 10 whole ++ if significant = [] then [] else '.' :: significant

end Decimal

def Quality.render (q : Quality) : Text :=
  (if q.negative then ['-'] else []) ++
    if q.code = 0 then ['0'] else (Decimal.shortest q.code).layOut

/-- The least positive number needs one digit. -/
example : Decimal.shortest 1 = { digits := 5, exponent := -324 } := by decide +kernel

/-- Halfway between two decimals the upper one is taken. -/
example : Decimal.shortest 0x3E60000000000000 =
    { digits := 29802322387695313, exponent := -24 } := by decide +kernel

example : Quality.one.render = ['1'] := by decide +kernel

example : (Decimal.mk 125 (-3)).layOut = "0.125".toList := by decide +kernel

example : (Decimal.mk 2 1).layOut = "20".toList := by decide +kernel

end ContentNegotiation
