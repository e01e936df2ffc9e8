/-!
Qualities: finite binary64 numbers, and the rounding of decimals to them.

A quality is a sign and a magnitude code. The codes count the non-negative finite numbers from zero
upwards, so codes are ordered as the numbers are, and the order of qualities is the order of the
signed codes. Zero has two signs, which differ when written and are equal when compared. There is
no infinity and no value outside the order.

A decimal rounds to the nearest code, with ties to the even one. All numbers are counted in units of
`2⁻¹⁰⁷⁵`, half the least positive number, so that the numbers and the midpoints between neighbours
are whole. A decimal rounds to the least code whose upper midpoint it does not pass; the codes are
searched by halving.
-/

namespace ContentNegotiation

/-- The magnitude code that stands for infinity, the first that no finite number has. -/
def infinityCode : Nat := 0x7FF0000000000000

structure Quality where
  negative : Bool
  code : Nat
  code_lt : code < infinityCode := by decide
deriving DecidableEq

namespace Quality

/-- The quality of a range that states none. -/
def one : Quality where
  negative := false
  code := 0x3FF0000000000000

/-- The place of the quality in the order. -/
def signed (q : Quality) : Int := if q.negative then -(q.code : Int) else q.code

instance : LE Quality := ⟨fun q r => q.signed ≤ r.signed⟩

instance : LT Quality := ⟨fun q r => q.signed < r.signed⟩

instance (q r : Quality) : Decidable (q ≤ r) := inferInstanceAs (Decidable (q.signed ≤ r.signed))

instance (q r : Quality) : Decidable (q < r) := inferInstanceAs (Decidable (q.signed < r.signed))

/-- Equality of value: the two zeros have the same value. -/
def sameValue (q r : Quality) : Bool := q.signed == r.signed

example : sameValue ⟨true, 0, by decide⟩ ⟨false, 0, by decide⟩ = true := by decide

end Quality

/-! ### Rounding -/

-- Powers of natural numbers are those of the core library, whatever else is in scope.
attribute [local instance (high)] instPowNat

/-- The decimal number `digits * 10 ^ exponent`. -/
structure Decimal where
  digits : Nat
  exponent : Int
deriving DecidableEq

/-- The number of codes with the same binary exponent, `2⁵²`. -/
def binade : Nat := 0x10000000000000

/-- One, in units of `2⁻¹⁰⁷⁵`. -/
def unitsOfOne : Nat := Nat.pow 2 1075

/-- The number with the given magnitude code, in units of `2⁻¹⁰⁷⁵`. -/
def units (code : Nat) : Nat :=
  let exponent := code / binade
  let fraction := code % binade
  if exponent = 0 then 2 * fraction else 2 * (binade + fraction) * 2 ^ (exponent - 1)

/-- The midpoint between the number with the given code and the next one, in units of `2⁻¹⁰⁷⁵`. -/
def midpoint (code : Nat) : Nat :=
  let exponent := code / binade
  let fraction := code % binade
  if exponent = 0 then 2 * fraction + 1 else (2 * (binade + fraction) + 1) * 2 ^ (exponent - 1)

/-- The least number below `lo + 2 ^ k` and not below `lo` that has the property, or the last of
them. The property is meant to pass from each number to all greater ones. -/
def bisect (p : Nat → Bool) : (k lo : Nat) → Nat
  | 0, lo => lo
  | k + 1, lo => if p (lo + 2 ^ k - 1) then bisect p k lo else bisect p k (lo + 2 ^ k)

namespace Decimal

/-- The decimal is `numerator / denominator`. -/
def numerator (d : Decimal) : Nat := d.digits * 10 ^ d.exponent.toNat

def denominator (d : Decimal) : Nat := 10 ^ (-d.exponent).toNat

/-- Whether the decimal rounds to the code or to one below it: it does not pass the upper midpoint,
and lies on it only if the code is even. -/
def roundsBelow (d : Decimal) (code : Nat) : Bool :=
  let number := d.numerator * unitsOfOne
  let bound := midpoint code * d.denominator
  number < bound || (number = bound && code % 2 = 0)

/-- Whether the decimal rounds to the code. -/
def roundsTo (d : Decimal) (code : Nat) : Bool :=
  d.roundsBelow code && (code = 0 || !d.roundsBelow (code - 1))

/-- The decimal with its exponent moved into bounds beyond which every decimal with these digits
rounds alike: to zero or to infinity. It keeps the powers of ten small. -/
def bounded (d : Decimal) : Decimal :=
  { d with exponent := max (-(d.digits.log2 + 400 : Nat)) (min d.exponent 400) }

/-- The magnitude code that the decimal rounds to. It is `infinityCode` or above when the decimal
is too large for a finite number. -/
def nearest (d : Decimal) : Nat := bisect d.bounded.roundsBelow 63 0

example : (Decimal.mk 10 (-1)).nearest = Quality.one.code := by decide +kernel

/-- `2⁵³ + 1` lies between two codes and goes to the even one. -/
example : (Decimal.mk 9007199254740993 0).nearest = 1076 * binade := by decide +kernel

example : infinityCode ≤ (Decimal.mk 1 309).nearest := by decide +kernel

end Decimal

end ContentNegotiation
