import ContentNegotiation.Error
import ContentNegotiation.Quality.Basic
import ContentNegotiation.Text.Basic

/-!
Reading a quality from text.

A numeral is an optional sign followed by decimal digits, with an optional point among or around
them and an optional power of ten, or by a word for a number that is not finite. A numeral that
rounds beyond the finite numbers is not finite either.
-/

namespace ContentNegotiation

def valueOfDigits (digits : Text) : Nat := Nat.ofDigitChars 10 digits 0

/-- A sign in front of a text, if there is one: whether it is a minus, and what follows it. -/
def splitSign : Text → Bool × Text
  | '-' :: s => (true, s)
  | '+' :: s => (false, s)
  | s => (false, s)

namespace Decimal

/-- The power of ten that ends a numeral: nothing, or `e` and a whole number. -/
def readExponent? : Text → Option Int
  | [] => some 0
  | c :: s =>
    let (negative, digits) := splitSign s
    if c.toLower = 'e' ∧ digits ≠ [] ∧ digits.all Char.isDigit then
      some (if negative then -(valueOfDigits digits : Int) else valueOfDigits digits)
    else none

/-- Reads a numeral without its sign. There is at least one digit before the power of ten. -/
def read? (s : Text) : Option Decimal :=
  let whole := s.takeWhile Char.isDigit
  let (fraction, rest) := match s.dropWhile Char.isDigit with
    | '.' :: t => (t.takeWhile Char.isDigit, t.dropWhile Char.isDigit)
    | t => ([], t)
  if whole = [] ∧ fraction = [] then none
  else (readExponent? rest).map fun exponent =>
    { digits := valueOfDigits (whole ++ fraction), exponent := exponent - fraction.length }

example : read? "1.50E+3".toList = some { digits := 150, exponent := 1 } := by decide

example : read? ['.'] = none ∧ read? "e5".toList = none ∧ read? "1e".toList = none := by decide

end Decimal

inductive Numeral where
  | finite (negative : Bool) (magnitude : Decimal)
  | notFinite

def Numeral.read? (s : Text) : Option Numeral :=
  let (negative, body) := splitSign s
  match Decimal.read? body with
  | some d => some (.finite negative d)
  | none =>
    if Text.fold body ∈ ["inf".toList, "infinity".toList, "nan".toList] then some .notFinite
    else none

namespace Quality

def ofDecimal? (negative : Bool) (d : Decimal) : Option Quality :=
  if h : d.nearest < infinityCode then some ⟨negative, d.nearest, h⟩ else none

end Quality

/-- The finite number that the numeral rounds to. -/
def Numeral.quality? : Numeral → Option Quality
  | .finite negative magnitude => Quality.ofDecimal? negative magnitude
  | .notFinite => none

/-- Reads a quality, blank characters around it ignored. -/
def Quality.read (s : Text) : Except Error Quality :=
  match Numeral.read? (Text.trim s) with
  | none => .error (.invalidQuality (if Text.trim s = [] then .empty else .malformed))
  | some numeral =>
    match numeral.quality? with
    | some q => .ok q
    | none => .error .nonFiniteQuality

end ContentNegotiation
