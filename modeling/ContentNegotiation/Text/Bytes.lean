import ContentNegotiation.Text.Basic

/-!
The UTF-8 bytes of a text, and slices at positions among them.

A slice begins at one position and ends in front of another. There is none if the positions are out
of order, if they are beyond the end, or if one of them lies inside a character. The bytes of slices
are compared one by one, up to the case of ASCII letters.
-/

namespace ContentNegotiation

abbrev Bytes := List UInt8

def Text.utf8 (s : Text) : Bytes := s.flatMap String.utf8EncodeChar

namespace Bytes

/-- Whether a character begins at the position, or the bytes end there. -/
def isBoundary (bs : Bytes) (i : Nat) : Bool :=
  i = bs.length || bs[i]?.any fun b => b.IsUTF8FirstByte

def upTo? (bs : Bytes) (i : Nat) : Option Bytes :=
  if bs.isBoundary i then some (bs.take i) else none

def from? (bs : Bytes) (i : Nat) : Option Bytes :=
  if bs.isBoundary i then some (bs.drop i) else none

/-- The byte of the letter in lower case, for a letter of ASCII. All other bytes stay as they
are. -/
def lower (b : UInt8) : UInt8 := if 65 ≤ b ∧ b ≤ 90 then b + 32 else b

def foldEq (bs cs : Bytes) : Bool := bs.map lower == cs.map lower

/-- Whether the slice of as many bytes at the beginning is the same, up to the case of ASCII
letters. -/
def foldStartsWith (bs cs : Bytes) : Bool := (bs.upTo? cs.length).any (foldEq · cs)

def foldEndsWith (bs cs : Bytes) : Bool :=
  cs.length ≤ bs.length && (bs.from? (bs.length - cs.length)).any (foldEq · cs)

end Bytes

namespace Text

/-- The characters that begin in front of the position. -/
def takeBytes : Nat → Text → Text
  | _, [] => []
  | 0, _ :: _ => []
  | i + 1, c :: s => c :: takeBytes (i + 1 - c.utf8Size) s

/-- The characters from the position on, or from the next one on that begins behind it. -/
def dropBytes : Nat → Text → Text
  | _, [] => []
  | 0, c :: s => c :: s
  | i + 1, c :: s => dropBytes (i + 1 - c.utf8Size) s

/-- The text from the first position up to the second one. -/
def slice? (s : Text) (i j : Nat) : Option Text :=
  if i ≤ j ∧ s.utf8.isBoundary i ∧ s.utf8.isBoundary j then some (dropBytes i (takeBytes j s))
  else none

example : slice? "é=ü".toList 2 5 = some ['=', 'ü'] ∧ slice? "é=ü".toList 1 3 = none ∧
    slice? "é=ü".toList 2 6 = none := by decide

end Text

end ContentNegotiation
