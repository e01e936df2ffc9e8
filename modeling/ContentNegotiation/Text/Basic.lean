/-!
Text as lists of characters: comparison up to the case of ASCII letters, cutting at a separator, and
trimming.

`Text.split` keeps every part, empty ones included, and so loses nothing but the separators;
`Text.cut` cuts once, at the first separator. Trimming takes away the blank characters at the two
ends, which are those with the Unicode property `White_Space`.
-/

namespace ContentNegotiation

abbrev Text := List Char

namespace Text

/-- The text with its ASCII letters in lower case. All other characters stay as they are. -/
def fold (s : Text) : Text := s.map Char.toLower

def foldEq (s t : Text) : Bool := fold s == fold t

/-- Whether `s` begins with `t`, up to the case of ASCII letters. -/
def foldStartsWith (s t : Text) : Bool := foldEq (s.take t.length) t

def foldEndsWith (s t : Text) : Bool := foldEq (s.drop (s.length - t.length)) t

/-- The part before the first separator, and the parts after each separator. -/
def split (sep : Char) : Text → Text × List Text
  | [] => ([], [])
  | c :: s =>
    let (part, parts) := split sep s
    if c = sep then ([], part :: parts) else (c :: part, parts)

/-- The text before the first separator and all of the text after it. -/
def cut (sep : Char) : Text → Option (Text × Text)
  | [] => none
  | c :: s => if c = sep then some ([], s) else (cut sep s).map fun (a, b) => (c :: a, b)

/-- The text inside a pair of double quotes. Text not quoted on both sides stays as it is. -/
def unquote : Text → Text
  | '"' :: s => if s.getLast? = some '"' then s.dropLast else '"' :: s
  | s => s

example : split ';' "a;;b=1;".toList = (['a'], [[], ['b', '=', '1'], []]) := by decide

example : cut '=' "k=v=w".toList = some (['k'], ['v', '=', 'w']) := by decide

example : unquote ['"', 'x', '"'] = ['x'] ∧ unquote ['"'] = ['"'] := by decide

/-! ### Blank characters -/

/-- Closed ranges of code points, ascending and apart. -/
def blankRanges : List (Nat × Nat) :=
  [(0x0009, 0x000D), (0x0020, 0x0020), (0x0085, 0x0085), (0x00A0, 0x00A0), (0x1680, 0x1680),
    (0x2000, 0x200A), (0x2028, 0x2029), (0x202F, 0x202F), (0x205F, 0x205F), (0x3000, 0x3000)]

def isBlank (c : Char) : Bool := blankRanges.any fun (lo, hi) => lo ≤ c.toNat && c.toNat ≤ hi

def trimStart (s : Text) : Text := s.dropWhile isBlank

def trimEnd (s : Text) : Text := (s.reverse.dropWhile isBlank).reverse

/-- The text without the blank characters at its two ends. -/
def trim (s : Text) : Text := trimEnd (trimStart s)

/-- Whether the text has blank characters only, or none at all. -/
def allBlank (s : Text) : Bool := s.all isBlank

example : (blankRanges.map fun (lo, hi) => hi + 1 - lo).sum = 25 := by decide

example : isBlank '\u0085' = true ∧ isBlank '\u001c' = false ∧ isBlank '\u200b' = false := by decide

end Text

end ContentNegotiation
