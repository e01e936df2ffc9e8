import ContentNegotiation.MediaRange.Reader

/-!
A whole header, read as a list of media ranges in the order written.

The header can also be cut into pieces first, and each piece into spans. This says what a header
means without saying in which order its characters are looked at: which pieces there are, which
media range a piece stands for, and which error it holds.
-/

namespace ContentNegotiation

open Text

namespace Header

/-- The media ranges of the header, or the first error in it. -/
def ranges (header : Text) : Except Error (List MediaRange) :=
  if _ : header = [] then .ok []
  else
    match _ : MediaRange.read header with
    | .error e => .error e
    | .ok (r, rest) => do return r.toList ++ (← ranges rest)
termination_by header.length
decreasing_by exact MediaRange.length_lt_of_read ‹_› ‹_›

/-- Whether the text of the range for everything stands anywhere in the header. -/
def mentionsEverything : Text → Bool
  | '*' :: '/' :: '*' :: _ => true
  | _ :: s => mentionsEverything s
  | [] => false

example : mentionsEverything "a/b;x=*/*".toList = true := by decide

end Header

/-! ### Cutting -/

/-- The pieces of a header, cut at its commas. A header that ends after a comma, or that is empty,
has no piece there. -/
def Header.pieces (header : Text) : List Text :=
  let (first, others) := split ',' header
  let all := first :: others
  if all.getLast? = some [] then all.dropLast else all

namespace MediaRange

/-- The media range that a piece stands for: its type and subtype are the first span around its
first slash, its quality is the last one stated, and its parameters are the other spans that are
not blank. -/
def ofPiece (piece : Text) : Except Error (Option MediaRange) := do
  let (first, spans) := split ';' piece
  let qualities ← (spans.filterMap qualityText?).mapM Quality.read
  return (cut '/' first).map fun (type, subtype) =>
    { type, subtype
      parameters := spans.filter fun span => (qualityText? span).isNone && !allBlank span
      quality := qualities.getLast?.getD .one }

end MediaRange

def Header.rangesOfPieces (header : Text) : Except Error (List MediaRange) := do
  return (← (pieces header).mapM MediaRange.ofPiece).filterMap id

end ContentNegotiation
