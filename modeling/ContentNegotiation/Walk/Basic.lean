import ContentNegotiation.Header

/-!
Walking the media ranges of a header in order of preference.

The header is read only as far as it must be. A range of top quality is produced as soon as it has
been read, unless it ends the header. The other ranges that cover every filter are kept, in
descending quality and in header order among equals, and are produced once the header has ended.
A walk over a header that accepts anything produces nothing.
-/

namespace ContentNegotiation

structure Options where
  literal : Bool := false
  matching : ParameterMatching := .exact
deriving DecidableEq

/-- Whether the header leaves the choice open: it is empty, or it mentions everything and is not to
be taken literally. -/
def Options.acceptsAnything (options : Options) (header : Text) : Bool :=
  header.isEmpty || (!options.literal && Header.mentionsEverything header)

/-- Puts a range behind those of the same or of greater quality. -/
def insertByQuality (r : MediaRange) : List MediaRange → List MediaRange
  | [] => [r]
  | s :: kept => if s.quality < r.quality then r :: s :: kept else s :: insertByQuality r kept

inductive Stage where
  | reading (rest : Text) (kept : List MediaRange)
  | replaying (pending : List MediaRange)

/-- What reading on comes to. -/
inductive Reading where
  | top (range : MediaRange) (rest : Text) (kept : List MediaRange)
  | ended (kept : List MediaRange)
  -- the rest begins with the piece that holds the error
  | failed (error : Error) (rest : Text) (kept : List MediaRange)

/-- Reads on to the next range of top quality, and keeps the ranges on the way that `fits` lets
through. -/
def readOn (fits : MediaRange → Bool) (rest : Text) (kept : List MediaRange) : Reading :=
  if _ : rest = [] then .ended kept
  else
    match _ : MediaRange.read rest with
    | .error e => .failed e rest kept
    | .ok (none, rest') => readOn fits rest' kept
    | .ok (some r, rest') =>
      if Quality.one ≤ r.quality ∧ rest' ≠ [] then .top r rest' kept
      else readOn fits rest' (if fits r then insertByQuality r kept else kept)
termination_by rest.length
decreasing_by all_goals exact MediaRange.length_lt_of_read ‹_› ‹_›

structure Walk where
  -- empty if there is nothing in it to walk
  header : Text
  filters : List ContentType
  matching : ParameterMatching
  stage : Stage
  current : Option MediaRange
  hasRange : Bool

namespace Walk

def replay (w : Walk) : List MediaRange → Except Error Bool × Walk
  | [] => (.ok false, { w with stage := .replaying [] })
  | r :: pending => (.ok true, { w with stage := .replaying pending, current := some r })

/-- Moves to the next range. The answer is whether there was one, and comes with the walk
afterwards. A failed walk keeps what it has read, but stays in front of the piece that made it
fail. -/
def advance (w : Walk) : Except Error Bool × Walk :=
  match w.stage with
  | .reading rest kept =>
    match readOn (·.coversAll w.matching w.filters) rest kept with
    | .top r rest kept => (.ok true, { w with stage := .reading rest kept, current := some r })
    | .ended kept => w.replay kept
    | .failed e rest kept => (.error e, { w with stage := .reading rest kept })
  | .replaying pending => w.replay pending

/-- A walk that has not moved to its first range. -/
def before (header : Text) (options : Options) (filters : List ContentType) : Walk :=
  let anything := options.acceptsAnything header
  { header := if anything then [] else header
    filters
    matching := options.matching
    stage := if anything then .replaying [] else .reading header []
    current := none
    hasRange := false }

/-- A walk at its first range, if it has one. -/
def start (header : Text) (options : Options := {}) (filters : List ContentType := []) :
    Except Error Walk :=
  match (before header options filters).advance with
  | (.ok found, w) => .ok { w with hasRange := found }
  | (.error e, _) => .error e

def covers (w : Walk) (t : ContentType) : Bool := w.current.any (·.covers w.matching t)

/-- Whether the range covers every filter of the walk. -/
def compatible (w : Walk) (r : MediaRange) : Bool := r.coversAll w.matching w.filters

def currentText (w : Walk) : Option Text := w.current.map MediaRange.render

/-- The canonical texts of all ranges in the order written, whatever has been produced. -/
def collectAll (w : Walk) : Except Error (List Text) :=
  (Header.ranges w.header).map (·.map MediaRange.render)

end Walk

end ContentNegotiation
