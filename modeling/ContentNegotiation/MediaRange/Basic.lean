import ContentNegotiation.ContentType
import ContentNegotiation.Quality.Shortest

/-!
Media ranges: what a client accepts, with a quality, and which content types they stand for.

Type, subtype and parameters are kept as they stand in the header, blank characters included. A
star for the type or the subtype stands for every one.

The parameters of a media range are spans of the header. `exact` asks that the range gives no
parameter of the content type another value. `legacy` looks at the two ends of the spans: the first
parameter whose name begins some span decides by the first such span, and a span that ends with the
value speaks against the content type.
-/

namespace ContentNegotiation

open Text

inductive ParameterMatching where
  | exact
  | legacy
deriving DecidableEq, Repr

namespace ParameterMatching

/-- Whether the span gives the parameter its value, if it names the parameter at all. Case, blank
characters around the span's name and value, and quotes around a value do not count. -/
def agrees (p : Parameter) (span : Text) : Bool :=
  match cut '=' span with
  | none => true
  | some (name, value) =>
    if foldEq (trim name) p.name then foldEq (unquote (trim value)) (unquote p.value) else true

def satisfiedExact (spans : List Text) (parameters : List Parameter) : Bool :=
  parameters.all fun p => spans.all (agrees p)

def satisfiedLegacy (spans : List Text) : List Parameter → Bool
  | [] => true
  | p :: ps =>
    match spans.find? (foldStartsWith · p.name) with
    | some span => !foldEndsWith span p.value
    | none => satisfiedLegacy spans ps

def satisfied : ParameterMatching → List Text → List Parameter → Bool
  | exact => satisfiedExact
  | legacy => satisfiedLegacy

end ParameterMatching

structure MediaRange where
  type : Text
  subtype : Text
  parameters : List Text
  quality : Quality
deriving DecidableEq

namespace MediaRange

/-- Whether a name in a media range is a star or the given name, up to case and blank characters
around it. -/
def admitsName (pattern name : Text) : Bool :=
  Text.trim pattern = ['*'] || Text.foldEq (Text.trim pattern) name

/-- Whether the content type is one of those that the range stands for. -/
def covers (r : MediaRange) (matching : ParameterMatching) (t : ContentType) : Bool :=
  admitsName r.type t.type && admitsName r.subtype t.subtype &&
    matching.satisfied r.parameters t.parameters

/-- Whether the range covers every one of the content types. -/
def coversAll (r : MediaRange) (matching : ParameterMatching) (ts : List ContentType) : Bool :=
  ts.all (r.covers matching)

/-- Equality of the texts and of the value of the quality. -/
def sameAs (r s : MediaRange) : Bool :=
  r.type = s.type && r.subtype = s.subtype && r.parameters = s.parameters &&
    r.quality.sameValue s.quality

/-- The canonical text: the quality comes first among the parameters, and is always stated. -/
def render (r : MediaRange) : Text :=
  r.type ++ '/' :: r.subtype ++ ";q=".toList ++ r.quality.render ++
    r.parameters.flatMap fun span => ';' :: span

end MediaRange

end ContentNegotiation
