import ContentNegotiation.Error
import ContentNegotiation.Text.Basic

/-!
Content types that a server can produce, how they are written, and how they are read from text.

The reader is strict, since the texts are the server's own: there is one slash, no star for a whole
name, every parameter has an equals sign, and none states a quality. Blank characters around names
and values are dropped, and so are blank parameters.
-/

namespace ContentNegotiation

open Text

structure Parameter where
  name : Text
  value : Text
deriving DecidableEq

def Parameter.render (p : Parameter) : Text := p.name ++ '=' :: p.value

structure ContentType where
  type : Text
  subtype : Text
  parameters : List Parameter := []
deriving DecidableEq

namespace ContentType

def withParameter (t : ContentType) (name value : Text) : ContentType :=
  { t with parameters := t.parameters ++ [⟨name, value⟩] }

/-- The type, a slash, the subtype and, each after a semicolon, the parameters. -/
def render (t : ContentType) : Text :=
  t.type ++ '/' :: t.subtype ++ t.parameters.flatMap fun p => ';' :: p.render

end ContentType

/-! ### Reading -/

/-- Reads a parameter that has no blank characters around it. -/
def Parameter.read (s : Text) : Except Error Parameter :=
  match cut '=' s with
  | none => .error .malformed
  | some (name, value) =>
    if foldEq (trim name) ['q'] then .error .qualityNotAllowed
    else .ok ⟨trim name, trim value⟩

namespace ContentType

def readName (s : Text) : Except Error (Text × Text) :=
  match cut '/' s with
  | none => .error .missingSeparator
  | some (type, subtype) =>
    if '/' ∈ subtype then .error .tooManyParts
    else if trim type = ['*'] ∨ trim subtype = ['*'] then .error .wildcard
    else .ok (trim type, trim subtype)

def read (s : Text) : Except Error ContentType := do
  let (head, segments) := split ';' s
  let (type, subtype) ← readName (trim head)
  let parameters ← ((segments.map trim).filter (· ≠ [])).mapM Parameter.read
  return { type, subtype, parameters }

end ContentType

end ContentNegotiation
