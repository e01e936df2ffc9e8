import ContentNegotiation.ContentType
import ContentNegotiation.Walk.Drain

/-!
Choosing among the content types that a server supports.

The ranges of the header are tried in the order of the walk, and for each range the supported types
in the server's order. A header without anything to walk accepts the first supported type.
-/

namespace ContentNegotiation

structure Negotiator (α : Type) where
  supported : List (ContentType × α)
  supported_ne_nil : supported ≠ []
  options : Options := {}

namespace Negotiator

variable {α : Type}

/-- Reads the content types of the values from their texts. -/
def ofList (text : α → Text) (values : List α) : Except Error (Negotiator α) := do
  let supported ← values.mapM fun value => return (← ContentType.read (text value), value)
  if h : supported = [] then .error .noSupportedTypes
  else return { supported, supported_ne_nil := h }

def withLiteral (n : Negotiator α) (literal : Bool) : Negotiator α :=
  { n with options := { n.options with literal } }

def withMatching (n : Negotiator α) (matching : ParameterMatching) : Negotiator α :=
  { n with options := { n.options with matching } }

def size (n : Negotiator α) : Nat := n.supported.length

def isEmpty (n : Negotiator α) : Bool := n.supported.isEmpty

def first (n : Negotiator α) : α := (n.supported.head n.supported_ne_nil).2

/-- The first supported value that the walk's latest range covers. -/
def pick? (n : Negotiator α) (w : Walk) : Option α :=
  (n.supported.find? fun (t, _) => w.covers t).map (·.2)

/-- The first value that can be picked from here on. The walk goes no further than it must, so an
error behind that place is not seen. -/
def search (n : Negotiator α) (w : Walk) : Except Error (Option α) :=
  match n.pick? w with
  | some value => .ok (some value)
  | none =>
    match _ : w.advance with
    | (.error e, _) => .error e
    | (.ok false, _) => .ok none
    | (.ok true, w') => search n w'
termination_by w.stage.bound
decreasing_by exact Walk.bound_advance ‹_›

/-- The value to answer with, or `none` if the header accepts no supported type. -/
def negotiate (n : Negotiator α) (header : Text) : Except Error (Option α) := do
  let w ← Walk.start header n.options
  if w.header = [] then return some n.first
  else if w.hasRange then search n w
  else return none

end Negotiator

end ContentNegotiation
