import ContentNegotiation.Text.Bytes
import ContentNegotiation.Walk.Basic

/-!
Reading media ranges at positions among the bytes of a header.

A cursor looks at the bytes of a header one by one, and cuts the spans of a piece out of the header
as slices. Where a slice does not exist the cursor halts, as it does at an error in the header.

The loops over the calls of a cursor come with a limit to the number of their turns. There is no
result if the limit is too low for the loop to come to its end, or if a slice does not exist.
-/

namespace ContentNegotiation

inductive Halt where
  | noSlice
  | failed (error : Error)
deriving DecidableEq

def Text.slice (s : Text) (i j : Nat) : Except Halt Text :=
  match s.slice? i j with
  | some t => .ok t
  | none => .error .noSlice

structure Draft where
  type? : Option Text := none
  subtype? : Option Text := none
  parameters : List Text := []
  quality : Quality := .one
  -- where the open span begins
  start : Nat

namespace Draft

/-- The text of the quality that a span states: what follows the first two bytes, if they are `q=`
in either case. -/
def qualityText (span : Text) : Except Halt (Option Text) := do
  let s := Text.trimStart span
  match s.slice? 0 2 with
  | none => return none
  | some key =>
    if Text.foldEq key ['q', '='] then return some (← s.slice 2 s.utf8.length) else return none

def addSpan (d : Draft) (span : Text) : Except Halt Draft := do
  match ← qualityText span with
  | some value =>
    match Quality.read value with
    | .ok quality => return { d with quality }
    | .error e => throw (.failed e)
  | none =>
    if Text.trim span = [] then return d
    else return { d with parameters := d.parameters ++ [span] }

def endSpan (d : Draft) (span : Text) : Except Halt Draft :=
  match d.subtype? with
  | none => .ok { d with subtype? := some span }
  | some _ => d.addSpan span

def range? (d : Draft) : Option MediaRange :=
  match d.type?, d.subtype? with
  | some type, some subtype =>
    some { type, subtype, parameters := d.parameters, quality := d.quality }
  | _, _ => none

end Draft

structure Cursor where
  header : Text
  position : Nat

namespace Cursor

def ofText (header : Text) : Cursor := { header, position := 0 }

def isDone (c : Cursor) : Bool := c.header.utf8.length ≤ c.position

/-- What is left of the header. -/
def rest (c : Cursor) : Text := c.header.dropBytes c.position

/-- Looks at the bytes from the position on, up to the end of the piece. Returns the draft of the
piece, the position where its last span ends, and the one where the next piece begins. -/
def scan (header : Text) (d : Draft) (position : Nat) : Except Halt (Draft × Nat × Nat) :=
  if h : position < header.utf8.length then
    if header.utf8[position] = '/'.toUInt8 ∧ d.type? = none ∧ d.subtype? = none then do
      let type ← header.slice d.start position
      scan header { d with type? := some type, start := position + 1 } (position + 1)
    else if header.utf8[position] = ';'.toUInt8 then do
      let d ← d.endSpan (← header.slice d.start position)
      scan header { d with start := position + 1 } (position + 1)
    else if header.utf8[position] = ','.toUInt8 then .ok (d, position, position + 1)
    else scan header d (position + 1)
  else .ok (d, header.utf8.length, header.utf8.length)
termination_by header.utf8.length - position

/-- Ends the last span of a piece. Returns the media range of the piece, if it has one, and the
position where the next piece begins. -/
def finish (header : Text) : Draft × Nat × Nat → Except Halt (Option MediaRange × Nat)
  | (d, stop, next) => do
    let d ← d.endSpan (← header.slice d.start stop)
    return (d.range?, next)

def readPiece (c : Cursor) : Except Halt (Option MediaRange × Nat) := do
  finish c.header (← scan c.header { start := c.position } c.position)

/-- One call: the answer, and the cursor afterwards. A call that halts does not move the cursor. -/
def next (c : Cursor) : Except Halt (Option MediaRange) × Cursor :=
  match c.readPiece with
  | .ok (r?, position) => (.ok r?, { c with position })
  | .error h => (.error h, c)

/-- The cursor after so many calls, whatever they have answered. -/
def after (c : Cursor) : Nat → Cursor
  | 0 => c
  | n + 1 => c.next.2.after n

/-! ### Loops -/

def ranges? (c : Cursor) : (turns : Nat) → Option (Except Error (List MediaRange))
  | 0 => none
  | turns + 1 =>
    if c.isDone then some (.ok [])
    else
      match c.next with
      | (.error .noSlice, _) => none
      | (.error (.failed e), _) => some (.error e)
      | (.ok r?, c') => (c'.ranges? turns).map fun rs => rs.map (r?.toList ++ ·)

def readOn? (fits : MediaRange → Bool) (c : Cursor) (kept : List MediaRange) :
    (turns : Nat) → Option Reading
  | 0 => none
  | turns + 1 =>
    if c.isDone then some (.ended kept)
    else
      match c.next with
      | (.error .noSlice, _) => none
      | (.error (.failed e), c') => some (.failed e c'.rest kept)
      | (.ok none, c') => c'.readOn? fits kept turns
      | (.ok (some r), c') =>
        if Quality.one ≤ r.quality ∧ !c'.isDone then some (.top r c'.rest kept)
        else c'.readOn? fits (if fits r then insertByQuality r kept else kept) turns

end Cursor

end ContentNegotiation
