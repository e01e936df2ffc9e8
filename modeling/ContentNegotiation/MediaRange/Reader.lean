import ContentNegotiation.MediaRange.Basic
import ContentNegotiation.Quality.Numeral

/-!
Reading media ranges from a header, one piece at a time.

A piece ends at a comma or with the header. It is read in one pass. The first slash ends the type,
if no semicolon came before it; the first semicolon ends the subtype; every later span is a quality
or a parameter. A piece without a slash in its first span is no media range and is skipped, but its
qualities are read all the same, and a bad one is an error.
-/

namespace ContentNegotiation

namespace MediaRange

/-- The text of the quality that a span states: what follows `q=`, in either case. -/
def qualityText? (span : Text) : Option Text :=
  match Text.trimStart span with
  | c :: '=' :: value => if c.toLower = 'q' then some value else none
  | _ => none

/-- How far a piece has been read, up to its last separator. -/
inductive Scan where
  | atType
  | atSubtype (type : Text)
  -- there is no name if the first span had no slash
  | atParameters (name : Option (Text × Text)) (quality : Quality) (parameters : List Text)

namespace Scan

/-- Adds a span that follows the first one. The last quality counts, and blank spans do not. -/
def addSpan (name : Option (Text × Text)) (quality : Quality) (parameters : List Text)
    (span : Text) : Except Error Scan :=
  match qualityText? span with
  | some value => do return .atParameters name (← Quality.read value) parameters
  | none =>
    if Text.allBlank span then .ok (.atParameters name quality parameters)
    else .ok (.atParameters name quality (parameters ++ [span]))

/-- Ends a span at a semicolon or at the end of the piece. -/
def endSpan (span : Text) : Scan → Except Error Scan
  | .atType => .ok (.atParameters none .one [])
  | .atSubtype type => .ok (.atParameters (some (type, span)) .one [])
  | .atParameters name quality parameters => addSpan name quality parameters span

/-- The media range of a piece whose last span has ended. -/
def range? : Scan → Option MediaRange
  | .atParameters (some (type, subtype)) quality parameters =>
    some { type, subtype, parameters, quality }
  | _ => none

end Scan

/-- Reads on to the end of the piece. The characters of the open span are `span`, latest first. -/
def readFrom (scan : Scan) (span : Text) : Text → Except Error (Option MediaRange × Text)
  | [] => do return ((← scan.endSpan span.reverse).range?, [])
  | ',' :: rest => do return ((← scan.endSpan span.reverse).range?, rest)
  | ';' :: rest => do readFrom (← scan.endSpan span.reverse) [] rest
  | '/' :: rest =>
    match scan with
    | .atType => readFrom (.atSubtype span.reverse) [] rest
    | scan => readFrom scan ('/' :: span) rest
  | c :: rest => readFrom scan (c :: span) rest

/-- Reads the piece that the header begins with. Returns its media range, if it has one, and the
header after the piece and its comma. -/
def read (header : Text) : Except Error (Option MediaRange × Text) := readFrom .atType [] header

theorem length_le_of_readFrom {header : Text} {scan : Scan} {span : Text}
    {r : Option MediaRange} {rest : Text} (h : readFrom scan span header = .ok (r, rest)) :
    rest.length ≤ header.length ∧ (header ≠ [] → rest.length < header.length) := by
  induction header generalizing scan span with
  | nil =>
    simp only [readFrom, bind, Except.bind, pure, Except.pure] at h
    split at h
    · simp at h
    · simp only [Except.ok.injEq, Prod.mk.injEq] at h
      simp [← h.2]
  | cons c cs ih =>
    suffices rest.length ≤ cs.length by
      simp only [List.length_cons]
      omega
    rw [readFrom.eq_def] at h
    split at h
    · simp at *
    · next heq =>
      obtain ⟨rfl, rfl⟩ := List.cons.inj heq
      simp only [bind, Except.bind, pure, Except.pure] at h
      split at h
      · simp at h
      · simp only [Except.ok.injEq, Prod.mk.injEq] at h
        simp [h.2]
    · next heq =>
      obtain ⟨rfl, rfl⟩ := List.cons.inj heq
      simp only [bind, Except.bind] at h
      split at h
      · simp at h
      · exact (ih h).1
    · next heq =>
      obtain ⟨rfl, rfl⟩ := List.cons.inj heq
      split at h
      · exact (ih h).1
      · exact (ih h).1
    · next heq =>
      obtain ⟨rfl, rfl⟩ := List.cons.inj heq
      exact (ih h).1

theorem length_lt_of_read {header rest : Text} {r : Option MediaRange}
    (h : read header = .ok (r, rest)) (hne : header ≠ []) : rest.length < header.length :=
  (length_le_of_readFrom h).2 hne

end MediaRange

end ContentNegotiation
