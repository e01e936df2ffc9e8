import ContentNegotiation.Proofs.Cutting
import ContentNegotiation.Header
import Mathlib.Data.List.Basic
import Mathlib.Tactic.Common

/-!
Reading a piece in one pass, and cutting it into spans first, give the same media range.

The scan ends one span after the other, so what it returns is settled by the list of spans that
are still to end. The quality and the parameters are then collected span by span.
-/

namespace ContentNegotiation

open Text

namespace Header

def firstPiece (header : Text) : Text := header.takeWhile (· ≠ ',')

/-- The header after its first comma, empty if it has none. -/
def afterPiece (header : Text) : Text := (header.dropWhile (· ≠ ',')).tail

@[simp] lemma firstPiece_nil : firstPiece [] = [] := rfl
@[simp] lemma afterPiece_nil : afterPiece [] = [] := rfl

@[simp] lemma firstPiece_comma (s : Text) : firstPiece (',' :: s) = [] := by simp [firstPiece]
@[simp] lemma afterPiece_comma (s : Text) : afterPiece (',' :: s) = s := by simp [afterPiece]

lemma firstPiece_cons {c : Char} (h : c ≠ ',') (s : Text) :
    firstPiece (c :: s) = c :: firstPiece s := by
  simp [firstPiece, h]

lemma afterPiece_cons {c : Char} (h : c ≠ ',') (s : Text) :
    afterPiece (c :: s) = afterPiece s := by
  simp [afterPiece, h]

lemma split_comma (s : Text) : split ',' s = (firstPiece s,
    if ',' ∈ s then (split ',' (afterPiece s)).1 :: (split ',' (afterPiece s)).2 else []) := by
  induction s with
  | nil => simp
  | cons c s ih =>
    by_cases hc : c = ','
    · subst hc
      rw [split_cons_sep]
      simp
    · rw [split_cons_of_ne hc, ih, firstPiece_cons hc, afterPiece_cons hc]
      simp [Ne.symm hc]

lemma eq_of_not_comma {s : Text} (h : ',' ∉ s) : firstPiece s = s ∧ afterPiece s = [] := by
  induction s with
  | nil => simp
  | cons c s ih =>
    simp only [List.mem_cons, not_or] at h
    have hc : c ≠ ',' := Ne.symm h.1
    rw [firstPiece_cons hc, afterPiece_cons hc, (ih h.2).1, (ih h.2).2]
    exact ⟨rfl, rfl⟩

lemma firstPiece_append {s : Text} (h : ',' ∉ s) (t : Text) : firstPiece (s ++ ',' :: t) = s := by
  induction s with
  | nil => exact firstPiece_comma t
  | cons c s ih =>
    rw [List.mem_cons, not_or] at h
    rw [List.cons_append, firstPiece_cons (Ne.symm h.1), ih h.2]

lemma afterPiece_append {s : Text} (h : ',' ∉ s) (t : Text) : afterPiece (s ++ ',' :: t) = t := by
  induction s with
  | nil => exact afterPiece_comma t
  | cons c s ih =>
    rw [List.mem_cons, not_or] at h
    rw [List.cons_append, afterPiece_cons (Ne.symm h.1), ih h.2]

@[simp] lemma pieces_nil : pieces [] = [] := by simp [pieces]

lemma pieces_cons {header : Text} (h : header ≠ []) :
    pieces header = firstPiece header :: pieces (afterPiece header) := by
  rw [pieces, split_comma]
  by_cases hc : ',' ∈ header
  · simp only [if_pos hc, List.getLast?_cons_cons, List.dropLast_cons_cons, pieces]
    split <;> rfl
  · obtain ⟨hf, ha⟩ := eq_of_not_comma hc
    simp [hf, ha, hc, h]

/-- The parts between commas are the pieces, and an empty one if a comma ends the header. -/
lemma parts_eq_pieces (header : Text) :
    (split ',' header).1 :: (split ',' header).2 = pieces header ∨
      (split ',' header).1 :: (split ',' header).2 = pieces header ++ [[]] := by
  unfold pieces
  dsimp only
  split
  · next hlast => exact Or.inr (List.dropLast_append_getLast? _ hlast).symm
  · exact Or.inl rfl

lemma pieces_ne_nil {header : Text} : pieces header ≠ [] ↔ header ≠ [] := by
  refine ⟨?_, fun h => ?_⟩
  · rintro h rfl
    exact h pieces_nil
  · rw [pieces_cons h]
    exact List.cons_ne_nil _ _

end Header

namespace MediaRange

open Header

/-- A span that counts as a parameter. -/
def isParameter (span : Text) : Bool := (qualityText? span).isNone && !allBlank span

namespace Scan

def endSpans (scan : Scan) (spans : List Text) : Except Error Scan :=
  spans.foldlM (fun scan span => scan.endSpan span) scan

@[simp] lemma endSpans_nil (scan : Scan) : scan.endSpans [] = .ok scan := rfl

lemma endSpans_cons (scan : Scan) (span : Text) (spans : List Text) :
    scan.endSpans (span :: spans) = (scan.endSpan span).bind (·.endSpans spans) := rfl

lemma endSpan_ne_atType {scan s : Scan} {span : Text} (h : scan.endSpan span = .ok s) :
    s ≠ .atType := by
  rintro rfl
  cases scan with
  | atType => simp [endSpan] at h
  | atSubtype type => simp [endSpan] at h
  | atParameters name quality parameters =>
    simp only [endSpan, addSpan, bind, Except.bind, pure, Except.pure] at h
    split at h <;> split at h <;> simp at h

/-- Among the spans after the first one the last quality counts, and all parameters do. -/
lemma endSpans_atParameters (name : Option (Text × Text)) (quality : Quality)
    (parameters spans : List Text) :
    endSpans (.atParameters name quality parameters) spans =
      ((spans.filterMap qualityText?).mapM Quality.read).map fun qualities =>
        .atParameters name (qualities.getLast?.getD quality)
          (parameters ++ spans.filter isParameter) := by
  induction spans generalizing quality parameters with
  | nil => simp [Except.map, pure, Except.pure]
  | cons span spans ih =>
    rw [endSpans_cons, endSpan, addSpan]
    cases hq : qualityText? span with
    | none =>
      have hp : isParameter span = !allBlank span := by simp [isParameter, hq]
      simp only [List.filterMap_cons, hq, List.filter_cons, hp]
      cases allBlank span
      · simp [Except.bind, ih]
      · simp [Except.bind, ih]
    | some value =>
      have hp : isParameter span = false := by simp [isParameter, hq]
      simp only [List.filterMap_cons, hq, List.filter_cons, hp, List.mapM_cons, bind, pure]
      cases hv : Quality.read value with
      | error e => rfl
      | ok q =>
        simp only [Except.bind, Except.pure, ih]
        cases (spans.filterMap qualityText?).mapM Quality.read with
        | error e => rfl
        | ok qs => simp [Except.map, List.getLast?_cons]

end Scan

open Scan

/-! ### One character -/

section Step

variable (scan : Scan) (span rest : Text)

lemma readFrom_nil :
    readFrom scan span [] = (scan.endSpan span.reverse).map fun s => (s.range?, []) := by
  simp only [readFrom, bind, pure]
  cases scan.endSpan span.reverse <;> rfl

lemma readFrom_comma :
    readFrom scan span (',' :: rest) =
      (scan.endSpan span.reverse).map fun s => (s.range?, rest) := by
  simp only [readFrom, bind, pure]
  cases scan.endSpan span.reverse <;> rfl

lemma readFrom_semicolon :
    readFrom scan span (';' :: rest) =
      (scan.endSpan span.reverse).bind fun s => readFrom s [] rest := by
  rw [readFrom]
  rfl

lemma readFrom_slash :
    readFrom .atType span ('/' :: rest) = readFrom (.atSubtype span.reverse) [] rest := by
  rw [readFrom]

variable {scan} {c : Char}

lemma readFrom_cons (hcomma : c ≠ ',') (hsemi : c ≠ ';') (hslash : c = '/' → scan ≠ .atType) :
    readFrom scan span (c :: rest) = readFrom scan (c :: span) rest := by
  by_cases hc : c = '/'
  · subst hc
    rw [readFrom]
    exact hslash rfl
  · rw [readFrom]
    · exact hcomma
    · exact hsemi
    · exact hc

end Step

/-- Reading on, once the slash has been met or can no longer come. -/
lemma readFrom_eq {scan : Scan} (h : scan ≠ .atType) (span header : Text) :
    readFrom scan span header =
      (scan.endSpans ((span.reverse ++ (split ';' (firstPiece header)).1) ::
        (split ';' (firstPiece header)).2)).map fun s => (s.range?, afterPiece header) := by
  induction header generalizing scan span with
  | nil =>
    rw [readFrom_nil, firstPiece_nil, split_nil, List.append_nil, endSpans_cons]
    cases scan.endSpan span.reverse <;> rfl
  | cons c s ih =>
    by_cases hcomma : c = ','
    · subst hcomma
      rw [readFrom_comma, firstPiece_comma, afterPiece_comma, split_nil, List.append_nil,
        endSpans_cons]
      cases scan.endSpan span.reverse <;> rfl
    rw [firstPiece_cons hcomma, afterPiece_cons hcomma]
    by_cases hsemi : c = ';'
    · subst hsemi
      rw [readFrom_semicolon, split_cons_sep, List.append_nil, endSpans_cons]
      rcases hs : scan.endSpan span.reverse with e | s'
      · rfl
      · exact ih (endSpan_ne_atType hs) []
    · rw [readFrom_cons span s hcomma hsemi fun _ => h, split_cons_of_ne hsemi, ih h]
      simp

lemma readFrom_atType (span header : Text) :
    readFrom .atType span header =
      (match cut '/' (split ';' (firstPiece header)).1 with
        | none => endSpans .atType ((span.reverse ++ (split ';' (firstPiece header)).1) ::
            (split ';' (firstPiece header)).2)
        | some (type, subtype) => endSpans (.atSubtype (span.reverse ++ type))
            (subtype :: (split ';' (firstPiece header)).2)).map
        fun s : Scan => (s.range?, afterPiece header) := by
  induction header generalizing span with
  | nil => rfl
  | cons c s ih =>
    by_cases hcomma : c = ','
    · subst hcomma
      rw [readFrom_comma, firstPiece_comma, afterPiece_comma, split_nil]
      rfl
    rw [firstPiece_cons hcomma, afterPiece_cons hcomma]
    by_cases hsemi : c = ';'
    · subst hsemi
      have hne : Scan.atParameters none .one [] ≠ .atType := by simp
      rw [readFrom_semicolon, split_cons_sep]
      exact readFrom_eq hne [] s
    rw [split_cons_of_ne hsemi]
    by_cases hslash : c = '/'
    · subst hslash
      have hne : Scan.atSubtype span.reverse ≠ .atType := by simp
      rw [readFrom_slash, readFrom_eq hne]
      simp [cut]
    · rw [readFrom_cons span s hcomma hsemi fun hc => absurd hc hslash, ih]
      simp only [cut, if_neg hslash]
      rcases cut '/' (split ';' (firstPiece s)).1 with _ | ⟨type, subtype⟩ <;> simp

/-- The texts of the qualities that a piece states, in order. -/
def qualityTexts (piece : Text) : List Text := (split ';' piece).2.filterMap qualityText?

/-- The media range that a piece stands for once its qualities are known. -/
def rangeOf? (piece : Text) (qualities : List Quality) : Option MediaRange :=
  (cut '/' (split ';' piece).1).map fun (type, subtype) =>
    { type, subtype
      parameters := (split ';' piece).2.filter isParameter
      quality := qualities.getLast?.getD .one }

lemma ofPiece_eq (piece : Text) :
    ofPiece piece = ((qualityTexts piece).mapM Quality.read).map (rangeOf? piece) := by
  unfold ofPiece qualityTexts
  simp only [bind, Except.bind, pure]
  cases ((split ';' piece).2.filterMap qualityText?).mapM Quality.read <;> rfl

/-- **Reading is cutting**: the reader returns what the header's first piece stands for, and
stops behind that piece. -/
theorem read_eq (header : Text) :
    read header = (ofPiece (firstPiece header)).map fun r => (r, afterPiece header) := by
  rw [read, readFrom_atType, ofPiece_eq, List.reverse_nil, List.nil_append, qualityTexts]
  cases hcut : cut '/' (split ';' (firstPiece header)).1 with
  | none =>
    simp only [endSpans_cons, Scan.endSpan, Except.bind, endSpans_atParameters]
    cases ((split ';' (firstPiece header)).2.filterMap qualityText?).mapM Quality.read with
    | error e => rfl
    | ok qs => simp [Except.map, rangeOf?, hcut, Scan.range?]
  | some p =>
    simp only [endSpans_cons, Scan.endSpan, Except.bind, endSpans_atParameters]
    cases ((split ';' (firstPiece header)).2.filterMap qualityText?).mapM Quality.read with
    | error e => rfl
    | ok qs => simp [Except.map, rangeOf?, hcut, Scan.range?]

variable {header rest : Text} {r : Option MediaRange} {e : Error}

lemma read_eq_ok : read header = .ok (r, rest) ↔
    ofPiece (firstPiece header) = .ok r ∧ afterPiece header = rest := by
  rw [read_eq]
  cases ofPiece (firstPiece header) <;> simp [Except.map]

lemma read_eq_error : read header = .error e ↔ ofPiece (firstPiece header) = .error e := by
  rw [read_eq]
  cases ofPiece (firstPiece header) <;> simp [Except.map]

end MediaRange

end ContentNegotiation
