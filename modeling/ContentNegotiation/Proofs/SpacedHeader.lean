import ContentNegotiation.Proofs.Places
import ContentNegotiation.Proofs.QualitySpan
import ContentNegotiation.Proofs.Spacing

/-!
Blank characters around the separators of a header.

A part of the header is read as the same range up to the blank ends of its texts, and exact matching
trims them away before each comparison. So blank characters put around commas and semicolons change
no choice, even where they make a part of the empty end behind a comma.
-/

namespace ContentNegotiation

open Text

lemma Quality.read_trim (s : Text) : read (trim s) = read s := by
  rw [read, read, trim_trim]

/-! ### Reading a part -/

namespace MediaRange

def trimmedSpans (part : Text) : List Text :=
  ((split ';' part).1 :: (split ';' part).2).map trim

/-- The range without the blank characters at the ends of its texts. -/
def trimmed (r : MediaRange) : MediaRange :=
  { type := trim r.type, subtype := trim r.subtype
    parameters := r.parameters.map trim, quality := r.quality }

lemma quality_trimmed (r : MediaRange) : r.trimmed.quality = r.quality := rfl

variable {part part' : Text}

lemma qualityText?_trim (span : Text) :
    (qualityText? (trim span)).map trim = (qualityText? span).map trim := by
  rcases h : qualityText? span with _ | value
  · have hnone : qualityText? (trim span) = none := by
      rw [qualityText?_eq_none]
      rintro value ⟨blanks, c, hblanks, hc, htrim⟩
      obtain ⟨l, r, hl, -, hspan⟩ := exists_trim span
      refine qualityText?_eq_none.mp h (value ++ r) ⟨l ++ blanks, c, ?_, hc, ?_⟩
      · rw [allBlank, List.all_append, ← allBlank, ← allBlank, hl, hblanks, Bool.and_self]
      · rw [hspan, htrim]
        simp
    rw [hnone]
  · obtain ⟨blanks, c, hblanks, hc, rfl⟩ := qualityText?_eq_some.mp h
    have hq := not_isBlank_q hc
    have hstart : trimStart (c :: '=' :: value) = c :: '=' :: value :=
      trimStart_eq_self (by simpa using hq)
    have htrim : trim (blanks ++ c :: '=' :: value) = c :: '=' :: trimEnd value := by
      rw [trim_append_left hblanks, trim, hstart, trimEnd_cons hq, trimEnd_cons rfl]
    have hstates : StatesQuality (c :: '=' :: trimEnd value) (trimEnd value) :=
      ⟨[], c, rfl, hc, rfl⟩
    rw [htrim, qualityText?_eq_some.mpr hstates, Option.map_some, Option.map_some, trim_trimEnd]

lemma isParameter_trim (span : Text) : isParameter (trim span) = isParameter span := by
  have hquality := congrArg Option.isNone (qualityText?_trim span)
  rw [Option.isNone_map, Option.isNone_map] at hquality
  rw [isParameter, isParameter, hquality, allBlank_trim]

lemma readQualities_trim (spans : List Text) :
    ((spans.map trim).filterMap qualityText?).mapM Quality.read =
      (spans.filterMap qualityText?).mapM Quality.read := by
  have hread : ∀ texts : List Text,
      texts.mapM Quality.read = (texts.map trim).mapM Quality.read := by
    intro texts
    rw [List.mapM_map]
    simp only [Function.comp_def, Quality.read_trim]
  rw [hread, hread (spans.filterMap qualityText?), List.filterMap_map, List.map_filterMap,
    List.map_filterMap]
  simp only [Function.comp_def, qualityText?_trim]

lemma parameters_trim (spans : List Text) :
    (spans.map trim).filter isParameter = (spans.filter isParameter).map trim := by
  rw [List.filter_map]
  simp only [Function.comp_def, isParameter_trim]

lemma rangeOf?_trimmed (part : Text) (qualities : List Quality) :
    (rangeOf? part qualities).map trimmed =
      ((cut '/' (trim (split ';' part).1)).map (Prod.map trim trim)).map fun (type, subtype) =>
        { type, subtype
          parameters := ((split ';' part).2.map trim).filter isParameter
          quality := qualities.getLast?.getD .one } := by
  rw [rangeOf?, cut_trim rfl, parameters_trim]
  rcases cut '/' (split ';' part).1 with _ | ⟨type, subtype⟩ <;> rfl

/-- **Parts with the same trimmed spans are read alike**, as ranges that are the same when they are
trimmed or as the same error. -/
theorem ofPiece_trimmed (h : trimmedSpans part' = trimmedSpans part) :
    (ofPiece part').map (Option.map trimmed) = (ofPiece part).map (Option.map trimmed) := by
  obtain ⟨hfirst, hothers⟩ := List.cons.inj h
  have hqualities : (qualityTexts part').mapM Quality.read =
      (qualityTexts part).mapM Quality.read := by
    rw [qualityTexts, ← readQualities_trim, hothers, readQualities_trim, qualityTexts]
  have hrange : ∀ qualities, (rangeOf? part' qualities).map trimmed =
      (rangeOf? part qualities).map trimmed := fun qualities => by
    rw [rangeOf?_trimmed, rangeOf?_trimmed, hfirst, hothers]
  rw [ofPiece_eq, ofPiece_eq, hqualities]
  rcases (qualityTexts part).mapM Quality.read with e | qualities
  · rfl
  · rw [Except.map, Except.map, Except.map, Except.map, hrange]

lemma infix_iff_trimmedSpans {w : Text} (hw : ∀ c ∈ w, isBlank c = false) (hsemi : ';' ∉ w) :
    w <:+: part ↔ ∃ span ∈ trimmedSpans part, w <:+: span := by
  rw [infix_iff_split hsemi, trimmedSpans]
  simp only [List.mem_map, exists_exists_and_eq_and, infix_trim hw]

/-! ### Exact coverage -/

lemma admitsName_trim (pattern name : Text) :
    admitsName (trim pattern) name = admitsName pattern name := by
  rw [admitsName, admitsName, trim_trim]

end MediaRange

namespace ParameterMatching

lemma agrees_trim (p : Parameter) (span : Text) : agrees p (trim span) = agrees p span := by
  have hcut := cut_trim (show isBlank '=' = false from rfl) span
  unfold agrees
  generalize cut '=' (trim span) = parts' at hcut ⊢
  generalize cut '=' span = parts at hcut ⊢
  rcases parts' with _ | ⟨name', value'⟩ <;> rcases parts with _ | ⟨name, value⟩
  · rfl
  · cases hcut
  · cases hcut
  · obtain ⟨hname, hvalue⟩ := Prod.mk.inj (Option.some.inj hcut)
    dsimp only
    rw [hname, hvalue]

lemma satisfiedExact_trim (spans : List Text) (ps : List Parameter) :
    satisfiedExact (spans.map trim) ps = satisfiedExact spans ps := by
  simp only [satisfiedExact, List.all_map, Function.comp_def, agrees_trim]

end ParameterMatching

lemma MediaRange.covers_trimmed (r : MediaRange) (t : ContentType) :
    r.trimmed.covers .exact t = r.covers .exact t := by
  simp only [covers, trimmed, admitsName_trim, ParameterMatching.satisfied,
    ParameterMatching.satisfiedExact_trim]

/-! ### Headers and negotiation -/

namespace Header

variable {header header' : Text}

lemma parts_spaced (h : Spaced [',', ';'] header header') :
    List.Forall₂ (fun part part' => MediaRange.trimmedSpans part' = MediaRange.trimmedSpans part)
      (parts header) (parts header') := by
  refine (h.loose.split rfl).imp fun part part' hpart => ?_
  exact map_eq_of_forall₂ (hpart.split rfl) fun span span' => Loose.trim_eq

lemma readings_spaced (h : Spaced [',', ';'] header header') :
    (readings header').map (Except.map MediaRange.trimmed) =
      (readings header).map (Except.map MediaRange.trimmed) :=
  readings_congr ((parts_spaced h).imp fun _ _ => MediaRange.ofPiece_trimmed)

lemma acceptsAnything_spaced {literal : Bool} (h : Spaced [',', ';'] header header') :
    AcceptsAnything literal header' ↔ AcceptsAnything literal header := by
  have hblank : ∀ c ∈ ['*', '/', '*'], isBlank c = false := by
    rw [List.forall_mem_cons, List.forall_mem_cons, List.forall_mem_singleton]
    decide
  have hparts := parts_spaced h
  refine acceptsAnything_congr literal h.eq_nil_iff (hparts.imp fun part part' hpart => ?_)
  rw [MediaRange.infix_iff_trimmedSpans hblank (by decide),
    MediaRange.infix_iff_trimmedSpans hblank (by decide), hpart]

end Header

open Header

namespace Negotiator

variable {α : Type} {header header' : Text}

lemma placeFor?_trimmed (types : List ContentType) (r : MediaRange) :
    placeFor? .exact types r.trimmed = placeFor? .exact types r := by
  rw [placeFor?, placeFor?, funext (MediaRange.covers_trimmed r)]

lemma outcome_trimmed (types : List ContentType) (readings : List (Except Error MediaRange)) :
    outcome (placeFor? .exact types) (.outline [] (readings.map (Except.map MediaRange.trimmed))) =
      outcome (placeFor? .exact types) (.outline [] readings) := by
  rw [outcome_outline_map MediaRange.quality_trimmed]
  simp only [Function.comp_def, placeFor?_trimmed]

/-- **Blank characters around commas and semicolons change no exact negotiation.** A server that
matches parameters exactly comes to the same place in its list, to none or to the same error, and
answers with the same value. -/
theorem negotiate_spaced (n : Negotiator α) (h : Spaced [',', ';'] header header') :
    (n.withMatching .exact).place header' = (n.withMatching .exact).place header ∧
      (n.withMatching .exact).negotiate header' = (n.withMatching .exact).negotiate header := by
  have hplace : (n.withMatching .exact).place header' = (n.withMatching .exact).place header := by
    have hmatching : (n.withMatching .exact).options.matching = .exact := rfl
    rw [place_eq, place_eq, hmatching, ← outcome_trimmed _ (readings header'), readings_spaced h,
      outcome_trimmed]
    simp only [acceptsAnything_spaced h]
  exact ⟨hplace, by rw [negotiate_eq_place, negotiate_eq_place, hplace]⟩

/-- The blank character behind the last comma makes a part of the empty end, and the value that
speaks against the first type is still read between blank characters. -/
theorem negotiate_spaced_comma :
    ∃ n, ofList id ["a/b;x=2".toList, "a/b".toList] = .ok n ∧
      (n.withMatching .exact).negotiate "a/b;x=1,".toList = .ok (some "a/b".toList) ∧
      (n.withMatching .exact).negotiate "a/b\t;\u00a0x=1 , ".toList = .ok (some "a/b".toList) := by
  let n₀ : Negotiator Text := ⟨[(⟨['a'], ['b'], [⟨['x'], ['2']⟩]⟩, "a/b;x=2".toList),
    (⟨['a'], ['b'], []⟩, "a/b".toList)], by simp, {}⟩
  have hplace : (n₀.withMatching .exact).place "a/b;x=1,".toList = .ok (some 1) := by
    decide +kernel
  have hcomma : Spaced [',', ';'] [','] ([' '] ++ ',' :: ([' '] ++ [])) :=
    .separator (by decide) rfl rfl .nil
  have hsemicolon : Spaced [',', ';'] (';' :: ("x=1".toList ++ [',']))
      (['\t'] ++ ';' :: (['\u00a0'] ++ ("x=1".toList ++ [' ', ',', ' ']))) :=
    .separator (by decide) rfl rfl (hcomma.append_left _)
  have hspaced : Spaced [',', ';'] "a/b;x=1,".toList "a/b\t;\u00a0x=1 , ".toList :=
    hsemicolon.append_left "a/b".toList
  obtain ⟨-, hsame⟩ := negotiate_spaced n₀ hspaced
  have hvalue := negotiate_eq_place (n₀.withMatching .exact) "a/b;x=1,".toList
  rw [hplace] at hvalue
  exact ⟨n₀, rfl, hvalue, hsame.trans hvalue⟩

end Negotiator

end ContentNegotiation
