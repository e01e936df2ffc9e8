import ContentNegotiation.Proofs.Folding
import ContentNegotiation.Proofs.Places

/-!
Negotiation does not depend on case.

With all letters in lower case a content type or a header is read as what it was read as before,
in lower case, and a range covers a content type exactly if it did before. So two servers and two
headers that differ in the case of letters only come to the same choice, in either mode.
-/

namespace ContentNegotiation

open Text

/-! ### Content types -/

def Parameter.fold (p : Parameter) : Parameter := ⟨Text.fold p.name, Text.fold p.value⟩

def ContentType.fold (t : ContentType) : ContentType :=
  ⟨Text.fold t.type, Text.fold t.subtype, t.parameters.map Parameter.fold⟩

lemma Parameter.read_fold (s : Text) : read (Text.fold s) = (read s).map fold := by
  unfold read
  rw [cut_fold (by decide)]
  rcases cut '=' s with _ | ⟨name, value⟩
  · rfl
  · have hq : foldEq (Text.fold (trim name)) ['q'] = foldEq (trim name) ['q'] :=
      foldEq_fold (trim name) ['q']
    simp only [Option.map_some, Prod.map_apply, trim_fold, hq]
    split <;> rfl

namespace ContentType

lemma readName_fold (s : Text) :
    readName (Text.fold s) = (readName s).map (Prod.map Text.fold Text.fold) := by
  have hslash : ('/').isAlpha = false := by decide
  have hstar : ∀ name : Text, Text.fold name = ['*'] ↔ name = ['*'] := fun name =>
    fold_eq_iff (List.forall_mem_singleton.mpr rfl)
  unfold readName
  rw [cut_fold hslash]
  rcases cut '/' s with _ | ⟨type, subtype⟩
  · rfl
  · have hmem : '/' ∈ Text.fold subtype ↔ '/' ∈ subtype := by
      simp only [Text.fold, List.mem_map, toLower_eq_iff hslash, exists_eq_right]
    simp only [Option.map_some, Prod.map_apply, hmem, trim_fold, hstar]
    split
    · rfl
    · split <;> rfl

theorem read_fold (s : Text) : read (Text.fold s) = (read s).map fold := by
  have hnil : ∀ segment : Text, Text.fold segment ≠ [] ↔ segment ≠ [] := fun segment =>
    (fold_eq_iff (by simp)).not
  have hsegments : (((split ';' s).2.map Text.fold).map trim).filter (· ≠ []) =
      (((split ';' s).2.map trim).filter (· ≠ [])).map Text.fold := by
    rw [List.map_map, List.filter_map, List.filter_map, List.map_map]
    simp only [Function.comp_def, trim_fold, hnil]
  unfold read
  rw [split_fold (by decide)]
  simp only [trim_fold, readName_fold, hsegments, mapM_map_of_commute Parameter.read_fold]
  rcases readName (trim (split ';' s).1) with e | ⟨type, subtype⟩
  · rfl
  · rcases (((split ';' s).2.map trim).filter (· ≠ [])).mapM Parameter.read with e | ps
    · rfl
    · rfl

end ContentType

/-! ### Media ranges -/

namespace MediaRange

def fold (r : MediaRange) : MediaRange :=
  { type := Text.fold r.type, subtype := Text.fold r.subtype
    parameters := r.parameters.map Text.fold, quality := r.quality }

lemma quality_fold (r : MediaRange) : r.fold.quality = r.quality := rfl

lemma isParameter_fold (span : Text) : isParameter (Text.fold span) = isParameter span := by
  rw [isParameter, isParameter, qualityText?_fold, allBlank_fold, Option.isNone_map]

lemma qualityTexts_fold (piece : Text) :
    qualityTexts (Text.fold piece) = (qualityTexts piece).map Text.fold := by
  rw [qualityTexts, qualityTexts, split_fold (by decide), List.filterMap_map, List.map_filterMap]
  simp only [Function.comp_def, qualityText?_fold]

lemma rangeOf?_fold (piece : Text) (qualities : List Quality) :
    rangeOf? (Text.fold piece) qualities = (rangeOf? piece qualities).map fold := by
  rw [rangeOf?, rangeOf?, split_fold (by decide), cut_fold (by decide)]
  have hparameters : ((split ';' piece).2.map Text.fold).filter isParameter =
      ((split ';' piece).2.filter isParameter).map Text.fold := by
    rw [List.filter_map]
    simp only [Function.comp_def, isParameter_fold]
  rcases cut '/' (split ';' piece).1 with _ | ⟨type, subtype⟩
  · rfl
  · simp only [Option.map_some, Prod.map_apply, hparameters, fold]

theorem ofPiece_fold (piece : Text) :
    ofPiece (Text.fold piece) = (ofPiece piece).map (Option.map fold) := by
  have hqualities : (qualityTexts (Text.fold piece)).mapM Quality.read =
      (qualityTexts piece).mapM Quality.read := by
    rw [qualityTexts_fold, List.mapM_map]
    simp only [Function.comp_def, Quality.read_fold]
  rw [ofPiece_eq, ofPiece_eq, hqualities]
  rcases (qualityTexts piece).mapM Quality.read with e | qualities
  · rfl
  · rw [Except.map, Except.map, Except.map, rangeOf?_fold]

lemma reading?_fold (part : Text) :
    reading? (Text.fold part) = (reading? part).map (Except.map fold) := by
  unfold reading?
  rw [ofPiece_fold]
  rcases ofPiece part with e | _ | r <;> rfl

/-! ### Coverage -/

lemma admitsName_fold (pattern name : Text) :
    admitsName (Text.fold pattern) (Text.fold name) = admitsName pattern name := by
  have hstar : Text.fold (trim pattern) = ['*'] ↔ trim pattern = ['*'] :=
    fold_eq_iff (List.forall_mem_singleton.mpr rfl)
  rw [admitsName, admitsName, trim_fold, foldEq_fold]
  simp only [hstar]

end MediaRange

namespace ParameterMatching

lemma agrees_fold (p : Parameter) (span : Text) :
    agrees p.fold (Text.fold span) = agrees p span := by
  unfold agrees
  rw [cut_fold (by decide)]
  rcases cut '=' span with _ | ⟨name, value⟩
  · rfl
  · simp only [Option.map_some, Prod.map_apply, Parameter.fold, trim_fold, unquote_fold,
      foldEq_fold]

lemma satisfiedLegacy_fold (spans : List Text) (ps : List Parameter) :
    satisfiedLegacy (spans.map Text.fold) (ps.map Parameter.fold) = satisfiedLegacy spans ps := by
  induction ps with
  | nil => rfl
  | cons p ps ih =>
    have hfind : (spans.map Text.fold).find? (foldStartsWith · p.fold.name) =
        (spans.find? (foldStartsWith · p.name)).map Text.fold := by
      rw [List.find?_map]
      simp only [Function.comp_def, Parameter.fold, foldStartsWith_fold]
    rw [List.map_cons, satisfiedLegacy, satisfiedLegacy, hfind, ih]
    rcases spans.find? (foldStartsWith · p.name) with _ | span
    · rfl
    · simp only [Option.map_some, Parameter.fold, foldEndsWith_fold]

lemma satisfied_fold (matching : ParameterMatching) (spans : List Text) (ps : List Parameter) :
    matching.satisfied (spans.map Text.fold) (ps.map Parameter.fold) =
      matching.satisfied spans ps := by
  cases matching with
  | exact =>
    simp only [satisfied, satisfiedExact, List.all_map, Function.comp_def, agrees_fold]
  | legacy => exact satisfiedLegacy_fold spans ps

end ParameterMatching

theorem MediaRange.covers_fold (matching : ParameterMatching) (r : MediaRange) (t : ContentType) :
    r.fold.covers matching t.fold = r.covers matching t := by
  simp only [covers, fold, ContentType.fold, admitsName_fold, ParameterMatching.satisfied_fold]

/-! ### Headers and negotiation -/

namespace Header

lemma acceptsAnything_fold (literal : Bool) (header : Text) :
    AcceptsAnything literal (Text.fold header) ↔ AcceptsAnything literal header := by
  have hall : ∀ c ∈ ['*', '/', '*'], c.isAlpha = false := by
    rw [List.forall_mem_cons, List.forall_mem_cons, List.forall_mem_singleton]
    exact ⟨rfl, rfl, rfl⟩
  rw [AcceptsAnything, AcceptsAnything, infix_fold hall, fold_eq_iff (by simp)]

lemma readings_fold (header : Text) :
    readings (Text.fold header) = (readings header).map (Except.map MediaRange.fold) := by
  have hparts : parts (Text.fold header) = (parts header).map Text.fold := by
    rw [parts, parts, split_fold (by decide), List.map_cons]
  rw [readings, readings, hparts, List.filterMap_map, List.map_filterMap]
  simp only [Function.comp_def, MediaRange.reading?_fold]

end Header

open Header

namespace Negotiator

variable {α β : Type} {n : Negotiator α} {n' : Negotiator β} {header header' : Text}

lemma placeFor?_fold (matching : ParameterMatching) (types : List ContentType) (r : MediaRange) :
    placeFor? matching (types.map ContentType.fold) r.fold = placeFor? matching types r := by
  rw [placeFor?, placeFor?, List.findIdx?_map]
  simp only [Function.comp_def, MediaRange.covers_fold]

lemma place_fold (hoptions : n'.options = n.options)
    (htypes : n'.types.map ContentType.fold = n.types.map ContentType.fold)
    (hheader : Text.fold header' = Text.fold header) : n'.place header' = n.place header := by
  have hanything : AcceptsAnything n.options.literal header' ↔
      AcceptsAnything n.options.literal header := by
    rw [← acceptsAnything_fold, hheader, acceptsAnything_fold]
  have hfold : ∀ (types : List ContentType) (s : Text),
      outcome (placeFor? n.options.matching types) (.outline [] (readings s)) =
        outcome (placeFor? n.options.matching (types.map ContentType.fold))
          (.outline [] (readings (Text.fold s))) := by
    intro types s
    rw [readings_fold, outcome_outline_map MediaRange.quality_fold]
    simp only [Function.comp_def, placeFor?_fold]
  rw [place_eq, place_eq, hoptions, hfold n'.types, hfold n.types, htypes, hheader]
  simp only [hanything]

variable {text : α → Text} {text' : β → Text} {values : List α} {values' : List β}

lemma mapM_read_fold (text : α → Text) (values : List α) :
    (values.map fun value => Text.fold (text value)).mapM ContentType.read =
      (values.mapM fun value => ContentType.read (text value)).map
        (List.map ContentType.fold) := by
  have hmap := mapM_map_of_commute ContentType.read_fold (values.map text)
  simpa only [List.map_map, List.mapM_map, Function.comp_def] using hmap

/-- Lists of texts that differ in case only are refused for the same reason, or are read as types
that differ in case only. -/
lemma ofList_fold (h : values'.map (fun value => Text.fold (text' value)) =
    values.map fun value => Text.fold (text value)) :
    (∃ e, ofList text values = .error e ∧ ofList text' values' = .error e) ∨
      ∃ n n', ofList text values = .ok n ∧ ofList text' values' = .ok n' ∧
        n'.types.map ContentType.fold = n.types.map ContentType.fold := by
  have hread := mapM_read_fold text' values'
  rw [h, mapM_read_fold text values] at hread
  have hlength := congrArg List.length h
  rw [List.length_map, List.length_map] at hlength
  rcases hv : values.mapM (fun value => ContentType.read (text value)) with e | types
  all_goals
    rcases hv' : values'.mapM (fun value => ContentType.read (text' value)) with e' | types'
    all_goals rw [hv, hv'] at hread
  · cases Except.error.inj hread
    exact Or.inl ⟨e, ofList_error hv, ofList_error hv'⟩
  · cases hread
  · cases hread
  · rcases values with _ | ⟨value, values⟩
    · -- nothing to choose from on either side
      obtain rfl : values' = [] := List.length_eq_zero_iff.mp hlength
      exact Or.inl ⟨.noSupportedTypes, rfl, rfl⟩
    · have hne : values' ≠ [] := List.ne_nil_of_length_pos (by simp [hlength])
      obtain ⟨n, hn⟩ := exists_ofList hv (List.cons_ne_nil _ _)
      obtain ⟨n', hn'⟩ := exists_ofList hv' hne
      refine Or.inr ⟨n, n', hn, hn', ?_⟩
      have htypes := (ofList_eq_ok hn).1
      have htypes' := (ofList_eq_ok hn').1
      rw [hv] at htypes
      rw [hv'] at htypes'
      cases htypes
      cases htypes'
      exact (Except.ok.inj hread).symm

/-- **Negotiation is blind to case.** Lists of texts that differ in the case of letters only are
refused for the same reason or make negotiators which, in either mode, come to the same place, to
none or to the same error for headers that differ in the case of letters only, and answer with
their own values at that place. -/
theorem negotiate_fold (h : values'.map (fun value => Text.fold (text' value)) =
    values.map fun value => Text.fold (text value)) :
    (∃ e, ofList text values = .error e ∧ ofList text' values' = .error e) ∨
      ∃ n n', ofList text values = .ok n ∧ ofList text' values' = .ok n' ∧
        ∀ literal matching header header', Text.fold header' = Text.fold header →
          let s := (n.withLiteral literal).withMatching matching
          let s' := (n'.withLiteral literal).withMatching matching
          s'.place header' = s.place header ∧
            s.negotiate header =
              (s.place header).map (fun place? => place?.bind fun i => values[i]?) ∧
            s'.negotiate header' =
              (s.place header).map (fun place? => place?.bind fun i => values'[i]?) := by
  rcases ofList_fold h with hfails | ⟨n, n', hn, hn', htypes⟩
  · exact Or.inl hfails
  · refine Or.inr ⟨n, n', hn, hn', fun literal matching header header' hheader => ?_⟩
    intro s s'
    have hplace : s'.place header' = s.place header := place_fold rfl htypes hheader
    have hvalues : s.values = values := (ofList_eq_ok hn).2
    have hvalues' : s'.values = values' := (ofList_eq_ok hn').2
    refine ⟨hplace, ?_, ?_⟩
    · rw [negotiate_eq_place, hvalues]
    · rw [negotiate_eq_place, hplace, hvalues']

/-- Names, values, the key of a quality and its power of ten are written in either case, and the
second type is still the first that the range does not contradict. -/
theorem negotiate_fold_second :
    ∃ n n', ofList id ["a/B;X=1;y=Z".toList, "a/b;x=\"U\"".toList] = .ok n ∧
      ofList id ["A/b;x=1;Y=z".toList, "A/B;X=\"u\"".toList] = .ok n' ∧
      ((n.withLiteral true).withMatching .exact).negotiate "a/*;x=u;Q=5E-1, c/d".toList =
        .ok (some "a/b;x=\"U\"".toList) ∧
      ((n'.withLiteral true).withMatching .exact).negotiate "A/*;X=U;q=5e-1, C/D".toList =
        .ok (some "A/B;X=\"u\"".toList) := by
  let n₀ : Negotiator Text := ⟨[(⟨['a'], ['B'], [⟨['X'], ['1']⟩, ⟨['y'], ['Z']⟩]⟩,
    "a/B;X=1;y=Z".toList), (⟨['a'], ['b'], [⟨['x'], "\"U\"".toList⟩]⟩, "a/b;x=\"U\"".toList)],
    by simp, {}⟩
  have hn₀ : ofList id ["a/B;X=1;y=Z".toList, "a/b;x=\"U\"".toList] = .ok n₀ := rfl
  have hplace₀ : ((n₀.withLiteral true).withMatching .exact).place "a/*;x=u;Q=5E-1, c/d".toList =
      .ok (some 1) := by decide +kernel
  have hlists : ["A/b;x=1;Y=z".toList, "A/B;X=\"u\"".toList].map (fun s => Text.fold (id s)) =
      ["a/B;X=1;y=Z".toList, "a/b;x=\"U\"".toList].map fun s => Text.fold (id s) := by decide
  rcases negotiate_fold hlists with ⟨e, he, -⟩ | ⟨n, n', hn, hn', hsame⟩
  · rw [hn₀] at he
    cases he
  · cases Except.ok.inj (hn.symm.trans hn₀)
    obtain ⟨-, hvalue, hvalue'⟩ := hsame true .exact "a/*;x=u;Q=5E-1, c/d".toList
      "A/*;X=U;q=5e-1, C/D".toList (by decide)
    rw [hplace₀] at hvalue hvalue'
    exact ⟨n₀, n', hn, hn', hvalue, hvalue'⟩

end Negotiator

end ContentNegotiation
