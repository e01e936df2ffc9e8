import ContentNegotiation.Proofs.ContentTypeText
import ContentNegotiation.Proofs.HeaderAnswers
import ContentNegotiation.Proofs.Negotiation

/-!
Asking for a content type by its own text.

A text without commas that is read as a content type is also read as a header: it is one range of
top quality with the same names and the same parameters. If no parameter of the content type is
given two values, this range covers it, and a server that supports it answers.
-/

namespace ContentNegotiation

open Text

/-- The name and the value that a span of a media range states, trimmed. -/
def spanParameter? (span : Text) : Option Parameter :=
  (cut '=' span).map fun (name, value) => ⟨trim name, trim value⟩

/-- Parameters whose names are equal up to case have values equal up to case and quotes. -/
def ContentType.Consistent (t : ContentType) : Prop :=
  ∀ p ∈ t.parameters, ∀ q ∈ t.parameters, foldEq p.name q.name = true →
    foldEq (unquote p.value) (unquote q.value) = true

instance (t : ContentType) : Decidable t.Consistent :=
  inferInstanceAs (Decidable (∀ p ∈ t.parameters, ∀ q ∈ t.parameters, foldEq p.name q.name = true →
    foldEq (unquote p.value) (unquote q.value) = true))

lemma foldEq_self (s : Text) : foldEq s s = true := foldEq_iff.mpr rfl

variable {raw span : Text} {t : ContentType} {p : Parameter} {r : MediaRange}

/-! ### The two readers -/

lemma spanParameter?_of_read (h : Parameter.read span = .ok p) : spanParameter? span = some p := by
  obtain ⟨name, value, hcut, -, rfl⟩ := Parameter.read_eq_ok.mp h
  rw [spanParameter?, hcut]
  rfl

lemma not_statesQuality_of_read (h : Parameter.read span = .ok p) (value : Text) :
    ¬ MediaRange.StatesQuality span value := by
  rintro ⟨blanks, c, hblanks, hc, rfl⟩
  obtain ⟨name, value', hcut, hq, -⟩ := Parameter.read_eq_ok.mp h
  have hname : '=' ∉ blanks ++ [c] := by
    rw [List.mem_append, not_or]
    refine ⟨not_mem_of_allBlank hblanks (by decide), ?_⟩
    rcases hc with rfl | rfl <;> decide
  have hcut' := cut_append hname value
  rw [List.append_assoc, List.singleton_append, hcut] at hcut'
  cases hcut'
  rw [trim_append_left hblanks, trim_singleton (MediaRange.not_isBlank_q hc), ← Bool.not_eq_true,
    foldEq_q_iff] at hq
  rcases hc with rfl | rfl <;> simp at hq

lemma not_statesQuality_of_allBlank (h : allBlank span = true) (value : Text) :
    ¬ MediaRange.StatesQuality span value := by
  rintro ⟨blanks, c, -, -, rfl⟩
  have hmem : '=' ∈ blanks ++ c :: '=' :: value := by simp
  exact not_mem_of_allBlank h (by decide) hmem

lemma map_spanParameter? {spans : List Text} {ps : List Parameter}
    (h : spans.mapM Parameter.read = .ok ps) : spans.map spanParameter? = ps.map some := by
  induction spans generalizing ps with
  | nil =>
    cases h
    rfl
  | cons span spans ih =>
    rw [mapM_eq_ok_iff] at h
    rcases ps with _ | ⟨p, ps⟩
    · cases h
    · obtain ⟨hp, hps⟩ := List.cons.inj h
      rw [List.map_cons, List.map_cons, spanParameter?_of_read hp, ih (mapM_eq_ok_iff.mpr hps)]

structure MediaRange.Mirrors (r : MediaRange) (t : ContentType) : Prop where
  quality : r.quality = .one
  type : trim r.type = t.type
  subtype : trim r.subtype = t.subtype
  parameters : r.parameters.map spanParameter? = t.parameters.map some

open MediaRange in
/-- **The two readers agree** on what is read as a content type. -/
theorem exists_mirrors (h : ContentType.read raw = .ok t) :
    ∃ r, ofPiece raw = .ok (some r) ∧ r.Mirrors t := by
  obtain ⟨hname, hps⟩ := ContentType.read_eq_ok.mp h
  obtain ⟨a, b, hcut, -, htype, hsubtype, -⟩ := ContentType.readName_eq_ok.mp hname
  obtain ⟨hfirst, hslash⟩ := cut_eq_some.mp hcut
  have hnone : ∀ s ∈ (split ';' raw).2, ∀ v, ¬ StatesQuality s v := by
    intro s hs v
    rcases hb : allBlank s with _ | _
    · have hmem : s ∈ ContentType.segments raw := by
        rw [ContentType.segments, List.mem_filter, hb]
        exact ⟨hs, rfl⟩
      obtain ⟨p, hp⟩ := exists_mapM_ok.mp ⟨_, hps⟩ s hmem
      exact not_statesQuality_of_read hp v
    · exact not_statesQuality_of_allBlank hb v
  have hsegments : ContentType.segments raw = (split ';' raw).2.filter isParameter := by
    refine List.filter_congr fun s hs => ?_
    rw [isParameter, qualityText?_eq_none.mpr (hnone s hs)]
    rfl
  refine ⟨⟨a, b, (split ';' raw).2.filter isParameter, .one⟩, ?_, rfl, htype.symm,
    hsubtype.symm, ?_⟩
  · rw [ofPiece_eq_iff]
    exact .range (fun s hs v hv => absurd hv (hnone s hs v)) hfirst hslash rfl
      (.unstated hnone rfl)
  · rw [← hsegments]
    exact map_spanParameter? hps

/-! ### Coverage -/

lemma agrees_eq (p : Parameter) (span : Text) : ParameterMatching.agrees p span =
    (spanParameter? span).all fun q =>
      !foldEq q.name p.name || foldEq (unquote q.value) (unquote p.value) := by
  unfold ParameterMatching.agrees spanParameter?
  rcases cut '=' span with _ | ⟨name, value⟩
  · rfl
  · by_cases h : foldEq (trim name) p.name = true <;> simp [h]

lemma MediaRange.Mirrors.covers_iff (h : r.Mirrors t) :
    r.covers .exact t = true ↔ t.Consistent := by
  have hname : ∀ pattern name, trim pattern = name → admitsName pattern name = true := by
    rintro pattern name rfl
    rw [admitsName, foldEq_self, Bool.or_true]
  have hspans : ∀ p : Parameter, r.parameters.all (ParameterMatching.agrees p) = true ↔
      ∀ q ∈ t.parameters, foldEq q.name p.name = true →
        foldEq (unquote q.value) (unquote p.value) = true := by
    intro p
    have hall := congrArg (fun l : List (Option Parameter) => l.all fun o => o.all fun q =>
      !foldEq q.name p.name || foldEq (unquote q.value) (unquote p.value)) h.parameters
    simp only [List.all_map] at hall
    have hagrees : r.parameters.all (ParameterMatching.agrees p) = t.parameters.all fun q =>
        !foldEq q.name p.name || foldEq (unquote q.value) (unquote p.value) := by
      rw [show ParameterMatching.agrees p = _ from funext (agrees_eq p)]
      exact hall
    rw [hagrees, List.all_eq_true]
    simp [imp_iff_not_or]
  unfold MediaRange.covers ParameterMatching.satisfied ParameterMatching.satisfiedExact
  rw [hname _ _ h.type, hname _ _ h.subtype, Bool.true_and, Bool.true_and, List.all_eq_true]
  simp only [hspans]
  exact ⟨fun hc p hp q hq => hc q hq p hp, fun hc p hp q hq => hc q hq p hp⟩

/-! ### Headers and negotiation -/

open Header

lemma pieces_own (hcomma : ',' ∉ raw) (h : ContentType.read raw = .ok t) : pieces raw = [raw] := by
  obtain ⟨hf, ha⟩ := eq_of_not_comma hcomma
  have hne : raw ≠ [] := by
    rintro rfl
    cases h
  rw [pieces_cons hne, hf, ha, pieces_nil]

lemma wellFormed_own (hpieces : pieces raw = [raw])
    (hr : MediaRange.ofPiece raw = .ok (some r)) : WellFormed raw := by
  rw [WellFormed, hpieces, List.forall_mem_singleton]
  exact MediaRange.wellFormed_of_ofPiece hr

namespace Negotiator

variable {α : Type} {text : α → Text} {values : List α} {n : Negotiator α} {value : α} {i : ℕ}

lemma getElem?_types (hn : ofList text values = .ok n) (hi : values[i]? = some value)
    (h : ContentType.read (text value) = .ok t) : n.types[i]? = some t := by
  have hmap := congrArg (fun l : List (Except Error ContentType) => l[i]?)
    (mapM_eq_ok_iff.mp (ofList_eq_ok hn).1)
  simp only [List.getElem?_map, hi, Option.map_some, h] at hmap
  obtain ⟨t', ht', heq⟩ := Option.map_eq_some_iff.mp hmap.symm
  cases heq
  exact ht'

lemma exists_choose?_le {matching : ParameterMatching} {types : List ContentType}
    (hi : types[i]? = some t) (hr : r.covers matching t = true) :
    ∃ j ≤ i, choose? matching [r] types = some j := by
  obtain ⟨hlt, ht⟩ := List.getElem?_eq_some_iff.mp hi
  have hany : types.any (r.covers matching) = true :=
    List.any_eq_true.mpr ⟨t, List.mem_of_getElem? hi, hr⟩
  rw [choose?_cons_of_any hany]
  rcases hj : types.findIdx? (r.covers matching) with _ | j
  · have hnone := List.findIdx?_eq_none_iff.mp hj t (List.mem_of_getElem? hi)
    rw [hr] at hnone
    cases hnone
  · obtain ⟨_, _, hfirst⟩ := List.findIdx?_eq_some_iff_getElem.mp hj
    refine ⟨j, ?_, rfl⟩
    by_contra hji
    have hnot := hfirst i (by omega)
    rw [ht] at hnot
    exact hnot hr

lemma negotiate_own (hcomma : ',' ∉ raw) (h : ContentType.read raw = .ok t) (hc : t.Consistent)
    (hn : ofList text values = .ok n) (hi : values[i]? = some value) (hraw : text value = raw)
    (literal : Bool) : ∃ j ≤ i, ∃ chosen, values[j]? = some chosen ∧
      ((n.withLiteral literal).withMatching .exact).negotiate raw = .ok (some chosen) := by
  obtain ⟨r, hr, hmirrors⟩ := exists_mirrors h
  have hpieces := pieces_own hcomma h
  obtain ⟨-, hvalues⟩ := ofList_eq_ok hn
  set n' := (n.withLiteral literal).withMatching .exact
  by_cases hopen : AcceptsAnything n'.options.literal raw
  · exact ⟨0, Nat.zero_le i, n'.first, hvalues ▸ values_zero n', negotiate_anything n' hopen⟩
  · have hwell := wellFormed_own hpieces hr
    have hvalid : valid raw = [r] := by
      rw [valid, hpieces, List.filterMap_cons, MediaRange.ofPiece?, hr]
      rfl
    have htype : n.types[i]? = some t := getElem?_types hn hi (hraw ▸ h)
    obtain ⟨j, hj, hchoose⟩ := exists_choose?_le htype (hmirrors.covers_iff.mpr hc)
    have hchoose' : choose? n'.options.matching [r] n'.types = some j := hchoose
    obtain ⟨chosen, hchosen⟩ := getElem?_choose? hchoose'
    refine ⟨j, hj, chosen, hvalues ▸ hchosen, ?_⟩
    rw [negotiate_eq_choose hopen hwell, hvalid, descending, List.mergeSort_singleton, hchoose',
      Option.bind_some, hchosen]

/-- **A content type asked for by its own text.** A text without commas that is read as a content
type is one range with the same names and parameters. It covers the content type exactly if this
is consistent, and then every server that supports the text answers, at its place or before it. -/
theorem answers_own_text (hcomma : ',' ∉ raw) (h : ContentType.read raw = .ok t) :
    ∃ r, answers raw = ([.ok (some r)], []) ∧ r.quality = .one ∧
      trim r.type = t.type ∧ trim r.subtype = t.subtype ∧
      r.parameters.map spanParameter? = t.parameters.map some ∧
      (r.covers .exact t = true ↔ t.Consistent) ∧
      ∀ (α : Type) (text : α → Text) (values : List α) (n : Negotiator α) (literal : Bool)
        (i : ℕ) (value : α), ofList text values = .ok n → values[i]? = some value →
          text value = raw → t.Consistent →
          ∃ j ≤ i, ∃ chosen, values[j]? = some chosen ∧
            ((n.withLiteral literal).withMatching .exact).negotiate raw = .ok (some chosen) := by
  obtain ⟨r, hr, hmirrors⟩ := exists_mirrors h
  have hpieces := pieces_own hcomma h
  refine ⟨r, ?_, hmirrors.quality, hmirrors.type, hmirrors.subtype, hmirrors.parameters,
    hmirrors.covers_iff, fun α text values n literal i value hn hi hraw hc =>
      negotiate_own hcomma h hc hn hi hraw literal⟩
  rw [answers_wellFormed (wellFormed_own hpieces hr), hpieces, List.map_cons, hr]
  rfl

/-- One parameter stated twice is no obstacle when the values differ in case and quotes only, and
is one when they differ. -/
theorem answers_own_text_twice :
    (∃ n, ofList id ["c/d".toList, "a/b;x=\"U\"; X = u;;=".toList] = .ok n ∧
      ∃ j ≤ 1, ∃ chosen, ["c/d".toList, "a/b;x=\"U\"; X = u;;=".toList][j]? = some chosen ∧
        ((n.withLiteral false).withMatching .exact).negotiate "a/b;x=\"U\"; X = u;;=".toList =
          .ok (some chosen)) ∧
    ∃ t r, ContentType.read "a/b;x=1;x=2".toList = .ok t ∧
      answers "a/b;x=1;x=2".toList = ([.ok (some r)], []) ∧ r.covers .exact t = false := by
  constructor
  · have hread : ContentType.read "a/b;x=\"U\"; X = u;;=".toList = .ok ⟨['a'], ['b'],
        [⟨['x'], "\"U\"".toList⟩, ⟨['X'], ['u']⟩, ⟨[], []⟩]⟩ := by decide +kernel
    obtain ⟨n, hn⟩ : ∃ n,
        ofList id ["c/d".toList, "a/b;x=\"U\"; X = u;;=".toList] = .ok n := ⟨_, rfl⟩
    obtain ⟨r, -, -, -, -, -, -, hown⟩ := answers_own_text (by decide) hread
    exact ⟨n, hn, hown Text id _ n false 1 _ hn rfl rfl (by decide)⟩
  · have hread : ContentType.read "a/b;x=1;x=2".toList = .ok ⟨['a'], ['b'],
        [⟨['x'], ['1']⟩, ⟨['x'], ['2']⟩]⟩ := by decide +kernel
    obtain ⟨r, hr, -, -, -, -, hcovers, -⟩ := answers_own_text (by decide) hread
    refine ⟨_, r, hread, hr, ?_⟩
    rw [← Bool.not_eq_true, hcovers]
    decide

end Negotiator

end ContentNegotiation
