import ContentNegotiation.Proofs.ContentTypeText
import ContentNegotiation.Proofs.Places
import Mathlib.Data.List.Perm.Basic

/-!
The order of parameters.

Exact matching asks every parameter of a content type about every span of a range, so the order of
neither counts. Where the quality stands among the spans does not count either, as long as several
of them keep their order. So parameters of a header and of the supported types can be permuted, and
the choice stays the same.
-/

namespace ContentNegotiation

open Text

/-! ### Permuted segments -/

structure Text.Permuted (s s' : Text) : Prop where
  first : (split ';' s').1 = (split ';' s).1
  others : (split ';' s').2.Perm (split ';' s).2

namespace Text.Permuted

variable {s s' : Text}

lemma symm (h : Permuted s s') : Permuted s' s := ⟨h.first.symm, h.others.symm⟩

lemma eq_nil (h : Permuted [] s') : s' = [] := by
  rw [← flatMap_split ';' s', h.first, List.perm_nil.mp h.others]
  rfl

lemma infix_iff {w : Text} (hw : ';' ∉ w) (h : Permuted s s') : w <:+: s' ↔ w <:+: s := by
  rw [infix_iff_split hw, infix_iff_split hw]
  simp only [List.mem_cons, h.first, h.others.mem_iff]

end Text.Permuted

namespace MediaRange

def qualitySpans (part : Text) : List Text :=
  (split ';' part).2.filter fun span => (qualityText? span).isSome

/-- The same part with its spans behind the first one in any order that keeps the order of those
that state a quality. -/
structure Permuted (part part' : Text) : Prop extends Text.Permuted part part' where
  qualities : qualitySpans part' = qualitySpans part

lemma Permuted.symm {part part' : Text} (h : Permuted part part') : Permuted part' part :=
  ⟨h.toPermuted.symm, h.qualities.symm⟩

end MediaRange

def Header.Permuted (header header' : Text) : Prop :=
  List.Forall₂ MediaRange.Permuted (parts header) (parts header')

structure ContentType.Permuted (t t' : ContentType) : Prop where
  type : t'.type = t.type
  subtype : t'.subtype = t.subtype
  parameters : t'.parameters.Perm t.parameters

lemma ContentType.Permuted.refl (t : ContentType) : t.Permuted t := ⟨rfl, rfl, .refl _⟩

/-! ### Exact coverage -/

lemma ParameterMatching.satisfiedExact_perm {spans spans' : List Text} {ps ps' : List Parameter}
    (hspans : spans'.Perm spans) (hps : ps'.Perm ps) :
    satisfiedExact spans' ps' = satisfiedExact spans ps := by
  rw [satisfiedExact, satisfiedExact, hps.all_eq]
  simp only [hspans.all_eq]

-- to legacy matching the order does count
example : ParameterMatching.satisfiedLegacy ["y=3".toList, "x=1".toList]
      [⟨['x'], ['1']⟩, ⟨['y'], ['2']⟩] = false ∧
    ParameterMatching.satisfiedLegacy ["y=3".toList, "x=1".toList]
      [⟨['y'], ['2']⟩, ⟨['x'], ['1']⟩] = true := by decide

theorem MediaRange.covers_perm {r r' : MediaRange} {t t' : ContentType} (htype : r'.type = r.type)
    (hsubtype : r'.subtype = r.subtype) (hspans : r'.parameters.Perm r.parameters)
    (ht : t.Permuted t') : r'.covers .exact t' = r.covers .exact t := by
  rw [covers, covers, htype, hsubtype, ht.type, ht.subtype, ParameterMatching.satisfied,
    ParameterMatching.satisfiedExact_perm hspans ht.parameters]

namespace Negotiator

variable {types types' : List ContentType}

lemma placeFor?_perm (htypes : List.Forall₂ ContentType.Permuted types types') {r r' : MediaRange}
    (hcovers : ∀ t t', t.Permuted t' → r'.covers .exact t' = r.covers .exact t) :
    placeFor? .exact types' r' = placeFor? .exact types r := by
  have hfind : ∀ (types : List ContentType) (r : MediaRange),
      placeFor? .exact types r = (types.map (r.covers .exact)).findIdx? id := by
    intro types r
    rw [List.findIdx?_map]
    rfl
  rw [hfind, hfind, map_eq_of_forall₂ htypes hcovers]

end Negotiator

open Negotiator

/-! ### Reading a part -/

namespace MediaRange

lemma qualityTexts_eq (part : Text) :
    qualityTexts part = (qualitySpans part).filterMap qualityText? := by
  rw [qualitySpans, List.filterMap_filter]
  refine List.filterMap_congr fun span _ => ?_
  rcases qualityText? span with _ | value <;> rfl

/-- **A permuted part looks the same to an exact search**, whether it is read as a range, skipped or
at fault. -/
theorem ofPiece_permuted {types types' : List ContentType}
    (htypes : List.Forall₂ ContentType.Permuted types types') {part part' : Text}
    (h : Permuted part part') :
    (ofPiece part').map (Option.map (sight (placeFor? .exact types'))) =
      (ofPiece part).map (Option.map (sight (placeFor? .exact types))) := by
  have hrange : ∀ qualities, (rangeOf? part' qualities).map (sight (placeFor? .exact types')) =
      (rangeOf? part qualities).map (sight (placeFor? .exact types)) := by
    intro qualities
    rw [rangeOf?, rangeOf?, h.first]
    rcases cut '/' (split ';' part).1 with _ | ⟨type, subtype⟩
    · rfl
    · refine congrArg some (Prod.ext rfl (placeFor?_perm htypes fun t t' => ?_))
      exact covers_perm rfl rfl (h.others.filter isParameter)
  rw [ofPiece_eq, ofPiece_eq, qualityTexts_eq, qualityTexts_eq, h.qualities]
  rcases ((qualitySpans part).filterMap qualityText?).mapM Quality.read with e | qualities
  · rfl
  · exact congrArg Except.ok (hrange qualities)

end MediaRange

/-! ### Headers -/

namespace Header

variable {header header' : Text}

lemma parts_eq_singleton_nil : parts header = [[]] ↔ header = [] := by
  constructor
  · intro h
    obtain ⟨hfirst, hothers⟩ := List.cons.inj h
    rw [← flatMap_split ',' header, hfirst, hothers]
    rfl
  · rintro rfl
    rfl

lemma Permuted.symm (h : Permuted header header') : Permuted header' header :=
  (List.Forall₂.imp (fun _ _ => MediaRange.Permuted.symm) h).flip

lemma Permuted.eq_nil (h : Permuted [] header') : header' = [] := by
  have hparts : List.Forall₂ MediaRange.Permuted [[]] (parts header') := h
  obtain ⟨part, others, hpart, hothers, hheader⟩ := List.forall₂_cons_left_iff.mp hparts
  rw [List.forall₂_nil_left_iff.mp hothers, hpart.eq_nil] at hheader
  exact parts_eq_singleton_nil.mp hheader

lemma Permuted.eq_nil_iff (h : Permuted header header') : header' = [] ↔ header = [] := by
  constructor
  · rintro rfl
    exact h.symm.eq_nil
  · rintro rfl
    exact h.eq_nil

lemma acceptsAnything_permuted (literal : Bool) (h : Permuted header header') :
    AcceptsAnything literal header' ↔ AcceptsAnything literal header :=
  acceptsAnything_congr literal h.eq_nil_iff
    (List.Forall₂.imp (fun _ _ hpart => hpart.infix_iff (by decide)) h)

end Header

open Header

/-! ### Content types -/

lemma mapM_perm {α β ε : Type} {f : α → Except ε β} {xs xs' : List α} {ys : List β}
    (hxs : xs'.Perm xs) (h : xs.mapM f = .ok ys) : ∃ ys', xs'.mapM f = .ok ys' ∧ ys'.Perm ys := by
  obtain ⟨ys', hys'⟩ := exists_mapM_ok.mpr fun x hx =>
    exists_mapM_ok.mp ⟨ys, h⟩ x (hxs.mem_iff.mp hx)
  have hmap := hxs.map f
  rw [mapM_eq_ok_iff.mp h, mapM_eq_ok_iff.mp hys'] at hmap
  exact ⟨ys', hys', (List.map_perm_map_iff fun _ _ => Except.ok.inj).mp hmap⟩

lemma ContentType.read_permuted {s s' : Text} {t : ContentType} (h : Text.Permuted s s')
    (ht : read s = .ok t) : ∃ t', read s' = .ok t' ∧ t.Permuted t' := by
  obtain ⟨hname, hps⟩ := read_eq_ok.mp ht
  obtain ⟨ps', hps', hperm⟩ := mapM_perm (h.others.filter fun span => !allBlank span) hps
  refine ⟨⟨t.type, t.subtype, ps'⟩, read_eq_ok.mpr ⟨?_, hps'⟩, rfl, rfl, hperm⟩
  rw [h.first]
  exact hname

namespace Negotiator

variable {α β : Type} {text : α → Text} {text' : β → Text} {values : List α} {values' : List β}
  {header header' : Text}

lemma ofList_permuted {n : Negotiator α}
    (h : List.Forall₂ (fun value value' => Text.Permuted (text value) (text' value'))
      values values')
    (hn : ofList text values = .ok n) : ∃ n', ofList text' values' = .ok n' ∧
      List.Forall₂ ContentType.Permuted n.types n'.types := by
  obtain ⟨htypes, hvalues⟩ := ofList_eq_ok hn
  have hread : ∀ value value' t, Text.Permuted (text value) (text' value') →
      ContentType.read (text value) = .ok t →
      ∃ t', ContentType.read (text' value') = .ok t' ∧ t.Permuted t' :=
    fun _ _ _ => ContentType.read_permuted
  obtain ⟨types', htypes', hperm⟩ := exists_mapM_of_forall₂ hread h htypes
  have hne : values' ≠ [] := by
    rintro rfl
    rw [List.forall₂_nil_right_iff.mp h, ← List.length_eq_zero_iff, length_values] at hvalues
    exact absurd hvalues n.length_types_pos.ne'
  obtain ⟨n', hn'⟩ := exists_ofList htypes' hne
  obtain rfl := Except.ok.inj (htypes'.symm.trans (ofList_eq_ok hn').1)
  exact ⟨n', hn', hperm⟩

lemma place_permuted {n : Negotiator α} {n' : Negotiator β} (hoptions : n'.options = n.options)
    (hmatching : n.options.matching = .exact)
    (htypes : List.Forall₂ ContentType.Permuted n.types n'.types)
    (hheader : Header.Permuted header header') : n'.place header' = n.place header := by
  have hreadings := readings_congr
    (List.Forall₂.imp (fun _ _ => MediaRange.ofPiece_permuted htypes) hheader)
  rw [place_eq, place_eq, hoptions, hmatching, outcome_outline_congr hreadings]
  simp only [acceptsAnything_permuted n.options.literal hheader]

/-- **The order of parameters changes no exact negotiation.** A server that matches parameters
exactly comes to the same place, to none or to the same error for permuted headers. Permuted lists
of texts make servers or do not make them alike, and those come to the same place for permuted
headers and answer with their own values there. -/
theorem negotiate_permuted (hheader : Header.Permuted header header')
    (htexts : List.Forall₂ (fun value value' => Text.Permuted (text value) (text' value'))
      values values') :
    (∀ (n : Negotiator α) literal,
      let s := (n.withLiteral literal).withMatching .exact
      s.place header' = s.place header ∧ s.negotiate header' = s.negotiate header) ∧
    ((∃ n', ofList text' values' = .ok n') ↔ ∃ n, ofList text values = .ok n) ∧
    ∀ n n', ofList text values = .ok n → ofList text' values' = .ok n' → ∀ literal,
      let s := (n.withLiteral literal).withMatching .exact
      let s' := (n'.withLiteral literal).withMatching .exact
      s'.place header' = s.place header ∧
        s.negotiate header =
          (s.place header).map (fun place? => place?.bind fun i => values[i]?) ∧
        s'.negotiate header' =
          (s.place header).map (fun place? => place?.bind fun i => values'[i]?) := by
  refine ⟨fun n literal => ?_, ⟨?_, ?_⟩, fun n n' hn hn' literal => ?_⟩
  · intro s
    have hplace : s.place header' = s.place header :=
      place_permuted rfl rfl (List.forall₂_same.mpr fun t _ => .refl t) hheader
    exact ⟨hplace, by rw [negotiate_eq_place, negotiate_eq_place, hplace]⟩
  · rintro ⟨n', hn'⟩
    have hback := List.Forall₂.flip (htexts.imp fun _ _ htext => htext.symm)
    obtain ⟨n, hn, -⟩ := ofList_permuted hback hn'
    exact ⟨n, hn⟩
  · rintro ⟨n, hn⟩
    obtain ⟨n', hn', -⟩ := ofList_permuted htexts hn
    exact ⟨n', hn'⟩
  · intro s s'
    obtain ⟨n'', hn'', htypes⟩ := ofList_permuted htexts hn
    obtain rfl := Except.ok.inj (hn'.symm.trans hn'')
    have hplace : s'.place header' = s.place header := place_permuted rfl rfl htypes hheader
    have hvalues : s.values = values := (ofList_eq_ok hn).2
    have hvalues' : s'.values = values' := (ofList_eq_ok hn').2
    refine ⟨hplace, ?_, ?_⟩
    · rw [negotiate_eq_place, hvalues]
    · rw [negotiate_eq_place, hplace, hvalues']

/-- The later of two qualities makes a top range in front of a fault, and the value that speaks
against the first type is found wherever it stands. -/
theorem negotiate_permuted_second :
    ∃ n n', ofList id ["c/d;p=1;r=2".toList, "a/b;x=U; ;y=2".toList] = .ok n ∧
      ofList id ["c/d;r=2;p=1".toList, "a/b; ;y=2;x=U".toList] = .ok n' ∧
      ((n.withLiteral true).withMatching .exact).negotiate
        "c/d;p=1;r=3,a/b;y=2;q=.5;x=u;Q=2,*/*;q=z;x=4;q=".toList =
          .ok (some "a/b;x=U; ;y=2".toList) ∧
      ((n'.withLiteral true).withMatching .exact).negotiate
        "c/d;r=3;p=1,a/b;q=.5;Q=2;x=u;y=2,*/*;x=4;q=z;q=".toList =
          .ok (some "a/b; ;y=2;x=U".toList) := by
  let n₀ : Negotiator Text := ⟨[(⟨['c'], ['d'], [⟨['p'], ['1']⟩, ⟨['r'], ['2']⟩]⟩,
    "c/d;p=1;r=2".toList), (⟨['a'], ['b'], [⟨['x'], ['U']⟩, ⟨['y'], ['2']⟩]⟩,
    "a/b;x=U; ;y=2".toList)], by simp, {}⟩
  have hn₀ : ofList id ["c/d;p=1;r=2".toList, "a/b;x=U; ;y=2".toList] = .ok n₀ := rfl
  have hplace₀ : ((n₀.withLiteral true).withMatching .exact).place
      "c/d;p=1;r=3,a/b;y=2;q=.5;x=u;Q=2,*/*;q=z;x=4;q=".toList = .ok (some 1) := by
    decide +kernel
  have hheader : Header.Permuted "c/d;p=1;r=3,a/b;y=2;q=.5;x=u;Q=2,*/*;q=z;x=4;q=".toList
      "c/d;r=3;p=1,a/b;q=.5;Q=2;x=u;y=2,*/*;x=4;q=z;q=".toList :=
    .cons ⟨⟨by decide, by decide⟩, by decide⟩ (.cons ⟨⟨by decide, by decide⟩, by decide⟩
      (.cons ⟨⟨by decide, by decide⟩, by decide⟩ .nil))
  have htexts : List.Forall₂ (fun value value' => Text.Permuted (id value) (id value'))
      ["c/d;p=1;r=2".toList, "a/b;x=U; ;y=2".toList]
      ["c/d;r=2;p=1".toList, "a/b; ;y=2;x=U".toList] :=
    .cons ⟨by decide, by decide⟩ (.cons ⟨by decide, by decide⟩ .nil)
  obtain ⟨-, hmade, hsame⟩ := negotiate_permuted hheader htexts
  obtain ⟨n', hn'⟩ := hmade.mpr ⟨n₀, hn₀⟩
  obtain ⟨-, hvalue, hvalue'⟩ := hsame n₀ n' hn₀ hn' true
  rw [hplace₀] at hvalue hvalue'
  exact ⟨n₀, n', hn₀, hn', hvalue, hvalue'⟩

end Negotiator

end ContentNegotiation
