import ContentNegotiation.MediaRange.Basic
import ContentNegotiation.Proofs.ByteSlices

/-!
What legacy matching decides by.

The first parameter whose name some span starts with is settled by the first such span, and the
answer is whether this span does not end with the value of the parameter. No other spans and
parameters have an influence, as long as these two come first. Comparing characters and comparing
slices of bytes come to the same.
-/

namespace ContentNegotiation.ParameterMatching

open Text

/-- The parameter is the first whose name some span starts with, and the span is the first one that
starts with it. -/
inductive Decides (spans : List Text) (ps : List Parameter) (p : Parameter) (span : Text) :
    Prop where
  | mk {earlier later : List Parameter} {before after : List Text}
      (parameters : ps = earlier ++ p :: later)
      (first : ∀ q ∈ earlier, ∀ s ∈ spans, ¬ StartsWith s q.name)
      (cut : spans = before ++ span :: after)
      (firstSpan : ∀ s ∈ before, ¬ StartsWith s p.name)
      (starts : StartsWith span p.name) : Decides spans ps p span

/-- The answer of legacy matching, told from the two ends of the spans. -/
inductive LegacyAnswer (spans : List Text) (ps : List Parameter) (answer : Bool) : Prop where
  | unnamed (none : ∀ p ∈ ps, ∀ span ∈ spans, ¬ StartsWith span p.name) (answer : answer = true)
  | named {p : Parameter} {span : Text} (decides : Decides spans ps p span)
      (answer : answer = true ↔ ¬ EndsWith span p.value)

variable {spans spans' before after : List Text} {earlier ps ps' : List Parameter}
  {p : Parameter} {span : Text} {answer : Bool}

lemma find?_startsWith_eq_none :
    spans.find? (foldStartsWith · p.name) = none ↔ ∀ s ∈ spans, ¬ StartsWith s p.name := by
  simp only [List.find?_eq_none, foldStartsWith_iff]

lemma find?_startsWith_eq_some : spans.find? (foldStartsWith · p.name) = some span ↔
    StartsWith span p.name ∧ ∃ before after, spans = before ++ span :: after ∧
      ∀ s ∈ before, ¬ StartsWith s p.name := by
  simp only [List.find?_eq_some_iff_append, foldStartsWith_iff, Bool.not_eq_true',
    ← Bool.not_eq_true]

lemma satisfiedLegacy_append (h : ∀ q ∈ earlier, ∀ s ∈ spans, ¬ StartsWith s q.name) :
    satisfiedLegacy spans (earlier ++ ps) = satisfiedLegacy spans ps := by
  induction earlier with
  | nil => rfl
  | cons q earlier ih =>
    rw [List.forall_mem_cons] at h
    rw [List.cons_append, satisfiedLegacy, find?_startsWith_eq_none.mpr h.1]
    exact ih h.2

theorem Decides.satisfiedLegacy_eq (h : Decides spans ps p span) :
    satisfiedLegacy spans ps = !foldEndsWith span p.value := by
  obtain ⟨rfl, hfirst, hcut, hbefore, hspan⟩ := h
  have hfind : spans.find? (foldStartsWith · p.name) = some span :=
    find?_startsWith_eq_some.mpr ⟨hspan, _, _, hcut, hbefore⟩
  rw [satisfiedLegacy_append hfirst, satisfiedLegacy, hfind]

/-- The parameters have been looked through in order until one was found that a span starts with. -/
lemma unnamed_or_decides (spans : List Text) (ps : List Parameter) :
    (∀ p ∈ ps, ∀ span ∈ spans, ¬ StartsWith span p.name) ∨ ∃ p span, Decides spans ps p span := by
  induction ps with
  | nil => exact Or.inl fun p hp => absurd hp List.not_mem_nil
  | cons p ps ih =>
    rcases hfind : spans.find? (foldStartsWith · p.name) with _ | span
    · have hnone := find?_startsWith_eq_none.mp hfind
      rcases ih with hall | ⟨q, span, rfl, hfirst, hcut, hbefore, hspan⟩
      · exact Or.inl (List.forall_mem_cons.mpr ⟨hnone, hall⟩)
      · exact Or.inr ⟨q, span, List.cons_append.symm, List.forall_mem_cons.mpr ⟨hnone, hfirst⟩,
          hcut, hbefore, hspan⟩
    · obtain ⟨hspan, before, after, hcut, hbefore⟩ := find?_startsWith_eq_some.mp hfind
      exact Or.inr ⟨p, span, (List.nil_append _).symm, fun q hq => absurd hq List.not_mem_nil,
        hcut, hbefore, hspan⟩

lemma not_foldEndsWith_iff : (!foldEndsWith span p.value) = true ↔ ¬ EndsWith span p.value := by
  rw [← foldEndsWith_iff, Bool.not_eq_true', Bool.not_eq_true]

lemma satisfiedLegacy_eq_iff :
    satisfiedLegacy spans ps = answer ↔ LegacyAnswer spans ps answer := by
  constructor
  · rintro rfl
    rcases unnamed_or_decides spans ps with hnone | ⟨p, span, h⟩
    · refine .unnamed hnone ?_
      rw [← List.append_nil ps, satisfiedLegacy_append hnone]
      rfl
    · exact .named h (by rw [h.satisfiedLegacy_eq, not_foldEndsWith_iff])
  · rintro (⟨hnone, rfl⟩ | ⟨h, hanswer⟩)
    · rw [← List.append_nil ps, satisfiedLegacy_append hnone]
      rfl
    · rw [h.satisfiedLegacy_eq, Bool.eq_iff_iff, hanswer, not_foldEndsWith_iff]

/-- **Legacy matching looks at the two ends of one span.** The answer is told from the first
parameter that a span starts with and from the first such span, and two lists of spans and two of
parameters for which these are the same get the same answer. The ends of the spans can be compared
by characters or by slices of their bytes. -/
theorem satisfied_legacy_iff (spans : List Text) (ps : List Parameter) :
    (∀ answer, legacy.satisfied spans ps = answer ↔ LegacyAnswer spans ps answer) ∧
    (∀ p span spans' ps', Decides spans ps p span → Decides spans' ps' p span →
      legacy.satisfied spans' ps' = legacy.satisfied spans ps) ∧
    (∀ s t : Text, (Bytes.foldStartsWith (utf8 s) (utf8 t) = foldStartsWith s t ∧
      (foldStartsWith s t = true ↔ StartsWith s t)) ∧
      Bytes.foldEndsWith (utf8 s) (utf8 t) = foldEndsWith s t ∧
      (foldEndsWith s t = true ↔ EndsWith s t)) := by
  refine ⟨fun answer => satisfiedLegacy_eq_iff, fun p span spans' ps' h h' => ?_, fun s t => ?_⟩
  · exact h'.satisfiedLegacy_eq.trans h.satisfiedLegacy_eq.symm
  · refine ⟨⟨?_, foldStartsWith_iff⟩, ?_, foldEndsWith_iff⟩
    · rw [Bool.eq_iff_iff, Bytes.foldStartsWith_utf8, foldStartsWith_iff]
    · rw [Bool.eq_iff_iff, Bytes.foldEndsWith_utf8, foldEndsWith_iff]

/-- A name of several bytes is found in the other case, and the span that ends with the value comes
too late to count. -/
theorem satisfied_legacy_iff_late :
    legacy.satisfied ["ê=1".toList, "éX=1".toList, "éx=2".toList]
        [⟨"è".toList, ['1']⟩, ⟨"éx".toList, ['2']⟩] = true ∧
      legacy.satisfied ["éX=1".toList] [⟨"éx".toList, ['2']⟩, ⟨[], ['1']⟩] = true := by
  have hdecides : Decides ["ê=1".toList, "éX=1".toList, "éx=2".toList]
      [⟨"è".toList, ['1']⟩, ⟨"éx".toList, ['2']⟩] ⟨"éx".toList, ['2']⟩ "éX=1".toList :=
    .mk (List.singleton_append).symm (by decide) (List.singleton_append).symm (by decide)
      (by decide)
  have hdecides' : Decides ["éX=1".toList] [⟨"éx".toList, ['2']⟩, ⟨[], ['1']⟩]
      ⟨"éx".toList, ['2']⟩ "éX=1".toList :=
    .mk (List.nil_append _).symm (by decide) (List.nil_append _).symm (by decide) (by decide)
  obtain ⟨hanswer, hsame, -⟩ := satisfied_legacy_iff
    ["ê=1".toList, "éX=1".toList, "éx=2".toList] [⟨"è".toList, ['1']⟩, ⟨"éx".toList, ['2']⟩]
  have htrue := (hanswer true).mpr (.named hdecides (by decide))
  exact ⟨htrue, (hsame _ _ _ _ hdecides hdecides').trans htrue⟩

end ContentNegotiation.ParameterMatching
