import ContentNegotiation.ContentType
import ContentNegotiation.Proofs.Faults
import ContentNegotiation.Proofs.QualitySpan

/-!
Content types and their texts.

A content type comes back from its text exactly if its parts are as the reader leaves them, and
the reader leaves the parts of every content type so. Trimming a segment before it is read makes
no difference, so what is read is told from the segments as they stand in the text.
-/

namespace ContentNegotiation

open Text

/-! ### Parameters -/

namespace Parameter

variable {s : Text} {p : Parameter}

lemma read_eq_ok : read s = .ok p ↔ ∃ name value, cut '=' s = some (name, value) ∧
    foldEq (trim name) ['q'] = false ∧ p = ⟨trim name, trim value⟩ := by
  unfold read
  rcases cut '=' s with _ | ⟨name, value⟩
  · simp
  · rcases hq : foldEq (trim name) ['q'] with _ | _
    · simp only [hq, Bool.false_eq_true, if_false]
      constructor
      · rintro ⟨⟩
        exact ⟨name, value, rfl, hq, rfl⟩
      · rintro ⟨name', value', hcut, -, rfl⟩
        cases hcut
        rfl
    · simp only [hq, if_true, reduceCtorEq, false_iff]
      rintro ⟨name', value', hcut, hq', -⟩
      cases hcut
      rw [hq] at hq'
      cases hq'

lemma read_trim (s : Text) : read (trim s) = read s := by
  unfold read
  rcases h : cut '=' (trim s) with _ | ⟨name, value⟩
  · rw [(cut_trim_eq_none (by decide)).mp h]
  · obtain ⟨name', value', h', hname, hvalue, -⟩ := cut_trim_eq_some (by decide) h
    simp only [h', hname, hvalue]

structure Normal (p : Parameter) : Prop where
  name_equals : '=' ∉ p.name
  name_semicolon : ';' ∉ p.name
  name_trim : trim p.name = p.name
  name_quality : p.name ≠ ['q'] ∧ p.name ≠ ['Q']
  value_semicolon : ';' ∉ p.value
  value_trim : trim p.value = p.value

lemma normal_of_read (hs : ';' ∉ s) (h : read s = .ok p) : p.Normal := by
  obtain ⟨name, value, hcut, hq, rfl⟩ := read_eq_ok.mp h
  obtain ⟨rfl, hname⟩ := cut_eq_some.mp hcut
  simp only [List.mem_append, List.mem_cons, not_or] at hs
  rw [← Bool.not_eq_true, foldEq_q_iff, not_or] at hq
  exact ⟨not_mem_trim hname, not_mem_trim hs.1, trim_trim name, hq, not_mem_trim hs.2.2,
    trim_trim value⟩

namespace Normal

lemma read_render (h : p.Normal) : read p.render = .ok p := by
  rw [read_eq_ok]
  refine ⟨p.name, p.value, cut_append h.name_equals _, ?_, ?_⟩
  · rw [h.name_trim, ← Bool.not_eq_true, foldEq_q_iff, not_or]
    exact h.name_quality
  · rw [h.name_trim, h.value_trim]

lemma semicolon_not_mem_render (h : p.Normal) : ';' ∉ p.render := by
  simp [render, h.name_semicolon, h.value_semicolon]

end Normal

lemma not_allBlank_render (p : Parameter) : allBlank p.render = false := by
  rw [← Bool.not_eq_true, allBlank_iff]
  intro h
  have := h '=' (by simp [render])
  revert this
  decide

end Parameter

namespace ContentType

variable {s : Text} {t : ContentType} {ps : List Parameter}

/-- Every content type is its two names with its parameters added one by one. -/
theorem foldl_withParameter (t : ContentType) (ps : List Parameter) :
    ps.foldl (fun t p => t.withParameter p.name p.value) t =
      { t with parameters := t.parameters ++ ps } := by
  induction ps generalizing t with
  | nil => simp
  | cons p ps ih =>
    rw [List.foldl_cons, ih]
    simp [withParameter]

/-! ### Names -/

lemma readName_eq_ok {type subtype : Text} : readName s = .ok (type, subtype) ↔
    ∃ a b, cut '/' s = some (a, b) ∧ '/' ∉ b ∧ type = trim a ∧ subtype = trim b ∧
      type ≠ ['*'] ∧ subtype ≠ ['*'] := by
  unfold readName
  rcases cut '/' s with _ | ⟨a, b⟩
  · simp
  · by_cases hb : '/' ∈ b
    · simp [hb]
    · by_cases hstar : trim a = ['*'] ∨ trim b = ['*']
      · simp only [hb, hstar, if_true, if_false, reduceCtorEq, false_iff]
        rintro ⟨a', b', hab, -, rfl, rfl, ha, hb'⟩
        cases hab
        exact hstar.elim ha hb'
      · simp only [hb, hstar, if_false]
        rw [not_or] at hstar
        constructor
        · rintro ⟨⟩
          exact ⟨a, b, rfl, hb, rfl, rfl, hstar⟩
        · rintro ⟨a', b', hab, -, rfl, rfl, -⟩
          cases hab
          rfl

lemma readName_trim (s : Text) : readName (trim s) = readName s := by
  unfold readName
  rcases h : cut '/' (trim s) with _ | ⟨a, b⟩
  · rw [(cut_trim_eq_none (by decide)).mp h]
  · obtain ⟨a', b', h', ha, hb, hmem⟩ := cut_trim_eq_some (by decide) h
    simp only [h', ha, hb, hmem '/' (by decide)]

/-! ### Whole texts -/

/-- The segments of a text that state parameters. -/
def segments (s : Text) : List Text := (split ';' s).2.filter fun span => !allBlank span

lemma mapM_trim (spans : List Text) :
    ((spans.map trim).filter (· ≠ [])).mapM Parameter.read =
      (spans.filter fun span => !allBlank span).mapM Parameter.read := by
  induction spans with
  | nil => rfl
  | cons span spans ih =>
    rw [List.map_cons, List.filter_cons, List.filter_cons]
    rcases hb : allBlank span with _ | _
    · have hne : trim span ≠ [] := fun h => by simp [trim_eq_nil_iff.mp h] at hb
      simp only [hne, ne_eq, not_false_eq_true, decide_true, if_true, Bool.not_false,
        List.mapM_cons, Parameter.read_trim, ih]
    · rw [trim_eq_nil_iff.mpr hb]
      simpa using ih

lemma read_eq_ok : read s = .ok t ↔ readName (split ';' s).1 = .ok (t.type, t.subtype) ∧
    (segments s).mapM Parameter.read = .ok t.parameters := by
  unfold read segments
  rw [← mapM_trim]
  simp only [bind_eq_ok, pure, Except.pure, readName_trim]
  constructor
  · rintro ⟨⟨type, subtype⟩, hname, ps, hps, ⟨⟩⟩
    exact ⟨hname, hps⟩
  · rintro ⟨hname, hps⟩
    exact ⟨_, hname, _, hps, rfl⟩

structure Normal (t : ContentType) : Prop where
  type_slash : '/' ∉ t.type
  type_semicolon : ';' ∉ t.type
  type_trim : trim t.type = t.type
  type_star : t.type ≠ ['*']
  subtype_slash : '/' ∉ t.subtype
  subtype_semicolon : ';' ∉ t.subtype
  subtype_trim : trim t.subtype = t.subtype
  subtype_star : t.subtype ≠ ['*']
  parameters : ∀ p ∈ t.parameters, p.Normal

theorem normal_of_read (h : read s = .ok t) : t.Normal := by
  obtain ⟨hname, hps⟩ := read_eq_ok.mp h
  obtain ⟨hfirst, hspans⟩ := not_mem_split ';' s
  obtain ⟨a, b, hcut, hb, htype, hsubtype, htstar, hsstar⟩ := readName_eq_ok.mp hname
  obtain ⟨heq, ha⟩ := cut_eq_some.mp hcut
  rw [heq] at hfirst
  simp only [List.mem_append, List.mem_cons, not_or] at hfirst
  refine ⟨?_, ?_, ?_, htstar, ?_, ?_, ?_, hsstar, fun p hp => ?_⟩
  · exact htype ▸ not_mem_trim ha
  · exact htype ▸ not_mem_trim hfirst.1
  · rw [htype, trim_trim]
  · exact hsubtype ▸ not_mem_trim hb
  · exact hsubtype ▸ not_mem_trim hfirst.2.2
  · rw [hsubtype, trim_trim]
  · obtain ⟨span, hspan, hread⟩ := exists_of_mem_mapM hps hp
    exact Parameter.normal_of_read (hspans span (List.mem_of_mem_filter hspan)) hread

theorem Normal.read_render (h : t.Normal) : read t.render = .ok t := by
  have hfirst : ';' ∉ t.type ++ '/' :: t.subtype := by
    simp [h.type_semicolon, h.subtype_semicolon]
  have hspans : ∀ span ∈ t.parameters.map Parameter.render, ';' ∉ span := by
    simpa using fun p hp => (h.parameters p hp).semicolon_not_mem_render
  have hsplit : split ';' t.render =
      (t.type ++ '/' :: t.subtype, t.parameters.map Parameter.render) := by
    rw [← split_flatMap hfirst hspans, List.flatMap_map, render]
  have hsegments : segments t.render = t.parameters.map Parameter.render := by
    rw [segments, hsplit, List.filter_eq_self]
    simp [Parameter.not_allBlank_render]
  rw [read_eq_ok, hsegments, hsplit]
  constructor
  · rw [readName_eq_ok]
    exact ⟨t.type, t.subtype, cut_append h.type_slash _, h.subtype_slash, h.type_trim.symm,
      h.subtype_trim.symm, h.type_star, h.subtype_star⟩
  · have hread : t.parameters.mapM (Parameter.read ∘ Parameter.render) =
        .ok (t.parameters.map id) :=
      mapM_eq_ok fun p hp => (h.parameters p hp).read_render
    rw [List.mapM_map, hread, List.map_id]

/-- **Reading undoes writing exactly on normal content types**, and only these are ever read. So
what has been read from a text can be written and read again, is no wildcard and states no
quality. -/
theorem read_render_iff_normal (t : ContentType) :
    (read t.render = .ok t ↔ t.Normal) ∧
      ∀ s, read s = .ok t → t.Normal ∧ read t.render = .ok t := by
  have hread : ∀ s, read s = .ok t → t.Normal ∧ read t.render = .ok t := fun s h =>
    ⟨normal_of_read h, (normal_of_read h).read_render⟩
  exact ⟨⟨fun h => (hread _ h).1, Normal.read_render⟩, hread⟩

/-- Empty names, equals signs in values and single quotes come back, a blank end does not. -/
theorem read_render_iff_normal_odd :
    (∃ t, read " a /; = v=/ ;; Level=\"1 ".toList = .ok t ∧ t.Normal ∧ read t.render = .ok t) ∧
      read (ContentType.mk "a ".toList ['b'] []).render ≠ .ok ⟨"a ".toList, ['b'], []⟩ := by
  constructor
  · have hread : read " a /; = v=/ ;; Level=\"1 ".toList =
        .ok ⟨['a'], [], [⟨[], "v=/".toList⟩, ⟨"Level".toList, ['"', '1']⟩]⟩ := by decide +kernel
    exact ⟨_, hread, (read_render_iff_normal _).2 _ hread⟩
  · rw [Ne, (read_render_iff_normal _).1]
    rintro ⟨-, -, htrim, -⟩
    revert htrim
    decide

end ContentType

end ContentNegotiation
