import ContentNegotiation.Proofs.ContentTypeText

/-!
Which texts are content types, and why the others are refused.

A text is cut at its semicolons. What comes before the first one has to be a type and a subtype
around a single slash, neither of them a star, and every later segment that is not blank has to
state a parameter other than a quality. A fault in the names counts before all faults in the
segments, and of these the first one counts.
-/

namespace ContentNegotiation

open Text

/-! ### Segments -/

namespace Parameter

/-- The segment states the parameter: it is cut at its first equals sign, and the name in front of
it is not that of a quality. -/
inductive Stated (segment : Text) : Parameter → Prop where
  | mk {name value : Text} (cut : segment = name ++ '=' :: value) (equals : '=' ∉ name)
      (quality : trim name ≠ ['q'] ∧ trim name ≠ ['Q']) : Stated segment ⟨trim name, trim value⟩

/-- Why a segment is refused. Blank segments never are. -/
inductive Refused (segment : Text) : Error → Prop where
  | malformed (blank : allBlank segment = false) (equals : '=' ∉ segment) :
    Refused segment .malformed
  | quality {name value : Text} (cut : segment = name ++ '=' :: value) (equals : '=' ∉ name)
      (quality : trim name = ['q'] ∨ trim name = ['Q']) : Refused segment .qualityNotAllowed

variable {segment : Text} {p : Parameter} {e : Error}

lemma Refused.not_blank (h : Refused segment e) : allBlank segment = false := by
  obtain ⟨hblank, -⟩ | ⟨rfl, -, -⟩ := h
  · exact hblank
  · rw [← Bool.not_eq_true]
    intro hblank
    exact not_mem_of_allBlank hblank rfl (List.mem_append_right _ List.mem_cons_self)

lemma read_eq_ok_iff : read segment = .ok p ↔ Stated segment p := by
  rw [read_eq_ok]
  constructor
  · rintro ⟨name, value, hcut, hq, rfl⟩
    obtain ⟨hsegment, hname⟩ := cut_eq_some.mp hcut
    rw [← Bool.not_eq_true, foldEq_q_iff, not_or] at hq
    exact .mk hsegment hname hq
  · rintro ⟨hsegment, hname, hq⟩
    refine ⟨_, _, cut_eq_some.mpr ⟨hsegment, hname⟩, ?_, rfl⟩
    rw [← Bool.not_eq_true, foldEq_q_iff, not_or]
    exact hq

lemma read_eq_error_iff (hblank : allBlank segment = false) :
    read segment = .error e ↔ Refused segment e := by
  constructor
  · intro h
    unfold read at h
    rcases hcut : cut '=' segment with _ | ⟨name, value⟩
    · rw [hcut] at h
      cases h
      exact .malformed hblank (cut_eq_none.mp hcut)
    · obtain ⟨hsegment, hname⟩ := cut_eq_some.mp hcut
      simp only [hcut] at h
      split at h
      · next hq =>
        cases h
        exact .quality hsegment hname (foldEq_q_iff.mp hq)
      · cases h
  · rintro (⟨-, hequals⟩ | ⟨hsegment, hname, hq⟩)
    · rw [read, cut_eq_none.mpr hequals]
    · rw [read, cut_eq_some.mpr ⟨hsegment, hname⟩]
      exact if_pos (foldEq_q_iff.mpr hq)

lemma exists_read_iff (hblank : allBlank segment = false) :
    (∃ p, read segment = .ok p) ↔ ∀ e, ¬ Refused segment e := by
  simp only [← read_eq_error_iff hblank]
  rcases read segment with e | p <;> simp

end Parameter

namespace ContentType

/-! ### Names -/

/-- What the text in front of the segments is to be read as. -/
inductive NamesAs (head : Text) : Except Error (Text × Text) → Prop where
  | noSlash (slash : '/' ∉ head) : NamesAs head (.error .missingSeparator)
  | slashes (slashes : 2 ≤ head.count '/') : NamesAs head (.error .tooManyParts)
  | star {type subtype : Text} (cut : head = type ++ '/' :: subtype) (before : '/' ∉ type)
      (after : '/' ∉ subtype) (star : trim type = ['*'] ∨ trim subtype = ['*']) :
      NamesAs head (.error .wildcard)
  | names {type subtype : Text} (cut : head = type ++ '/' :: subtype) (before : '/' ∉ type)
      (after : '/' ∉ subtype) (star : trim type ≠ ['*'] ∧ trim subtype ≠ ['*']) :
      NamesAs head (.ok (trim type, trim subtype))

variable {head s : Text} {names : Except Error (Text × Text)}

lemma two_le_count {type subtype : Text} (h : '/' ∉ type) :
    2 ≤ (type ++ '/' :: subtype).count '/' ↔ '/' ∈ subtype := by
  rw [List.count_append, List.count_eq_zero.mpr h, List.count_cons_self, ← List.count_pos_iff]
  omega

theorem readName_eq_iff : readName head = names ↔ NamesAs head names := by
  constructor
  · rintro rfl
    unfold readName
    rcases hcut : cut '/' head with _ | ⟨type, subtype⟩
    · exact .noSlash (cut_eq_none.mp hcut)
    · obtain ⟨rfl, htype⟩ := cut_eq_some.mp hcut
      dsimp only
      split
      · next hsubtype => exact .slashes ((two_le_count htype).mpr hsubtype)
      · next hsubtype =>
        split
        · next hstar => exact .star rfl htype hsubtype hstar
        · next hstar => exact .names rfl htype hsubtype (not_or.mp hstar)
  · rintro (hslash | hslashes | ⟨hcut, htype, hsubtype, hstar⟩ | ⟨hcut, htype, hsubtype, hstar⟩)
    · rw [readName, cut_eq_none.mpr hslash]
    · have hmem : '/' ∈ head := List.count_pos_iff.mp (by omega)
      obtain ⟨type, subtype, rfl, htype⟩ := List.eq_append_cons_of_mem hmem
      rw [readName, cut_append htype]
      exact if_pos ((two_le_count htype).mp hslashes)
    · rw [readName, cut_eq_some.mpr ⟨hcut, htype⟩]
      simp only [hsubtype, if_false, hstar, if_true]
    · rw [readName, cut_eq_some.mpr ⟨hcut, htype⟩]
      simp only [hsubtype, if_false, hstar, or_self]

/-! ### Whole texts -/

/-- What a text is to be read as, told from its parts between the semicolons. -/
inductive ReadsAs (s : Text) : Except Error ContentType → Prop where
  | names {e : Error} (names : NamesAs (trim (split ';' s).1) (.error e)) : ReadsAs s (.error e)
  | segment {name : Text × Text} {good others : List Text} {segment : Text} {e : Error}
      (names : NamesAs (trim (split ';' s).1) (.ok name))
      (segments : (split ';' s).2 = good ++ segment :: others)
      (first : ∀ g ∈ good, ∀ e, ¬ Parameter.Refused g e)
      (refused : Parameter.Refused segment e) : ReadsAs s (.error e)
  | contentType {t : ContentType}
      (names : NamesAs (trim (split ';' s).1) (.ok (t.type, t.subtype)))
      (parameters : List.Forall₂ Parameter.Stated (segments s) t.parameters) : ReadsAs s (.ok t)

variable {answer : Except Error ContentType} {t : ContentType} {e : Error}

lemma mapM_read_eq_ok {spans : List Text} {ps : List Parameter} :
    spans.mapM Parameter.read = .ok ps ↔ List.Forall₂ Parameter.Stated spans ps := by
  rw [mapM_eq_ok_iff_forall₂]
  simp only [Parameter.read_eq_ok_iff]

/-- The first of the segments that is not blank and cannot be read is the first refused. -/
lemma mapM_segments_eq_error : (segments s).mapM Parameter.read = .error e ↔
    ∃ good segment others, (split ';' s).2 = good ++ segment :: others ∧
      (∀ g ∈ good, ∀ e, ¬ Parameter.Refused g e) ∧ Parameter.Refused segment e := by
  rw [mapM_eq_error, segments]
  constructor
  · rintro ⟨good, segment, others, hfilter, hgood, he⟩
    obtain ⟨l, m, hlm, rfl, hm⟩ := List.filter_eq_append_iff.mp hfilter
    obtain ⟨blanks, others', rfl, hblanks, hsegment, -⟩ := List.filter_eq_cons_iff.mp hm
    rw [Bool.not_eq_true'] at hsegment
    refine ⟨l ++ blanks, segment, others', ?_, fun g hg e' hr => ?_,
      (Parameter.read_eq_error_iff hsegment).mp he⟩
    · rw [hlm, List.append_assoc]
    · -- a refused segment is not blank, and then it has been read
      rcases List.mem_append.mp hg with hg | hg
      · have hmem := hgood g (List.mem_filter.mpr ⟨hg, by rw [hr.not_blank]; rfl⟩)
        exact (Parameter.exists_read_iff hr.not_blank).mp hmem e' hr
      · exact hblanks g hg (by rw [hr.not_blank]; rfl)
  · rintro ⟨good, segment, others, hsplit, hgood, hr⟩
    refine ⟨good.filter fun span => !allBlank span, segment,
      others.filter fun span => !allBlank span, ?_, fun g hg => ?_,
      (Parameter.read_eq_error_iff hr.not_blank).mpr hr⟩
    · rw [hsplit, List.filter_append, List.filter_cons_of_pos]
      rw [hr.not_blank]
      rfl
    · obtain ⟨hg, hblank⟩ := List.mem_filter.mp hg
      rw [Bool.not_eq_true'] at hblank
      exact (Parameter.exists_read_iff hblank).mpr (hgood g hg)

lemma read_eq_error : read s = .error e ↔ readName (trim (split ';' s).1) = .error e ∨
    ∃ name, readName (trim (split ';' s).1) = .ok name ∧
      (segments s).mapM Parameter.read = .error e := by
  unfold read segments
  rw [← mapM_trim]
  simp only [bind_eq_error, pure, Except.pure, reduceCtorEq, and_false, exists_false, or_false]

/-- **What a text is read as is told from its parts between the semicolons.** Every text is a
content type or refused for one reason, and it is malformed only if one of its segments is. -/
theorem read_eq_iff_parts (s : Text) :
    (∀ answer, read s = answer ↔ ReadsAs s answer) ∧
      (read s = .error .malformed →
        ∃ segment ∈ (split ';' s).2, Parameter.Refused segment .malformed) := by
  have hparts : ∀ answer, read s = answer ↔ ReadsAs s answer := by
    rintro (e | t)
    · rw [read_eq_error, mapM_segments_eq_error]
      constructor
      · rintro (hname | ⟨name, hname, good, segment, others, hsegments, hgood, hr⟩)
        · exact .names (readName_eq_iff.mp hname)
        · exact .segment (readName_eq_iff.mp hname) hsegments hgood hr
      · rintro (hname | ⟨hname, hsegments, hgood, hr⟩ | _)
        · exact Or.inl (readName_eq_iff.mpr hname)
        · exact Or.inr ⟨_, readName_eq_iff.mpr hname, _, _, _, hsegments, hgood, hr⟩
    · rw [read_eq_ok, ← readName_trim, mapM_read_eq_ok, readName_eq_iff]
      constructor
      · rintro ⟨hname, hparameters⟩
        exact .contentType hname hparameters
      · rintro (_ | _ | ⟨hname, hparameters⟩)
        exact ⟨hname, hparameters⟩
  refine ⟨hparts, fun h => ?_⟩
  rw [hparts] at h
  -- names are never malformed
  obtain ⟨⟨⟩⟩ | ⟨-, hsegments, -, hr⟩ := h
  refine ⟨_, ?_, hr⟩
  rw [hsegments]
  exact List.mem_append_right _ List.mem_cons_self

/-- Of two segments that are refused the first one counts, behind blank ones and slashes in values,
and neither counts where the names have a slash too many. -/
theorem read_eq_iff_parts_first :
    read "\u00a0a/ b ; ;x=*/*; level ;q=1".toList = .error .malformed ∧
      read "a/b;;Q\t=;level".toList = .error .qualityNotAllowed ∧
      read "*/b/;q=1".toList = .error .tooManyParts := by
  have hparameter : ∀ e, ¬ Parameter.Refused "x=*/*".toList e := by
    rw [← Parameter.exists_read_iff (by decide)]
    exact ⟨⟨['x'], "*/*".toList⟩, by decide⟩
  have hblank : ∀ segment : Text, allBlank segment = true → ∀ e, ¬ Parameter.Refused segment e := by
    intro segment hblank e hr
    rw [hr.not_blank] at hblank
    cases hblank
  refine ⟨((read_eq_iff_parts _).1 _).mpr ?_, ((read_eq_iff_parts _).1 _).mpr ?_,
    ((read_eq_iff_parts _).1 _).mpr ?_⟩
  · have hnames : readName (trim "\u00a0a/ b ".toList) = .ok (['a'], ['b']) := by decide
    have hsegments : (split ';' "\u00a0a/ b ; ;x=*/*; level ;q=1".toList).2 =
        [[' '], "x=*/*".toList] ++ " level ".toList :: ["q=1".toList] := by decide
    refine .segment (readName_eq_iff.mp hnames) hsegments ?_ (.malformed (by decide) (by decide))
    simpa using ⟨hblank [' '] (by decide), hparameter⟩
  · have hnames : readName (trim "a/b".toList) = .ok (['a'], ['b']) := by decide
    have hsegments : (split ';' "a/b;;Q\t=;level".toList).2 =
        [[]] ++ ("Q\t".toList ++ ['=']) :: ["level".toList] := by decide
    refine .segment (readName_eq_iff.mp hnames) hsegments ?_ (.quality rfl (by decide) (by decide))
    simpa using hblank [] (by decide)
  · exact .names (.slashes (by decide))

end ContentType

end ContentNegotiation
