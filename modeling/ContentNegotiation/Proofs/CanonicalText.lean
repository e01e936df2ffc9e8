import ContentNegotiation.Proofs.HeaderAnswers
import ContentNegotiation.Proofs.QualityText

/-!
The canonical text of a range that was read is read as the range.

What a header is cut at cannot stand in the parts that a range keeps, and no kept span can be taken
for a quality or left out as blank. So the canonical text, cut at the same places, has the same
parts again, and the quality in front of them.
-/

namespace ContentNegotiation

open Text

namespace MediaRange

variable {r s : MediaRange} {piece rest rest' header : Text}

structure Clean (r : MediaRange) : Prop where
  type : ',' ∉ r.type ∧ ';' ∉ r.type ∧ '/' ∉ r.type
  subtype : ',' ∉ r.subtype ∧ ';' ∉ r.subtype
  parameters : ∀ p ∈ r.parameters, ',' ∉ p ∧ ';' ∉ p ∧ isParameter p = true

/-! ### Ranges that were read -/

lemma clean_of_ofPiece (hcomma : ',' ∉ piece) (h : ofPiece piece = .ok (some r)) : Clean r := by
  obtain ⟨hfirst, hspans⟩ := not_mem_split_of_not_mem hcomma ';'
  obtain ⟨hfirst', hspans'⟩ := not_mem_split ';' piece
  rcases ofPiece_eq_iff.mp h with _ | _ | ⟨-, hname, hslash, hparameters, -⟩
  rw [hname, List.mem_append, List.mem_cons, not_or, not_or] at hfirst hfirst'
  refine ⟨⟨hfirst.1, hfirst'.1, hslash⟩, ⟨hfirst.2.2, hfirst'.2.2⟩, fun p hp => ?_⟩
  rw [hparameters, List.mem_filter] at hp
  exact ⟨hspans p hp.1, hspans' p hp.1, hp.2⟩

lemma comma_not_mem_firstPiece (header : Text) : ',' ∉ Header.firstPiece header := by
  rw [← (Prod.mk.inj (Header.split_comma header)).1]
  exact (not_mem_split ',' header).1

lemma clean_of_read (h : read rest = .ok (some r, rest')) : Clean r :=
  clean_of_ofPiece (comma_not_mem_firstPiece rest) (read_eq_ok.mp h).1

/-! ### The canonical text -/

lemma not_mem_render_quality {c : Char} (q : Quality) (hc : c.isDigit = false)
    (hpoint : c ≠ '.') (hminus : c ≠ '-') : c ∉ q.render := by
  intro h
  rcases Quality.mem_render h with h | h | h
  · rw [hc] at h
    cases h
  · exact hpoint h
  · exact hminus h

lemma render_eq (r : MediaRange) : r.render = (r.type ++ '/' :: r.subtype) ++
    (('q' :: '=' :: r.quality.render) :: r.parameters).flatMap (';' :: ·) := by
  unfold render
  simp

lemma statesQuality_render (q : Quality) : StatesQuality ('q' :: '=' :: q.render) q.render :=
  ⟨[], 'q', rfl, Or.inl rfl, rfl⟩

lemma Clean.split_render (h : Clean r) : split ';' r.render =
    (r.type ++ '/' :: r.subtype, ('q' :: '=' :: r.quality.render) :: r.parameters) := by
  rw [render_eq]
  apply split_flatMap
  · simp [h.type.2.1, h.subtype.2]
  · rw [List.forall_mem_cons]
    refine ⟨?_, fun p hp => (h.parameters p hp).2.1⟩
    simp [not_mem_render_quality r.quality (c := ';') rfl]

lemma Clean.comma_not_mem_render (h : Clean r) : ',' ∉ r.render := by
  have hq := not_mem_render_quality r.quality (c := ',') rfl (by decide) (by decide)
  have hp : ∀ p ∈ r.parameters, ',' ∉ p := fun p hp => (h.parameters p hp).1
  rw [render_eq]
  simpa [h.type.1, h.subtype.1, hq] using hp

lemma Clean.not_statesQuality (h : Clean r) :
    ∀ p ∈ r.parameters, ∀ v, ¬ StatesQuality p v :=
  fun p hp => (isParameter_iff.mp (h.parameters p hp).2.2).1

theorem Clean.ofPiece_render (h : Clean r) : ofPiece r.render = .ok (some r) := by
  have hstates := statesQuality_render r.quality
  have hfirst : isParameter ('q' :: '=' :: r.quality.render) = false := by
    rw [isParameter, qualityText?_eq_some.mpr hstates]
    rfl
  rw [ofPiece_eq_iff]
  refine .range ?_ (congrArg Prod.fst h.split_render) h.type.2.2 ?_ ?_
  all_goals rw [h.split_render]
  · rw [List.forall_mem_cons]
    refine ⟨fun v hv => ⟨r.quality, ?_⟩, fun p hp v hv => absurd hv (h.not_statesQuality p hp v)⟩
    have hvalue := (qualityText?_eq_some.mpr hv).symm.trans (qualityText?_eq_some.mpr hstates)
    rw [Option.some.inj hvalue, Quality.read_render]
  · rw [List.filter_cons_of_neg (by simp [hfirst])]
    exact (List.filter_eq_self.mpr fun p hp => (h.parameters p hp).2.2).symm
  · exact .stated (List.nil_append _).symm hstates (Quality.read_render _) h.not_statesQuality

lemma render_ne_nil (r : MediaRange) : r.render ≠ [] := by
  rw [render_eq]
  simp

theorem Clean.read_render (h : Clean r) : read r.render = .ok (some r, []) := by
  obtain ⟨hfirst, hafter⟩ := Header.eq_of_not_comma h.comma_not_mem_render
  rw [read_eq_ok, hfirst]
  exact ⟨h.ofPiece_render, hafter⟩

/-- The ranges that are ever read are those that their canonical text is read as. -/
theorem clean_iff : r.Clean ↔ read r.render = .ok (some r, []) :=
  ⟨Clean.read_render, clean_of_read⟩

lemma Clean.eq_of_render (hr : Clean r) (hs : Clean s) (h : r.render = s.render) : r = s := by
  have hread := hr.ofPiece_render
  rw [h, hs.ofPiece_render] at hread
  exact (Option.some.inj (Except.ok.inj hread)).symm

end MediaRange

end ContentNegotiation
