import ContentNegotiation.Proofs.CanonicalText
import ContentNegotiation.Proofs.WalkOrder

/-!
The header joined from the canonical texts of another.

Its ranges are those of the other header, and the pieces without a range are gone. Which range ends
the header may change by this, but not the order of preference, so walks over the two headers show
the same ranges.
-/

namespace ContentNegotiation

open Text

namespace Header

variable {header p : Text} {r : MediaRange}

/-! ### Pieces -/

lemma comma_not_mem_piece (h : p ∈ pieces header) : ',' ∉ p := by
  have hparts : ∀ p ∈ (split ',' header).1 :: (split ',' header).2, ',' ∉ p :=
    List.forall_mem_cons.mpr (not_mem_split ',' header)
  rcases parts_eq_pieces header with heq | heq
  · exact hparts p (by rw [heq]; exact h)
  · exact hparts p (by rw [heq]; exact List.mem_append_left _ h)

lemma infix_iff_pieces {w : Text} (hne : w ≠ []) (hw : ',' ∉ w) :
    w <:+: header ↔ ∃ p ∈ pieces header, w <:+: p := by
  rw [infix_iff_split hw]
  rcases parts_eq_pieces header with heq | heq
  · rw [heq]
  · rw [heq]
    simp [hne]

lemma pieces_intercalate {texts : List Text} (hcomma : ∀ t ∈ texts, ',' ∉ t)
    (hne : ∀ t ∈ texts, t ≠ []) : pieces ([','].intercalate texts) = texts := by
  induction texts with
  | nil => rw [List.intercalate_nil, pieces_nil]
  | cons t texts ih =>
    rw [List.forall_mem_cons] at hcomma hne
    obtain ⟨hfirst, hafter⟩ := eq_of_not_comma hcomma.1
    rcases texts with _ | ⟨u, texts⟩
    · rw [List.intercalate_singleton, pieces_cons hne.1, hfirst, hafter, pieces_nil]
    · rw [List.intercalate_cons_cons, List.append_assoc, List.singleton_append,
        pieces_cons (by simp), firstPiece_append hcomma.1, afterPiece_append hcomma.1,
        ih hcomma.2 hne.2]

/-! ### Ranges -/

lemma exists_of_mem_answers {answer : Except Error (Option MediaRange)}
    (h : answer ∈ (answers header).1) :
    ∃ piece ∈ pieces header, MediaRange.ofPiece piece = answer := by
  rcases wellFormed_or_fault header with hw | ⟨before, e, hf⟩
  · rw [answers_wellFormed hw] at h
    exact List.mem_map.mp h
  · obtain ⟨rest, hanswers, -⟩ := answers_fault hf
    obtain ⟨bad, others, hpieces, -, hbad⟩ := hf
    rw [hanswers, List.mem_append, List.mem_singleton] at h
    rw [hpieces]
    rcases h with h | rfl
    · obtain ⟨piece, hpiece, hread⟩ := List.mem_map.mp h
      exact ⟨piece, List.mem_append_left _ hpiece, hread⟩
    · exact ⟨bad, by simp, MediaRange.ofPiece_eq_error.mpr hbad⟩

lemma clean_of_mem_answers (h : .ok (some r) ∈ (answers header).1) : r.Clean := by
  obtain ⟨piece, hpiece, hr⟩ := exists_of_mem_answers h
  exact MediaRange.clean_of_ofPiece (comma_not_mem_piece hpiece) hr

lemma exists_of_mem_valid (h : r ∈ valid header) :
    ∃ piece ∈ pieces header, MediaRange.ofPiece piece = .ok (some r) := by
  unfold valid at h
  obtain ⟨piece, hpiece, hr⟩ := List.mem_filterMap.mp h
  refine ⟨piece, hpiece, ?_⟩
  unfold MediaRange.ofPiece? at hr
  split at hr
  · next heq => rw [heq, hr]
  · cases hr

lemma clean_of_mem_valid (h : r ∈ valid header) : r.Clean := by
  obtain ⟨piece, hpiece, hr⟩ := exists_of_mem_valid h
  exact MediaRange.clean_of_ofPiece (comma_not_mem_piece hpiece) hr

lemma answers_render (h : r.Clean) : answers r.render = ([.ok (some r)], []) := by
  obtain ⟨hfirst, hafter⟩ := eq_of_not_comma h.comma_not_mem_render
  have hread : MediaRange.ofPiece (firstPiece r.render) = .ok (some r) := by
    rw [hfirst, h.ofPiece_render]
  rw [answers_ok r.render_ne_nil hread, hafter, answers_nil]

/-! ### The joined header -/

/-- The canonical texts of the valid ranges, joined by commas. -/
def joined (header : Text) : Text := [','].intercalate ((valid header).map MediaRange.render)

lemma pieces_joined (header : Text) :
    pieces (joined header) = (valid header).map MediaRange.render := by
  apply pieces_intercalate
  · intro t ht
    obtain ⟨r, hr, rfl⟩ := List.mem_map.mp ht
    exact (clean_of_mem_valid hr).comma_not_mem_render
  · intro t ht
    obtain ⟨r, -, rfl⟩ := List.mem_map.mp ht
    exact r.render_ne_nil

lemma wellFormed_joined (header : Text) : WellFormed (joined header) := by
  unfold WellFormed
  rw [pieces_joined]
  intro t ht
  obtain ⟨r, hr, rfl⟩ := List.mem_map.mp ht
  exact MediaRange.wellFormed_of_ofPiece (clean_of_mem_valid hr).ofPiece_render

theorem valid_joined (header : Text) : valid (joined header) = valid header := by
  have hread : ∀ r ∈ valid header, MediaRange.ofPiece? r.render = some r := by
    intro r hr
    rw [MediaRange.ofPiece?, (clean_of_mem_valid hr).ofPiece_render]
  rw [valid, pieces_joined, List.filterMap_map]
  exact (List.filterMap_congr hread).trans List.filterMap_some

lemma infix_of_infix_render {piece : Text} (hcomma : ',' ∉ piece)
    (h : MediaRange.ofPiece piece = .ok (some r)) (hr : ['*', '/', '*'] <:+: r.render) :
    ['*', '/', '*'] <:+: piece := by
  have hclean := MediaRange.clean_of_ofPiece hcomma h
  have hsemi : ';' ∉ ['*', '/', '*'] := by decide
  rcases MediaRange.ofPiece_eq_iff.mp h with _ | _ | ⟨-, hname, -, hparameters, -⟩
  rw [infix_iff_split hsemi, hclean.split_render] at hr
  rw [infix_iff_split hsemi]
  obtain ⟨span, hspan, hinfix⟩ := hr
  rcases List.mem_cons.mp hspan with rfl | hspan
  · exact ⟨_, List.mem_cons_self, hname ▸ hinfix⟩
  rcases List.mem_cons.mp hspan with rfl | hspan
  · -- the text of a quality has no star
    have hstar := MediaRange.not_mem_render_quality r.quality (c := '*') rfl (by decide) (by decide)
    have hmem := hinfix.subset List.mem_cons_self
    simp [hstar] at hmem
  · rw [hparameters] at hspan
    exact ⟨span, List.mem_cons_of_mem _ (List.mem_of_mem_filter hspan), hinfix⟩

lemma infix_of_infix_joined (h : ['*', '/', '*'] <:+: joined header) :
    ['*', '/', '*'] <:+: header := by
  have hcomma : ',' ∉ ['*', '/', '*'] := by decide
  rw [infix_iff_pieces (List.cons_ne_nil _ _) hcomma] at h ⊢
  obtain ⟨t, ht, hinfix⟩ := h
  rw [pieces_joined] at ht
  obtain ⟨r, hr, rfl⟩ := List.mem_map.mp ht
  obtain ⟨piece, hpiece, hread⟩ := exists_of_mem_valid hr
  exact ⟨piece, hpiece, infix_of_infix_render (comma_not_mem_piece hpiece) hread hinfix⟩

end Header

open Header

namespace Walk

variable {header : Text} {options options' : Options}

/-- The two headers have the same route, if the joined one is taken literally or as the other. -/
lemma route_joined (hopen : ¬ AcceptsAnything options.literal header)
    (hliteral : options'.literal = true ∨ options'.literal = options.literal) :
    (before (joined header) options' []).route =
        { ranges := descending MediaRange.rank (valid header), failure := none } ∧
      ranges (before (joined header) options' []).header = .ok (valid header) := by
  by_cases hany : AcceptsAnything options'.literal (joined header)
  · -- without ranges nothing is left to join, and neither walk shows anything
    have hnil : joined header = [] := by
      rcases hany with hnil | ⟨hfalse, hinfix⟩
      · exact hnil
      · rcases hliteral with htrue | hsame
        · rw [htrue] at hfalse
          cases hfalse
        · exact absurd (Or.inr ⟨hsame ▸ hfalse, infix_of_infix_joined hinfix⟩) hopen
    have hvalid : valid header = [] := by
      rw [← valid_joined, hnil, valid, pieces_nil, List.filterMap_nil]
    rw [(before_anything hany []).1, (before_anything hany []).2, hvalid, Header.ranges]
    exact ⟨by rw [List.Perm.eq_nil (perm_descending [])], rfl⟩
  · have hroute := before_wellFormed hany (wellFormed_joined header) []
    rw [order_nil, valid_joined] at hroute
    rw [hroute, (before_literal hany []).1, (wellFormed_joined header).ranges_eq, valid_joined]
    exact ⟨rfl, rfl⟩

/-- **Canonical text is a faithful normal form.** The canonical text of a range that was read is
read as this range and to its end, and no other range has it; this rests on the text of a quality,
which is read back as the quality and has digits, points and a minus only. Joined by commas, the
canonical texts of a header without a fault make a header with the same texts, and walks over the
two show the same ranges and answer alike at every move. -/
theorem canonical_faithful :
    (∀ header r, .ok (some r) ∈ (answers header).1 →
      MediaRange.read r.render = .ok (some r, []) ∧
        answers r.render = ([.ok (some r)], [])) ∧
    (∀ header header' r s, .ok (some r) ∈ (answers header).1 → .ok (some s) ∈ (answers header').1 →
      r.render = s.render → r = s) ∧
    (∀ q : Quality, Quality.read q.render = .ok q ∧
      ∀ c ∈ q.render, c.isDigit = true ∨ c = '.' ∨ c = '-') ∧
    ∀ header options, ¬ AcceptsAnything options.literal header → WellFormed header →
      ∃ w texts, start header options = .ok w ∧ w.collectAll = .ok texts ∧
        ∀ options' : Options, options'.literal = true ∨ options'.literal = options.literal →
          ∃ w', start ([','].intercalate texts) options' = .ok w' ∧
            w'.collectAll = .ok texts ∧ w'.all = w.all ∧
            ∀ n, (w'.after n).current = (w.after n).current ∧
              (w'.after n).advance.1 = (w.after n).advance.1 ∧
              (w'.after n).hasRange = (w.after n).hasRange := by
  refine ⟨fun header r hr => ?_, fun header header' r s hr hs h => ?_, fun q => ?_,
    fun header options hopen hq => ?_⟩
  · have hclean := clean_of_mem_answers hr
    exact ⟨hclean.read_render, answers_render hclean⟩
  · exact (clean_of_mem_answers hr).eq_of_render (clean_of_mem_answers hs) h
  · exact ⟨Quality.read_render q, fun c hc => Quality.mem_render hc⟩
  · have hroute := before_wellFormed hopen hq []
    rw [order_nil] at hroute
    obtain ⟨w, hw, hheader, -, hshows⟩ := start_ok hroute fun _ => rfl
    rw [(before_literal hopen []).1] at hheader
    refine ⟨w, (valid header).map MediaRange.render, hw, ?_, fun options' hliteral => ?_⟩
    · rw [collectAll, hheader, hq.ranges_eq]
      rfl
    · obtain ⟨hroute', hranges⟩ := route_joined hopen hliteral
      obtain ⟨w', hw', hheader', -, hshows'⟩ := start_ok hroute' fun _ => rfl
      refine ⟨w', hw', ?_, hshows'.all.trans hshows.all.symm, fun n => ⟨?_, ?_, ?_⟩⟩
      · rw [collectAll, hheader', hranges]
        rfl
      · rw [hshows'.current n, hshows.current n]
      · rw [hshows'.answer n, hshows.answer n]
      · rw [hshows'.hasRange n, hshows.hasRange n]

/-- The sign of zero is kept, and a range that did not end the header ends the joined one. -/
theorem canonical_faithful_ended :
    MediaRange.read "a/b;q=-0; x=1".toList =
        .ok (some ⟨['a'], ['b'], [" x=1".toList], ⟨true, 0, by decide⟩⟩, []) ∧
      ∃ w w', start "a/b;Q=-0.0; x=1,c/d;;q=2,junk".toList = .ok w ∧
        start "a/b;q=-0; x=1,c/d;q=2".toList { literal := true } = .ok w' ∧ w'.all = w.all := by
  have hopen : ¬ AcceptsAnything false "a/b;Q=-0.0; x=1,c/d;;q=2,junk".toList := by
    decide +kernel
  have hq : WellFormed "a/b;Q=-0.0; x=1,c/d;;q=2,junk".toList := by decide +kernel
  constructor
  · have hr : .ok (some ⟨['a'], ['b'], [" x=1".toList], ⟨true, 0, by decide⟩⟩) ∈
        (answers "a/b;Q=-0.0; x=1,c/d;;q=2,junk".toList).1 := by
      rw [answers_wellFormed hq]
      exact List.mem_map.mpr ⟨"a/b;Q=-0.0; x=1".toList, by decide +kernel, by decide +kernel⟩
    exact (canonical_faithful.1 _ _ hr).1
  · obtain ⟨w, texts, hw, htexts, hjoined⟩ := canonical_faithful.2.2.2 _ {} hopen hq
    have hheader := (shows_of_start hw).1.trans (before_literal hopen []).1
    have hvalid : (valid "a/b;Q=-0.0; x=1,c/d;;q=2,junk".toList).map MediaRange.render =
        ["a/b;q=-0; x=1".toList, "c/d;q=2".toList] := by decide +kernel
    rw [collectAll, hheader, hq.ranges_eq, Except.map, hvalid] at htexts
    obtain rfl := Except.ok.inj htexts
    obtain ⟨w', hw', -, hall, -⟩ := hjoined { literal := true } (Or.inl rfl)
    exact ⟨w, w', hw, hw', hall⟩

end Walk

end ContentNegotiation
