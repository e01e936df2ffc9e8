import ContentNegotiation.Proofs.HeaderAnswers
import ContentNegotiation.Proofs.Places

/-!
Parts of a header that are skipped.

One more part that is no media range and has no fault adds nothing to the readings, wherever it
stands. It can make the last range one that is not the last, and it can make a piece of the empty
end behind a comma, but no walk and no negotiation shows a difference.
-/

namespace ContentNegotiation

open Text

structure MediaRange.Skipped (part : Text) : Prop where
  comma : ',' ∉ part
  slash : '/' ∉ (split ';' part).1
  qualities : WellFormed part

namespace Header

/-- The second header is the first one with one more part. -/
inductive Inserted (part : Text) : Text → Text → Prop where
  | first (header : Text) : Inserted part header (part ++ ',' :: header)
  | between (before after : Text) :
    Inserted part (before ++ ',' :: after) (before ++ ',' :: (part ++ ',' :: after))
  | last (header : Text) : Inserted part header (header ++ ',' :: part)
  -- a comma that ends the header is enough
  | behindComma (before : Text) : Inserted part (before ++ [',']) (before ++ ',' :: part)

variable {part header header' : Text}

lemma readings_nil : readings [] = [] := by
  rw [readings_eq_pieces, pieces_nil, List.filterMap_nil]

lemma readings_skipped (h : MediaRange.Skipped part) : readings part = [] := by
  have hread : MediaRange.ofPiece part = .ok none :=
    MediaRange.ofPiece_eq_iff.mpr (.skipped (MediaRange.wellFormed_iff.mp h.qualities) h.slash)
  rw [readings, parts_of_not_mem h.comma, List.filterMap_cons, MediaRange.reading?, hread]
  rfl

/-- **A skipped part adds nothing to the readings.** -/
theorem Inserted.readings_eq (hi : Inserted part header header') (hs : MediaRange.Skipped part) :
    readings header' = readings header := by
  cases hi with
  | first => rw [readings_append, readings_skipped hs, List.nil_append]
  | between before after =>
    rw [readings_append, readings_append, readings_append, readings_skipped hs, List.nil_append]
  | last => rw [readings_append, readings_skipped hs, List.append_nil]
  | behindComma before => rw [readings_append, readings_append, readings_skipped hs, readings_nil]

lemma Inserted.ne_nil (hi : Inserted part header header') : header' ≠ [] := by
  cases hi <;> simp

end Header

open Header

namespace Walk

/-- Nobody can tell the two walks apart by moving them and looking at their ranges. -/
structure Alike (w w' : Walk) : Prop where
  all : w'.all = w.all
  current (n : ℕ) : (w'.after n).current = (w.after n).current
  answer (n : ℕ) : (w'.after n).advance.1 = (w.after n).advance.1
  hasRange (n : ℕ) : (w'.after n).hasRange = (w.after n).hasRange
  collectAll (n : ℕ) : (w'.after n).collectAll = (w.after n).collectAll

lemma Shows.alike {w w' : Walk} {t : Route} (h : w.Shows t) (h' : w'.Shows t)
    (hlist : ranges w'.header = ranges w.header) : w.Alike w' where
  all := h'.all.trans h.all.symm
  current n := by rw [h'.current n, h.current n]
  answer n := by rw [h'.answer n, h.answer n]
  hasRange n := by rw [h'.hasRange n, h.hasRange n]
  collectAll n := by rw [Walk.collectAll, Walk.collectAll, h'.header n, h.header n, hlist]

variable {header header' : Text} {options : Options}

/-- **Walks over headers with the same readings are alike**, or fail alike before their first
range. -/
theorem start_alike (hopen : ¬ AcceptsAnything options.literal header)
    (hopen' : ¬ AcceptsAnything options.literal header')
    (h : readings header' = readings header) :
    (∃ e, start header options = .error e ∧ start header' options = .error e) ∨
      ∃ w w', start header options = .ok w ∧ start header' options = .ok w' ∧ w.Alike w' := by
  have hroute := route_eq_outline hopen
  have hroute' := route_eq_outline hopen'
  rw [h] at hroute'
  rcases (Route.outline [] (readings header)).error_or_start with ⟨e, he⟩ | hok
  · exact Or.inl ⟨e, start_error (hroute.trans he), start_error (hroute'.trans he)⟩
  · obtain ⟨w, hw, hheader, -, hshows⟩ := start_ok hroute hok
    obtain ⟨w', hw', hheader', -, hshows'⟩ := start_ok hroute' hok
    rw [(before_literal hopen []).1] at hheader
    rw [(before_literal hopen' []).1] at hheader'
    have hlist : ranges w'.header = ranges w.header := by
      rw [hheader, hheader', ranges_eq_readings, ranges_eq_readings, h]
    exact Or.inr ⟨w, w', hw, hw', hshows.alike hshows' hlist⟩

end Walk

lemma Negotiator.negotiate_eq_of_readings {α : Type} {n : Negotiator α} {header header' : Text}
    (hopen : ¬ AcceptsAnything n.options.literal header)
    (hopen' : ¬ AcceptsAnything n.options.literal header')
    (h : readings header' = readings header) : n.negotiate header' = n.negotiate header := by
  rw [negotiate_literal n hopen, negotiate_literal n hopen', Walk.route_eq_outline hopen,
    Walk.route_eq_outline hopen', h]

/-- **Skipped parts are transparent.** Where one more part that is skipped is put into a header that
is taken literally, the list of all ranges stays the same, walks without filters are alike or fail
alike before their first range, and every negotiation gives the same. -/
theorem Header.inserted_transparent {part header header' : Text}
    (hs : MediaRange.Skipped part) (hi : Inserted part header header') (hne : header ≠ [])
    (matching : ParameterMatching) :
    ranges header' = ranges header ∧
    ((∃ e, Walk.start header ⟨true, matching⟩ = .error e ∧
        Walk.start header' ⟨true, matching⟩ = .error e) ∨
      ∃ w w', Walk.start header ⟨true, matching⟩ = .ok w ∧
        Walk.start header' ⟨true, matching⟩ = .ok w' ∧ w.Alike w') ∧
    ∀ (α : Type) (n : Negotiator α),
      ((n.withLiteral true).withMatching matching).negotiate header' =
          ((n.withLiteral true).withMatching matching).negotiate header ∧
        ((n.withLiteral true).withMatching matching).place header' =
          ((n.withLiteral true).withMatching matching).place header := by
  have hopen : ∀ s : Text, s ≠ [] → ¬ AcceptsAnything true s := by
    rintro s hs (hnil | ⟨hfalse, -⟩)
    · exact hs hnil
    · cases hfalse
  have hreadings := hi.readings_eq hs
  refine ⟨?_, Walk.start_alike (hopen _ hne) (hopen _ hi.ne_nil) hreadings, fun α n => ⟨?_, ?_⟩⟩
  · rw [ranges_eq_readings, ranges_eq_readings, hreadings]
  · exact Negotiator.negotiate_eq_of_readings (hopen _ hne) (hopen _ hi.ne_nil) hreadings
  · exact Negotiator.negotiate_eq_of_readings (hopen _ hne) (hopen _ hi.ne_nil) hreadings

/-- A range of top quality that ended the header no longer does, and is produced first as before. -/
theorem Header.inserted_transparent_last :
    ∃ w w', Walk.start "a/b;q=.5,c/d".toList ⟨true, .exact⟩ = .ok w ∧
      Walk.start "a/b;q=.5,c/d, x;Q=0;/".toList ⟨true, .exact⟩ = .ok w' ∧ w.Alike w' ∧
      w.all.1.map (·.type) = [['c'], ['a']] := by
  have hs : MediaRange.Skipped " x;Q=0;/".toList :=
    ⟨by decide, by decide, by decide +kernel⟩
  have hi : Inserted " x;Q=0;/".toList "a/b;q=.5,c/d".toList
      ("a/b;q=.5,c/d".toList ++ ',' :: " x;Q=0;/".toList) := .last _
  have htypes : (Walk.start "a/b;q=.5,c/d".toList ⟨true, .exact⟩).map
      (fun w => w.all.1.map (·.type)) = .ok [['c'], ['a']] := by decide +kernel
  obtain ⟨-, hwalk, -⟩ := Header.inserted_transparent hs hi (List.cons_ne_nil _ _) .exact
  rcases hwalk with ⟨e, he, -⟩ | ⟨w, w', hw, hw', halike⟩
  · rw [he] at htypes
    cases htypes
  · rw [hw] at htypes
    exact ⟨w, w', hw, hw', halike, Except.ok.inj htypes⟩

end ContentNegotiation
