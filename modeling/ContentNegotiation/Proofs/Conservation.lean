import ContentNegotiation.Proofs.CanonicalText
import ContentNegotiation.Proofs.WalkRun

/-!
What a walk holds while the header is still being read.

The part of the header that has been read consists of whole pieces without a fault. Their ranges of
top quality have been shown and those of lower quality that fit are kept, so nothing of that part is
lost. This is said of two places in a header, an earlier and a later one, so that what one move
conserves composes to what a whole run does. A move that fails stops at a later place, too.
-/

namespace ContentNegotiation

open Text Header

/-! ### Keeping ranges in order -/

/-- **Insertion keeps the order**: a range is put behind all that are not of lower quality, and in
front of all that are. -/
theorem insertByQuality_eq_append (r : MediaRange) {kept : List MediaRange}
    (h : Descends MediaRange.quality kept) : ∃ upper lower, kept = upper ++ lower ∧
      insertByQuality r kept = upper ++ r :: lower ∧
      (∀ s ∈ upper, r.quality ≤ s.quality) ∧ ∀ s ∈ lower, s.quality < r.quality := by
  induction kept with
  | nil => exact ⟨[], [], rfl, rfl, by simp, by simp⟩
  | cons t kept ih =>
    rw [insertByQuality]
    split
    · next hlt =>
      refine ⟨[], t :: kept, rfl, rfl, by simp, fun s hs => ?_⟩
      have hle := key_le_head h hs
      rw [Quality.lt_iff] at hlt ⊢
      rw [Quality.le_iff] at hle
      omega
    · next hnlt =>
      obtain ⟨upper, lower, rfl, hinsert, hupper, hlower⟩ := ih (List.Pairwise.of_cons h)
      refine ⟨t :: upper, lower, rfl, by rw [hinsert, List.cons_append], ?_, hlower⟩
      exact List.forall_mem_cons.mpr ⟨Quality.not_lt.mp hnlt, hupper⟩

/-! ### Qualities that are held -/

namespace Quality

/-- The text states the quality: up to blank ends it is a decimal numeral that rounds to it, and
not beyond the finite numbers. -/
def StatedAs (value : Text) (q : Quality) : Prop :=
  ∃ magnitude : Decimal, Numeral.read? (trim value) = some (.finite q.negative magnitude) ∧
    magnitude.nearest = q.code ∧ magnitude.nearest < infinityCode

lemma ofDecimal?_eq_some {negative : Bool} {magnitude : Decimal} {q : Quality}
    (h : ofDecimal? negative magnitude = some q) :
    negative = q.negative ∧ magnitude.nearest = q.code ∧ magnitude.nearest < infinityCode := by
  unfold ofDecimal? at h
  generalize magnitude.nearest = code at h ⊢
  split at h
  · next hfinite =>
    cases h
    exact ⟨rfl, rfl, hfinite⟩
  · cases h

lemma read_eq_ok_iff_statedAs {value : Text} {q : Quality} :
    Quality.read value = .ok q ↔ StatedAs value q := by
  rw [read_eq_ok]
  constructor
  · rintro ⟨numeral, hread, hq⟩
    rcases numeral with ⟨negative, magnitude⟩ | _
    · obtain ⟨rfl, hcode, hfinite⟩ := ofDecimal?_eq_some hq
      exact ⟨magnitude, hread, hcode, hfinite⟩
    · cases hq
  · rintro ⟨magnitude, hread, hcode, -⟩
    exact ⟨_, hread, ofDecimal?_eq hcode⟩

end Quality

namespace MediaRange

/-- The quality is one that a span of the piece states, or the one of pieces that state none. -/
def HasFinite (piece : Text) (q : Quality) : Prop :=
  (∃ span ∈ (split ';' piece).2, ∃ value, StatesQuality span value ∧ Quality.StatedAs value q) ∨
    q = .one

lemma hasFinite_of_ofPiece? {piece : Text} {r : MediaRange} (h : ofPiece? piece = some r) :
    HasFinite piece r.quality := by
  have hread : ofPiece piece = .ok (some r) := by
    unfold ofPiece? at h
    split at h
    · next heq => rw [heq, h]
    · cases h
  rcases ofPiece_eq_iff.mp hread with _ | _ | ⟨-, -, -, -, hquality⟩
  rcases hquality with ⟨hspans, hstates, hvalue, -⟩ | ⟨-, hone⟩
  · refine Or.inl ⟨_, ?_, _, hstates, Quality.read_eq_ok_iff_statedAs.mp hvalue⟩
    rw [hspans]
    exact List.mem_append_right _ List.mem_cons_self
  · exact Or.inr hone

end MediaRange

/-! ### From one place of a header to a later one -/

namespace Header

lemma eq_firstPiece_append {header : Text} (h : afterPiece header ≠ []) :
    header = firstPiece header ++ ',' :: afterPiece header := by
  induction header with
  | nil => exact absurd afterPiece_nil h
  | cons c s ih =>
    by_cases hc : c = ','
    · subst hc
      rw [firstPiece_comma, afterPiece_comma, List.nil_append]
    · rw [afterPiece_cons hc] at h
      rw [firstPiece_cons hc, afterPiece_cons hc, List.cons_append, ← ih h]

lemma pieces_flatMap {read : List Text} (h : ∀ p ∈ read, ',' ∉ p) (rest : Text) :
    pieces (read.flatMap (· ++ [',']) ++ rest) = read ++ pieces rest := by
  induction read with
  | nil => rfl
  | cons p read ih =>
    rw [List.forall_mem_cons] at h
    have hheader : (p :: read).flatMap (· ++ [',']) ++ rest =
        p ++ ',' :: (read.flatMap (· ++ [',']) ++ rest) := by
      rw [List.flatMap_cons, List.append_assoc, List.append_assoc, List.singleton_append]
    have hne : p ++ ',' :: (read.flatMap (· ++ [',']) ++ rest) ≠ [] := by simp
    rw [hheader, pieces_cons hne, firstPiece_append h.1, afterPiece_append h.1, ih h.2,
      List.cons_append]

lemma tops_append (ps qs : List Text) : tops (ps ++ qs) = tops ps ++ tops qs := by
  unfold tops
  rw [List.filterMap_append, List.filter_append]

lemma lows_append (ps qs : List Text) : lows (ps ++ qs) = lows ps ++ lows qs := by
  unfold lows
  rw [List.filterMap_append, List.filter_append]

end Header

/-- The pieces `read`, each with its comma, lie between an earlier place of a header and a later
one, which is not the end. None of them has a fault. Their ranges of top quality are `shown`, and
those of lower quality that fit are kept, too, at the later place. -/
structure Passes (fits : MediaRange → Bool) (read : List Text) (shown : List MediaRange)
    (rest rest' : Text) (kept kept' : List MediaRange) : Prop where
  text : rest = read.flatMap (· ++ [',']) ++ rest'
  more : rest' ≠ []
  commaFree : ∀ p ∈ read, ',' ∉ p
  wellFormed : ∀ p ∈ read, MediaRange.WellFormed p
  shown_eq : shown = tops read
  kept_eq : kept' = ((lows read).filter fits).foldl (fun kept r => insertByQuality r kept) kept

namespace Passes

variable {fits : MediaRange → Bool} {read read' : List Text} {shown shown' : List MediaRange}
  {rest rest' rest'' : Text} {kept kept' kept'' : List MediaRange}

lemma nil (h : rest ≠ []) : Passes fits [] [] rest rest kept kept :=
  ⟨rfl, h, by simp, by simp, rfl, rfl⟩

lemma trans (h : Passes fits read shown rest rest' kept kept')
    (h' : Passes fits read' shown' rest' rest'' kept' kept'') :
    Passes fits (read ++ read') (shown ++ shown') rest rest'' kept kept'' where
  text := by rw [h.text, h'.text, List.flatMap_append, List.append_assoc]
  more := h'.more
  commaFree := List.forall_mem_append.mpr ⟨h.commaFree, h'.commaFree⟩
  wellFormed := List.forall_mem_append.mpr ⟨h.wellFormed, h'.wellFormed⟩
  shown_eq := by rw [h.shown_eq, h'.shown_eq, tops_append]
  kept_eq := by rw [h'.kept_eq, h.kept_eq, lows_append, List.filter_append, List.foldl_append]

lemma ne_nil (h : Passes fits read shown rest rest' kept kept') : rest ≠ [] := by
  rw [h.text]
  exact List.append_ne_nil_of_right_ne_nil _ h.more

lemma of_read {r? : Option MediaRange} (h : MediaRange.read rest = .ok (r?, rest'))
    (hmore : rest' ≠ [])
    (hshown : shown = r?.toList.filter fun r => Quality.one ≤ r.quality)
    (hkept : kept' = ((r?.toList.filter fun r => r.quality < Quality.one).filter fits).foldl
      (fun kept r => insertByQuality r kept) kept) :
    Passes fits [firstPiece rest] shown rest rest' kept kept' := by
  obtain ⟨hpiece, rfl⟩ := MediaRange.read_eq_ok.mp h
  have hw := MediaRange.wellFormed_of_ofPiece hpiece
  have hvalid : [firstPiece rest].filterMap MediaRange.ofPiece? = r?.toList := by
    have hrange : MediaRange.ofPiece? (firstPiece rest) = r? := by rw [MediaRange.ofPiece?, hpiece]
    rw [← hrange]
    cases h : MediaRange.ofPiece? (firstPiece rest) <;> simp [h]
  refine ⟨?_, hmore, ?_, ?_, ?_, ?_⟩
  · rw [List.flatMap_singleton, List.append_assoc, List.singleton_append]
    exact eq_firstPiece_append hmore
  · simpa using MediaRange.comma_not_mem_firstPiece rest
  · simpa using hw
  · rw [tops, hvalid, hshown]
  · rw [lows, hvalid, hkept]

end Passes

/-! ### Moves -/

/-- The range that reading on has found to show. -/
def Reading.shown : Reading → List MediaRange
  | .top r _ _ => [r]
  | .ended _ => []
  | .failed _ _ _ => []

/-- **Reading on conserves the ranges**, unless it comes to the end. The pieces passed are those up
to the range found or in front of the error. -/
theorem passes_readOn {fits : MediaRange → Bool} {rest rest' : Text} {kept kept' : List MediaRange}
    (h : (readOn fits rest kept).stage = .reading rest' kept') :
    ∃ read, Passes fits read (readOn fits rest kept).shown rest rest' kept kept' := by
  fun_induction readOn fits rest kept with
  | case1 kept => cases h
  | case2 rest kept hne e hread =>
    cases h
    exact ⟨[], .nil hne⟩
  | case3 rest kept hne rest₁ hread ih =>
    obtain ⟨read, hpasses⟩ := ih h
    exact ⟨_, (Passes.of_read hread hpasses.ne_nil rfl rfl).trans hpasses⟩
  | case4 rest kept hne r rest₁ hread htop =>
    cases h
    have hlow : ¬ r.quality < Quality.one := Quality.not_lt.mpr htop.1
    refine ⟨_, .of_read hread htop.2 ?_ ?_⟩
    · simp [Reading.shown, htop.1]
    · simp [hlow]
  | case5 rest kept hne r rest₁ hread hlow ih =>
    rw [dite_eq_ite] at ih
    obtain ⟨read, hpasses⟩ := ih h
    -- text follows this range, so it is kept for its quality and not for being the last one
    have hlt : r.quality < Quality.one :=
      Quality.not_le.mp fun hle => hlow ⟨hle, hpasses.ne_nil⟩
    have hshown : [] = (some r).toList.filter fun r => Quality.one ≤ r.quality := by
      simpa using hlt
    refine ⟨_, (Passes.of_read hread hpasses.ne_nil hshown ?_).trans hpasses⟩
    cases hf : fits r <;> simp [hlt, hf]

namespace Walk

variable {w w' : Walk} {answer : Except Error Bool} {rest' : Text} {kept' : List MediaRange}

lemma stage_replay (w : Walk) (pending : List MediaRange) :
    (w.replay pending).2.stage ≠ .reading rest' kept' := by
  cases pending <;> simp [replay]

/-- **One move conserves the ranges**, if the walk has not come to the end of the header by it. -/
theorem passes_advance (h : w.advance = (answer, w')) (hs : w'.stage = .reading rest' kept') :
    w'.matching = w.matching ∧ w'.filters = w.filters ∧ answer ≠ .ok false ∧
      ∃ rest kept read, w.stage = .reading rest kept ∧
        Passes (·.coversAll w.matching w.filters) read
          (if answer = .ok true then w'.current.toList else []) rest rest' kept kept' := by
  rw [advance] at h
  rcases hw : w.stage with ⟨rest, kept⟩ | pending
  · have hread := @passes_readOn (·.coversAll w.matching w.filters) rest rest' kept kept'
    rw [hw] at h
    simp only at h
    rcases hr : readOn (·.coversAll w.matching w.filters) rest kept with
      ⟨r, rest₁, kept₁⟩ | kept₁ | ⟨e, rest₁, kept₁⟩
    all_goals
      rw [hr] at h hread
      simp only at h
    · -- a range of top quality
      obtain ⟨rfl, rfl⟩ := Prod.mk.inj h
      obtain ⟨read, hpasses⟩ := hread hs
      refine ⟨rfl, rfl, by simp, rest, kept, read, rfl, ?_⟩
      rw [if_pos rfl]
      exact hpasses
    · -- the header has ended
      exact absurd hs (by rw [← (Prod.mk.inj h).2]; exact stage_replay w kept₁)
    · -- an error
      obtain ⟨rfl, rfl⟩ := Prod.mk.inj h
      obtain ⟨read, hpasses⟩ := hread hs
      refine ⟨rfl, rfl, by simp, rest, kept, read, rfl, ?_⟩
      rw [if_neg (by simp)]
      exact hpasses
  · rw [hw] at h
    exact absurd hs (by rw [← (Prod.mk.inj h).2]; exact stage_replay w pending)

lemma shown_succ (h : w.advance = (answer, w')) (n : ℕ) :
    w.shown (n + 1) = (if answer = .ok true then w'.current.toList else []) ++ w'.shown n := by
  rw [shown, h]
  rcases answer with e | _ | _ <;> rfl

theorem passes_after (hopen : ∀ kept, w.stage ≠ .reading [] kept) {n : ℕ}
    (hs : (w.after n).stage = .reading rest' kept') :
    ∃ rest kept read, w.stage = .reading rest kept ∧
      Passes (·.coversAll w.matching w.filters) read (w.shown n) rest rest' kept kept' := by
  induction n generalizing w with
  | zero => exact ⟨rest', kept', [], hs, .nil fun hnil => hopen kept' (by rw [← hnil]; exact hs)⟩
  | succ n ih =>
    rcases hadv : w.advance with ⟨answer, w'⟩
    rw [after, hadv] at hs
    have hopen' : ∀ kept, w'.stage ≠ .reading [] kept := by
      intro kept hstage
      obtain ⟨-, -, -, _, _, _, -, hpasses⟩ := passes_advance hadv hstage
      exact hpasses.more rfl
    obtain ⟨rest₁, kept₁, read', hstage, hlater⟩ := ih hopen' hs
    obtain ⟨hmatching, hfilters, -, rest, kept, read, hw, hmove⟩ := passes_advance hadv hstage
    rw [hmatching, hfilters] at hlater
    rw [shown_succ hadv]
    exact ⟨rest, kept, read ++ read', hw, hmove.trans hlater⟩

lemma current_after (w : Walk) (n : ℕ) :
    (w.after n).current = (w.shown n).getLast?.or w.current := by
  induction n generalizing w with
  | zero => rfl
  | succ n ih =>
    rcases hadv : w.advance with ⟨answer, w'⟩
    rw [after, hadv, ih, shown_succ hadv, List.getLast?_append, Option.or_assoc]
    congr 1
    obtain ⟨hanswer, hcurrent, -⟩ := route_of_advance hadv
    by_cases htrue : answer = .ok true
    · rw [htrue] at hanswer
      have hne := (Route.answer_eq_ok.mp hanswer).1
      rw [if_pos htrue, hcurrent]
      rcases hr : w.route.ranges with _ | ⟨r, rs⟩
      · simp [hr] at hne
      · simp
    · have hidle := (advance_idle (w := w) (by rw [hadv]; exact htrue)).1
      rw [hadv] at hidle
      rw [if_neg htrue, List.getLast?_nil, Option.none_or]
      exact hidle

variable {header : Text} {options : Options} {filters : List ContentType}

lemma stage_before {rest : Text} {kept : List MediaRange}
    (h : (before header options filters).stage = .reading rest kept) :
    rest = header ∧ kept = [] := by
  unfold before at h
  cases hopen : options.acceptsAnything header with
  | true =>
    rw [hopen] at h
    cases h
  | false =>
    rw [hopen] at h
    cases h
    exact ⟨rfl, rfl⟩

lemma passes_start (hw : start header options filters = .ok w) {n : ℕ}
    (hs : (w.after n).stage = .reading rest' kept') :
    ∃ read, Passes (·.coversAll options.matching filters) read (w.current.toList ++ w.shown n)
      header rest' [] kept' := by
  rw [start] at hw
  split at hw
  · next found w₀ hadv =>
    cases hw
    set w : Walk := { w₀ with hasRange := found }
    have hopen : ∀ kept, w.stage ≠ .reading [] kept := by
      intro kept hstage
      obtain ⟨-, -, -, _, _, _, -, hpasses⟩ := passes_advance hadv hstage
      exact hpasses.more rfl
    obtain ⟨rest₁, kept₁, read', hstage, hlater⟩ := passes_after hopen hs
    obtain ⟨hmatching, hfilters, hfound, rest, kept, read, hbefore, hmove⟩ :=
      passes_advance hadv hstage
    obtain ⟨rfl, rfl⟩ := stage_before hbefore
    have htrue : (.ok found : Except Error Bool) = .ok true := by
      rcases found with _ | _
      · exact absurd rfl hfound
      · rfl
    rw [if_pos htrue] at hmove
    rw [hmatching, hfilters] at hlater
    exact ⟨read ++ read', hmove.trans hlater⟩
  · cases hw

/-- **While a header is being read nothing of it is lost.** Where a walk stands in front of an
unread part of the header, after moves that may have failed, that part begins with a piece, and the
pieces before it have no fault. The ranges kept are their ranges of lower quality that cover the
filters, in descending quality; the ranges shown are their ranges of top quality, in the order
written, the latest one last. All of them have finite qualities. Insertion into ranges in descending
order comes behind all that are not of lower quality, and keeps the order. -/
theorem start_conserves (header : Text) (options : Options) (filters : List ContentType) :
    (∀ w, start header options filters = .ok w → ∀ n rest kept,
      (w.after n).stage = .reading rest kept → ∃ read,
        (header = read.flatMap (· ++ [',']) ++ rest ∧ rest ≠ [] ∧
          pieces header = read ++ pieces rest) ∧
        (∀ piece ∈ read, MediaRange.WellFormed piece) ∧
        kept = descending MediaRange.quality
          ((lows read).filter (·.coversAll options.matching filters)) ∧
        w.current.toList ++ w.shown n = tops read ∧
        (w.after n).current = (tops read).getLast? ∧
        ∀ r, r ∈ kept ∨ r ∈ w.current.toList ++ w.shown n → ∃ piece ∈ read,
          MediaRange.ofPiece? piece = some r ∧ MediaRange.HasFinite piece r.quality) ∧
    ∀ r kept, Descends MediaRange.quality kept → ∃ upper lower, kept = upper ++ lower ∧
      insertByQuality r kept = upper ++ r :: lower ∧ (∀ s ∈ upper, r.quality ≤ s.quality) ∧
      (∀ s ∈ lower, s.quality < r.quality) ∧
      Descends MediaRange.quality (insertByQuality r kept) := by
  refine ⟨fun w hw n rest kept hs => ?_, fun r kept h => ?_⟩
  · obtain ⟨read, hpasses⟩ := passes_start hw hs
    have hkept : kept = descending MediaRange.quality
        ((lows read).filter (·.coversAll options.matching filters)) := by
      rw [hpasses.kept_eq, foldl_insertByQuality _ List.Pairwise.nil, List.nil_append]
    refine ⟨read, ⟨hpasses.text, hpasses.more, ?_⟩, hpasses.wellFormed, hkept, hpasses.shown_eq,
      ?_, fun r hr => ?_⟩
    · rw [hpasses.text]
      exact pieces_flatMap hpasses.commaFree rest
    · have hfirst : w.current.toList.getLast? = w.current := by cases w.current <;> rfl
      rw [← hpasses.shown_eq, current_after, List.getLast?_append, hfirst]
    · have hvalid : r ∈ read.filterMap MediaRange.ofPiece? := by
        rcases hr with hr | hr
        · rw [hkept, (perm_descending _).mem_iff] at hr
          exact (List.mem_filter.mp (List.mem_filter.mp hr).1).1
        · rw [hpasses.shown_eq] at hr
          exact (List.mem_filter.mp hr).1
      obtain ⟨piece, hpiece, hrange⟩ := List.mem_filterMap.mp hvalid
      exact ⟨piece, hpiece, hrange, MediaRange.hasFinite_of_ofPiece? hrange⟩
  · obtain ⟨upper, lower, hsplit, hinsert, hupper, hlower⟩ := insertByQuality_eq_append r h
    exact ⟨upper, lower, hsplit, hinsert, hupper, hlower, descends_insertByQuality r h⟩

/-- Two moves fail at the sixth piece. One range has been shown by then, and three of the other four
are kept. -/
theorem start_conserves_failed :
    ∃ w rest kept, start "a/b;q=.5,c/d,*/*;q=.7,g/h;q=.6,a/*;q=.5,i/j;q=x,k/l".toList
        { literal := true } [⟨['a'], ['b'], []⟩] = .ok w ∧
      (w.after 2).stage = .reading rest kept ∧
      (w.current.toList ++ w.shown 2).map (·.type) = [['c']] ∧
      kept.map (fun r => (r.type, r.subtype)) =
        [(['*'], ['*']), (['a'], ['b']), (['a'], ['*'])] := by
  have hview : (start "a/b;q=.5,c/d,*/*;q=.7,g/h;q=.6,a/*;q=.5,i/j;q=x,k/l".toList
      { literal := true } [⟨['a'], ['b'], []⟩]).map (fun w => (w.after 2).stage.unread) =
        .ok "i/j;q=x,k/l".toList := by decide +kernel
  rcases hw : start "a/b;q=.5,c/d,*/*;q=.7,g/h;q=.6,a/*;q=.5,i/j;q=x,k/l".toList
      { literal := true } [⟨['a'], ['b'], []⟩] with e | w
  · rw [hw] at hview
    cases hview
  rw [hw, Except.map, Except.ok.injEq] at hview
  rcases hs : (w.after 2).stage with ⟨rest, kept⟩ | pending
  · rw [hs] at hview
    obtain rfl : rest = "i/j;q=x,k/l".toList := hview
    obtain ⟨read, ⟨-, -, hpieces⟩, -, hkept, hshown, -⟩ :=
      (start_conserves _ _ _).1 w hw 2 _ _ hs
    have hread : read = ["a/b;q=.5".toList, "c/d".toList, "*/*;q=.7".toList, "g/h;q=.6".toList,
        "a/*;q=.5".toList] := by
      refine List.append_cancel_right (hpieces.symm.trans ?_)
      decide +kernel
    refine ⟨w, _, kept, rfl, hs, ?_, ?_⟩
    · rw [hshown, hread]
      decide +kernel
    · rw [hkept, ← List.nil_append (List.filter _ _), ← foldl_insertByQuality _ List.Pairwise.nil,
        hread]
      decide +kernel
  · -- nothing is unread once the header has ended
    rw [hs] at hview
    cases hview

end Walk

end ContentNegotiation
