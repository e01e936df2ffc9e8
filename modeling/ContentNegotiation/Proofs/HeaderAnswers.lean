import ContentNegotiation.Proofs.Faults
import ContentNegotiation.Proofs.QualitySpan

/-!
Reading a header call by call.

Each call of the reader answers for the piece in front of it, and leaves the header behind the
comma of that piece; a call that fails leaves all of it. The answer is told from the spans of the
piece. The calls up to the end of the header, or to the first that fails, answer for its pieces
one by one, and the lists and walks made from a header are made of these answers.
-/

namespace ContentNegotiation

open Text

namespace MediaRange

/-! ### What a piece is read as -/

/-- What the span states is a finite number, if it states a quality. -/
def ReadableSpan (span : Text) : Prop := ∀ value, StatesQuality span value → Quality.Readable value

/-- The quality is the one that the last of the spans with a quality states, and one if there is
none. -/
inductive LastQuality (spans : List Text) (q : Quality) : Prop where
  | stated {earlier later : List Text} {span value : Text}
      (spans : spans = earlier ++ span :: later)
      (states : StatesQuality span value)
      (reads : Quality.read value = .ok q)
      (last : ∀ s ∈ later, ∀ v, ¬ StatesQuality s v)
  | unstated (none : ∀ s ∈ spans, ∀ v, ¬ StatesQuality s v) (one : q = .one)

/-- What the reader is to answer for a piece, told from its spans. -/
inductive ReadsAs (piece : Text) : Except Error (Option MediaRange) → Prop where
  -- with or without a slash
  | fault {good others : List Text} {span value : Text} {e : Error}
      (spans : (split ';' piece).2 = good ++ span :: others)
      (readable : ∀ s ∈ good, ReadableSpan s)
      (states : StatesQuality span value)
      (bad : Quality.read value = .error e) : ReadsAs piece (.error e)
  | skipped
      (readable : ∀ s ∈ (split ';' piece).2, ReadableSpan s)
      (slash : '/' ∉ (split ';' piece).1) : ReadsAs piece (.ok none)
  | range {r : MediaRange}
      (readable : ∀ s ∈ (split ';' piece).2, ReadableSpan s)
      (name : (split ';' piece).1 = r.type ++ '/' :: r.subtype)
      (slash : '/' ∉ r.type)
      (parameters : r.parameters = (split ';' piece).2.filter isParameter)
      (quality : LastQuality (split ';' piece).2 r.quality) : ReadsAs piece (.ok (some r))

variable {piece span : Text} {spans : List Text} {e : Error}

lemma isParameter_iff :
    isParameter span = true ↔ (∀ v, ¬ StatesQuality span v) ∧ allBlank span = false := by
  rw [← qualityText?_eq_none, isParameter, Bool.and_eq_true, Option.isNone_iff_eq_none,
    Bool.not_eq_true']

lemma filterMap_qualityText?_eq_nil :
    spans.filterMap qualityText? = [] ↔ ∀ s ∈ spans, ∀ v, ¬ StatesQuality s v := by
  simp only [List.filterMap_eq_nil_iff, qualityText?_eq_none]

lemma forall_readable_iff : (∀ s ∈ spans.filterMap qualityText?, Quality.Readable s) ↔
    ∀ s ∈ spans, ReadableSpan s := by
  simp only [List.mem_filterMap, qualityText?_eq_some, ReadableSpan]
  exact ⟨fun h s hs v hv => h v ⟨s, hs, hv⟩, fun h v ⟨s, hs, hv⟩ => h s hs v hv⟩

lemma fault_iff : Fault piece e ↔ ∃ good span value others,
    (split ';' piece).2 = good ++ span :: others ∧ (∀ s ∈ good, ReadableSpan s) ∧
      StatesQuality span value ∧ Quality.read value = .error e := by
  unfold Fault qualityTexts
  constructor
  · rintro ⟨goods, value, rest, heq, hgoods, hbad⟩
    obtain ⟨l, m, hlm, rfl, hm⟩ := List.filterMap_eq_append_iff.mp heq
    obtain ⟨silent, span, others, rfl, hsilent, hspan, -⟩ := List.filterMap_eq_cons_iff.mp hm
    refine ⟨l ++ silent, span, value, others, ?_, ?_, qualityText?_eq_some.mp hspan, hbad⟩
    · rw [hlm, List.append_assoc]
    · rw [forall_readable_iff] at hgoods
      intro s hs
      rcases List.mem_append.mp hs with hs | hs
      · exact hgoods s hs
      · intro v hv
        exact absurd hv (qualityText?_eq_none.mp (hsilent s hs) v)
  · rintro ⟨good, span, value, others, heq, hgood, hspan, hbad⟩
    refine ⟨good.filterMap qualityText?, value, others.filterMap qualityText?, ?_,
      forall_readable_iff.mpr hgood, hbad⟩
    rw [heq, List.filterMap_append,
      List.filterMap_cons_some (qualityText?_eq_some.mpr hspan)]

lemma wellFormed_iff : WellFormed piece ↔ ∀ s ∈ (split ';' piece).2, ReadableSpan s :=
  forall_readable_iff

lemma lastQuality_iff {qs : List Quality} {q : Quality}
    (h : (spans.filterMap qualityText?).mapM Quality.read = .ok qs) :
    LastQuality spans q ↔ qs.getLast?.getD .one = q := by
  rw [mapM_eq_ok_iff] at h
  constructor
  · rintro (⟨rfl, hspan, hread, hlater⟩ | ⟨hnone, rfl⟩)
    · rw [← filterMap_qualityText?_eq_nil] at hlater
      rw [List.filterMap_append, List.filterMap_cons_some (qualityText?_eq_some.mpr hspan),
        hlater] at h
      have hlast := congrArg List.getLast? h
      simp only [List.map_append, List.map_cons, List.map_nil, List.getLast?_concat,
        List.getLast?_map, hread] at hlast
      obtain ⟨q', hq', heq⟩ := Option.map_eq_some_iff.mp hlast.symm
      cases heq
      rw [hq', Option.getD_some]
    · rw [filterMap_qualityText?_eq_nil.mpr hnone, List.map_nil, eq_comm, List.map_eq_nil_iff] at h
      rw [h]
      rfl
  · rintro rfl
    rcases (spans.filterMap qualityText?).eq_nil_or_concat with hnil | ⟨values, value, hvalues⟩
    · rw [hnil, List.map_nil, eq_comm, List.map_eq_nil_iff] at h
      rw [h]
      exact .unstated (filterMap_qualityText?_eq_nil.mp hnil) rfl
    · rw [List.concat_eq_append] at hvalues
      obtain ⟨l, m, rfl, -, hm⟩ := List.filterMap_eq_append_iff.mp hvalues
      obtain ⟨silent, span, later, rfl, -, hspan, hlater⟩ := List.filterMap_eq_cons_iff.mp hm
      have hlast := congrArg List.getLast? h
      simp only [hvalues, List.map_append, List.map_cons, List.map_nil, List.getLast?_concat,
        List.getLast?_map] at hlast
      obtain ⟨q, hq, hread⟩ := Option.map_eq_some_iff.mp hlast.symm
      rw [hq, Option.getD_some]
      exact .stated (List.append_assoc l silent _).symm (qualityText?_eq_some.mp hspan)
        hread.symm (filterMap_qualityText?_eq_nil.mp hlater)

/-- **What a piece is read as is told from its spans.** -/
theorem ofPiece_eq_iff {answer : Except Error (Option MediaRange)} :
    ofPiece piece = answer ↔ ReadsAs piece answer := by
  rcases answer with e | r?
  · rw [ofPiece_eq_error, fault_iff]
    constructor
    · rintro ⟨good, span, value, others, heq, hgood, hspan, hbad⟩
      exact .fault heq hgood hspan hbad
    · rintro ⟨heq, hgood, hspan, hbad⟩
      exact ⟨_, _, _, _, heq, hgood, hspan, hbad⟩
  · by_cases hw : WellFormed piece
    · obtain ⟨qs, hqs⟩ := exists_mapM_ok.mpr hw
      have hread : ofPiece piece = .ok (rangeOf? piece qs) := by
        rw [ofPiece_eq, hqs]
        rfl
      rw [hread, Except.ok.injEq, rangeOf?]
      have hw' := wellFormed_iff.mp hw
      rcases r? with _ | r
      · rw [Option.map_eq_none_iff, cut_eq_none]
        exact ⟨fun h => .skipped hw' h, fun h => by cases h; assumption⟩
      · rw [Option.map_eq_some_iff]
        constructor
        · rintro ⟨⟨type, subtype⟩, hcut, rfl⟩
          obtain ⟨hname, hslash⟩ := cut_eq_some.mp hcut
          exact .range hw' hname hslash rfl ((lastQuality_iff hqs).mpr rfl)
        · rintro (_ | _ | ⟨-, hname, hslash, hparameters, hquality⟩)
          refine ⟨(r.type, r.subtype), cut_eq_some.mpr ⟨hname, hslash⟩, ?_⟩
          rw [← hparameters, (lastQuality_iff hqs).mp hquality]
    · -- a piece with a fault has neither a range nor is it skipped
      constructor
      · intro h
        exact absurd (wellFormed_of_ofPiece h) hw
      · rintro (_ | ⟨hw', -⟩ | ⟨hw', -⟩)
        · exact absurd (wellFormed_iff.mpr hw') hw
        · exact absurd (wellFormed_iff.mpr hw') hw

end MediaRange

open MediaRange

/-! ### Calls -/

namespace Header

/-- One call of the reader on what is left of a header: the answer, and what is left after the
call. A call that fails does not move. -/
def next (rest : Text) : Except Error (Option MediaRange) × Text :=
  match MediaRange.read rest with
  | .ok (r, rest') => (.ok r, rest')
  | .error e => (.error e, rest)

variable {header rest rest' : Text} {before : List Text} {r : Option MediaRange} {e : Error}

lemma read_of_next (h : next rest = (.ok r, rest')) : MediaRange.read rest = .ok (r, rest') := by
  unfold next at h
  split at h
  · next heq =>
    cases h
    exact heq
  · cases h

/-- The answers of the calls up to the end of the header or to the first that fails, and what is
left of the header there. -/
def answers (rest : Text) : List (Except Error (Option MediaRange)) × Text :=
  if _ : rest = [] then ([], [])
  else
    match _ : next rest with
    | (.error e, rest') => ([.error e], rest')
    | (.ok r, rest') => (.ok r :: (answers rest').1, (answers rest').2)
termination_by rest.length
decreasing_by all_goals exact MediaRange.length_lt_of_read (read_of_next ‹_›) ‹_›

lemma next_eq (rest : Text) : next rest = (ofPiece (firstPiece rest),
    if (ofPiece (firstPiece rest)).isOk then afterPiece rest else rest) := by
  unfold next
  rw [read_eq]
  cases ofPiece (firstPiece rest) <;> rfl

lemma answers_nil : answers [] = ([], []) := by
  rw [answers]
  rfl

lemma answers_ok (hne : rest ≠ []) (h : ofPiece (firstPiece rest) = .ok r) :
    answers rest =
      (.ok r :: (answers (afterPiece rest)).1, (answers (afterPiece rest)).2) := by
  have hnext := next_eq rest
  rw [h] at hnext
  rw [answers, dif_neg hne]
  split
  · next heq => cases hnext.symm.trans heq
  · next heq =>
    cases hnext.symm.trans heq
    rfl

lemma answers_error (hne : rest ≠ []) (h : ofPiece (firstPiece rest) = .error e) :
    answers rest = ([.error e], rest) := by
  have hnext := next_eq rest
  rw [h] at hnext
  rw [answers, dif_neg hne]
  split
  · next heq =>
    cases hnext.symm.trans heq
    rfl
  · next heq => cases hnext.symm.trans heq

/-! ### Whole headers -/

lemma afterPiece_suffix (rest : Text) : afterPiece rest <:+ rest :=
  (List.tail_suffix _).trans (List.dropWhile_suffix _)

lemma answers_wellFormed (h : WellFormed header) :
    answers header = ((pieces header).map ofPiece, []) := by
  fun_induction answers header with
  | case1 => rw [pieces_nil, List.map_nil]
  | case2 header hne e rest heq =>
    rw [WellFormed, pieces_cons hne, List.forall_mem_cons] at h
    rw [next_eq, h.1.ofPiece_eq] at heq
    cases heq
  | case3 header hne r rest heq ih =>
    obtain ⟨hr, rfl⟩ := read_eq_ok.mp (read_of_next heq)
    rw [WellFormed, pieces_cons hne, List.forall_mem_cons] at h
    rw [ih h.2, pieces_cons hne, List.map_cons, hr]

/-- The calls stop in front of the first piece with a fault. -/
lemma answers_fault (h : FaultAfter header before e) : ∃ rest,
    answers header = (before.map ofPiece ++ [.error e], rest) ∧ rest <:+ header ∧
      pieces rest = (pieces header).drop before.length := by
  induction before generalizing header with
  | nil =>
    obtain ⟨piece, others, hp, -, hf⟩ := h
    have hne : header ≠ [] := pieces_ne_nil.mp (by rw [hp]; simp)
    rw [pieces_cons hne, List.nil_append] at hp
    obtain ⟨rfl, -⟩ := List.cons.inj hp
    exact ⟨header, answers_error hne (ofPiece_eq_error.mpr hf), List.suffix_refl _, rfl⟩
  | cons p before ih =>
    obtain ⟨piece, others, hp, hw, hf⟩ := h
    have hne : header ≠ [] := pieces_ne_nil.mp (by rw [hp]; simp)
    have hpieces := pieces_cons hne
    rw [hpieces, List.cons_append] at hp
    obtain ⟨rfl, hrest⟩ := List.cons.inj hp
    rw [List.forall_mem_cons] at hw
    obtain ⟨rest, hanswers, hsuffix, hleft⟩ := ih ⟨piece, others, hrest, hw.2, hf⟩
    refine ⟨rest, ?_, hsuffix.trans (afterPiece_suffix header), ?_⟩
    · rw [answers_ok hne hw.1.ofPiece_eq, hanswers, List.map_cons, hw.1.ofPiece_eq]
      rfl
    · rw [hleft, hpieces]
      rfl

lemma ranges_eq_answers (header : Text) :
    ranges header = ((answers header).1.mapM id).map fun rs => rs.filterMap id := by
  rw [ranges_eq, rangesOfPieces_eq]
  rcases wellFormed_or_fault header with hw | ⟨before, e, hf⟩
  · rw [answers_wellFormed hw, List.mapM_map]
    rfl
  · obtain ⟨rest, hanswers, -⟩ := answers_fault hf
    have hpieces := mapM_pieces_eq_error.mpr ⟨before, hf⟩
    have hlist : (before.map ofPiece ++ [Except.error e]).mapM id = .error e := by
      obtain ⟨-, -, -, hw, -⟩ := hf
      refine mapM_eq_error.mpr ⟨before.map ofPiece, .error e, [], rfl, fun a ha => ?_, rfl⟩
      obtain ⟨p, hp, rfl⟩ := List.mem_map.mp ha
      exact ⟨_, (hw p hp).ofPiece_eq⟩
    rw [hanswers, hpieces, hlist]

lemma readOn_failed {fits : MediaRange → Bool} {kept kept' : List MediaRange}
    (h : readOn fits rest kept = .failed e rest' kept') :
    (answers rest).1.getLast? = some (.error e) ∧ (answers rest).2 = rest' := by
  fun_induction readOn fits rest kept with
  | case1 => cases h
  | case2 rest kept hne e' hread =>
    cases h
    rw [answers_error hne (read_eq_error.mp hread)]
    exact ⟨rfl, rfl⟩
  | case3 rest kept hne rest'' hread ih =>
    obtain ⟨hr, rfl⟩ := read_eq_ok.mp hread
    obtain ⟨hlast, hrest⟩ := ih h
    rw [answers_ok hne hr, List.getLast?_cons, hlast]
    exact ⟨rfl, hrest⟩
  | case4 rest kept hne r rest'' hread ht => cases h
  | case5 rest kept hne r rest'' hread ht ih =>
    obtain ⟨hr, rfl⟩ := read_eq_ok.mp hread
    obtain ⟨hlast, hrest⟩ := ih h
    rw [answers_ok hne hr, List.getLast?_cons, hlast]
    exact ⟨rfl, hrest⟩

/-- **Reading is one answer for each piece, in order.** Without a fault the calls answer for all
pieces and end with the header; otherwise they stop in front of the first piece with a fault, and
the last of them has its error. The answer for a piece is told from its spans, and a call goes
behind the piece that it answers for unless it fails. The list of all ranges is made of these
answers, and a walk that fails stands where they stop. -/
theorem answers_eq_pieces (header : Text) :
    (WellFormed header → answers header = ((pieces header).map ofPiece, [])) ∧
    (∀ before e, FaultAfter header before e → ∃ rest,
      answers header = (before.map ofPiece ++ [.error e], rest) ∧ rest <:+ header ∧
        pieces rest = (pieces header).drop before.length) ∧
    (∀ piece answer, ofPiece piece = answer ↔ ReadsAs piece answer) ∧
    (∀ rest, ReadsAs (firstPiece rest) (next rest).1 ∧
      (next rest).2 = if (next rest).1.isOk then afterPiece rest else rest) ∧
    (∀ value e, Quality.read value = .error e ↔
      Numeral.read? (trim value) = none ∧
        e = .invalidQuality (if trim value = [] then .empty else .malformed) ∨
      ∃ n, Numeral.read? (trim value) = some n ∧ n.quality? = none ∧ e = .nonFiniteQuality) ∧
    ranges header = ((answers header).1.mapM id).map (fun rs => rs.filterMap id) ∧
    ∀ fits kept e rest kept', readOn fits header kept = .failed e rest kept' →
      (answers header).1.getLast? = some (.error e) ∧ (answers header).2 = rest := by
  refine ⟨answers_wellFormed, fun before e => answers_fault, fun piece answer => ofPiece_eq_iff,
    fun rest => ?_, fun value e => Quality.read_eq_error, ranges_eq_answers header,
    fun fits kept e rest kept' => readOn_failed⟩
  rw [next_eq]
  exact ⟨ofPiece_eq_iff.mp rfl, rfl⟩

/-- A skipped piece with a bad quality stops the calls behind a range with slashes, blank spans and
two qualities. -/
theorem answers_eq_pieces_stopped :
    ∃ rest, answers "a/b/c;q=0; ; Q= .5;x=/,g;q=x,h/i".toList =
        ([.ok (some ⟨['a'], "b/c".toList, ["x=/".toList],
            ⟨false, 0x3FE0000000000000, by decide⟩⟩),
          .error (.invalidQuality .malformed)], rest) ∧
      pieces rest = ["g;q=x".toList, "h/i".toList] := by
  have hf : FaultAfter "a/b/c;q=0; ; Q= .5;x=/,g;q=x,h/i".toList
      ["a/b/c;q=0; ; Q= .5;x=/".toList] (.invalidQuality .malformed) :=
    ⟨"g;q=x".toList, ["h/i".toList], by decide +kernel, by decide +kernel,
      [], ['x'], [], by decide +kernel, by simp, by decide +kernel⟩
  obtain ⟨rest, hanswers, -, hrest⟩ := (answers_eq_pieces _).2.1 _ _ hf
  refine ⟨rest, hanswers.trans ?_, hrest.trans (by decide +kernel)⟩
  have hread : ofPiece "a/b/c;q=0; ; Q= .5;x=/".toList =
      .ok (some ⟨['a'], "b/c".toList, ["x=/".toList],
        ⟨false, 0x3FE0000000000000, by decide⟩⟩) := by
    decide +kernel
  rw [List.map_cons, List.map_nil, hread]
  rfl

end Header

end ContentNegotiation
