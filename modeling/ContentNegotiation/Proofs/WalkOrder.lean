import ContentNegotiation.Proofs.Route
import ContentNegotiation.Proofs.StableOrder

/-!
The order in which a walk shows the ranges of a header without faults.

A range of top quality is prompt unless the last piece holds it. All other ranges are deferred.
The walk shows the prompt ranges as they stand in the header, and then the deferred ranges that
fit, in descending quality.
-/

namespace ContentNegotiation

namespace Header

/-- The header leaves the choice open. -/
def AcceptsAnything (literal : Bool) (header : Text) : Prop :=
  header = [] ∨ literal = false ∧ ['*', '/', '*'] <:+: header

/-- The valid ranges of top quality that the pieces hold. -/
def tops (ps : List Text) : List MediaRange :=
  (ps.filterMap MediaRange.ofPiece?).filter fun r => Quality.one ≤ r.quality

/-- The valid ranges of lower quality that the pieces hold. -/
def lows (ps : List Text) : List MediaRange :=
  (ps.filterMap MediaRange.ofPiece?).filter fun r => r.quality < Quality.one

/-- The ranges of top quality before the last piece. -/
def prompt (ps : List Text) : List MediaRange := tops ps.dropLast

/-- The ranges that are not prompt, in the order written. -/
def deferred (ps : List Text) : List MediaRange :=
  lows ps.dropLast ++ ps.getLast?.toList.filterMap MediaRange.ofPiece?

instance (literal : Bool) (header : Text) : Decidable (AcceptsAnything literal header) :=
  inferInstanceAs (Decidable (_ ∨ _))

lemma mentionsEverything_iff (header : Text) :
    mentionsEverything header = true ↔ ['*', '/', '*'] <:+: header := by
  fun_induction mentionsEverything header with
  | case1 s => exact ⟨fun _ => ⟨[], s, rfl⟩, fun _ => rfl⟩
  | case2 c s hne ih =>
    rw [ih, List.infix_cons_iff]
    refine ⟨Or.inr, ?_⟩
    rintro (⟨t, ht⟩ | h)
    · obtain ⟨rfl, rfl⟩ := List.cons.inj ht
      exact absurd rfl (hne t rfl)
    · exact h
  | case3 => simp

lemma acceptsAnything_iff (options : Options) (header : Text) :
    options.acceptsAnything header = true ↔ AcceptsAnything options.literal header := by
  rw [AcceptsAnything, ← mentionsEverything_iff, Options.acceptsAnything]
  simp

lemma not_acceptsAnything_literal {header : Text} (h : header ≠ []) :
    ¬ AcceptsAnything true header := by
  rintro (hnil | ⟨hfalse, -⟩)
  · exact h hnil
  · cases hfalse

variable {p : Text} {ps : List Text} {r : MediaRange}

lemma one_le_of_mem_tops (h : r ∈ tops ps) : Quality.one ≤ r.quality := by
  unfold tops at h
  rw [List.mem_filter] at h
  simpa using h.2

lemma prompt_deferred_none (h : MediaRange.ofPiece? p = none) (ps : List Text) :
    prompt (p :: ps) = prompt ps ∧ deferred (p :: ps) = deferred ps := by
  rcases ps with _ | ⟨q, ps⟩ <;> simp [prompt, deferred, tops, lows, h]

lemma prompt_deferred_top (h : MediaRange.ofPiece? p = some r)
    (ht : Quality.one ≤ r.quality ∧ ps ≠ []) :
    prompt (p :: ps) = r :: prompt ps ∧ deferred (p :: ps) = deferred ps := by
  rcases ps with _ | ⟨q, ps⟩
  · exact absurd rfl ht.2
  · have hl : ¬ r.quality < Quality.one := Quality.not_lt.mpr ht.1
    simp [prompt, deferred, tops, lows, h, ht.1]

lemma prompt_deferred_keep (h : MediaRange.ofPiece? p = some r)
    (ht : ¬ (Quality.one ≤ r.quality ∧ ps ≠ [])) :
    prompt (p :: ps) = prompt ps ∧ deferred (p :: ps) = r :: deferred ps := by
  rcases ps with _ | ⟨q, ps⟩
  · simp [prompt, deferred, tops, lows, h]
  · have hl : ¬ Quality.one ≤ r.quality := fun hle => ht ⟨hle, by simp⟩
    have hlt : r.quality < Quality.one := Quality.not_le.mp hl
    simp [prompt, deferred, tops, lows, h, hl, hlt]

end Header

open Header

namespace Route

variable {fits : MediaRange → Bool} {ps : List Text}

lemma through_wellFormed (h : ∀ p ∈ ps, MediaRange.WellFormed p) (kept : List MediaRange) :
    through fits ps kept =
      { ranges := prompt ps ++
          ((deferred ps).filter fits).foldl (fun kept r => insertByQuality r kept) kept
        failure := none } := by
  induction ps generalizing kept with
  | nil => rfl
  | cons p ps ih =>
    rw [List.forall_mem_cons] at h
    have hp := h.1.ofPiece_eq
    rcases hr : MediaRange.ofPiece? p with _ | r
    all_goals rw [hr] at hp
    · obtain ⟨hprompt, hdeferred⟩ := prompt_deferred_none hr ps
      rw [through_none hp, ih h.2, hprompt, hdeferred]
    · by_cases ht : Quality.one ≤ r.quality ∧ ps ≠ []
      · obtain ⟨hprompt, hdeferred⟩ := prompt_deferred_top hr ht
        rw [through_top hp ht, ih h.2, hprompt, hdeferred]
        rfl
      · -- a range of lower quality, or the last one, is kept if it fits
        obtain ⟨hprompt, hdeferred⟩ := prompt_deferred_keep hr ht
        rw [through_keep hp ht, ih h.2, hprompt, hdeferred]
        by_cases hf : fits r <;> simp [hf]

lemma through_append {others : List Text} (h : ∀ p ∈ ps, MediaRange.WellFormed p)
    (hne : others ≠ []) (kept : List MediaRange) : ∃ kept',
    through fits (ps ++ others) kept =
      { through fits others kept' with
        ranges := tops ps ++ (through fits others kept').ranges } := by
  induction ps generalizing kept with
  | nil => exact ⟨kept, rfl⟩
  | cons p ps ih =>
    rw [List.forall_mem_cons] at h
    have hp := h.1.ofPiece_eq
    rw [List.cons_append]
    rcases hr : MediaRange.ofPiece? p with _ | r
    all_goals rw [hr] at hp
    · rw [through_none hp]
      simpa [tops, hr] using ih h.2 kept
    · by_cases ht : Quality.one ≤ r.quality
      · have hmore : ps ++ others ≠ [] := by simp [hne]
        obtain ⟨kept', hroute⟩ := ih h.2 kept
        rw [through_top hp ⟨ht, hmore⟩, hroute]
        exact ⟨kept', by simp [tops, hr, ht, cons]⟩
      · rw [through_keep hp (fun h => ht h.1)]
        simpa [tops, hr, ht] using ih h.2 (if fits r then insertByQuality r kept else kept)

lemma through_fault {before : List Text} {piece : Text} {e : Error}
    (h : ∀ p ∈ before, MediaRange.WellFormed p) (hf : MediaRange.Fault piece e)
    (others : List Text) (kept : List MediaRange) :
    through fits (before ++ piece :: others) kept =
      { ranges := tops before, failure := some e } := by
  obtain ⟨kept', hroute⟩ := through_append h (List.cons_ne_nil piece others) kept
  rw [hroute, through_error (MediaRange.ofPiece_eq_error.mpr hf), List.append_nil]

end Route

/-! ### Nothing is lost -/

lemma valid_eq (ps : List Text) :
    ps.filterMap MediaRange.ofPiece? = ps.dropLast.filterMap MediaRange.ofPiece? ++
      ps.getLast?.toList.filterMap MediaRange.ofPiece? := by
  rw [← List.filterMap_append]
  congr 1
  rcases ps.eq_nil_or_concat with rfl | ⟨qs, q, rfl⟩
  · rfl
  · simp

lemma lows_eq (ps : List Text) : lows ps =
    (ps.filterMap MediaRange.ofPiece?).filter fun r => !decide (Quality.one ≤ r.quality) := by
  unfold lows
  congr 1
  funext r
  rw [← decide_not, decide_eq_decide]
  exact Quality.not_le.symm

lemma perm_prompt_deferred (ps : List Text) :
    (prompt ps ++ deferred ps).Perm (ps.filterMap MediaRange.ofPiece?) := by
  have hsplit : (tops ps.dropLast ++ lows ps.dropLast).Perm
      (ps.dropLast.filterMap MediaRange.ofPiece?) := by
    rw [lows_eq]
    exact List.filter_append_perm _ _
  rw [valid_eq ps, prompt, deferred, ← List.append_assoc]
  exact hsplit.append_right _

/-- The quality by which ranges are preferred: all that is above one counts as one. -/
def MediaRange.rank (r : MediaRange) : Quality := min r.quality .one

lemma MediaRange.signed_rank (r : MediaRange) :
    r.rank.signed = min r.quality.signed Quality.one.signed :=
  Quality.signed_min _ _

lemma MediaRange.rank_le_rank {a b : MediaRange} (h : b.quality ≤ a.quality) :
    b.rank ≤ a.rank := by
  rw [Quality.le_iff] at h ⊢
  rw [signed_rank, signed_rank]
  omega

lemma MediaRange.rank_le_of_one_le {a b : MediaRange} (h : Quality.one ≤ a.quality) :
    b.rank ≤ a.rank := by
  rw [Quality.le_iff] at h ⊢
  rw [signed_rank, signed_rank]
  omega

lemma descends_of_length_le {α : Type} {key : α → Quality} {l : List α} (h : l.length ≤ 1) :
    Descends key l := by
  rcases l with _ | ⟨a, _ | ⟨b, l⟩⟩
  · exact List.Pairwise.nil
  · exact List.pairwise_singleton _ _
  · simp at h

lemma level_rank_split (k : ℤ) (ps : List Text) :
    (k = Quality.one.signed ∧ level MediaRange.rank k (lows ps) = [] ∧
      level MediaRange.rank k (tops ps) =
        level MediaRange.rank k (ps.filterMap MediaRange.ofPiece?)) ∨
    (k ≠ Quality.one.signed ∧ level MediaRange.rank k (tops ps) = [] ∧
      level MediaRange.rank k (lows ps) =
        level MediaRange.rank k (ps.filterMap MediaRange.ofPiece?)) := by
  unfold level tops lows
  simp only [List.filter_filter, List.filter_eq_nil_iff, MediaRange.signed_rank]
  by_cases hk : k = Quality.one.signed
  · refine Or.inl ⟨hk, fun r _ => ?_, List.filter_congr fun r _ => ?_⟩
    · simp only [Quality.lt_iff, Bool.and_eq_true, decide_eq_true_eq]
      omega
    · rw [Bool.eq_iff_iff]
      simp only [Quality.le_iff, Bool.and_eq_true, decide_eq_true_eq]
      omega
  · refine Or.inr ⟨hk, fun r _ => ?_, List.filter_congr fun r _ => ?_⟩
    · simp only [Quality.le_iff, Bool.and_eq_true, decide_eq_true_eq]
      omega
    · rw [Bool.eq_iff_iff]
      simp only [Quality.lt_iff, Bool.and_eq_true, decide_eq_true_eq]
      omega

/-- Within a rank the deferred ranges are in descending quality as they stand: those of the top
rank are at most one, and all others of one rank have one quality. -/
lemma descends_level_rank (k : ℤ) (ps : List Text) :
    Descends MediaRange.quality (level MediaRange.rank k (deferred ps)) := by
  rcases level_rank_split k ps.dropLast with ⟨-, hlows, -⟩ | ⟨hk, -, -⟩
  · rw [deferred, level_append, hlows, List.nil_append]
    -- only the last piece is left, and it holds one range at most
    apply descends_of_length_le
    refine Nat.le_trans (List.length_filter_le _ _) ?_
    refine Nat.le_trans (List.length_filterMap_le _ _) ?_
    rcases ps.getLast? with _ | p <;> simp
  · refine List.pairwise_of_forall_mem_list fun a ha b hb => ?_
    simp only [level, List.mem_filter, decide_eq_true_eq, MediaRange.signed_rank] at ha hb
    rw [Quality.le_iff]
    omega

/-- **The order of preference**: prompt ranges, and then the deferred ones in descending quality,
are all valid ranges in descending rank. -/
theorem prompt_append_descending (ps : List Text) :
    prompt ps ++ descending MediaRange.quality (deferred ps) =
      descending MediaRange.rank (ps.filterMap MediaRange.ofPiece?) := by
  refine eq_descending ?_ fun k => ?_
  · have hd := @descends_descending _ MediaRange.quality (deferred ps)
    have hfirst : ∀ a ∈ prompt ps, ∀ b : MediaRange, b.rank ≤ a.rank := fun a ha b =>
      MediaRange.rank_le_of_one_le (one_le_of_mem_tops ha)
    apply List.pairwise_append.mpr
    refine ⟨?_, hd.imp MediaRange.rank_le_rank, fun a ha b _ => hfirst a ha b⟩
    exact List.pairwise_of_forall_mem_list fun a ha b _ => hfirst a ha b
  · have hsort : level MediaRange.rank k (descending MediaRange.quality (deferred ps)) =
        level MediaRange.rank k (deferred ps) :=
      filter_descending (descends_level_rank k ps)
    have hsplit : level MediaRange.rank k (tops ps.dropLast) ++
        level MediaRange.rank k (lows ps.dropLast) =
        level MediaRange.rank k (ps.dropLast.filterMap MediaRange.ofPiece?) := by
      rcases level_rank_split k ps.dropLast with ⟨-, hlows, htops⟩ | ⟨-, htops, hlows⟩
      · rw [hlows, htops, List.append_nil]
      · rw [hlows, htops, List.nil_append]
    calc level MediaRange.rank k (prompt ps ++ descending MediaRange.quality (deferred ps))
        = level MediaRange.rank k (prompt ps) ++ level MediaRange.rank k (deferred ps) := by
          rw [level_append, hsort]
      _ = level MediaRange.rank k (ps.dropLast.filterMap MediaRange.ofPiece?) ++
            level MediaRange.rank k (ps.getLast?.toList.filterMap MediaRange.ofPiece?) := by
          rw [prompt, deferred, level_append, ← List.append_assoc, hsplit]
      _ = level MediaRange.rank k (ps.filterMap MediaRange.ofPiece?) := by
          rw [← level_append, ← valid_eq]

namespace Walk

variable {header : Text} {options : Options}

lemma before_literal (h : ¬ AcceptsAnything options.literal header)
    (filters : List ContentType) :
    (before header options filters).header = header ∧
      (before header options filters).route =
        .through (·.coversAll options.matching filters) (pieces header) [] := by
  rw [← acceptsAnything_iff] at h
  refine ⟨if_neg h, ?_⟩
  simp only [route, before, if_neg h]

lemma before_anything (h : AcceptsAnything options.literal header) (filters : List ContentType) :
    (before header options filters).header = [] ∧
      (before header options filters).route = { ranges := [], failure := none } := by
  rw [← acceptsAnything_iff] at h
  refine ⟨if_pos h, ?_⟩
  simp only [route, before, if_pos h]

def order (matching : ParameterMatching) (filters : List ContentType) (header : Text) :
    List MediaRange :=
  prompt (pieces header) ++
    descending MediaRange.quality ((deferred (pieces header)).filter (·.coversAll matching filters))

lemma order_eq_foldl (matching : ParameterMatching) (filters : List ContentType)
    (header : Text) :
    order matching filters header = prompt (pieces header) ++
      ((deferred (pieces header)).filter (·.coversAll matching filters)).foldl
        (fun kept r => insertByQuality r kept) [] := by
  rw [order, foldl_insertByQuality _ List.Pairwise.nil, List.nil_append]

lemma order_nil (matching : ParameterMatching) (header : Text) :
    order matching [] header = descending MediaRange.rank (valid header) := by
  rw [valid, ← prompt_append_descending, order]
  simp [MediaRange.coversAll]

lemma before_wellFormed (h : ¬ AcceptsAnything options.literal header) (hq : WellFormed header)
    (filters : List ContentType) : (before header options filters).route =
      { ranges := order options.matching filters header, failure := none } := by
  rw [(before_literal h filters).2, Route.through_wellFormed hq, order_eq_foldl]

/-- **The walk shows every range once, in order**: the prompt ranges, unfiltered, and then the
deferred ones that cover the filters, in descending quality. Without filters this is all of the
header in the order of preference. -/
theorem start_wellFormed (filters : List ContentType)
    (hopen : ¬ AcceptsAnything options.literal header) (hq : WellFormed header) :
    ∃ w, start header options filters = .ok w ∧
      w.all = (order options.matching filters header, none) ∧
      (∀ n, (w.after n).current =
          ((order options.matching filters header).take (n + 1)).getLast? ∧
        (w.after n).advance.1 =
          .ok (decide (n + 1 < (order options.matching filters header).length))) ∧
      (prompt (pieces header) ++ deferred (pieces header)).Perm (valid header) ∧
      (filters = [] →
        order options.matching filters header = descending MediaRange.rank (valid header) ∧
        ∃ texts, w.collectAll = .ok texts ∧
          ((order options.matching filters header).map MediaRange.render).Perm texts) := by
  obtain ⟨w, hw, hheader, -, hshows⟩ := start_ok (before_wellFormed hopen hq filters) fun _ => rfl
  rw [(before_literal hopen filters).1] at hheader
  refine ⟨w, hw, hshows.all, fun n => ⟨hshows.current n, ?_⟩, perm_prompt_deferred _, ?_⟩
  · rw [hshows.answer n]
    split <;> simp [Route.last, *]
  · rintro rfl
    rw [order_nil]
    refine ⟨rfl, (valid header).map MediaRange.render, ?_, (perm_descending _).map _⟩
    rw [collectAll, hheader, hq.ranges_eq]
    rfl

/-- The last range waits although its quality is above one, and the filter stops only ranges
that wait. -/
theorem start_wellFormed_top_last :
    ∃ w, start "a/b;q=0.5, image/png,text/*;q=0.5,text/html;q=0.7,*/*;q=2".toList
        { literal := true } [{ type := "text".toList, subtype := "html".toList }] = .ok w ∧
      w.all.1.map (·.type) =
        [" image".toList, "*".toList, "text".toList, "text".toList] ∧
      (w.after 3).advance.1 = .ok false := by
  obtain ⟨w, hw, hall, hrun, -, -⟩ := @start_wellFormed
    "a/b;q=0.5, image/png,text/*;q=0.5,text/html;q=0.7,*/*;q=2".toList { literal := true }
    [{ type := "text".toList, subtype := "html".toList }] (by decide) (by decide +kernel)
  refine ⟨w, hw, ?_, ?_⟩
  · rw [hall, order_eq_foldl]
    decide +kernel
  · rw [(hrun 3).2, order_eq_foldl]
    decide +kernel

end Walk

end ContentNegotiation
