import ContentNegotiation.Proofs.Cutting
import ContentNegotiation.Proofs.WalkFailure

/-!
What a header says to a walk without filters.

Each part between two commas is read as a media range or as an error, and adds nothing if it is
skipped. The list of all ranges and the route of the walk are told from these readings alone, so
neither depends on the parts that are skipped, or on where the header ends.
-/

namespace ContentNegotiation

open Text

/-! ### Lists that are alike member by member -/

section Forall₂

variable {α β γ : Type} {as : List α} {bs : List β}

lemma map_eq_of_forall₂ {R : α → β → Prop} {f : α → γ} {g : β → γ} (h : List.Forall₂ R as bs)
    (hR : ∀ a b, R a b → g b = f a) : bs.map g = as.map f := by
  have hmap : List.Forall₂ Eq (bs.map g) (as.map f) :=
    List.forall₂_map_left_iff.mpr (List.forall₂_map_right_iff.mpr (h.flip.imp fun b a => hR a b))
  rwa [List.forall₂_eq_eq_eq] at hmap

lemma exists_mem_of_forall₂ {R : α → β → Prop} (h : List.Forall₂ R as bs) {a : α} (ha : a ∈ as) :
    ∃ b ∈ bs, R a b := by
  induction h with
  | nil => cases ha
  | @cons a' b' _ _ hab _ ih =>
    rcases List.mem_cons.mp ha with rfl | ha
    · exact ⟨b', List.mem_cons_self, hab⟩
    · obtain ⟨b, hb, hR⟩ := ih ha
      exact ⟨b, List.mem_cons_of_mem _ hb, hR⟩

lemma exists_mem_congr_of_forall₂ {p : α → Prop} {q : β → Prop}
    (h : List.Forall₂ (fun a b => q b ↔ p a) as bs) : (∃ b ∈ bs, q b) ↔ ∃ a ∈ as, p a := by
  induction h with
  | nil => simp
  | cons hab _ ih => simp only [List.mem_cons, exists_eq_or_imp, hab, ih]

end Forall₂

/-! ### Parts and their readings -/

namespace MediaRange

/-- What a part of a header is read as: a media range or an error, or nothing if it is skipped. -/
def reading? (part : Text) : Option (Except Error MediaRange) :=
  match ofPiece part with
  | .error e => some (.error e)
  | .ok r => r.map .ok

lemma reading?_map {γ : Type} (f : MediaRange → γ) (part : Text) :
    (reading? part).map (Except.map f) = match (ofPiece part).map (Option.map f) with
      | .error e => some (.error e)
      | .ok c => c.map .ok := by
  unfold reading?
  rcases ofPiece part with e | _ | r <;> rfl

end MediaRange

namespace Header

/-- The parts of the header between its commas, with an empty one at its end if a comma ends it. -/
def parts (header : Text) : List Text := (split ',' header).1 :: (split ',' header).2

def readings (header : Text) : List (Except Error MediaRange) :=
  (parts header).filterMap MediaRange.reading?

variable {header p : Text} {ps before : List Text} {e : Error}

lemma parts_cons {c : Char} (h : c ≠ ',') (s : Text) :
    parts (c :: s) = (c :: (split ',' s).1) :: (split ',' s).2 := by
  rw [parts, split_cons_of_ne h]

lemma parts_of_not_mem (h : ',' ∉ p) : parts p = [p] := by
  rw [parts, split_of_not_mem h]

lemma parts_append (a b : Text) : parts (a ++ ',' :: b) = parts a ++ parts b := by
  induction a with
  | nil =>
    rw [List.nil_append, parts, split_cons_sep]
    rfl
  | cons c a ih =>
    unfold parts at ih
    obtain ⟨hfirst, hothers⟩ := List.cons.inj ih
    by_cases hc : c = ','
    · subst hc
      rw [List.cons_append, parts, parts, split_cons_sep, split_cons_sep, hfirst, hothers]
      rfl
    · rw [List.cons_append, parts_cons hc, parts_cons hc, hfirst, hothers]
      rfl

lemma readings_append (a b : Text) : readings (a ++ ',' :: b) = readings a ++ readings b := by
  rw [readings, parts_append, List.filterMap_append]
  rfl

lemma readings_congr {γ : Type} {f f' : MediaRange → γ} {header' : Text}
    (h : List.Forall₂ (fun part part' => (MediaRange.ofPiece part').map (Option.map f') =
      (MediaRange.ofPiece part).map (Option.map f)) (parts header) (parts header')) :
    (readings header').map (Except.map f') = (readings header).map (Except.map f) := by
  have hparts := map_eq_of_forall₂ h fun part part' hpart =>
    show (MediaRange.reading? part').map (Except.map f') =
        (MediaRange.reading? part).map (Except.map f) by
      rw [MediaRange.reading?_map, MediaRange.reading?_map, hpart]
  have hid := congrArg (List.filterMap id) hparts
  rw [List.filterMap_map, List.filterMap_map] at hid
  rwa [readings, readings, List.map_filterMap, List.map_filterMap]

lemma infix_congr {header' w : Text} (hw : ',' ∉ w)
    (h : List.Forall₂ (fun part part' => w <:+: part' ↔ w <:+: part) (parts header)
      (parts header')) : w <:+: header' ↔ w <:+: header := by
  rw [infix_iff_split hw, infix_iff_split hw]
  exact exists_mem_congr_of_forall₂ h

lemma acceptsAnything_congr {header' : Text} (literal : Bool) (hnil : header' = [] ↔ header = [])
    (h : List.Forall₂ (fun part part' => ['*', '/', '*'] <:+: part' ↔ ['*', '/', '*'] <:+: part)
      (parts header) (parts header')) :
    AcceptsAnything literal header' ↔ AcceptsAnything literal header := by
  rw [AcceptsAnything, AcceptsAnything, hnil, infix_congr (by decide) h]

lemma reading?_wellFormed (h : MediaRange.WellFormed p) :
    MediaRange.reading? p = (MediaRange.ofPiece? p).map .ok := by
  rw [MediaRange.reading?, h.ofPiece_eq]

lemma reading?_fault (h : MediaRange.Fault p e) : MediaRange.reading? p = some (.error e) := by
  rw [MediaRange.reading?, MediaRange.ofPiece_eq_error.mpr h]

/-- The empty part behind the last comma is no piece, and would add nothing. -/
lemma readings_eq_pieces (header : Text) :
    readings header = (pieces header).filterMap MediaRange.reading? := by
  have hempty : [([] : Text)].filterMap MediaRange.reading? = [] := by decide +kernel
  rcases parts_eq_pieces header with heq | heq
  · rw [readings, parts, heq]
  · rw [readings, parts, heq, List.filterMap_append, hempty, List.append_nil]

lemma filterMap_reading? (h : ∀ p ∈ ps, MediaRange.WellFormed p) :
    ps.filterMap MediaRange.reading? = (ps.filterMap MediaRange.ofPiece?).map .ok := by
  rw [List.map_filterMap]
  exact List.filterMap_congr fun p hp => reading?_wellFormed (h p hp)

lemma WellFormed.readings_eq (h : WellFormed header) :
    readings header = (valid header).map .ok := by
  rw [readings_eq_pieces, filterMap_reading? h, valid]

lemma FaultAfter.readings_eq (h : FaultAfter header before e) : ∃ others,
    readings header = (before.filterMap MediaRange.ofPiece?).map .ok ++ .error e :: others := by
  obtain ⟨piece, others, hp, hw, hf⟩ := h
  refine ⟨others.filterMap MediaRange.reading?, ?_⟩
  rw [readings_eq_pieces, hp, List.filterMap_append, filterMap_reading? hw,
    List.filterMap_cons_some (reading?_fault hf)]

lemma ranges_eq_readings (header : Text) : ranges header = (readings header).mapM id := by
  rcases wellFormed_or_fault header with hw | ⟨before, e, hf⟩
  · rw [hw.ranges_eq, hw.readings_eq, eq_comm, mapM_eq_ok_iff, List.map_id]
  · obtain ⟨others, hreadings⟩ := hf.readings_eq
    have hfails : (readings header).mapM id = .error e := by
      refine mapM_eq_error.mpr ⟨_, .error e, others, hreadings, fun reading hr => ?_, rfl⟩
      obtain ⟨r, -, rfl⟩ := List.mem_map.mp hr
      exact ⟨r, rfl⟩
    rw [hfails, ranges_eq_error]
    exact ⟨before, hf⟩

end Header

open Header

/-! ### The route -/

namespace Route

/-- The route through readings that come after some ranges. -/
def outline (ranges : List MediaRange) : List (Except Error MediaRange) → Route
  | [] => { ranges := descending MediaRange.rank ranges, failure := none }
  | .ok r :: readings => outline (ranges ++ [r]) readings
  | .error e :: _ =>
    { ranges := ranges.filter fun r => Quality.one ≤ r.quality, failure := some e }

lemma outline_append (ranges rs : List MediaRange) (readings : List (Except Error MediaRange)) :
    outline ranges (rs.map .ok ++ readings) = outline (ranges ++ rs) readings := by
  induction rs generalizing ranges with
  | nil => rw [List.map_nil, List.nil_append, List.append_nil]
  | cons r rs ih =>
    rw [List.map_cons, List.cons_append, outline, ih, List.append_assoc, List.singleton_append]

variable {γ : Type} {f f' : MediaRange → γ} {quality : γ → Quality}

lemma map_descending_rank (hf : ∀ r, quality (f r) = r.quality) (rs : List MediaRange) :
    (descending MediaRange.rank rs).map f =
      descending (fun c => min (quality c) .one) (rs.map f) := by
  refine map_descending (fun r => ?_) rs
  rw [hf, MediaRange.rank]

lemma map_filter_top (hf : ∀ r, quality (f r) = r.quality) (rs : List MediaRange) :
    (rs.filter fun r => Quality.one ≤ r.quality).map f =
      (rs.map f).filter fun c => Quality.one ≤ quality c := by
  rw [List.filter_map]
  simp only [Function.comp_def, hf]

lemma outline_congr (hf : ∀ r, quality (f r) = r.quality) (hf' : ∀ r, quality (f' r) = r.quality)
    {ranges ranges' : List MediaRange} {readings readings' : List (Except Error MediaRange)}
    (hranges : ranges'.map f' = ranges.map f)
    (hreadings : readings'.map (Except.map f') = readings.map (Except.map f)) :
    (outline ranges' readings').ranges.map f' = (outline ranges readings).ranges.map f ∧
      (outline ranges' readings').failure = (outline ranges readings).failure := by
  induction readings generalizing ranges ranges' readings' with
  | nil =>
    obtain rfl := List.map_eq_nil_iff.mp hreadings
    exact ⟨by rw [outline, outline, map_descending_rank hf, map_descending_rank hf', hranges], rfl⟩
  | cons reading readings ih =>
    obtain ⟨reading', readings', rfl, hreading, hothers⟩ := List.map_eq_cons_iff.mp hreadings
    rcases reading with e | r
    all_goals
      rcases reading' with e' | r'
    · cases hreading
      exact ⟨by rw [outline, outline, map_filter_top hf, map_filter_top hf', hranges], rfl⟩
    · cases hreading
    · cases hreading
    · have hlast : (ranges' ++ [r']).map f' = (ranges ++ [r]).map f := by
        rw [List.map_append, List.map_append, hranges, List.map_singleton, List.map_singleton,
          Except.ok.inj hreading]
      have htail := ih hlast hothers
      exact htail

end Route

namespace Walk

variable {header : Text} {options : Options}

/-- **The route is told from the readings.** -/
theorem route_eq_outline (h : ¬ AcceptsAnything options.literal header) :
    (before header options []).route = .outline [] (readings header) := by
  rcases wellFormed_or_fault header with hw | ⟨before, e, hf⟩
  · have houtline := Route.outline_append [] (valid header) []
    rw [List.append_nil, List.nil_append] at houtline
    rw [before_wellFormed h hw, order_nil, hw.readings_eq, houtline, Route.outline]
  · obtain ⟨others, hreadings⟩ := hf.readings_eq
    rw [before_fault h hf, hreadings, Route.outline_append, List.nil_append, Route.outline, tops]

end Walk

end ContentNegotiation
