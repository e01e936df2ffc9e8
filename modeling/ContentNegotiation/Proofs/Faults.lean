import ContentNegotiation.Proofs.PieceReading
import ContentNegotiation.Walk.Basic
import Mathlib.Data.List.Forall2

/-!
Which ranges a header lists, and which fault it has, told from its pieces.

A piece has a fault if one of its qualities is no finite number, and the first such quality names
the error. The pieces before the first one with a fault, and their ranges, are all that a reader
can learn from a header.
-/

namespace ContentNegotiation

open Text

/-! ### Lists of fallible readings -/

section Readings

variable {α β ε : Type} {f : α → Except ε β}

lemma bind_eq_ok {x : Except ε α} {k : α → Except ε β} {b : β} :
    x >>= k = .ok b ↔ ∃ a, x = .ok a ∧ k a = .ok b := by
  cases x <;> simp [bind, Except.bind]

lemma bind_eq_error {x : Except ε α} {k : α → Except ε β} {e : ε} :
    x >>= k = .error e ↔ x = .error e ∨ ∃ a, x = .ok a ∧ k a = .error e := by
  cases x <;> simp [bind, Except.bind]

lemma mapM_cons_error {x : α} {e : ε} (h : f x = .error e) (xs : List α) :
    (x :: xs).mapM f = .error e := by
  rw [List.mapM_cons, h]; rfl

lemma mapM_cons_ok {x : α} {y : β} (h : f x = .ok y) (xs : List α) :
    (x :: xs).mapM f = (xs.mapM f).map (y :: ·) := by
  rw [List.mapM_cons, h]
  cases xs.mapM f <;> rfl

lemma mapM_eq_ok {g : α → β} {xs : List α} (h : ∀ x ∈ xs, f x = .ok (g x)) :
    xs.mapM f = .ok (xs.map g) := by
  induction xs with
  | nil => rfl
  | cons x xs ih =>
    rw [List.forall_mem_cons] at h
    rw [mapM_cons_ok h.1, ih h.2]
    rfl

/-- Readings that commute with a change of what is read and of the result do so in a list. -/
lemma mapM_map_of_commute {α' β' : Type} {f' : α' → Except ε β'} {g : α → α'} {h : β → β'}
    (hread : ∀ x, f' (g x) = (f x).map h) (xs : List α) :
    (xs.map g).mapM f' = (xs.mapM f).map (List.map h) := by
  induction xs with
  | nil => rfl
  | cons x xs ih =>
    rw [List.map_cons, List.mapM_cons, List.mapM_cons, hread, ih]
    rcases f x with e | y
    · rfl
    · cases xs.mapM f <;> rfl

lemma exists_mapM_ok {xs : List α} :
    (∃ ys, xs.mapM f = .ok ys) ↔ ∀ x ∈ xs, ∃ y, f x = .ok y := by
  induction xs with
  | nil => simp [pure, Except.pure]
  | cons x xs ih =>
    rw [List.forall_mem_cons, ← ih]
    cases hx : f x with
    | error e => simp [mapM_cons_error hx]
    | ok y =>
      rw [mapM_cons_ok hx]
      cases xs.mapM f <;> simp [Except.map]

lemma mapM_eq_ok_iff {xs : List α} {ys : List β} :
    xs.mapM f = .ok ys ↔ xs.map f = ys.map .ok := by
  induction xs generalizing ys with
  | nil => simp [pure, Except.pure, eq_comm]
  | cons x xs ih =>
    rw [List.map_cons]
    cases hx : f x with
    | error e => cases ys <;> simp [mapM_cons_error hx]
    | ok y =>
      rw [mapM_cons_ok hx]
      rcases ys with _ | ⟨y', ys⟩
      · cases xs.mapM f <;> simp [Except.map]
      · rw [List.map_cons, List.cons.injEq, ← ih]
        cases xs.mapM f <;> simp [Except.map]

lemma mapM_eq_ok_iff_forall₂ {xs : List α} {ys : List β} :
    xs.mapM f = .ok ys ↔ List.Forall₂ (fun x y => f x = .ok y) xs ys := by
  rw [mapM_eq_ok_iff, ← List.forall₂_eq_eq_eq, List.forall₂_map_left_iff,
    List.forall₂_map_right_iff]

lemma exists_mapM_of_forall₂ {α' β' : Type} {f' : α' → Except ε β'} {R : α → α' → Prop}
    {S : β → β' → Prop} {xs : List α} {xs' : List α'} {ys : List β}
    (hread : ∀ x x' y, R x x' → f x = .ok y → ∃ y', f' x' = .ok y' ∧ S y y')
    (hxs : List.Forall₂ R xs xs') (hys : xs.mapM f = .ok ys) :
    ∃ ys', xs'.mapM f' = .ok ys' ∧ List.Forall₂ S ys ys' := by
  simp only [mapM_eq_ok_iff_forall₂] at hys ⊢
  induction hxs generalizing ys with
  | nil =>
    cases hys
    exact ⟨[], .nil, .nil⟩
  | cons hx _ ih =>
    obtain _ | ⟨hy, hothers⟩ := hys
    obtain ⟨y', hy', hS⟩ := hread _ _ _ hx hy
    obtain ⟨ys', hys', hothers'⟩ := ih hothers
    exact ⟨y' :: ys', .cons hy' hys', .cons hS hothers'⟩

lemma length_of_mapM {xs : List α} {ys : List β} (h : xs.mapM f = .ok ys) :
    ys.length = xs.length := by
  have hlength := congrArg List.length (mapM_eq_ok_iff.mp h)
  rw [List.length_map, List.length_map] at hlength
  exact hlength.symm

lemma exists_of_mem_mapM {xs : List α} {ys : List β} (h : xs.mapM f = .ok ys) {y : β}
    (hy : y ∈ ys) : ∃ x ∈ xs, f x = .ok y := by
  have hmem : .ok y ∈ xs.map f := by
    rw [mapM_eq_ok_iff.mp h]
    exact List.mem_map_of_mem hy
  exact List.mem_map.mp hmem

lemma mapM_eq_error {xs : List α} {e : ε} :
    xs.mapM f = .error e ↔
      ∃ good x others, xs = good ++ x :: others ∧ (∀ y ∈ good, ∃ b, f y = .ok b) ∧
        f x = .error e := by
  induction xs with
  | nil => simp [pure, Except.pure]
  | cons x xs ih =>
    cases hx : f x with
    | error e' =>
      rw [mapM_cons_error hx]
      constructor
      · intro h
        obtain rfl : e' = e := by simpa using h
        exact ⟨[], x, xs, rfl, by simp, hx⟩
      · rintro ⟨_ | ⟨y, good⟩, z, others, heq, hgood, hz⟩
        · obtain ⟨rfl, rfl⟩ := List.cons.inj heq
          rw [hx] at hz
          simpa using hz
        · obtain ⟨rfl, rfl⟩ := List.cons.inj heq
          obtain ⟨b, hb⟩ := hgood x (by simp)
          rw [hx] at hb
          simp at hb
    | ok y =>
      rw [mapM_cons_ok hx]
      have hmap : (xs.mapM f).map (y :: ·) = .error e ↔ xs.mapM f = .error e := by
        cases xs.mapM f <;> simp [Except.map]
      rw [hmap, ih]
      constructor
      · rintro ⟨good, z, others, rfl, hgood, hz⟩
        exact ⟨x :: good, z, others, rfl, by simpa [hx] using hgood, hz⟩
      · rintro ⟨_ | ⟨w, good⟩, z, others, heq, hgood, hz⟩
        · obtain ⟨rfl, rfl⟩ := List.cons.inj heq
          rw [hx] at hz
          simp at hz
        · obtain ⟨rfl, rfl⟩ := List.cons.inj heq
          exact ⟨good, z, others, rfl, fun t ht => hgood t (by simp [ht]), hz⟩

end Readings

/-! ### Pieces -/

/-- The text states a finite number. -/
def Quality.Readable (s : Text) : Prop := ∃ q, Quality.read s = .ok q

instance (s : Text) : Decidable (Quality.Readable s) :=
  match h : Quality.read s with
  | .ok q => isTrue ⟨q, h⟩
  | .error e => isFalse fun ⟨q, hq⟩ => by simp [h] at hq

namespace MediaRange

/-- Every quality that the piece states is a finite number. -/
def WellFormed (piece : Text) : Prop := ∀ s ∈ qualityTexts piece, Quality.Readable s

instance (piece : Text) : Decidable (WellFormed piece) :=
  inferInstanceAs (Decidable (∀ s ∈ qualityTexts piece, Quality.Readable s))

/-- The first quality of the piece that is no finite number has the error. -/
def Fault (piece : Text) (e : Error) : Prop :=
  ∃ good s others, qualityTexts piece = good ++ s :: others ∧
    (∀ t ∈ good, Quality.Readable t) ∧ Quality.read s = .error e

/-- The valid media range of a piece: there is none without a slash in the first span. -/
def ofPiece? (piece : Text) : Option MediaRange :=
  match ofPiece piece with
  | .ok r => r
  | .error _ => none

variable {piece : Text} {e : Error}

lemma ofPiece_eq_error : ofPiece piece = .error e ↔ Fault piece e := by
  rw [Fault]
  unfold Quality.Readable
  rw [← mapM_eq_error, ofPiece_eq]
  cases (qualityTexts piece).mapM Quality.read <;> simp [Except.map]

lemma WellFormed.ofPiece_eq (h : WellFormed piece) : ofPiece piece = .ok (ofPiece? piece) := by
  obtain ⟨qs, hqs⟩ := exists_mapM_ok.mpr h
  rw [ofPiece?, MediaRange.ofPiece_eq, hqs]
  rfl

lemma wellFormed_or_fault (piece : Text) : WellFormed piece ∨ ∃ e, Fault piece e := by
  cases h : (qualityTexts piece).mapM Quality.read with
  | ok qs => exact Or.inl (exists_mapM_ok.mp ⟨qs, h⟩)
  | error e => exact Or.inr ⟨e, mapM_eq_error.mp h⟩

lemma wellFormed_of_ofPiece {r : Option MediaRange} (h : ofPiece piece = .ok r) :
    WellFormed piece := by
  rcases wellFormed_or_fault piece with hw | ⟨e, hf⟩
  · exact hw
  · have he := ofPiece_eq_error.mpr hf
    rw [h] at he
    cases he

end MediaRange

/-! ### Headers -/

namespace Header

/-- Every quality that the header states is a finite number. -/
def WellFormed (header : Text) : Prop := ∀ piece ∈ pieces header, MediaRange.WellFormed piece

instance (header : Text) : Decidable (WellFormed header) :=
  inferInstanceAs (Decidable (∀ piece ∈ pieces header, MediaRange.WellFormed piece))

/-- The first piece of the header with a fault comes after the pieces `before`, and its fault has
the error. -/
def FaultAfter (header : Text) (before : List Text) (e : Error) : Prop :=
  ∃ piece others, pieces header = before ++ piece :: others ∧
    (∀ p ∈ before, MediaRange.WellFormed p) ∧ MediaRange.Fault piece e

/-- The valid ranges of the header in the order written. -/
def valid (header : Text) : List MediaRange := (pieces header).filterMap MediaRange.ofPiece?

variable {header : Text} {before : List Text} {e : Error}

lemma mapM_pieces_eq_error :
    (pieces header).mapM MediaRange.ofPiece = .error e ↔ ∃ before, FaultAfter header before e := by
  rw [mapM_eq_error]
  constructor
  · rintro ⟨before, piece, others, hp, hgood, he⟩
    refine ⟨before, piece, others, hp, fun p hm => ?_, MediaRange.ofPiece_eq_error.mp he⟩
    obtain ⟨r, hr⟩ := hgood p hm
    exact MediaRange.wellFormed_of_ofPiece hr
  · rintro ⟨before, piece, others, hp, hgood, he⟩
    exact ⟨before, piece, others, hp, fun p hm => ⟨_, (hgood p hm).ofPiece_eq⟩,
      MediaRange.ofPiece_eq_error.mpr he⟩

lemma wellFormed_or_fault (header : Text) :
    WellFormed header ∨ ∃ before e, FaultAfter header before e := by
  rcases h : (pieces header).mapM MediaRange.ofPiece with e | rs
  · obtain ⟨before, hb⟩ := mapM_pieces_eq_error.mp h
    exact Or.inr ⟨before, e, hb⟩
  · left
    intro p hm
    obtain ⟨r, hr⟩ := exists_mapM_ok.mp ⟨rs, h⟩ p hm
    exact MediaRange.wellFormed_of_ofPiece hr

lemma rangesOfPieces_eq (header : Text) : rangesOfPieces header =
    ((pieces header).mapM MediaRange.ofPiece).map fun rs => rs.filterMap id := by
  unfold rangesOfPieces
  cases (pieces header).mapM MediaRange.ofPiece <;> rfl

/-- **Reading a whole header is cutting it**: the ranges read one after the other are those of the
pieces. -/
theorem ranges_eq (header : Text) : ranges header = rangesOfPieces header := by
  rw [rangesOfPieces_eq]
  fun_induction ranges header with
  | case1 => rw [pieces_nil]; rfl
  | case2 header hne e h =>
    rw [pieces_cons hne, mapM_cons_error (MediaRange.read_eq_error.mp h)]
    rfl
  | case3 header hne r rest h ih =>
    obtain ⟨hr, rfl⟩ := MediaRange.read_eq_ok.mp h
    rw [pieces_cons hne, mapM_cons_ok hr, ih]
    cases (pieces (afterPiece header)).mapM MediaRange.ofPiece with
    | error e => rfl
    | ok rs => cases r <;> rfl

lemma ranges_eq_error : ranges header = .error e ↔ ∃ before, FaultAfter header before e := by
  rw [← mapM_pieces_eq_error, ranges_eq, rangesOfPieces_eq]
  cases (pieces header).mapM MediaRange.ofPiece <;> simp [Except.map]

lemma WellFormed.ranges_eq (h : WellFormed header) : ranges header = .ok (valid header) := by
  have hread : (pieces header).mapM MediaRange.ofPiece =
      .ok ((pieces header).map MediaRange.ofPiece?) :=
    mapM_eq_ok fun p hp => (h p hp).ofPiece_eq
  rw [Header.ranges_eq, rangesOfPieces_eq, hread]
  simp [Except.map, valid, List.filterMap_map]

end Header

end ContentNegotiation
