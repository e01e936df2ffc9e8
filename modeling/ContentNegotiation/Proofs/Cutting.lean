import ContentNegotiation.Text.Basic
import Mathlib.Data.List.Basic
import Mathlib.Tactic.Common

/-!
Cutting a text at a separator, and joining parts by it, undo each other.

The parts of a split text hold no separator, and together with the separators they are the text.
Any parts without the separator come back when they have been joined by it.
-/

namespace ContentNegotiation.Text

variable {sep : Char} {s t a b : Text} {parts : List Text}

/-! ### Case -/

lemma foldEq_iff : foldEq s t = true ↔ fold s = fold t := by simp [foldEq]

@[simp] lemma length_fold : (fold s).length = s.length := by simp [fold]

/-! ### At every separator -/

@[simp] lemma split_nil : split sep [] = ([], []) := rfl

lemma split_cons_sep : split sep (sep :: s) = ([], (split sep s).1 :: (split sep s).2) := by
  simp [split]

lemma split_cons_of_ne {c : Char} (h : c ≠ sep) :
    split sep (c :: s) = (c :: (split sep s).1, (split sep s).2) := by
  simp [split, h]

lemma split_of_not_mem (h : sep ∉ s) : split sep s = (s, []) := by
  induction s with
  | nil => rfl
  | cons c s ih =>
    rw [List.mem_cons, not_or] at h
    rw [split_cons_of_ne (Ne.symm h.1), ih h.2]

lemma split_append (h : sep ∉ a) (b : Text) :
    split sep (a ++ sep :: b) = (a, (split sep b).1 :: (split sep b).2) := by
  induction a with
  | nil => exact split_cons_sep
  | cons c a ih =>
    rw [List.mem_cons, not_or] at h
    rw [List.cons_append, split_cons_of_ne (Ne.symm h.1), ih h.2]

theorem split_flatMap (ha : sep ∉ a) (hparts : ∀ p ∈ parts, sep ∉ p) :
    split sep (a ++ parts.flatMap (sep :: ·)) = (a, parts) := by
  induction parts generalizing a with
  | nil => rw [List.flatMap_nil, List.append_nil, split_of_not_mem ha]
  | cons p parts ih =>
    rw [List.forall_mem_cons] at hparts
    rw [List.flatMap_cons, List.cons_append, split_append ha, ih hparts.1 hparts.2]

theorem flatMap_split (sep : Char) (s : Text) :
    (split sep s).1 ++ (split sep s).2.flatMap (sep :: ·) = s := by
  induction s with
  | nil => rfl
  | cons c s ih =>
    by_cases hc : c = sep
    · subst hc
      rw [split_cons_sep, List.flatMap_cons, List.nil_append, List.cons_append, ih]
    · rw [split_cons_of_ne hc, List.cons_append, ih]

lemma not_mem_split (sep : Char) (s : Text) :
    sep ∉ (split sep s).1 ∧ ∀ p ∈ (split sep s).2, sep ∉ p := by
  induction s with
  | nil => simp
  | cons c s ih =>
    by_cases hc : c = sep
    · subst hc
      rw [split_cons_sep, List.forall_mem_cons]
      exact ⟨List.not_mem_nil, ih⟩
    · rw [split_cons_of_ne hc, List.mem_cons, not_or]
      exact ⟨⟨Ne.symm hc, ih.1⟩, ih.2⟩

lemma not_mem_split_of_not_mem {c : Char} (h : c ∉ s) (sep : Char) :
    c ∉ (split sep s).1 ∧ ∀ p ∈ (split sep s).2, c ∉ p := by
  rw [← flatMap_split sep s, List.mem_append, not_or, List.mem_flatMap] at h
  exact ⟨h.1, fun p hp hc => h.2 ⟨p, hp, List.mem_cons_of_mem _ hc⟩⟩

lemma infix_append_sep {w : Text} (hw : sep ∉ w) :
    w <:+: a ++ sep :: b ↔ w <:+: a ∨ w <:+: b := by
  have nothing : ∀ {u : Text}, sep ∉ u → u <+: sep :: b → u = [] := by
    intro u hu hprefix
    rcases List.prefix_cons_iff.mp hprefix with rfl | ⟨t, rfl, -⟩
    · rfl
    · exact absurd List.mem_cons_self hu
  constructor
  · intro h
    rcases List.infix_append_iff.mp h with ha | hb | ⟨u, v, rfl, hu, hv⟩
    · exact Or.inl ha
    · rcases List.infix_cons_iff.mp hb with hb | hb
      · rw [nothing hw hb]
        exact Or.inl (List.nil_infix)
      · exact Or.inr hb
    · -- the part behind the separator would begin with it
      rw [List.mem_append, not_or] at hw
      rw [nothing hw.2 hv, List.append_nil]
      exact Or.inl hu.isInfix
  · rintro (h | h)
    · exact h.trans (List.prefix_append _ _).isInfix
    · exact h.trans ((List.suffix_cons _ _).trans (List.suffix_append _ _)).isInfix

lemma infix_flatMap {w : Text} (hw : sep ∉ w) :
    w <:+: a ++ parts.flatMap (sep :: ·) ↔ ∃ p ∈ a :: parts, w <:+: p := by
  induction parts generalizing a with
  | nil => simp
  | cons p parts ih =>
    rw [List.flatMap_cons, List.cons_append, infix_append_sep hw, ih]
    simp only [List.mem_cons, exists_eq_or_imp]

/-- A word without the separator stands in one of the parts. -/
lemma infix_iff_split {w : Text} (hw : sep ∉ w) :
    w <:+: s ↔ ∃ p ∈ (split sep s).1 :: (split sep s).2, w <:+: p := by
  rw [← infix_flatMap hw, flatMap_split]

/-! ### At the first separator -/

lemma cut_eq_some : cut sep s = some (a, b) ↔ s = a ++ sep :: b ∧ sep ∉ a := by
  induction s generalizing a with
  | nil => simp [cut]
  | cons c s ih =>
    rw [cut]
    by_cases hc : c = sep
    · subst hc
      rw [if_pos rfl]
      constructor
      · rintro ⟨⟩
        exact ⟨rfl, List.not_mem_nil⟩
      · rintro ⟨heq, ha⟩
        rcases a with _ | ⟨d, a⟩
        · rw [(List.cons.inj heq).2]
        · rw [← (List.cons.inj heq).1] at ha
          exact absurd List.mem_cons_self ha
    · rw [if_neg hc, Option.map_eq_some_iff]
      constructor
      · rintro ⟨⟨u, v⟩, huv, ⟨⟩⟩
        obtain ⟨rfl, hu⟩ := ih.mp huv
        exact ⟨rfl, by simpa [Ne.symm hc] using hu⟩
      · rintro ⟨heq, ha⟩
        rcases a with _ | ⟨d, a⟩
        · exact absurd (List.cons.inj heq).1 hc
        · obtain ⟨rfl, rfl⟩ := List.cons.inj heq
          rw [List.mem_cons, not_or] at ha
          exact ⟨(a, b), ih.mpr ⟨rfl, ha.2⟩, rfl⟩

lemma cut_append (h : sep ∉ a) (b : Text) : cut sep (a ++ sep :: b) = some (a, b) :=
  cut_eq_some.mpr ⟨rfl, h⟩

lemma cut_eq_none : cut sep s = none ↔ sep ∉ s := by
  induction s with
  | nil => simp [cut]
  | cons c s ih =>
    rw [cut, List.mem_cons, not_or]
    by_cases hc : c = sep
    · simp [hc]
    · rw [if_neg hc, Option.map_eq_none_iff, ih]
      exact ⟨fun h => ⟨Ne.symm hc, h⟩, fun h => h.2⟩

end ContentNegotiation.Text
