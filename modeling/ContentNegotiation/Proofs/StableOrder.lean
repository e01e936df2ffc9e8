import ContentNegotiation.Walk.Basic
import Mathlib.Data.Int.Notation
import Mathlib.Data.List.Basic
import Mathlib.Tactic.Common

/-!
Descending order of quality, with equals in the order given.

A descending list is settled by its levels, the sublists of equal quality: sorting a list changes
none of them, and inserting a range behind its equals adds it at the end of its own level.
-/

namespace ContentNegotiation

namespace Quality

variable {q r : Quality}

lemma le_iff : q ≤ r ↔ q.signed ≤ r.signed := Iff.rfl

lemma lt_iff : q < r ↔ q.signed < r.signed := Iff.rfl

@[simp] lemma not_lt : ¬ q < r ↔ r ≤ q := Int.not_lt

@[simp] lemma not_le : ¬ q ≤ r ↔ r < q := Int.not_le

instance : Min Quality := minOfLe

lemma signed_min (q r : Quality) : (min q r).signed = min q.signed r.signed := by
  have h : min q r = if q ≤ r then q else r := rfl
  rw [h]
  split
  · next hle => rw [le_iff] at hle; omega
  · next hle => rw [le_iff] at hle; omega

end Quality

section Descending

variable {α : Type} (key : α → Quality)

/-- The list in descending order of the key, with equal keys in the order given. -/
def descending (l : List α) : List α := l.mergeSort fun a b => key b ≤ key a

/-- No key in the list is less than a later one. -/
def Descends (l : List α) : Prop := l.Pairwise fun a b => key b ≤ key a

/-- The members of the list whose keys have the given value. -/
def level (k : ℤ) (l : List α) : List α := l.filter fun a => (key a).signed = k

variable {key}

lemma level_append (k : ℤ) (l m : List α) :
    level key k (l ++ m) = level key k l ++ level key k m :=
  List.filter_append _ _

lemma level_cons (k : ℤ) (a : α) (l : List α) :
    level key k (a :: l) = level key k [a] ++ level key k l :=
  level_append k [a] l

lemma perm_descending (l : List α) : (descending key l).Perm l := List.mergeSort_perm l _

lemma map_descending {β : Type} {f : α → β} {key' : β → Quality} (h : ∀ a, key' (f a) = key a)
    (l : List α) : (descending key l).map f = descending key' (l.map f) :=
  List.map_mergeSort fun a _ b _ => by rw [h, h]

lemma le_trans_key (a b c : α) (hab : decide (key b ≤ key a) = true)
    (hbc : decide (key c ≤ key b) = true) : decide (key c ≤ key a) = true := by
  simp only [decide_eq_true_eq, Quality.le_iff] at *
  omega

lemma le_total_key (a b : α) : (decide (key b ≤ key a) || decide (key a ≤ key b)) = true := by
  simp only [Bool.or_eq_true, decide_eq_true_eq, Quality.le_iff]
  omega

lemma descends_descending (l : List α) : Descends key (descending key l) := by
  have h := List.pairwise_mergeSort (@le_trans_key _ key) le_total_key l
  simpa [Descends, descending] using h

/-- Sorting moves no members past each other that are in order already. -/
lemma filter_descending {p : α → Bool} {l : List α} (h : Descends key (l.filter p)) :
    (descending key l).filter p = l.filter p := by
  have hsub : (l.filter p).Sublist (descending key l) :=
    List.sublist_mergeSort le_trans_key le_total_key (by simpa [Descends] using h)
      List.filter_sublist
  have hp := hsub.filter p
  rw [List.filter_filter] at hp
  simp only [Bool.and_self] at hp
  refine (hp.eq_of_length ?_).symm
  exact ((perm_descending l).filter p).length_eq.symm

lemma descends_level (k : ℤ) (l : List α) : Descends key (level key k l) := by
  refine List.pairwise_of_forall_mem_list fun a ha b hb => ?_
  simp only [level, List.mem_filter, decide_eq_true_eq] at ha hb
  rw [Quality.le_iff]
  omega

lemma level_descending (k : ℤ) (l : List α) : level key k (descending key l) = level key k l :=
  filter_descending (descends_level k l)

lemma key_le_head {a : α} {l : List α} (h : Descends key (a :: l)) {b : α} (hb : b ∈ a :: l) :
    key b ≤ key a := by
  rcases List.mem_cons.mp hb with rfl | hb
  · exact Quality.le_iff.mpr (Int.le_refl _)
  · exact (List.pairwise_cons.mp h).1 b hb

/-- Two descending lists with the same levels are the same list. -/
lemma eq_of_level_eq {l m : List α} (hl : Descends key l) (hm : Descends key m)
    (h : ∀ k, level key k l = level key k m) : l = m := by
  have mem : ∀ {u v : List α}, (∀ k, level key k u = level key k v) → ∀ {a}, a ∈ u → a ∈ v := by
    intro u v huv a ha
    have : a ∈ level key (key a).signed u := by simp [level, ha]
    rw [huv, level, List.mem_filter] at this
    exact this.1
  induction l generalizing m with
  | nil =>
    rcases m with _ | ⟨b, m⟩
    · rfl
    · have hb := mem (fun k => (h k).symm) (@List.mem_cons_self _ b m)
      simp at hb
  | cons a l ih =>
    rcases m with _ | ⟨b, m⟩
    · have ha := mem h (@List.mem_cons_self _ a l)
      simp at ha
    have hab := key_le_head hm (mem h List.mem_cons_self)
    have hba := key_le_head hl (mem (fun k => (h k).symm) List.mem_cons_self)
    rw [Quality.le_iff] at hab hba
    have hkey : (key b).signed = (key a).signed := by omega
    have heads := h (key a).signed
    simp only [level, List.filter_cons, hkey, decide_true, if_true] at heads
    obtain rfl := (List.cons.inj heads).1
    have tails : ∀ k, level key k l = level key k m := by
      intro k
      have hk := h k
      simp only [level, List.filter_cons] at hk
      split at hk
      · exact (List.cons.inj hk).2
      · exact hk
    rw [ih (List.Pairwise.of_cons hl) (List.Pairwise.of_cons hm) tails]

/-- **Stable order is the only one**: a descending list with the levels of `l` is `l` sorted. -/
theorem eq_descending {l m : List α} (hm : Descends key m)
    (h : ∀ k, level key k m = level key k l) : m = descending key l :=
  eq_of_level_eq hm (descends_descending l) fun k => by rw [h, level_descending]

lemma descending_filter (p : α → Bool) (l : List α) :
    descending key (l.filter p) = (descending key l).filter p := by
  refine (eq_descending ((descends_descending l).filter p) fun k => ?_).symm
  calc level key k ((descending key l).filter p)
      = (level key k (descending key l)).filter p := List.filter_comm _ _ _
    _ = (level key k l).filter p := by rw [level_descending]
    _ = level key k (l.filter p) := List.filter_comm _ _ _

end Descending

/-! ### Insertion -/

lemma perm_insertByQuality (r : MediaRange) (kept : List MediaRange) :
    (insertByQuality r kept).Perm (r :: kept) := by
  fun_induction insertByQuality r kept with
  | case1 => rfl
  | case2 => rfl
  | case3 t kept hlt ih => exact (ih.cons t).trans (.swap r t kept)

lemma mem_insertByQuality {r s : MediaRange} {kept : List MediaRange} :
    s ∈ insertByQuality r kept ↔ s = r ∨ s ∈ kept := by
  rw [(perm_insertByQuality r kept).mem_iff, List.mem_cons]

lemma descends_insertByQuality (r : MediaRange) {kept : List MediaRange}
    (h : Descends MediaRange.quality kept) :
    Descends MediaRange.quality (insertByQuality r kept) := by
  induction kept with
  | nil => simp [insertByQuality, Descends]
  | cons t kept ih =>
    obtain ⟨ht, hk⟩ := List.pairwise_cons.mp h
    rw [insertByQuality]
    split
    · next hlt =>
      refine List.pairwise_cons.mpr ⟨fun s hs => ?_, h⟩
      have := key_le_head h hs
      rw [Quality.le_iff] at this ⊢
      rw [Quality.lt_iff] at hlt
      omega
    · next hlt =>
      rw [Quality.not_lt] at hlt
      refine List.pairwise_cons.mpr ⟨fun s hs => ?_, ih hk⟩
      rcases mem_insertByQuality.mp hs with rfl | hs
      · exact hlt
      · exact ht s hs

lemma level_insertByQuality (k : ℤ) (r : MediaRange) {kept : List MediaRange}
    (h : Descends MediaRange.quality kept) :
    level MediaRange.quality k (insertByQuality r kept) =
      level MediaRange.quality k (kept ++ [r]) := by
  induction kept with
  | nil => simp [insertByQuality]
  | cons t kept ih =>
    rw [insertByQuality]
    split
    · next hlt =>
      rw [Quality.lt_iff] at hlt
      by_cases hk : r.quality.signed = k
      · have hempty : level MediaRange.quality k (t :: kept) = [] := by
          refine List.filter_eq_nil_iff.mpr fun s hs => ?_
          have := key_le_head h hs
          rw [Quality.le_iff] at this
          rw [decide_eq_true_eq]
          omega
        rw [level_append, level_cons, hempty]
        simp
      · have hr : level MediaRange.quality k [r] = [] := by simp [level, hk]
        rw [level_append, level_cons, hr, List.nil_append, List.append_nil]
    · rw [level_cons, ih (List.Pairwise.of_cons h), ← level_cons, List.cons_append]

lemma foldl_insertByQuality (rs : List MediaRange) {kept : List MediaRange}
    (h : Descends MediaRange.quality kept) :
    rs.foldl (fun kept r => insertByQuality r kept) kept =
      descending MediaRange.quality (kept ++ rs) := by
  induction rs generalizing kept with
  | nil => exact eq_descending h fun k => by simp
  | cons r rs ih =>
    rw [List.foldl_cons, ih (descends_insertByQuality r h)]
    refine eq_descending (descends_descending _) fun k => ?_
    calc level MediaRange.quality k (descending MediaRange.quality (insertByQuality r kept ++ rs))
        = level MediaRange.quality k (insertByQuality r kept) ++ level MediaRange.quality k rs := by
          rw [level_descending, level_append]
      _ = level MediaRange.quality k (kept ++ [r]) ++ level MediaRange.quality k rs := by
          rw [level_insertByQuality k r h]
      _ = level MediaRange.quality k (kept ++ r :: rs) := by
          rw [← level_append, List.append_assoc, List.singleton_append]

end ContentNegotiation
