import ContentNegotiation.Proofs.Cutting
import ContentNegotiation.Text.Bytes
import Mathlib.Data.List.Basic
import Mathlib.Tactic.Common

/-!
Comparing the ends of texts by slices of their bytes.

The positions where a slice can be taken are those between two characters, so every slice is the
bytes of a text. Bytes settle the text, and folding the case of ASCII letters in the bytes folds it
in the characters. So a comparison of slices as long as another text is a comparison of characters,
however long their encodings are.
-/

namespace ContentNegotiation

open Text

variable {s t x y : Text} {c : Char} {i : ℕ}

/-- The text begins with the characters of the other, up to the case of ASCII letters. -/
def Text.StartsWith (s t : Text) : Prop := ∃ x y, s = x ++ y ∧ fold x = fold t

/-- The text ends with the characters of the other, up to the case of ASCII letters. -/
def Text.EndsWith (s t : Text) : Prop := ∃ x y, s = y ++ x ∧ fold x = fold t

namespace Text

/-! ### Characters -/

lemma foldStartsWith_iff : foldStartsWith s t = true ↔ StartsWith s t := by
  rw [foldStartsWith, foldEq_iff]
  constructor
  · intro h
    exact ⟨_, _, (List.take_append_drop t.length s).symm, h⟩
  · rintro ⟨x, y, rfl, h⟩
    have hlength : x.length = t.length := by rw [← length_fold, h, length_fold]
    rw [List.take_left' hlength, h]

lemma foldEndsWith_iff : foldEndsWith s t = true ↔ EndsWith s t := by
  rw [foldEndsWith, foldEq_iff]
  constructor
  · intro h
    exact ⟨_, _, (List.take_append_drop (s.length - t.length) s).symm, h⟩
  · rintro ⟨x, y, rfl, h⟩
    have hlength : x.length = t.length := by rw [← length_fold, h, length_fold]
    have hstart : (y ++ x).length - t.length = y.length := by
      rw [List.length_append]
      omega
    rw [hstart, List.drop_left, h]

instance (s t : Text) : Decidable (StartsWith s t) := decidable_of_iff _ foldStartsWith_iff

instance (s t : Text) : Decidable (EndsWith s t) := decidable_of_iff _ foldEndsWith_iff

/-! ### Bytes -/

@[simp] lemma utf8_nil : utf8 [] = [] := rfl

lemma utf8_cons (c : Char) (s : Text) : utf8 (c :: s) = String.utf8EncodeChar c ++ utf8 s :=
  List.flatMap_cons

lemma utf8_append (s t : Text) : utf8 (s ++ t) = utf8 s ++ utf8 t := List.flatMap_append

lemma utf8_injective : Function.Injective utf8 := by
  intro s t h
  have hencode : s.utf8Encode = t.utf8Encode := congrArg List.toByteArray h
  rw [← String.toByteArray_ofList, ← String.toByteArray_ofList, String.toByteArray_inj] at hencode
  exact String.ofList_injective hencode

end Text

namespace Bytes

lemma isBoundary_iff {bs : Bytes} :
    bs.isBoundary i = true ↔ i = bs.length ∨ ∃ b ∈ bs[i]?, b.IsUTF8FirstByte := by
  simp [isBoundary, Option.any_eq_true]

/-- Within the bytes of a character no other one begins. -/
lemma isBoundary_cons : (utf8 (c :: s)).isBoundary i = true ↔
    i = 0 ∨ c.utf8Size ≤ i ∧ (utf8 s).isBoundary (i - c.utf8Size) = true := by
  have hlength := String.length_utf8EncodeChar c
  have hpos := Char.utf8Size_pos c
  rw [isBoundary_iff, isBoundary_iff, utf8_cons, List.length_append, hlength]
  by_cases hi : i < c.utf8Size
  · have hget : (String.utf8EncodeChar c ++ utf8 s)[i]? = some (String.utf8EncodeChar c)[i] := by
      rw [List.getElem?_append_left (by omega), List.getElem?_eq_getElem]
    simp only [hget, Option.mem_some_iff, exists_eq_left',
      UInt8.isUTF8FirstByte_getElem_utf8EncodeChar]
    omega
  · rw [List.getElem?_append_right (by omega), hlength]
    have hend : i = c.utf8Size + (utf8 s).length ↔ i - c.utf8Size = (utf8 s).length := by omega
    rw [hend]
    have hle : c.utf8Size ≤ i := by omega
    have hne : i ≠ 0 := by omega
    simp only [hle, hne, true_and, false_or]

/-- **Slices are cut between characters**: the boundaries are the ends of the encoded beginnings of
the text. -/
theorem isBoundary_utf8 :
    (utf8 s).isBoundary i = true ↔ ∃ x y, s = x ++ y ∧ (utf8 x).length = i := by
  induction s generalizing i with
  | nil =>
    rw [isBoundary_iff]
    constructor
    · rintro (rfl | ⟨b, hb, -⟩)
      · exact ⟨[], [], rfl, rfl⟩
      · simp at hb
    · rintro ⟨x, y, h, rfl⟩
      obtain ⟨rfl, rfl⟩ := List.append_eq_nil_iff.mp h.symm
      exact Or.inl rfl
  | cons c s ih =>
    rw [isBoundary_cons, ih]
    constructor
    · rintro (rfl | ⟨hle, x, y, rfl, hx⟩)
      · exact ⟨[], c :: s, rfl, rfl⟩
      · refine ⟨c :: x, y, rfl, ?_⟩
        rw [utf8_cons, List.length_append, String.length_utf8EncodeChar, hx]
        omega
    · rintro ⟨_ | ⟨d, x⟩, y, h, rfl⟩
      · exact Or.inl rfl
      · obtain ⟨rfl, rfl⟩ := List.cons.inj h
        right
        rw [utf8_cons, List.length_append, String.length_utf8EncodeChar]
        exact ⟨by omega, x, y, rfl, by omega⟩

/-! ### Case -/

lemma lower_of_le {b : UInt8} (h : 128 ≤ b) : lower b = b := by
  rw [lower, if_neg]
  rintro ⟨-, hb⟩
  rw [UInt8.le_iff_toNat_le] at h hb
  have h128 : (128 : UInt8).toNat = 128 := rfl
  have h90 : (90 : UInt8).toNat = 90 := rfl
  omega

lemma le_of_mem_utf8EncodeChar (h : 127 < c.toNat) {b : UInt8}
    (hb : b ∈ String.utf8EncodeChar c) : 128 ≤ b := by
  have h128 : (128 : UInt8).toNat = 128 := rfl
  have hval : c.val.toNat = c.toNat := rfl
  unfold String.utf8EncodeChar at hb
  rw [UInt8.le_iff_toNat_le, h128]
  simp only [hval] at hb
  split at hb
  · omega
  split at hb
  · simp only [List.mem_cons, List.not_mem_nil, or_false] at hb
    rcases hb with rfl | rfl <;> rw [UInt8.toNat_ofNat'] <;> omega
  split at hb
  · simp only [List.mem_cons, List.not_mem_nil, or_false] at hb
    rcases hb with rfl | rfl | rfl <;> rw [UInt8.toNat_ofNat'] <;> omega
  · simp only [List.mem_cons, List.not_mem_nil, or_false] at hb
    rcases hb with rfl | rfl | rfl | rfl <;> rw [UInt8.toNat_ofNat'] <;> omega

lemma map_lower_ascii : ∀ n < 128,
    (String.utf8EncodeChar (Char.ofNat n)).map lower =
      String.utf8EncodeChar (Char.ofNat n).toLower := by
  decide

lemma map_lower_utf8EncodeChar (c : Char) :
    (String.utf8EncodeChar c).map lower = String.utf8EncodeChar c.toLower := by
  rcases Nat.lt_or_ge c.toNat 128 with h | h
  · have hascii := map_lower_ascii c.toNat h
    rwa [Char.ofNat_toNat] at hascii
  · have hlower : c.toLower = c := by
      have hval : c.val.toNat = c.toNat := rfl
      have hZ : 'Z'.val.toNat = 90 := rfl
      unfold Char.toLower
      rw [dif_neg]
      rw [UInt32.le_iff_toNat_le]
      omega
    rw [hlower]
    exact (List.map_congr_left fun b hb => lower_of_le (le_of_mem_utf8EncodeChar h hb)).trans
      (List.map_id _)

theorem map_lower_utf8 (s : Text) : (utf8 s).map lower = utf8 (fold s) := by
  induction s with
  | nil => rfl
  | cons c s ih =>
    rw [utf8_cons, List.map_append, map_lower_utf8EncodeChar, ih, ← utf8_cons]
    rfl

lemma foldEq_utf8 : foldEq (utf8 x) (utf8 t) = true ↔ fold x = fold t := by
  rw [foldEq, beq_iff_eq, map_lower_utf8, map_lower_utf8, utf8_injective.eq_iff]

lemma length_utf8_of_fold (h : fold x = fold t) : (utf8 x).length = (utf8 t).length := by
  have hlength := congrArg (List.length ∘ utf8) h
  simp only [Function.comp_apply, ← map_lower_utf8, List.length_map] at hlength
  exact hlength

/-! ### The ends of a text -/

lemma upTo?_utf8 {bs : Bytes} : (utf8 s).upTo? i = some bs ↔
    ∃ x y, s = x ++ y ∧ (utf8 x).length = i ∧ bs = utf8 x := by
  rw [upTo?, Option.ite_none_right_eq_some, isBoundary_utf8, Option.some.injEq]
  constructor
  · rintro ⟨⟨x, y, rfl, rfl⟩, rfl⟩
    exact ⟨x, y, rfl, rfl, by rw [utf8_append, List.take_left]⟩
  · rintro ⟨x, y, rfl, rfl, rfl⟩
    exact ⟨⟨x, y, rfl, rfl⟩, by rw [utf8_append, List.take_left]⟩

lemma from?_utf8 {bs : Bytes} : (utf8 s).from? i = some bs ↔
    ∃ x y, s = x ++ y ∧ (utf8 x).length = i ∧ bs = utf8 y := by
  rw [from?, Option.ite_none_right_eq_some, isBoundary_utf8, Option.some.injEq]
  constructor
  · rintro ⟨⟨x, y, rfl, rfl⟩, rfl⟩
    exact ⟨x, y, rfl, rfl, by rw [utf8_append, List.drop_left]⟩
  · rintro ⟨x, y, rfl, rfl, rfl⟩
    exact ⟨⟨x, y, rfl, rfl⟩, by rw [utf8_append, List.drop_left]⟩

example : (utf8 "é=".toList).upTo? 2 = some (utf8 ['é']) ∧ (utf8 "é=".toList).upTo? 1 = none := by
  decide

theorem foldStartsWith_utf8 : foldStartsWith (utf8 s) (utf8 t) = true ↔ StartsWith s t := by
  rw [foldStartsWith, Option.any_eq_true]
  simp only [upTo?_utf8]
  constructor
  · rintro ⟨bs, ⟨x, y, rfl, -, rfl⟩, h⟩
    exact ⟨x, y, rfl, foldEq_utf8.mp h⟩
  · rintro ⟨x, y, rfl, h⟩
    exact ⟨utf8 x, ⟨x, y, rfl, length_utf8_of_fold h, rfl⟩, foldEq_utf8.mpr h⟩

theorem foldEndsWith_utf8 : foldEndsWith (utf8 s) (utf8 t) = true ↔ EndsWith s t := by
  rw [foldEndsWith, Bool.and_eq_true, decide_eq_true_eq, Option.any_eq_true]
  simp only [from?_utf8]
  constructor
  · rintro ⟨-, bs, ⟨x, y, rfl, -, rfl⟩, h⟩
    exact ⟨y, x, rfl, foldEq_utf8.mp h⟩
  · rintro ⟨x, y, rfl, h⟩
    have hlength := length_utf8_of_fold h
    rw [utf8_append, List.length_append]
    exact ⟨by omega, utf8 x, ⟨y, x, rfl, by omega, rfl⟩, foldEq_utf8.mpr h⟩

end Bytes

end ContentNegotiation
