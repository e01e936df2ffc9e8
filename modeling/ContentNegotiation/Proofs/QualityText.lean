import ContentNegotiation.Proofs.NearestCode
import ContentNegotiation.Proofs.QualitySpan
import ContentNegotiation.Quality.Shortest
import Mathlib.Tactic.Ring

/-!
The text of a quality reads back to the quality.

The decimal that is written rounds to the number, whichever search found it, and its layout in
digits is read as a decimal of the same value. No character of it is blank or a separator of a
header.
-/

namespace ContentNegotiation

attribute [local instance (high)] instPowNat

namespace Decimal

variable {d d' below above : Decimal} {code : Nat} {exponent : Int} {preferBelow : Bool}

/-! ### The decimal that is written -/

lemma roundsTo_of_pick? (h : pick? code below above preferBelow = some d) :
    d.roundsTo code = true := by
  unfold pick? at h
  split at h
  · next hbelow =>
    cases h
    exact (Bool.and_eq_true_iff.mp hbelow).1
  · split at h
    · next habove =>
      cases h
      exact habove
    · cases h

lemma roundsTo_of_onGrid? (h : onGrid? code exponent = some d) : d.roundsTo code = true := by
  unfold onGrid? at h
  exact roundsTo_of_pick? h

lemma roundsTo_of_eq (h : d.numerator * unitsOfOne = units code * d.denominator) :
    d.roundsTo code = true := by
  have hpos := d.denominator_pos
  unfold roundsTo
  rw [Bool.and_eq_true, Bool.or_eq_true, decide_eq_true_eq, Bool.not_eq_true',
    ← Bool.not_eq_true, roundsBelow_iff, roundsBelow_iff, h]
  have hbelow := Nat.mul_lt_mul_of_pos_right (units_lt_midpoint code) hpos
  refine ⟨Or.inl hbelow, ?_⟩
  rcases code with _ | code
  · exact Or.inl rfl
  · have habove := Nat.mul_lt_mul_of_pos_right (midpoint_lt_units code) hpos
    rw [Nat.add_sub_cancel]
    omega

lemma roundsTo_exact (code : Nat) : (exact code).roundsTo code = true := by
  apply roundsTo_of_eq
  have hpow : Nat.pow 5 1075 * unitsOfOne = 10 ^ (-(-1075 : Int)).toNat := by decide +kernel
  have hnumerator : (exact code).numerator = units code * Nat.pow 5 1075 := Nat.mul_one _
  rw [hnumerator, Nat.mul_assoc, hpow]
  rfl

/-- **What is written rounds to the number.** -/
theorem roundsTo_shortest (code : Nat) : (shortest code).roundsTo code = true := by
  unfold shortest
  dsimp only
  -- a decimal that was found rounds to the code by the search, and the exact one is always there
  generalize hfind : List.findSome? _ _ = found
  rcases found with _ | d
  · rw [Option.getD_none]
    exact roundsTo_exact code
  · rw [Option.getD_some]
    obtain ⟨n, -, hn⟩ := List.exists_of_findSome?_eq_some hfind
    exact roundsTo_of_onGrid? hn

end Decimal

/-! ### Digits and their value -/

section Digits

variable {a b : Text} {c : Char} {k n : Nat}

lemma valueOfDigits_toDigits (n : Nat) : valueOfDigits (Nat.toDigits 10 n) = n :=
  Nat.ofDigitChars_ten_toDigits

lemma valueOfDigits_append (a b : Text) :
    valueOfDigits (a ++ b) = 10 ^ b.length * valueOfDigits a + valueOfDigits b := by
  unfold valueOfDigits
  rw [Nat.ofDigitChars_append, Nat.ofDigitChars_eq_ofDigitChars_zero]

lemma valueOfDigits_zeros (k : Nat) : valueOfDigits (List.replicate k '0') = 0 := by
  unfold valueOfDigits
  rw [Nat.ofDigitChars_replicate_zero, Nat.mul_zero]

lemma isDigit_of_mem_toDigits (h : c ∈ Nat.toDigits 10 n) : c.isDigit = true :=
  Nat.isDigit_of_mem_toDigits (by decide) (by decide) h

lemma span_digits (ha : ∀ c ∈ a, c.isDigit = true) (hb : ∀ c ∈ b.head?, c.isDigit = false) :
    (a ++ b).takeWhile Char.isDigit = a ∧ (a ++ b).dropWhile Char.isDigit = b := by
  rw [List.takeWhile_append_of_pos ha, List.dropWhile_append_of_pos ha]
  rcases b with _ | ⟨c, b⟩
  · simp
  · simp [hb c rfl]

def dropZeros (digits : Text) : Text := (digits.reverse.dropWhile (· = '0')).reverse

/-- The digits of the number, with zeros in front of them up to the length. -/
def padded (places n : Nat) : Text :=
  List.replicate (places - (Nat.toDigits 10 n).length) '0' ++ Nat.toDigits 10 n

lemma exists_dropZeros (digits : Text) :
    ∃ k, digits = dropZeros digits ++ List.replicate k '0' := by
  have hzeros : ∀ c ∈ digits.reverse.takeWhile (· = '0'), c = '0' := by
    intro c hc
    simpa using List.all_eq_true.mp List.all_takeWhile c hc
  have hsplit := List.takeWhile_append_dropWhile (p := (· = '0')) (l := digits.reverse)
  rw [List.eq_replicate_of_mem hzeros] at hsplit
  refine ⟨(digits.reverse.takeWhile (· = '0')).length, ?_⟩
  rw [dropZeros, ← List.reverse_replicate, ← List.reverse_append, hsplit, List.reverse_reverse]

lemma isDigit_of_mem_padded (h : c ∈ padded k n) : c.isDigit = true := by
  rcases List.mem_append.mp h with h | h
  · rw [List.eq_of_mem_replicate h]
    rfl
  · exact isDigit_of_mem_toDigits h

lemma isDigit_of_mem_dropZeros (h : c ∈ dropZeros (padded k n)) : c.isDigit = true := by
  obtain ⟨m, hm⟩ := exists_dropZeros (padded k n)
  apply isDigit_of_mem_padded
  rw [hm]
  exact List.mem_append_left _ h

lemma valueOfDigits_padded (k n : Nat) : valueOfDigits (padded k n) = n := by
  rw [padded, valueOfDigits_append, valueOfDigits_zeros, valueOfDigits_toDigits, Nat.mul_zero,
    Nat.zero_add]

lemma length_padded (hk : 0 < k) (hn : n < 10 ^ k) : (padded k n).length = k := by
  have hlength := (Nat.length_toDigits_le_iff (by decide) hk).mpr hn
  rw [padded, List.length_append, List.length_replicate, Nat.sub_add_cancel hlength]

/-- As a fraction, the digits of a number do not depend on the zeros at their end. -/
lemma valueOfDigits_dropZeros (hn : n < 10 ^ k) :
    10 ^ k * valueOfDigits (dropZeros (padded k n)) =
      10 ^ (dropZeros (padded k n)).length * n := by
  rcases Nat.eq_zero_or_pos k with rfl | hk
  · obtain rfl : n = 0 := by simpa using hn
    decide
  · obtain ⟨m, hm⟩ := exists_dropZeros (padded k n)
    have hvalue := valueOfDigits_padded k n
    have hlength := length_padded hk hn
    generalize dropZeros (padded k n) = digits at hm ⊢
    rw [hm, List.length_append, List.length_replicate] at hlength
    rw [hm, valueOfDigits_append, valueOfDigits_zeros, List.length_replicate,
      Nat.add_zero] at hvalue
    rw [← hlength, ← hvalue, Nat.pow_add, Nat.mul_assoc]

end Digits

namespace Decimal

/-! ### The layout and its reading -/

lemma layOut_eq (d : Decimal) : d.layOut =
    Nat.toDigits 10 (d.numerator / d.denominator) ++
      if dropZeros (padded (-d.exponent).toNat (d.numerator % d.denominator)) = [] then []
      else '.' :: dropZeros (padded (-d.exponent).toNat (d.numerator % d.denominator)) := rfl

lemma read?_digits {whole fraction : Text} (hne : whole ≠ [])
    (hwhole : ∀ c ∈ whole, c.isDigit = true) (hfraction : ∀ c ∈ fraction, c.isDigit = true) :
    read? (whole ++ if fraction = [] then [] else '.' :: fraction) =
      some { digits := valueOfDigits (whole ++ fraction), exponent := -fraction.length } := by
  rcases fraction with _ | ⟨c, fraction⟩
  · obtain ⟨htake, hdrop⟩ := span_digits hwhole (b := []) (by simp)
    rw [List.append_nil] at htake hdrop
    rw [if_pos rfl, List.append_nil]
    unfold read?
    simp only [htake, hdrop, hne, false_and, if_false, readExponent?, Option.map_some,
      List.append_nil, List.length_nil, Int.zero_sub]
  · obtain ⟨htake, hdrop⟩ := span_digits hwhole (b := '.' :: c :: fraction) (by simp)
    obtain ⟨hall, hnone⟩ := span_digits hfraction (b := []) (by simp)
    rw [List.append_nil] at hall hnone
    rw [if_neg (List.cons_ne_nil c fraction)]
    unfold read?
    simp only [htake, hdrop, hall, hnone, hne, false_and, if_false, readExponent?,
      Option.map_some, Int.zero_sub]

lemma numerator_neg (digits k : Nat) : numerator ⟨digits, -(k : Int)⟩ = digits :=
  numerator_of_nonpos (Int.neg_nonpos_of_nonneg (Int.natCast_nonneg k))

lemma denominator_neg (digits k : Nat) : denominator ⟨digits, -(k : Int)⟩ = 10 ^ k := by
  unfold denominator
  rw [Int.neg_neg, Int.toNat_natCast]

/-- **The layout of a decimal is read as a decimal of the same value.** -/
theorem exists_read?_layOut (d : Decimal) :
    ∃ d', read? d.layOut = some d' ∧ SameValue d d' := by
  have hmod : d.numerator % d.denominator < 10 ^ (-d.exponent).toNat :=
    Nat.mod_lt _ d.denominator_pos
  have hvalue := valueOfDigits_dropZeros hmod
  have hdigits : ∀ c ∈ dropZeros (padded (-d.exponent).toNat (d.numerator % d.denominator)),
      c.isDigit = true := fun c hc => isDigit_of_mem_dropZeros hc
  have hwhole : ∀ c ∈ Nat.toDigits 10 (d.numerator / d.denominator), c.isDigit = true :=
    fun c hc => isDigit_of_mem_toDigits hc
  have hread := read?_digits Nat.toDigits_ne_nil hwhole hdigits
  refine ⟨_, (congrArg read? d.layOut_eq).trans hread, ?_⟩
  generalize dropZeros _ = fraction at hvalue
  -- whole part and fraction are the quotient and the remainder by the denominator
  unfold SameValue
  rw [numerator_neg, denominator_neg, valueOfDigits_append, valueOfDigits_toDigits]
  change d.denominator * _ = _ at hvalue
  generalize 10 ^ fraction.length = shift at hvalue
  calc d.numerator * shift
      = shift * (d.denominator * (d.numerator / d.denominator) +
          d.numerator % d.denominator) := by rw [Nat.div_add_mod, Nat.mul_comm]
    _ = shift * (d.denominator * (d.numerator / d.denominator)) +
          d.denominator * valueOfDigits fraction := by rw [Nat.mul_add, hvalue]
    _ = (shift * (d.numerator / d.denominator) + valueOfDigits fraction) * d.denominator := by
        ring

lemma mem_layOut {d : Decimal} {c : Char} (h : c ∈ d.layOut) : c.isDigit = true ∨ c = '.' := by
  rw [layOut_eq, List.mem_append] at h
  rcases h with h | h
  · exact Or.inl (isDigit_of_mem_toDigits h)
  · split at h
    · exact absurd h List.not_mem_nil
    · rcases List.mem_cons.mp h with rfl | h
      · exact Or.inr rfl
      · exact Or.inl (isDigit_of_mem_dropZeros h)

lemma exists_layOut (d : Decimal) : ∃ c s, d.layOut = c :: s ∧ c.isDigit = true := by
  rcases hwhole : Nat.toDigits 10 (d.numerator / d.denominator) with _ | ⟨c, whole⟩
  · exact absurd hwhole Nat.toDigits_ne_nil
  · rw [layOut_eq, hwhole]
    refine ⟨c, _, rfl, isDigit_of_mem_toDigits (n := d.numerator / d.denominator) ?_⟩
    rw [hwhole]
    exact List.mem_cons_self

end Decimal

/-! ### Qualities -/

namespace Quality

variable {q : Quality} {c : Char}

def magnitudeText (code : Nat) : Text :=
  if code = 0 then ['0'] else (Decimal.shortest code).layOut

lemma render_eq (q : Quality) :
    q.render = (if q.negative then ['-'] else []) ++ magnitudeText q.code := rfl

lemma mem_magnitudeText {code : Nat} (h : c ∈ magnitudeText code) :
    c.isDigit = true ∨ c = '.' := by
  unfold magnitudeText at h
  split at h
  · obtain rfl := List.mem_singleton.mp h
    exact Or.inl rfl
  · exact Decimal.mem_layOut h

lemma exists_magnitudeText (code : Nat) :
    ∃ c s, magnitudeText code = c :: s ∧ c.isDigit = true := by
  unfold magnitudeText
  split
  · exact ⟨'0', [], rfl, rfl⟩
  · exact Decimal.exists_layOut _

lemma exists_read?_magnitudeText (code : Nat) :
    ∃ d, Decimal.read? (magnitudeText code) = some d ∧ d.roundsTo code = true := by
  unfold magnitudeText
  by_cases h : code = 0
  · rw [if_pos h, h]
    refine ⟨{ digits := 0, exponent := 0 }, by decide, ?_⟩
    have hzero : units 0 = 0 := rfl
    apply Decimal.roundsTo_of_eq
    rw [hzero, Decimal.numerator, Nat.zero_mul, Nat.zero_mul, Nat.zero_mul]
  · rw [if_neg h]
    obtain ⟨d, hread, hvalue⟩ := Decimal.exists_read?_layOut (Decimal.shortest code)
    refine ⟨d, hread, ?_⟩
    rw [← hvalue.roundsTo_eq]
    exact Decimal.roundsTo_shortest code

lemma mem_render (h : c ∈ q.render) : c.isDigit = true ∨ c = '.' ∨ c = '-' := by
  rw [render_eq, List.mem_append] at h
  rcases h with h | h
  · split at h
    · exact Or.inr (Or.inr (List.mem_singleton.mp h))
    · exact absurd h List.not_mem_nil
  · rcases mem_magnitudeText h with h | h
    · exact Or.inl h
    · exact Or.inr (Or.inl h)

lemma not_isBlank_of_isDigit (h : c.isDigit = true) : Text.isBlank c = false := by
  have hdigit : 48 ≤ c.toNat ∧ c.toNat ≤ 57 := by
    simpa [Char.isDigit, UInt32.le_iff_toNat_le] using h
  simp only [Text.isBlank, Text.blankRanges, List.any_cons, List.any_nil, Bool.or_eq_false_iff,
    Bool.and_eq_false_iff, decide_eq_false_iff_not, and_true]
  omega

lemma splitSign_digit (h : c.isDigit = true) (s : Text) :
    splitSign (c :: s) = (false, c :: s) := by
  unfold splitSign
  split
  · next heq =>
    obtain ⟨rfl, -⟩ := List.cons.inj heq
    cases h
  · next heq =>
    obtain ⟨rfl, -⟩ := List.cons.inj heq
    cases h
  · rfl

lemma splitSign_render (q : Quality) :
    splitSign q.render = (q.negative, magnitudeText q.code) := by
  rw [render_eq]
  rcases q.negative with _ | _
  · obtain ⟨c, s, hs, hc⟩ := exists_magnitudeText q.code
    rw [hs]
    exact splitSign_digit hc s
  · rfl

lemma ofDecimal?_eq {d : Decimal} (h : d.nearest = q.code) :
    ofDecimal? q.negative d = some q := by
  unfold ofDecimal?
  generalize d.nearest = code at h
  subst h
  rw [dif_pos q.code_lt]

/-- **The text of a quality is read back as the quality**, the sign of zero included. -/
theorem read_render (q : Quality) : read q.render = .ok q := by
  obtain ⟨d, hread, hrounds⟩ := exists_read?_magnitudeText q.code
  have htrim : Text.trim q.render = q.render := by
    apply Text.trim_eq_self_of_not_blank
    intro c hc
    rcases mem_render hc with h | rfl | rfl
    · exact not_isBlank_of_isDigit h
    · rfl
    · rfl
  have hlimit : infinityCode < 2 ^ 63 := by decide
  have hnearest := Decimal.nearest_eq hrounds (q.code_lt.trans hlimit)
  rw [read_eq_ok, htrim]
  refine ⟨.finite q.negative d, ?_, ofDecimal?_eq hnearest⟩
  unfold Numeral.read?
  rw [splitSign_render]
  dsimp only
  rw [hread]

end Quality

end ContentNegotiation
