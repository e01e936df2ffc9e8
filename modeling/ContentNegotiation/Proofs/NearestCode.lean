import ContentNegotiation.Quality.Basic
import Mathlib.Data.Nat.Log
import Mathlib.Order.Monotone.Basic
import Mathlib.Tactic.Common

/-!
Searching the code that a decimal rounds to finds it.

The midpoints between neighbours ascend with the codes, so a decimal that rounds to a code passes
all midpoints below the code and none from the code on. Halving finds the place where this
changes. Moving the exponent of the decimal into bounds first changes no comparison with a midpoint
below `2⁶³`, and no comparison tells two decimals of the same value apart.
-/

namespace ContentNegotiation

-- Powers of natural numbers are those of the core library, as in the definitions.
attribute [local instance (high)] instPowNat

variable {code i : Nat}

/-! ### Codes, numbers and midpoints -/

def mantissa (code : Nat) : Nat :=
  if code / binade = 0 then code % binade else binade + code % binade

/-- Half the distance from the number with the code to the next one. -/
def scale (code : Nat) : Nat := 2 ^ (code / binade - 1)

lemma units_eq (code : Nat) : units code = 2 * mantissa code * scale code := by
  unfold units mantissa scale
  by_cases h : code / binade = 0
  · simp [h]
  · simp [h]

lemma midpoint_eq (code : Nat) : midpoint code = (2 * mantissa code + 1) * scale code := by
  unfold midpoint mantissa scale
  by_cases h : code / binade = 0
  · simp [h]
  · simp [h]

lemma scale_pos (code : Nat) : 0 < scale code := Nat.two_pow_pos _

lemma units_lt_midpoint (code : Nat) : units code < midpoint code := by
  rw [units_eq, midpoint_eq]
  exact Nat.mul_lt_mul_of_pos_right (Nat.lt_succ_self _) (scale_pos code)

lemma div_mod_succ (h : code % binade + 1 < binade) :
    (code + 1) / binade = code / binade ∧ (code + 1) % binade = code % binade + 1 := by
  rw [Nat.div_mod_unique (Nat.zero_lt_of_lt h)]
  have := Nat.mod_add_div code binade
  exact ⟨by omega, h⟩

lemma div_mod_succ_last (h : ¬ code % binade + 1 < binade) :
    (code + 1) / binade = code / binade + 1 ∧ (code + 1) % binade = 0 := by
  have hpos : 0 < binade := by decide
  rw [Nat.div_mod_unique hpos]
  have hdiv := Nat.mod_add_div code binade
  have hmod := Nat.mod_lt code hpos
  refine ⟨?_, hpos⟩
  rw [Nat.mul_succ]
  omega

lemma midpoint_pos (code : Nat) : 0 < midpoint code :=
  Nat.lt_of_le_of_lt (Nat.zero_le _) (units_lt_midpoint code)

lemma midpoint_lt_units (code : Nat) : midpoint code < units (code + 1) := by
  rw [units_eq, midpoint_eq]
  by_cases hf : code % binade + 1 < binade
  · -- the next number is in the same binade
    obtain ⟨hdiv, hmod⟩ := div_mod_succ hf
    have hscale : scale (code + 1) = scale code := by rw [scale, hdiv, scale]
    have hmantissa : mantissa (code + 1) = mantissa code + 1 := by
      unfold mantissa
      rw [hdiv, hmod]
      split
      · rfl
      · rfl
    rw [hscale, hmantissa]
    exact Nat.mul_lt_mul_of_pos_right (by omega) (scale_pos code)
  · obtain ⟨hdiv, hmod⟩ := div_mod_succ_last hf
    have hmantissa : mantissa (code + 1) = binade := by
      unfold mantissa
      rw [hdiv, hmod, if_neg (Nat.succ_ne_zero _), Nat.add_zero]
    have hlast := Nat.mod_lt code (show 0 < binade by decide)
    rw [hmantissa]
    by_cases he : code / binade = 0
    · have hscale : scale code = 1 ∧ scale (code + 1) = 1 := by
        unfold scale
        rw [hdiv, he]
        exact ⟨rfl, rfl⟩
      have hcode : mantissa code = code % binade := if_pos he
      rw [hscale.1, hscale.2, hcode]
      omega
    · have hscale : scale (code + 1) = 2 * scale code := by
        unfold scale
        rw [hdiv, Nat.add_sub_cancel, ← Nat.pow_succ', Nat.succ_eq_add_one,
          Nat.sub_add_cancel (Nat.one_le_iff_ne_zero.mpr he)]
      have hcode : mantissa code = binade + code % binade := if_neg he
      rw [hscale, hcode, ← Nat.mul_assoc]
      exact Nat.mul_lt_mul_of_pos_right (by omega) (scale_pos code)

lemma strictMono_midpoint : StrictMono midpoint :=
  strictMono_nat_of_lt_succ fun code => (midpoint_lt_units code).trans (units_lt_midpoint _)

/-! ### Halving -/

lemma bisect_eq {p : Nat → Bool} {k lo m : Nat} (hlo : lo ≤ m) (hhi : m < lo + 2 ^ k)
    (hp : ∀ i < lo + 2 ^ k, p i = true ↔ m ≤ i) : bisect p k lo = m := by
  -- each half that is searched holds `m`, and the property holds from `m` on in it
  induction k generalizing lo with
  | zero =>
    rw [Nat.pow_zero] at hhi
    rw [bisect]
    omega
  | succ k ih =>
    rw [Nat.pow_succ] at hhi hp
    have hpos := Nat.two_pow_pos k
    have hmid := hp (lo + 2 ^ k - 1) (by omega)
    rw [bisect]
    by_cases h : m ≤ lo + 2 ^ k - 1
    · rw [if_pos (hmid.mpr h)]
      exact ih hlo (by omega) fun i hi => hp i (by omega)
    · rw [if_neg (mt hmid.mp h)]
      exact ih (by omega) (by omega) fun i hi => hp i (by omega)

namespace Decimal

variable {d d' : Decimal}

/-! ### Comparing a decimal with midpoints -/

lemma denominator_pos (d : Decimal) : 0 < d.denominator := Nat.pow_pos (by decide)

lemma numerator_of_nonpos (h : d.exponent ≤ 0) : d.numerator = d.digits := by
  unfold numerator
  rw [Int.toNat_of_nonpos h, Nat.pow_zero, Nat.mul_one]

lemma denominator_of_nonneg (h : 0 ≤ d.exponent) : d.denominator = 1 := by
  unfold denominator
  rw [Int.toNat_of_nonpos (Int.neg_nonpos_of_nonneg h), Nat.pow_zero]

lemma roundsBelow_iff : d.roundsBelow code = true ↔
    d.numerator * unitsOfOne < midpoint code * d.denominator ∨
      d.numerator * unitsOfOne = midpoint code * d.denominator ∧ code % 2 = 0 := by
  unfold roundsBelow
  simp only [Bool.or_eq_true, Bool.and_eq_true, decide_eq_true_eq]

def SameValue (d d' : Decimal) : Prop :=
  d.numerator * d'.denominator = d'.numerator * d.denominator

/-- **Rounding sees the value alone.** -/
theorem SameValue.roundsBelow_eq (h : SameValue d d') (code : Nat) :
    d.roundsBelow code = d'.roundsBelow code := by
  -- both comparisons, multiplied by the denominator of the other decimal
  have hscale : d.numerator * unitsOfOne * d'.denominator =
      d'.numerator * unitsOfOne * d.denominator := by
    rw [Nat.mul_right_comm, h, Nat.mul_right_comm]
  have hmid : midpoint code * d.denominator * d'.denominator =
      midpoint code * d'.denominator * d.denominator := Nat.mul_right_comm _ _ _
  have hlt : d.numerator * unitsOfOne < midpoint code * d.denominator ↔
      d'.numerator * unitsOfOne < midpoint code * d'.denominator := by
    rw [← Nat.mul_lt_mul_right d'.denominator_pos, hscale, hmid,
      Nat.mul_lt_mul_right d.denominator_pos]
  have heq : d.numerator * unitsOfOne = midpoint code * d.denominator ↔
      d'.numerator * unitsOfOne = midpoint code * d'.denominator := by
    rw [← Nat.mul_left_inj (Nat.ne_of_gt d'.denominator_pos), hscale, hmid,
      Nat.mul_left_inj (Nat.ne_of_gt d.denominator_pos)]
  rw [Bool.eq_iff_iff, roundsBelow_iff, roundsBelow_iff, hlt, heq]

theorem SameValue.roundsTo_eq (h : SameValue d d') (code : Nat) :
    d.roundsTo code = d'.roundsTo code := by
  unfold roundsTo
  rw [h.roundsBelow_eq, h.roundsBelow_eq]

/-- A decimal passes the midpoints below the code that it rounds to and no others. -/
lemma roundsBelow_iff_le (h : d.roundsTo code = true) (i : Nat) :
    d.roundsBelow i = true ↔ code ≤ i := by
  have hmono : ∀ {j k}, j < k → midpoint j * d.denominator < midpoint k * d.denominator :=
    fun hjk => Nat.mul_lt_mul_of_pos_right (strictMono_midpoint hjk) d.denominator_pos
  simp only [roundsTo, Bool.and_eq_true, Bool.or_eq_true, decide_eq_true_eq,
    Bool.not_eq_true'] at h
  constructor
  · -- below the code the decimal is past the midpoint under it, and so past all lower ones
    intro hi
    by_contra hlt
    have hcode := Bool.eq_false_iff.mp (h.2.resolve_left (by omega))
    rw [Ne, roundsBelow_iff] at hcode
    rw [roundsBelow_iff] at hi
    rcases Nat.lt_or_eq_of_le (Nat.le_sub_one_of_lt (Nat.lt_of_not_le hlt)) with hi' | rfl
    · have := hmono hi'
      omega
    · exact hcode hi
  · intro hi
    rcases Nat.lt_or_eq_of_le hi with hi' | rfl
    · have hcode := roundsBelow_iff.mp h.1
      have := hmono hi'
      rw [roundsBelow_iff]
      omega
    · exact h.1

/-! ### Bounds on the exponent -/

lemma roundsBelow_of_tiny (h : d.exponent ≤ -(d.digits.log2 + 400 : Nat)) (code : Nat) :
    d.roundsBelow code = true := by
  have hdigits : d.digits < 2 ^ (d.digits.log2 + 1) := Nat.lt_log2_self
  have hnumerator : d.numerator = d.digits := numerator_of_nonpos (by omega)
  have hdenominator : 10 ^ (d.digits.log2 + 400) ≤ d.denominator :=
    Nat.pow_le_pow_right (by decide) (by omega)
  have hunits : 2 * unitsOfOne ≤ 10 ^ (400 : Nat) := by decide +kernel
  have hpow : 2 ^ d.digits.log2 ≤ 10 ^ d.digits.log2 := Nat.pow_le_pow_left (by decide) _
  rw [roundsBelow_iff]
  left
  calc d.numerator * unitsOfOne
      < 2 ^ (d.digits.log2 + 1) * unitsOfOne := by
        rw [hnumerator]
        exact Nat.mul_lt_mul_of_pos_right hdigits (by decide +kernel)
    _ = 2 ^ d.digits.log2 * (2 * unitsOfOne) := by rw [Nat.pow_succ, Nat.mul_assoc]
    _ ≤ 10 ^ d.digits.log2 * 10 ^ (400 : Nat) := Nat.mul_le_mul hpow hunits
    _ = 10 ^ (d.digits.log2 + 400) := by rw [Nat.pow_add]
    _ ≤ midpoint code * d.denominator := by
        rw [← Nat.one_mul (10 ^ _)]
        exact Nat.mul_le_mul (midpoint_pos code) hdenominator

lemma midpoint_lt_of_lt (h : code < 2 ^ (63 : Nat)) :
    midpoint code < 10 ^ (400 : Nat) * unitsOfOne := by
  have hbinade : binade = 2 ^ 52 := rfl
  have hmod : code % binade < binade := Nat.mod_lt code (by decide)
  have hexponent : code / binade - 1 ≤ 2046 := by
    have : code / binade < 2 ^ 11 := Nat.div_lt_of_lt_mul (by rw [hbinade]; exact h)
    omega
  have hmantissa : 2 * mantissa code + 1 ≤ 2 ^ 54 := by
    unfold mantissa
    rw [hbinade] at hmod ⊢
    split <;> omega
  have hscale := Nat.pow_le_pow_right (n := 2) (by decide) hexponent
  calc midpoint code
      = (2 * mantissa code + 1) * 2 ^ (code / binade - 1) := midpoint_eq code
    _ ≤ 2 ^ 54 * 2 ^ (2046 : Nat) := Nat.mul_le_mul hmantissa hscale
    _ < 10 ^ (400 : Nat) * unitsOfOne := by decide +kernel

lemma roundsBelow_of_huge (h : 400 ≤ d.exponent) (hcode : code < 2 ^ (63 : Nat)) :
    d.roundsBelow code = true ↔ d.digits = 0 := by
  have hmid := midpoint_lt_of_lt hcode
  have hdenominator : d.denominator = 1 := denominator_of_nonneg (by omega)
  have hexponent : 400 ≤ d.exponent.toNat := by omega
  have hpow := Nat.pow_le_pow_right (n := 10) (by decide) hexponent
  rw [roundsBelow_iff, hdenominator, Nat.mul_one, numerator]
  rcases Nat.eq_zero_or_pos d.digits with hzero | hpos
  · rw [hzero, Nat.zero_mul, Nat.zero_mul]
    exact iff_of_true (Or.inl (midpoint_pos code)) rfl
  · have hdigits := Nat.le_trans hpow (Nat.le_mul_of_pos_left _ hpos)
    have hnumber := Nat.mul_le_mul_right unitsOfOne hdigits
    have hlt := Nat.lt_of_lt_of_le hmid hnumber
    refine iff_of_false ?_ (Nat.ne_of_gt hpos)
    rintro (hbelow | ⟨heq, -⟩)
    · exact Nat.lt_asymm hlt hbelow
    · exact Nat.ne_of_gt hlt heq

/-- Moving the exponent into bounds changes no comparison. -/
lemma roundsBelow_bounded (hcode : code < 2 ^ (63 : Nat)) :
    d.bounded.roundsBelow code = d.roundsBelow code := by
  have hdigits : d.bounded.digits = d.digits := rfl
  have hexponent : d.bounded.exponent =
      max (-((d.digits.log2 + 400 : Nat) : Int)) (min d.exponent 400) := rfl
  -- out of bounds on either side both decimals compare alike with every midpoint
  by_cases hlow : d.exponent ≤ -(d.digits.log2 + 400 : Nat)
  · rw [roundsBelow_of_tiny hlow, roundsBelow_of_tiny (by rw [hexponent, hdigits]; omega)]
  · by_cases hhigh : 400 ≤ d.exponent
    · rw [Bool.eq_iff_iff, roundsBelow_of_huge hhigh hcode,
        roundsBelow_of_huge (by rw [hexponent]; omega) hcode, hdigits]
    · have hsame : d.bounded = d := by
        unfold bounded
        rw [show max (-((d.digits.log2 + 400 : Nat) : Int)) (min d.exponent 400) = d.exponent by
          omega]
      rw [hsame]

/-- **The search finds the code that the decimal rounds to.** -/
theorem nearest_eq (h : d.roundsTo code = true) (hcode : code < 2 ^ (63 : Nat)) :
    d.nearest = code := by
  apply bisect_eq (Nat.zero_le _) (by omega)
  intro i hi
  rw [roundsBelow_bounded (by omega), roundsBelow_iff_le h]

end Decimal

end ContentNegotiation
