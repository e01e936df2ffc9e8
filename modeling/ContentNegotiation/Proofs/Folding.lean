import ContentNegotiation.Proofs.PieceReading
import ContentNegotiation.Proofs.QualitySpan
import Mathlib

/-!
Reading texts whose letters are in lower case.

A character that is no ASCII letter is told from all others whether letters are folded or not. So
a folded text is cut, trimmed and unquoted where the text itself is, the comparisons give the same
answers, and a quality is read as the same number or fails for the same reason.
-/

namespace ContentNegotiation

namespace Text

/-! ### Characters -/

lemma toLower_eq_self {c : Char} (h : c.isAlpha = false) : c.toLower = c := by
  rw [Char.isAlpha, Bool.or_eq_false_iff] at h
  exact Char.toLower_eq_of_not_isUpper (by simp [h.1])

/-- A property that no letter has does not depend on case. -/
lemma toLower_congr {p : Char → Bool} (hp : ∀ c, p c = true → c.isAlpha = false) (c : Char) :
    p c.toLower = p c := by
  rcases halpha : c.isAlpha with _ | _
  · rw [toLower_eq_self halpha]
  · have hnot : ∀ d : Char, d.isAlpha = true → p d = false := by
      intro d hd
      rcases hpd : p d with _ | _
      · rfl
      · rw [hp d hpd] at hd
        cases hd
    rw [hnot c halpha, hnot c.toLower (by rw [Char.isAlpha_toLower_eq_isAlpha, halpha])]

lemma toLower_eq_iff {c d : Char} (h : d.isAlpha = false) : c.toLower = d ↔ c = d := by
  have hp := toLower_congr (p := fun c => c == d) (fun c hc => by rw [beq_iff_eq.mp hc, h]) c
  simpa using hp

lemma isAlpha_eq_false {c : Char} (h : c.toNat < 65 ∨ 122 < c.toNat) : c.isAlpha = false := by
  have hval : c.val.toNat = c.toNat := rfl
  have hA : 'A'.val.toNat = 65 := rfl
  have hZ : 'Z'.val.toNat = 90 := rfl
  have ha : 'a'.val.toNat = 97 := rfl
  have hz : 'z'.val.toNat = 122 := rfl
  rw [← Bool.not_eq_true]
  simp only [Char.isAlpha, Char.isUpper, Char.isLower, Bool.or_eq_true, Bool.and_eq_true,
    decide_eq_true_eq, UInt32.le_iff_toNat_le, ge_iff_le]
  omega

lemma isAlpha_of_isBlank {c : Char} (h : isBlank c = true) : c.isAlpha = false := by
  simp only [isBlank, blankRanges, List.any_cons, List.any_nil, Bool.or_false, Bool.or_eq_true,
    Bool.and_eq_true, decide_eq_true_eq] at h
  exact isAlpha_eq_false (by omega)

lemma isAlpha_of_isDigit {c : Char} (h : c.isDigit = true) : c.isAlpha = false := by
  have hval : c.val.toNat = c.toNat := rfl
  have hnine : '9'.val.toNat = 57 := rfl
  simp only [Char.isDigit, Bool.and_eq_true, decide_eq_true_eq, UInt32.le_iff_toNat_le] at h
  exact isAlpha_eq_false (by omega)

@[simp] lemma isBlank_toLower (c : Char) : isBlank c.toLower = isBlank c :=
  toLower_congr (fun _ => isAlpha_of_isBlank) c

@[simp] lemma isDigit_toLower (c : Char) : c.toLower.isDigit = c.isDigit :=
  toLower_congr (fun _ => isAlpha_of_isDigit) c

/-! ### Texts -/

variable {s t : Text} {c sep : Char}

@[simp] lemma fold_nil : fold [] = [] := rfl

@[simp] lemma fold_cons (c : Char) (s : Text) : fold (c :: s) = c.toLower :: fold s := rfl

@[simp] lemma fold_fold (s : Text) : fold (fold s) = fold s := by
  simp [fold, Function.comp_def]

lemma fold_eq_self (h : ∀ c ∈ s, c.isAlpha = false) : fold s = s := by
  have hchars : ∀ c ∈ s, c.toLower = id c := fun c hc => toLower_eq_self (h c hc)
  rw [fold, List.map_congr_left hchars, List.map_id]

lemma fold_eq_iff (h : ∀ c ∈ t, c.isAlpha = false) : fold s = t ↔ s = t := by
  induction s generalizing t with
  | nil => rw [fold_nil]
  | cons c s ih =>
    rcases t with _ | ⟨d, t⟩
    · simp
    · rw [List.forall_mem_cons] at h
      rw [fold_cons, List.cons.injEq, List.cons.injEq, toLower_eq_iff h.1, ih h.2]

@[simp] lemma foldEq_fold (s t : Text) : foldEq (fold s) (fold t) = foldEq s t := by
  rw [Bool.eq_iff_iff, foldEq_iff, foldEq_iff, fold_fold, fold_fold]

lemma infix_fold (h : ∀ c ∈ t, c.isAlpha = false) : t <:+: fold s ↔ t <:+: s := by
  rw [fold, List.infix_map_iff]
  constructor
  · rintro ⟨u, hu, heq⟩
    rw [← fold] at heq
    rwa [(fold_eq_iff h).mp heq.symm] at hu
  · intro hs
    exact ⟨t, hs, (fold_eq_self h).symm⟩

lemma split_fold (h : sep.isAlpha = false) (s : Text) :
    split sep (fold s) = (fold (split sep s).1, (split sep s).2.map fold) := by
  induction s with
  | nil => rfl
  | cons c s ih =>
    rw [fold_cons]
    by_cases hc : c = sep
    · subst hc
      rw [toLower_eq_self h, split_cons_sep, split_cons_sep, ih]
      rfl
    · have hlower : c.toLower ≠ sep := fun heq => hc ((toLower_eq_iff h).mp heq)
      rw [split_cons_of_ne hlower, split_cons_of_ne hc, ih]
      rfl

lemma cut_fold (h : sep.isAlpha = false) (s : Text) :
    cut sep (fold s) = (cut sep s).map (Prod.map fold fold) := by
  induction s with
  | nil => rfl
  | cons c s ih =>
    rw [fold_cons, cut, cut, ih]
    by_cases hc : c = sep
    · rw [if_pos ((toLower_eq_iff h).mpr hc), if_pos hc]
      rfl
    · rw [if_neg (fun heq => hc ((toLower_eq_iff h).mp heq)), if_neg hc]
      rcases cut sep s with _ | ⟨a, b⟩ <;> rfl

lemma trimStart_fold (s : Text) : trimStart (fold s) = fold (trimStart s) := by
  rw [trimStart, fold, List.dropWhile_map]
  simp [Function.comp_def, fold, trimStart]

lemma trim_fold (s : Text) : trim (fold s) = fold (trim s) := by
  have hreverse : ∀ t : Text, (fold t).reverse = fold t.reverse := fun t => by
    rw [fold, fold, List.map_reverse]
  rw [trim, trim, trimStart_fold, trimEnd, trimEnd, hreverse, ← trimStart, trimStart_fold,
    hreverse, trimStart]

lemma allBlank_fold (s : Text) : allBlank (fold s) = allBlank s := by
  simp [allBlank, fold, Function.comp_def]

lemma unquote_of_ne (h : c ≠ '"') (s : Text) : unquote (c :: s) = c :: s := by
  unfold unquote
  split
  · next heq => exact absurd (List.cons.inj heq).1 h
  · rfl

lemma unquote_fold (s : Text) : unquote (fold s) = fold (unquote s) := by
  have hquote : ('"').isAlpha = false := by decide
  rcases s with _ | ⟨c, s⟩
  · rfl
  · by_cases hc : c = '"'
    · subst hc
      have hlast : (fold s).getLast? = some '"' ↔ s.getLast? = some '"' := by
        rw [fold, List.getLast?_map, Option.map_eq_some_iff]
        simp only [toLower_eq_iff hquote, exists_eq_right]
      rw [fold_cons, toLower_eq_self hquote, unquote, unquote]
      simp only [hlast]
      split
      · rw [fold, fold, List.map_dropLast]
      · rfl
    · have hlower : c.toLower ≠ '"' := fun heq => hc ((toLower_eq_iff hquote).mp heq)
      rw [fold_cons, unquote_of_ne hlower, unquote_of_ne hc, fold_cons]

lemma foldStartsWith_fold (s t : Text) : foldStartsWith (fold s) (fold t) = foldStartsWith s t := by
  have htake : (fold s).take (fold t).length = fold (s.take t.length) := by
    rw [length_fold, fold, fold, List.map_take]
  rw [foldStartsWith, htake, foldEq_fold, foldStartsWith]

lemma foldEndsWith_fold (s t : Text) : foldEndsWith (fold s) (fold t) = foldEndsWith s t := by
  have hdrop : (fold s).drop ((fold s).length - (fold t).length) =
      fold (s.drop (s.length - t.length)) := by
    rw [length_fold, length_fold, fold, fold, List.map_drop]
  rw [foldEndsWith, hdrop, foldEq_fold, foldEndsWith]

end Text

open Text

/-! ### Qualities -/

lemma splitSign_fold (s : Text) : splitSign (fold s) = ((splitSign s).1, fold (splitSign s).2) := by
  have hminus : ('-').isAlpha = false := by decide
  have hplus : ('+').isAlpha = false := by decide
  have hother : ∀ {c : Char}, c ≠ '-' → c ≠ '+' → ∀ s, splitSign (c :: s) = (false, c :: s) := by
    intro c h h' s
    unfold splitSign
    split
    · next heq => exact absurd (List.cons.inj heq).1 h
    · next heq => exact absurd (List.cons.inj heq).1 h'
    · rfl
  rcases s with _ | ⟨c, s⟩
  · rfl
  · by_cases hc : c = '-'
    · rw [hc, fold_cons, toLower_eq_self hminus]
      rfl
    by_cases hc' : c = '+'
    · rw [hc', fold_cons, toLower_eq_self hplus]
      rfl
    have hlower : c.toLower ≠ '-' := fun heq => hc ((toLower_eq_iff hminus).mp heq)
    have hlower' : c.toLower ≠ '+' := fun heq => hc' ((toLower_eq_iff hplus).mp heq)
    rw [fold_cons, hother hlower hlower', hother hc hc', fold_cons]

lemma fold_digits {digits : Text} (h : ∀ c ∈ digits, c.isDigit = true) : fold digits = digits :=
  fold_eq_self fun c hc => isAlpha_of_isDigit (h c hc)

lemma takeWhile_isDigit_fold (s : Text) :
    (fold s).takeWhile Char.isDigit = s.takeWhile Char.isDigit := by
  have hdigits : fold (s.takeWhile Char.isDigit) = s.takeWhile Char.isDigit :=
    fold_digits fun c hc => List.mem_takeWhile_imp hc
  rw [fold, List.takeWhile_map]
  simpa [Function.comp_def, fold] using hdigits

lemma dropWhile_isDigit_fold (s : Text) :
    (fold s).dropWhile Char.isDigit = fold (s.dropWhile Char.isDigit) := by
  rw [fold, List.dropWhile_map]
  simp [Function.comp_def, fold]

namespace Decimal

lemma readExponent?_fold (s : Text) : readExponent? (fold s) = readExponent? s := by
  rcases s with _ | ⟨c, s⟩
  · rfl
  · have hnil : fold (splitSign s).2 = [] ↔ (splitSign s).2 = [] := fold_eq_iff (by simp)
    have hall : (fold (splitSign s).2).all Char.isDigit = (splitSign s).2.all Char.isDigit := by
      simp [fold, Function.comp_def]
    rw [fold_cons]
    simp only [readExponent?, splitSign_fold, Char.toLower_toLower_eq_toLower, ne_eq, hnil, hall]
    split
    · next h => rw [fold_digits (List.all_eq_true.mp h.2.2)]
    · rfl

lemma read?_fold (s : Text) : read? (fold s) = read? s := by
  have hdot : ('.').isAlpha = false := by decide
  unfold read?
  rw [takeWhile_isDigit_fold, dropWhile_isDigit_fold]
  rcases s.dropWhile Char.isDigit with _ | ⟨c, rest⟩
  · rfl
  · by_cases hc : c = '.'
    · rw [hc, fold_cons, toLower_eq_self hdot]
      simp only [takeWhile_isDigit_fold, dropWhile_isDigit_fold, readExponent?_fold]
    · have hlower : c.toLower ≠ '.' := fun heq => hc ((toLower_eq_iff hdot).mp heq)
      have hexponent := readExponent?_fold (c :: rest)
      rw [fold_cons] at hexponent
      simp [hc, hlower, hexponent]

end Decimal

lemma Numeral.read?_fold (s : Text) : read? (fold s) = read? s := by
  unfold read?
  simp only [splitSign_fold, Decimal.read?_fold, fold_fold]

theorem Quality.read_fold (s : Text) : read (fold s) = read s := by
  have hnil : fold (trim s) = [] ↔ trim s = [] := fold_eq_iff (by simp)
  unfold read
  rw [trim_fold, Numeral.read?_fold]
  simp only [hnil]

namespace MediaRange

lemma qualityText?_fold (span : Text) :
    qualityText? (fold span) = (qualityText? span).map fold := by
  have hequals : ('=').isAlpha = false := by decide
  unfold qualityText?
  rw [trimStart_fold]
  rcases trimStart span with _ | ⟨c, _ | ⟨d, value⟩⟩
  · rfl
  · rfl
  · by_cases hd : d = '='
    · rw [hd, fold_cons, fold_cons, toLower_eq_self hequals]
      simp only [Char.toLower_toLower_eq_toLower]
      split <;> rfl
    · have hlower : d.toLower ≠ '=' := fun heq => hd ((toLower_eq_iff hequals).mp heq)
      simp [hd, hlower]

end MediaRange

end ContentNegotiation
