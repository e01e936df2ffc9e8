import ContentNegotiation.MediaRange.Reader
import ContentNegotiation.Proofs.Trimming

/-!
The spans that state a quality, and the texts that are one.

A span states a quality if `q=`, in either case, comes after nothing but blank characters. The text
behind it is a quality if it is a numeral, up to blank ends, that rounds to a finite number.
-/

namespace ContentNegotiation

open Text

lemma toLower_eq_q {c : Char} : c.toLower = 'q' ↔ c = 'q' ∨ c = 'Q' := by
  constructor
  · intro h
    unfold Char.toLower at h
    split at h
    · have hval : c.val + ('a'.val - 'A'.val) = 'Q'.val + ('a'.val - 'A'.val) :=
        congrArg Char.val h
      exact Or.inr (Char.ext ((UInt32.add_left_inj _).mp hval))
    · exact Or.inl h
  · rintro (rfl | rfl) <;> decide

lemma foldEq_q_iff {s : Text} : foldEq s ['q'] = true ↔ s = ['q'] ∨ s = ['Q'] := by
  rw [foldEq_iff]
  rcases s with _ | ⟨c, _ | ⟨d, s⟩⟩
  · simp [fold]
  · simpa [fold] using toLower_eq_q
  · simp [fold]

namespace MediaRange

/-- The span is `q=`, in either case, with blank characters before it and the value after it. -/
def StatesQuality (span value : Text) : Prop :=
  ∃ blanks c, allBlank blanks = true ∧ (c = 'q' ∨ c = 'Q') ∧ span = blanks ++ c :: '=' :: value

lemma not_isBlank_q {c : Char} (h : c = 'q' ∨ c = 'Q') : isBlank c = false := by
  rcases h with rfl | rfl <;> decide

lemma qualityText?_eq_some {span value : Text} :
    qualityText? span = some value ↔ StatesQuality span value := by
  unfold qualityText?
  constructor
  · intro h
    obtain ⟨blanks, hblanks, hspan⟩ := exists_trimStart span
    split at h
    · next c rest heq =>
      split at h
      · next hc =>
        cases h
        exact ⟨blanks, c, hblanks, toLower_eq_q.mp hc, by rw [← heq, ← hspan]⟩
      · cases h
    · cases h
  · rintro ⟨blanks, c, hblanks, hc, rfl⟩
    have hstart : trimStart (c :: '=' :: value) = c :: '=' :: value :=
      trimStart_eq_self (by simpa using not_isBlank_q hc)
    rw [trimStart_append_of_allBlank hblanks, hstart]
    simp only [toLower_eq_q.mpr hc, if_true]

lemma qualityText?_eq_none {span : Text} :
    qualityText? span = none ↔ ∀ value, ¬ StatesQuality span value := by
  rw [Option.eq_none_iff_forall_ne_some]
  simp only [ne_eq, qualityText?_eq_some]

end MediaRange

namespace Quality

variable {s : Text} {q : Quality} {e : Error}

lemma read_eq_ok : read s = .ok q ↔ ∃ n, Numeral.read? (trim s) = some n ∧ n.quality? = some q := by
  unfold read
  rcases Numeral.read? (trim s) with _ | n
  · simp
  · rcases hq : n.quality? with _ | q' <;> simp [hq]

lemma read_eq_error : read s = .error e ↔
    Numeral.read? (trim s) = none ∧
      e = .invalidQuality (if trim s = [] then .empty else .malformed) ∨
    ∃ n, Numeral.read? (trim s) = some n ∧ n.quality? = none ∧ e = .nonFiniteQuality := by
  unfold read
  rcases Numeral.read? (trim s) with _ | n
  · simp only [Except.error.injEq, true_and, reduceCtorEq, false_and, exists_false, or_false]
    exact eq_comm
  · rcases hq : n.quality? with _ | q'
    · simp only [Except.error.injEq, reduceCtorEq, false_and, false_or, Option.some.injEq,
        exists_eq_left', hq, true_and]
      exact eq_comm
    · simp [hq]

end Quality

end ContentNegotiation
