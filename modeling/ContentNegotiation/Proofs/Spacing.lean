import ContentNegotiation.Proofs.Trimming

/-!
Texts with blank characters around their separators.

Wherever such a text is cut at one of the separators, the blank characters around it go to the ends
of the parts. So once a text has been cut at all of them, its parts have changed at their blank ends
only.
-/

namespace ContentNegotiation.Text

variable {sep : Char} {seps : List Char} {l r s t u : Text}

/-- The second text is the first one with blank characters put around some of its separators. -/
inductive Spaced (seps : List Char) : Text → Text → Prop where
  | nil : Spaced seps [] []
  | char (c : Char) {s t : Text} : Spaced seps s t → Spaced seps (c :: s) (c :: t)
  | separator {c : Char} {l r s t : Text} : c ∈ seps → allBlank l = true → allBlank r = true →
    Spaced seps s t → Spaced seps (c :: s) (l ++ c :: (r ++ t))

/-- The same, with blank characters put at both ends as well. -/
def Loose (seps : List Char) (s t : Text) : Prop :=
  ∃ l u r, allBlank l = true ∧ allBlank r = true ∧ Spaced seps s u ∧ t = l ++ (u ++ r)

namespace Spaced

lemma append_left (a : Text) (h : Spaced seps s t) : Spaced seps (a ++ s) (a ++ t) := by
  induction a with
  | nil => exact h
  | cons c a ih => exact .char c ih

lemma eq_nil_iff (h : Spaced seps s t) : t = [] ↔ s = [] := by
  cases h <;> simp

lemma loose (h : Spaced seps s t) : Loose seps s t :=
  ⟨[], t, [], rfl, rfl, h, by rw [List.append_nil, List.nil_append]⟩

lemma eq_of_nil (h : Spaced [] s t) : t = s := by
  induction h with
  | nil => rfl
  | char c _ ih => rw [ih]
  | separator hc => exact absurd hc List.not_mem_nil

end Spaced

lemma Loose.trim_eq (h : Loose [] s t) : trim t = trim s := by
  obtain ⟨l, u, r, hl, hr, hu, rfl⟩ := h
  rw [hu.eq_of_nil, trim_append_left hl, trim_append_right hr]

lemma split_append_left (h : sep ∉ l) (s : Text) :
    split sep (l ++ s) = (l ++ (split sep s).1, (split sep s).2) := by
  induction l with
  | nil => rfl
  | cons c l ih =>
    rw [List.mem_cons, not_or] at h
    rw [List.cons_append, split_cons_of_ne (Ne.symm h.1), ih h.2, List.cons_append]

/-- The first part of a spaced text has blank characters at its end only, if it is cut at one of the
separators, and the others at both ends. -/
lemma Spaced.split (h : Spaced (sep :: seps) s t) (hsep : isBlank sep = false)
    (hr : allBlank r = true) :
    (∃ u r', allBlank r' = true ∧ Spaced seps (split sep s).1 u ∧
      (split sep (t ++ r)).1 = u ++ r') ∧
    List.Forall₂ (Loose seps) (split sep s).2 (split sep (t ++ r)).2 := by
  induction h with
  | nil =>
    rw [List.nil_append, split_of_not_mem (not_mem_of_allBlank hr hsep)]
    exact ⟨⟨[], r, hr, .nil, rfl⟩, .nil⟩
  | char c h ih =>
    obtain ⟨⟨u, r', hr', hu, hfirst⟩, hothers⟩ := ih
    by_cases hc : c = sep
    · subst hc
      rw [List.cons_append, split_cons_sep, split_cons_sep]
      exact ⟨⟨[], [], rfl, .nil, rfl⟩, .cons ⟨[], u, r', rfl, hr', hu, hfirst⟩ hothers⟩
    · rw [List.cons_append, split_cons_of_ne hc, split_cons_of_ne hc]
      exact ⟨⟨c :: u, r', hr', .char c hu, by rw [hfirst, List.cons_append]⟩, hothers⟩
  | @separator c a b s t hmem ha hb h ih =>
    obtain ⟨⟨u, r', hr', hu, hfirst⟩, hothers⟩ := ih
    have hleft := not_mem_of_allBlank ha hsep
    have hright := not_mem_of_allBlank hb hsep
    have hassoc : (a ++ c :: (b ++ t)) ++ r = a ++ c :: (b ++ (t ++ r)) := by simp
    rw [hassoc, split_append_left hleft]
    by_cases hc : c = sep
    · subst hc
      rw [split_cons_sep, split_cons_sep, split_append_left hright, hfirst]
      exact ⟨⟨[], a, ha, .nil, by rw [List.append_nil, List.nil_append]⟩,
        .cons ⟨b, u, r', hb, hr', hu, rfl⟩ hothers⟩
    · have hmem' : c ∈ seps := (List.mem_cons.mp hmem).resolve_left hc
      rw [split_cons_of_ne hc, split_cons_of_ne hc, split_append_left hright, hfirst]
      exact ⟨⟨a ++ c :: (b ++ u), r', hr', .separator hmem' ha hb hu, by simp⟩, hothers⟩

/-- **Cutting at a separator leaves nothing to be told from it**: the parts differ by the blank
characters around the other separators and at their ends. -/
theorem Loose.split (h : Loose (sep :: seps) s t) (hsep : isBlank sep = false) :
    List.Forall₂ (Loose seps) ((split sep s).1 :: (split sep s).2)
      ((split sep t).1 :: (split sep t).2) := by
  obtain ⟨l, u, r, hl, hr, hu, rfl⟩ := h
  obtain ⟨⟨u', r', hr', hu', hfirst⟩, hothers⟩ := hu.split hsep hr
  rw [split_append_left (not_mem_of_allBlank hl hsep)]
  exact .cons ⟨l, u', r', hl, hr', hu', by rw [hfirst]⟩ hothers

end ContentNegotiation.Text
