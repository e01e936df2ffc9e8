import ContentNegotiation.Proofs.Cutting
import ContentNegotiation.Text.Basic

/-!
What trimming takes away.

A text is its trimmed part between two blank ends, and the trimmed part neither begins nor ends
with a blank character. So trimming before a cut at a separator changes nothing in the two parts
that trimming them does not change.
-/

namespace ContentNegotiation.Text

variable {s a b l r w : Text} {c sep : Char}

lemma allBlank_iff : allBlank s = true ↔ ∀ c ∈ s, isBlank c = true := by simp [allBlank]

lemma trimStart_eq_nil_iff : trimStart s = [] ↔ allBlank s = true := by
  induction s with
  | nil => simp [trimStart, allBlank]
  | cons c s ih =>
    simp only [trimStart, allBlank, List.dropWhile_cons, List.all_cons] at ih ⊢
    cases isBlank c <;> simp_all

lemma trim_eq_nil_iff : trim s = [] ↔ allBlank s = true := by
  have ends : ∀ t : Text, trimEnd t = [] ↔ allBlank t = true := by
    intro t
    rw [trimEnd, List.reverse_eq_nil_iff, ← trimStart, trimStart_eq_nil_iff]
    simp [allBlank]
  rw [trim, ends, ← trimStart_eq_nil_iff (s := s)]
  constructor
  · intro h
    have head := List.head?_dropWhile_not isBlank s
    cases hs : trimStart s with
    | nil => rfl
    | cons c t =>
      rw [← trimStart, hs] at head
      simp_all [allBlank]
  · intro h
    simp [h, allBlank]

/-! ### Blank ends -/

lemma trimStart_append_of_allBlank (h : allBlank l = true) (s : Text) :
    trimStart (l ++ s) = trimStart s := by
  unfold trimStart
  rw [List.dropWhile_append, ← trimStart, trimStart_eq_nil_iff.mpr h]
  rfl

lemma trimEnd_append_of_allBlank (h : allBlank r = true) (s : Text) :
    trimEnd (s ++ r) = trimEnd s := by
  have hr : allBlank r.reverse = true := by rw [allBlank, List.all_reverse]; exact h
  have := trimStart_append_of_allBlank hr s.reverse
  rw [trimEnd, List.reverse_append, ← trimStart, this]
  rfl

lemma trim_append_left (h : allBlank l = true) (s : Text) : trim (l ++ s) = trim s := by
  rw [trim, trimStart_append_of_allBlank h, trim]

lemma trim_append_right (h : allBlank r = true) (s : Text) : trim (s ++ r) = trim s := by
  by_cases hs : allBlank s = true
  · rw [trim_append_left hs, trim_eq_nil_iff.mpr h, trim_eq_nil_iff.mpr hs]
  · have hne : trimStart s ≠ [] := fun h => hs (trimStart_eq_nil_iff.mp h)
    have hstart : trimStart (s ++ r) = trimStart s ++ r := by
      rw [trimStart, List.dropWhile_append, ← trimStart]
      exact if_neg (by simpa using hne)
    rw [trim, hstart, trimEnd_append_of_allBlank h, trim]

lemma trimEnd_cons (h : isBlank c = false) (s : Text) : trimEnd (c :: s) = c :: trimEnd s := by
  have hlast : [c].dropWhile isBlank = [c] := by simp [h]
  rw [trimEnd, List.reverse_cons, List.dropWhile_append, hlast]
  split
  · next hnil =>
    rw [trimEnd, List.isEmpty_iff.mp hnil]
    rfl
  · rw [List.reverse_append]
    rfl

lemma exists_trimStart (s : Text) : ∃ l, allBlank l = true ∧ s = l ++ trimStart s :=
  ⟨s.takeWhile isBlank, List.all_takeWhile, List.takeWhile_append_dropWhile.symm⟩

lemma exists_trimEnd (s : Text) : ∃ r, allBlank r = true ∧ s = trimEnd s ++ r := by
  obtain ⟨l, hl, heq⟩ := exists_trimStart s.reverse
  refine ⟨l.reverse, by rw [allBlank, List.all_reverse]; exact hl, ?_⟩
  rw [trimEnd, ← trimStart, ← List.reverse_append, ← heq, List.reverse_reverse]

lemma trim_trimEnd (s : Text) : trim (trimEnd s) = trim s := by
  obtain ⟨r, hr, hs⟩ := exists_trimEnd s
  conv_rhs => rw [hs, trim_append_right hr]

lemma exists_trim (s : Text) :
    ∃ l r, allBlank l = true ∧ allBlank r = true ∧ s = l ++ trim s ++ r := by
  obtain ⟨l, hl, hs⟩ := exists_trimStart s
  obtain ⟨r, hr, ht⟩ := exists_trimEnd (trimStart s)
  refine ⟨l, r, hl, hr, ?_⟩
  rw [trim, List.append_assoc, ← ht]
  exact hs

lemma not_mem_trim (h : c ∉ s) : c ∉ trim s := by
  obtain ⟨l, r, -, -, hs⟩ := exists_trim s
  rw [hs] at h
  simp only [List.mem_append, not_or] at h
  exact h.1.2

/-! ### Trimmed texts -/

def Trimmed (s : Text) : Prop :=
  (∀ c ∈ s.head?, isBlank c = false) ∧ ∀ c ∈ s.getLast?, isBlank c = false

lemma trimStart_eq_self (h : ∀ c ∈ s.head?, isBlank c = false) : trimStart s = s := by
  rcases s with _ | ⟨c, s⟩
  · rfl
  · rw [trimStart, List.dropWhile_cons_of_neg]
    simpa using h c rfl

lemma head?_trimStart (s : Text) : ∀ c ∈ (trimStart s).head?, isBlank c = false := by
  intro c hc
  have := List.head?_dropWhile_not isBlank s
  rw [← trimStart, Option.mem_def.mp hc] at this
  simpa using this

lemma Trimmed.trim_eq (h : Trimmed s) : trim s = s := by
  have hend : trimStart s.reverse = s.reverse :=
    trimStart_eq_self (by rw [List.head?_reverse]; exact h.2)
  rw [trim, trimStart_eq_self h.1, trimEnd, ← trimStart, hend, List.reverse_reverse]

lemma trimmed_trim (s : Text) : Trimmed (trim s) := by
  constructor
  · intro c hc
    obtain ⟨r, -, hr⟩ := exists_trimEnd (trimStart s)
    apply head?_trimStart s c
    rw [trim] at hc
    rw [hr, List.head?_append, Option.mem_def.mp hc]
    rfl
  · intro c hc
    rw [trim, trimEnd, List.getLast?_reverse] at hc
    exact head?_trimStart _ c hc

@[simp] lemma trim_trim (s : Text) : trim (trim s) = trim s := (trimmed_trim s).trim_eq

lemma allBlank_trim (s : Text) : allBlank (trim s) = allBlank s := by
  rw [Bool.eq_iff_iff, ← trim_eq_nil_iff, ← trim_eq_nil_iff, trim_trim]

lemma trim_singleton (h : isBlank c = false) : trim [c] = [c] := by
  refine Trimmed.trim_eq ⟨?_, ?_⟩ <;> simpa using h

lemma trim_eq_self_of_not_blank (h : ∀ c ∈ s, isBlank c = false) : trim s = s :=
  Trimmed.trim_eq ⟨fun c hc => h c (List.mem_of_mem_head? hc),
    fun c hc => h c (List.mem_of_mem_getLast? hc)⟩

/-! ### Trimming and cutting -/

lemma not_mem_of_allBlank (h : allBlank s = true) (hc : isBlank c = false) : c ∉ s := by
  intro hs
  have := allBlank_iff.mp h c hs
  rw [hc] at this
  cases this

lemma mem_trim_iff (hc : isBlank c = false) : c ∈ trim s ↔ c ∈ s := by
  obtain ⟨l, r, hl, hr, hs⟩ := exists_trim s
  have hcl := not_mem_of_allBlank hl hc
  have hcr := not_mem_of_allBlank hr hc
  constructor
  · intro h
    rw [hs]
    simp [h]
  · intro h
    rw [hs] at h
    simpa [hcl, hcr] using h

/-- A text has its first separator where its trimmed part has it, with the same two parts up to
blank ends. -/
lemma cut_trim_eq_some (hsep : isBlank sep = false) (h : cut sep (trim s) = some (a, b)) :
    ∃ a' b', cut sep s = some (a', b') ∧ trim a' = trim a ∧ trim b' = trim b ∧
      ∀ c, isBlank c = false → (c ∈ b' ↔ c ∈ b) := by
  obtain ⟨l, r, hl, hr, hs⟩ := exists_trim s
  obtain ⟨heq, ha⟩ := cut_eq_some.mp h
  refine ⟨l ++ a, b ++ r, ?_, trim_append_left hl a, trim_append_right hr b, fun c hc => ?_⟩
  · rw [cut_eq_some]
    constructor
    · rw [hs, heq]
      simp
    · rw [List.mem_append, not_or]
      exact ⟨not_mem_of_allBlank hl hsep, ha⟩
  · simp [not_mem_of_allBlank hr hc]

lemma cut_trim_eq_none (hsep : isBlank sep = false) :
    cut sep (trim s) = none ↔ cut sep s = none := by
  rw [cut_eq_none, cut_eq_none, mem_trim_iff hsep]

lemma cut_trim (hsep : isBlank sep = false) (s : Text) :
    (cut sep (trim s)).map (Prod.map trim trim) = (cut sep s).map (Prod.map trim trim) := by
  rcases h : cut sep (trim s) with _ | ⟨a, b⟩
  · rw [(cut_trim_eq_none hsep).mp h]
  · obtain ⟨a', b', hcut, ha, hb, -⟩ := cut_trim_eq_some hsep h
    rw [hcut, Option.map_some, Option.map_some, Prod.map_apply, Prod.map_apply, ha, hb]

/-! ### Words without blank characters -/

lemma eq_nil_of_infix_allBlank (hw : ∀ c ∈ w, isBlank c = false) (hb : allBlank b = true)
    (h : w <:+: b) : w = [] :=
  List.eq_nil_iff_forall_not_mem.mpr fun c hc =>
    not_mem_of_allBlank hb (hw c hc) (h.subset hc)

lemma infix_append_left (hw : ∀ c ∈ w, isBlank c = false) (hl : allBlank l = true) :
    w <:+: l ++ s ↔ w <:+: s := by
  refine ⟨fun h => ?_, fun h => h.trans (List.suffix_append l s).isInfix⟩
  rcases List.infix_append_iff.mp h with h | h | ⟨u, v, rfl, hu, hv⟩
  · rw [eq_nil_of_infix_allBlank hw hl h]
    exact List.nil_infix
  · exact h
  · have hnil : u = [] :=
      eq_nil_of_infix_allBlank (fun c hc => hw c (List.mem_append_left v hc)) hl hu.isInfix
    rw [hnil]
    exact hv.isInfix

lemma infix_append_right (hw : ∀ c ∈ w, isBlank c = false) (hr : allBlank r = true) :
    w <:+: s ++ r ↔ w <:+: s := by
  have hwr : ∀ c ∈ w.reverse, isBlank c = false := fun c hc => hw c (List.mem_reverse.mp hc)
  have hrr : allBlank r.reverse = true := by rw [allBlank, List.all_reverse]; exact hr
  rw [← List.reverse_infix, List.reverse_append, infix_append_left hwr hrr, List.reverse_infix]

lemma infix_trim (hw : ∀ c ∈ w, isBlank c = false) : w <:+: trim s ↔ w <:+: s := by
  obtain ⟨l, r, hl, hr, hs⟩ := exists_trim s
  conv_rhs => rw [hs, infix_append_right hw hr, infix_append_left hw hl]

end ContentNegotiation.Text
