import ContentNegotiation.Proofs.Choice
import ContentNegotiation.Proofs.CursorReading

/-!
Reading a header takes no slice that does not exist, and comes to an end.

A cursor that began in front of a header lies between two of its characters after any calls, so
each call is one of the reader's. A call that answers brings the cursor forward unless the header
has ended. A loop over the calls therefore takes at most one turn for each byte that is left, and
one more to see the end. A negotiator that was made from a list has a first value, so the answer to
a header that accepts anything exists, too.
-/

namespace ContentNegotiation

open Text

/-! ### Calls -/

namespace Header

variable {rest rest' : Text} {r? : Option MediaRange}

lemma next_suffix (rest : Text) : (next rest).2 <:+ rest := by
  rw [next_eq]
  dsimp only
  split
  · exact afterPiece_suffix rest
  · exact List.suffix_refl rest

lemma length_utf8_of_read (h : MediaRange.read rest = .ok (r?, rest')) (hne : rest ≠ []) :
    (utf8 rest').length < (utf8 rest).length := by
  have hlt := MediaRange.length_lt_of_read h hne
  obtain ⟨used, rfl⟩ : rest' <:+ rest := by
    rw [← (MediaRange.read_eq_ok.mp h).2]
    exact afterPiece_suffix rest
  have hused : used ≠ [] := by
    rintro rfl
    exact absurd hlt (Nat.lt_irrefl _)
  have := length_utf8_pos hused
  rw [length_utf8_append]
  omega

end Header

namespace Cursor

/-- The cursor lies between two characters, in front of `rest`. -/
def At (c : Cursor) (rest : Text) : Prop :=
  ∃ front, c.header = front ++ rest ∧ (utf8 front).length = c.position

variable {c : Cursor} {rest rest' : Text} {r? : Option MediaRange} {e : Error} {turns : ℕ}

lemma at_ofText (header : Text) : (ofText header).At header := ⟨[], rfl, rfl⟩

namespace At

lemma isBoundary (h : c.At rest) : c.header.utf8.isBoundary c.position = true := by
  obtain ⟨front, hheader, hposition⟩ := h
  exact Bytes.isBoundary_utf8.mpr ⟨front, rest, hheader, hposition⟩

lemma rest_eq (h : c.At rest) : c.rest = rest := by
  obtain ⟨front, hheader, hposition⟩ := h
  rw [Cursor.rest, hheader, ← hposition, dropBytes_append]

lemma length_eq (h : c.At rest) : c.header.utf8.length = c.position + (utf8 rest).length := by
  obtain ⟨front, hheader, hposition⟩ := h
  rw [hheader, length_utf8_append, hposition]

lemma isDone_iff (h : c.At rest) : c.isDone = true ↔ rest = [] := by
  rw [isDone, decide_eq_true_eq, h.length_eq]
  constructor
  · intro hle
    by_contra hne
    have := length_utf8_pos hne
    omega
  · rintro rfl
    exact Nat.le_refl _

lemma not_isDone_iff (h : c.At rest) : (!c.isDone) = true ↔ rest ≠ [] := by
  rw [Bool.not_eq_true', ← Bool.not_eq_true, h.isDone_iff]

/-- **A call is one of the reader's**: it answers for the piece in front of the cursor, and leaves
the cursor in front of what the reader leaves. -/
theorem next_eq (h : c.At rest) : c.next = ((Header.next rest).1.mapError .failed,
    { c with position := c.header.utf8.length - (utf8 (Header.next rest).2).length }) := by
  have hlength := h.length_eq
  obtain ⟨front, hheader, hposition⟩ := h
  have hempty : c.header = front ++ ([] ++ rest) := hheader
  have hpiece := scan_eq (d := { start := c.position }) (fun _ => ⟨rfl, rfl⟩) hempty hposition
  rw [List.append_nil, hposition] at hpiece
  have hread : c.readPiece = ((MediaRange.read rest).map fun answer =>
    (answer.1, c.header.utf8.length - (utf8 answer.2).length)).mapError .failed := hpiece
  rw [next, hread, Header.next]
  rcases MediaRange.read rest with e | ⟨r?, rest'⟩
  · -- the cursor does not move
    have hback : c.header.utf8.length - (utf8 rest).length = c.position := by omega
    simp only [Except.map, Except.mapError, hback]
  · rfl

lemma next (h : c.At rest) : c.next.2.At (Header.next rest).2 := by
  rw [h.next_eq]
  obtain ⟨front, hheader, -⟩ := h
  obtain ⟨used, hused⟩ := Header.next_suffix rest
  have hsplit : c.header = (front ++ used) ++ (Header.next rest).2 := by
    rw [hheader, List.append_assoc, hused]
  refine ⟨front ++ used, hsplit, ?_⟩
  dsimp only
  rw [hsplit, length_utf8_append (front ++ used), Nat.add_sub_cancel]

lemma exists_next (h : c.At rest) : ∃ c',
    c.next = ((Header.next rest).1.mapError .failed, c') ∧ c'.At (Header.next rest).2 :=
  ⟨c.next.2, by rw [h.next_eq], h.next⟩

lemma next_ok (h : c.At rest) (hread : MediaRange.read rest = .ok (r?, rest')) :
    ∃ c', c.next = (.ok r?, c') ∧ c'.At rest' := by
  have hnext := h.exists_next
  rw [Header.next, hread] at hnext
  exact hnext

lemma next_error (h : c.At rest) (hread : MediaRange.read rest = .error e) :
    ∃ c', c.next = (.error (.failed e), c') ∧ c'.At rest := by
  have hnext := h.exists_next
  rw [Header.next, hread] at hnext
  exact hnext

theorem after (h : c.At rest) (calls : ℕ) :
    (c.after calls).header = c.header ∧ ∃ rest', (c.after calls).At rest' := by
  induction calls generalizing c rest with
  | zero => exact ⟨rfl, rest, h⟩
  | succ calls ih =>
    have hnext : c.next.2.header = c.header := by rw [h.next_eq]
    obtain ⟨hheader, hrest⟩ := ih h.next
    exact ⟨hheader.trans hnext, hrest⟩

theorem forward (h : c.At rest) (hdone : c.isDone = false) (hok : c.next.1 = .ok r?) :
    c.position < c.next.2.position ∧ c.next.2.position ≤ c.header.utf8.length := by
  have hne : rest ≠ [] := by
    rw [Ne, ← h.isDone_iff, hdone]
    exact Bool.false_ne_true
  have hlength := h.length_eq
  rw [h.next_eq] at hok ⊢
  rcases hnext : Header.next rest with ⟨e | r', rest'⟩
  · rw [hnext] at hok
    cases hok
  · have hlt := Header.length_utf8_of_read (Header.read_of_next hnext) hne
    dsimp only
    omega

/-! ### Loops -/

/-- **Listing the ranges ends** within a turn for each byte that is left and one more. -/
theorem ranges?_eq (h : c.At rest) (hturns : (utf8 rest).length ≤ turns) :
    c.ranges? (turns + 1) = some (Header.ranges rest) := by
  fun_induction Header.ranges rest generalizing c turns with
  | case1 => rw [ranges?, if_pos (h.isDone_iff.mpr rfl)]
  | case2 rest hne e hread =>
    obtain ⟨c', hnext, -⟩ := h.next_error hread
    rw [ranges?, if_neg (mt h.isDone_iff.mp hne), hnext]
  | case3 rest hne r? rest' hread ih =>
    obtain ⟨c', hnext, h'⟩ := h.next_ok hread
    have hlt := Header.length_utf8_of_read hread hne
    obtain ⟨turns, rfl⟩ := Nat.exists_eq_add_one.mpr (Nat.zero_lt_of_lt (hlt.trans_le hturns))
    rw [ranges?, if_neg (mt h.isDone_iff.mp hne), hnext]
    dsimp only
    rw [ih h' (by omega)]
    cases Header.ranges rest' <;> rfl

/-- **Reading on to a range of top quality ends** within as many turns. -/
theorem readOn?_eq (fits : MediaRange → Bool) (kept : List MediaRange) (h : c.At rest)
    (hturns : (utf8 rest).length ≤ turns) :
    c.readOn? fits kept (turns + 1) = some (readOn fits rest kept) := by
  fun_induction readOn fits rest kept generalizing c turns with
  | case1 => rw [readOn?, if_pos (h.isDone_iff.mpr rfl)]
  | case2 rest kept hne e hread =>
    obtain ⟨c', hnext, h'⟩ := h.next_error hread
    rw [readOn?, if_neg (mt h.isDone_iff.mp hne), hnext]
    dsimp only
    rw [h'.rest_eq]
  | case3 rest kept hne rest' hread ih =>
    obtain ⟨c', hnext, h'⟩ := h.next_ok hread
    have hlt := Header.length_utf8_of_read hread hne
    obtain ⟨turns, rfl⟩ := Nat.exists_eq_add_one.mpr (Nat.zero_lt_of_lt (hlt.trans_le hturns))
    rw [readOn?, if_neg (mt h.isDone_iff.mp hne), hnext]
    exact ih h' (by omega)
  | case4 rest kept hne r rest' hread htop =>
    obtain ⟨c', hnext, h'⟩ := h.next_ok hread
    rw [readOn?, if_neg (mt h.isDone_iff.mp hne), hnext]
    dsimp only
    rw [if_pos (htop.imp_right h'.not_isDone_iff.mpr), h'.rest_eq]
  | case5 rest kept hne r rest' hread htop ih =>
    obtain ⟨c', hnext, h'⟩ := h.next_ok hread
    have hlt := Header.length_utf8_of_read hread hne
    obtain ⟨turns, rfl⟩ := Nat.exists_eq_add_one.mpr (Nat.zero_lt_of_lt (hlt.trans_le hturns))
    rw [readOn?, if_neg (mt h.isDone_iff.mp hne), hnext]
    dsimp only
    rw [if_neg (mt (And.imp_right h'.not_isDone_iff.mp) htop)]
    exact ih h' (by omega)

end At

/-- Nothing goes wrong from the cursor on. -/
structure Safe (c : Cursor) : Prop where
  boundary : c.position ≤ c.header.utf8.length ∧ c.header.utf8.isBoundary c.position = true
  slices : c.next.1 ≠ .error .noSlice
  answer : c.next.1 = (Header.next c.rest).1.mapError .failed
  left : c.next.2.rest = (Header.next c.rest).2
  forward : ∀ r?, c.isDone = false → c.next.1 = .ok r? →
    c.position < c.next.2.position ∧ c.next.2.position ≤ c.header.utf8.length
  listing : ∀ turns, c.header.utf8.length - c.position < turns →
    c.ranges? turns = some (Header.ranges c.rest)
  reading : ∀ fits kept turns, c.header.utf8.length - c.position < turns →
    c.readOn? fits kept turns = some (readOn fits c.rest kept)

theorem At.safe (h : c.At rest) : c.Safe := by
  have hlength := h.length_eq
  obtain rfl := h.rest_eq
  refine ⟨⟨by omega, h.isBoundary⟩, ?_, by rw [h.next_eq], h.next.rest_eq,
    fun r? => h.forward, fun turns hturns => ?_, fun fits kept turns hturns => ?_⟩
  · rw [h.next_eq]
    cases (Header.next c.rest).1 <;> simp [Except.mapError]
  · obtain ⟨turns, rfl⟩ := Nat.exists_eq_add_one.mpr (Nat.zero_lt_of_lt hturns)
    exact h.ranges?_eq (by omega)
  · obtain ⟨turns, rfl⟩ := Nat.exists_eq_add_one.mpr (Nat.zero_lt_of_lt hturns)
    exact h.readOn?_eq fits kept (by omega)

end Cursor

/-! ### Negotiators -/

namespace Negotiator

open Header

variable {α : Type}

inductive Setting where
  | literal (literal : Bool)
  | matching (matching : ParameterMatching)

def set (n : Negotiator α) : Setting → Negotiator α
  | .literal literal => n.withLiteral literal
  | .matching matching => n.withMatching matching

/-- The negotiator after the settings, one after the other. -/
def configure (n : Negotiator α) (settings : List Setting) : Negotiator α := settings.foldl set n

lemma supported_set (n : Negotiator α) (setting : Setting) :
    (n.set setting).supported = n.supported := by
  cases setting <;> rfl

lemma supported_configure (n : Negotiator α) (settings : List Setting) :
    (n.configure settings).supported = n.supported := by
  induction settings generalizing n with
  | nil => rfl
  | cons setting settings ih => exact (ih (n.set setting)).trans (supported_set n setting)

variable {n : Negotiator α} {text : α → Text} {values : List α}

/-- **A negotiator has a first value**, the first of the list that it was made from, and answers
with it whenever a header accepts anything. -/
theorem first_of_ofList (h : ofList text values = .ok n) (settings : List Setting) :
    (n.configure settings).values = values ∧ values[0]? = some (n.configure settings).first ∧
      ∀ header, AcceptsAnything (n.configure settings).options.literal header →
        (n.configure settings).negotiate header = .ok (some (n.configure settings).first) := by
  have hvalues : (n.configure settings).values = values := by
    rw [Negotiator.values, supported_configure]
    exact (ofList_eq_ok h).2
  refine ⟨hvalues, ?_, fun header => negotiate_anything _⟩
  rw [← hvalues]
  exact values_zero _

end Negotiator

open Header Negotiator

/-- **Reading takes no slice that does not exist, and comes to an end**, wherever the calls have
brought the cursor. A slice exists if its positions are in order, not beyond the end, and between
characters. A negotiator has a first value whatever is set on it, and answers with it if the header
accepts anything. -/
theorem Cursor.after_safe (header : Text) :
    (∀ calls, ((ofText header).after calls).header = header ∧ ((ofText header).after calls).Safe) ∧
    (∀ (s : Text) (i j : ℕ), (∃ t, s.slice? i j = some t) ↔ i ≤ j ∧ j ≤ s.utf8.length ∧
      s.utf8.isBoundary i = true ∧ s.utf8.isBoundary j = true) ∧
    ∀ (α : Type) (text : α → Text) (values : List α) (n : Negotiator α) (settings : List Setting),
      ofList text values = .ok n →
        0 < (n.configure settings).supported.length ∧
        (n.configure settings).supported[0]?.map Prod.snd = some (n.configure settings).first ∧
        values[0]? = some (n.configure settings).first ∧
        (AcceptsAnything (n.configure settings).options.literal header →
          (n.configure settings).negotiate header = .ok (some (n.configure settings).first)) := by
  refine ⟨fun calls => ?_, fun s i j => exists_slice?_iff, fun α text values n settings hn => ?_⟩
  · obtain ⟨hheader, rest, hrest⟩ := (at_ofText header).after calls
    exact ⟨hheader, hrest.safe⟩
  · obtain ⟨hvalues, hfirst, hanything⟩ := first_of_ofList hn settings
    refine ⟨List.length_pos_iff.mpr (n.configure settings).supported_ne_nil, ?_, hfirst,
      hanything header⟩
    rw [← List.getElem?_map]
    exact values_zero _

/-- The first piece takes up 11 bytes with its comma, and the range behind it three more. An empty
header is answered with the first of two types. -/
theorem Cursor.after_safe_multibyte :
    let c := (ofText "é/ü;Q=.5,a/b".toList).after 1
    c.position = 11 ∧ c.isDone = false ∧ c.next.1 ≠ .error .noSlice ∧
      (c.position < c.next.2.position ∧ c.next.2.position ≤ 14) ∧
      c.ranges? 4 = some (ranges "a/b".toList) ∧
      (∃ t, c.header.slice? 0 2 = some t) ∧ (¬ ∃ t, c.header.slice? 0 1 = some t) ∧
      ∃ n : Negotiator Text, ofList id ["a/b".toList, "c/d".toList] = .ok n ∧
        (n.configure [.literal true, .matching .legacy]).negotiate [] =
          .ok (some "a/b".toList) := by
  intro c
  let n₀ : Negotiator Text := ⟨[(⟨['a'], ['b'], []⟩, "a/b".toList),
    (⟨['c'], ['d'], []⟩, "c/d".toList)], by simp, {}⟩
  have hposition : c.position = 11 := by decide +kernel
  have hlength : c.header.utf8.length = 14 := by decide +kernel
  have hdone : c.isDone = false := by decide +kernel
  have hrest : c.rest = "a/b".toList := by decide +kernel
  obtain ⟨hcalls, hslice, -⟩ := after_safe "é/ü;Q=.5,a/b".toList
  obtain ⟨-, hc⟩ := hcalls 1
  have hok : c.next.1 = .ok (some ⟨['a'], ['b'], [], .one⟩) := by
    rw [hc.answer, hrest]
    rfl
  have hforward := hc.forward _ hdone hok
  have hlisting := hc.listing 4 (by rw [hlength, hposition]; decide)
  rw [hlength] at hforward
  rw [hrest] at hlisting
  refine ⟨hposition, hdone, hc.slices, hforward, hlisting, ?_, ?_, n₀, rfl, ?_⟩
  · exact (hslice c.header 0 2).mpr (by decide +kernel)
  · rw [hslice]
    decide +kernel
  · obtain ⟨-, -, hn⟩ := after_safe []
    exact (hn Text id ["a/b".toList, "c/d".toList] n₀ _ rfl).2.2.2 (.inl rfl)

end ContentNegotiation
