import ContentNegotiation.Proofs.ByteSlices
import ContentNegotiation.Proofs.Folding
import ContentNegotiation.Proofs.HeaderAnswers
import ContentNegotiation.Cursor

/-!
A cursor among the bytes of a header reads what the reader of its characters does.

The bytes of a character beyond ASCII are none of the separators, so the cursor meets a separator
exactly where the characters have one. There the open span lies between two characters, and the
slice of it exists. A call is therefore an answer of the reader, and it moves the cursor by the
bytes of what the reader has used up.
-/

namespace ContentNegotiation

namespace Text

variable {s t a b : Text} {i j : ℕ}

/-! ### Slices -/

lemma length_utf8_cons (c : Char) (s : Text) :
    (utf8 (c :: s)).length = c.utf8Size + (utf8 s).length := by
  rw [utf8_cons, List.length_append, String.length_utf8EncodeChar]

lemma length_utf8_append (s t : Text) :
    (utf8 (s ++ t)).length = (utf8 s).length + (utf8 t).length := by
  rw [utf8_append, List.length_append]

lemma length_utf8_pos (h : s ≠ []) : 0 < (utf8 s).length := by
  rcases s with _ | ⟨c, s⟩
  · exact absurd rfl h
  · have := c.utf8Size_pos
    rw [length_utf8_cons]
    omega

lemma takeBytes_cons (h : 0 < i) (c : Char) (s : Text) :
    takeBytes i (c :: s) = c :: takeBytes (i - c.utf8Size) s := by
  obtain ⟨i, rfl⟩ := Nat.exists_eq_add_one.mpr h
  rfl

lemma dropBytes_cons (h : 0 < i) (c : Char) (s : Text) :
    dropBytes i (c :: s) = dropBytes (i - c.utf8Size) s := by
  obtain ⟨i, rfl⟩ := Nat.exists_eq_add_one.mpr h
  rfl

lemma takeBytes_append (a b : Text) : takeBytes (utf8 a).length (a ++ b) = a := by
  induction a with
  | nil => cases b <;> rfl
  | cons c a ih =>
    rw [List.cons_append, takeBytes_cons (length_utf8_pos (List.cons_ne_nil c a)),
      length_utf8_cons, Nat.add_sub_cancel_left, ih]

lemma dropBytes_append (a b : Text) : dropBytes (utf8 a).length (a ++ b) = b := by
  induction a with
  | nil => cases b <;> rfl
  | cons c a ih =>
    rw [List.cons_append, dropBytes_cons (length_utf8_pos (List.cons_ne_nil c a)),
      length_utf8_cons, Nat.add_sub_cancel_left, ih]

lemma slice?_append (a t b : Text) :
    slice? (a ++ (t ++ b)) (utf8 a).length (utf8 (a ++ t)).length = some t := by
  have hle : (utf8 a).length ≤ (utf8 (a ++ t)).length := by
    rw [length_utf8_append]
    omega
  have hi := Bytes.isBoundary_utf8.mpr ⟨a, t ++ b, rfl, rfl⟩
  have hj := Bytes.isBoundary_utf8.mpr ⟨a ++ t, b, rfl, rfl⟩
  rw [List.append_assoc] at hj
  rw [slice?, if_pos ⟨hle, hi, hj⟩, ← List.append_assoc, takeBytes_append, dropBytes_append]

/-- **A slice lies between characters**, and its positions are in order. -/
theorem slice?_eq_some : slice? s i j = some t ↔
    ∃ a b, s = a ++ (t ++ b) ∧ (utf8 a).length = i ∧ (utf8 (a ++ t)).length = j := by
  constructor
  · intro h
    obtain ⟨⟨hle, hi, hj⟩, ht⟩ := Option.ite_none_right_eq_some.mp h
    obtain ⟨a, u, hau, rfl⟩ := Bytes.isBoundary_utf8.mp hi
    obtain ⟨v, b, rfl, rfl⟩ := Bytes.isBoundary_utf8.mp hj
    obtain ⟨t', rfl⟩ : a <+: v := by
      rcases List.prefix_or_prefix_of_prefix ⟨u, hau.symm⟩ (List.prefix_append v b) with h | h
      · exact h
      · -- the other way round only nothing lies between
        obtain ⟨w, rfl⟩ := h
        rw [length_utf8_append] at hle
        rcases w with _ | ⟨c, w⟩
        · rw [List.append_nil]
        · have := length_utf8_pos (List.cons_ne_nil c w)
          omega
    rw [takeBytes_append, dropBytes_append, Option.some.injEq] at ht
    exact ⟨a, b, by rw [← ht, List.append_assoc], rfl, by rw [ht]⟩
  · rintro ⟨a, b, rfl, rfl, rfl⟩
    exact slice?_append a t b

/-- **A slice exists** exactly if its positions are in order, not beyond the end, and between
characters. -/
theorem exists_slice?_iff : (∃ t, slice? s i j = some t) ↔ i ≤ j ∧ j ≤ s.utf8.length ∧
    s.utf8.isBoundary i = true ∧ s.utf8.isBoundary j = true := by
  constructor
  · rintro ⟨t, ht⟩
    obtain ⟨⟨hle, hi, hj⟩, -⟩ := Option.ite_none_right_eq_some.mp ht
    refine ⟨hle, ?_, hi, hj⟩
    obtain ⟨v, b, rfl, rfl⟩ := Bytes.isBoundary_utf8.mp hj
    rw [length_utf8_append]
    omega
  · rintro ⟨hle, -, hi, hj⟩
    exact ⟨_, if_pos ⟨hle, hi, hj⟩⟩

lemma slice_append (a t b : Text) :
    slice (a ++ (t ++ b)) (utf8 a).length (utf8 (a ++ t)).length = .ok t := by
  rw [slice, slice?_append]

end Text

open Text

/-! ### Spans -/

namespace Draft

open MediaRange

variable {s key value : Text} {c : Char}

lemma slice?_key (hc : c.toLower = 'q') (value : Text) :
    slice? (c :: '=' :: value) 0 2 = some [c, '='] ∧
      slice (c :: '=' :: value) 2 (utf8 (c :: '=' :: value)).length = .ok value := by
  have htwo : (utf8 [c, '=']).length = 2 := by
    rcases toLower_eq_q.mp hc with rfl | rfl <;> rfl
  have hkey := slice?_append [] [c, '='] value
  have hvalue := slice_append [c, '='] value []
  rw [List.nil_append, List.nil_append, htwo] at hkey
  rw [htwo, List.append_nil] at hvalue
  exact ⟨hkey, hvalue⟩

lemma eq_of_slice?_key (h : slice? s 0 2 = some key) (hkey : foldEq key ['q', '='] = true) :
    ∃ c value, s = c :: '=' :: value ∧ c.toLower = 'q' := by
  obtain ⟨a, value, rfl, ha, -⟩ := slice?_eq_some.mp h
  obtain rfl : a = [] := by
    by_contra hne
    have := length_utf8_pos hne
    omega
  rw [foldEq_iff] at hkey
  rcases key with _ | ⟨c, _ | ⟨d, _ | ⟨e, key⟩⟩⟩
  · simp [fold] at hkey
  · simp [fold] at hkey
  · obtain ⟨hc, hd⟩ : c.toLower = 'q' ∧ d.toLower = '=' := by simpa [fold] using hkey
    rw [(toLower_eq_iff rfl).mp hd]
    exact ⟨c, value, rfl, hc⟩
  · simp [fold] at hkey

/-- **The quality of a span is cut out by slices**: what follows `q=` is a slice, since `q=` are two
bytes. -/
theorem qualityText_eq (span : Text) : qualityText span = .ok (qualityText? span) := by
  by_cases h : ∃ c value, trimStart span = c :: '=' :: value ∧ c.toLower = 'q'
  · obtain ⟨c, value, htrim, hc⟩ := h
    obtain ⟨hkey, hvalue⟩ := slice?_key hc value
    have hfold : foldEq [c, '='] ['q', '='] = true := by
      rw [foldEq_iff]
      simp [fold, hc]
    simp only [qualityText, qualityText?, htrim, hkey, hvalue, hfold, hc, if_true]
    rfl
  · -- no slice of such a span is `q=`, and neither are its first two characters
    have hnone : qualityText? span = none := by
      unfold qualityText?
      split
      · next c value htrim => exact if_neg fun hc => h ⟨c, value, htrim, hc⟩
      · rfl
    rw [hnone, qualityText]
    rcases hs : slice? (trimStart span) 0 2 with _ | key
    · rfl
    · have hfold : foldEq key ['q', '='] = false := by
        rw [← Bool.not_eq_true]
        exact fun hkey => h (eq_of_slice?_key hs hkey)
      simp only [hfold, Bool.false_eq_true, if_false]
      rfl

/-- The stage that the draft has reached. -/
def scan (d : Draft) : Scan :=
  match d.subtype?, d.type? with
  | some subtype, type? => .atParameters (type?.map (·, subtype)) d.quality d.parameters
  | none, some type => .atSubtype type
  | none, none => .atType

/-- Nothing has been read of the spans that follow the first one before that has ended. -/
def Fresh (d : Draft) : Prop := d.subtype? = none → d.quality = .one ∧ d.parameters = []

variable {d : Draft} {span : Text}

lemma scan_of_subtype {subtype : Text} (h : d.subtype? = some subtype) :
    d.scan = .atParameters (d.type?.map (·, subtype)) d.quality d.parameters := by
  rw [scan, h]

lemma scan_type (h : d.subtype? = none) (type : Text) (start : ℕ) :
    scan { d with type? := some type, start } = .atSubtype type := by
  rw [scan, h]

lemma scan_range? (d : Draft) : d.scan.range? = d.range? := by
  unfold scan range?
  rcases d.subtype? with _ | subtype <;> rcases d.type? with _ | type <;> rfl

lemma endSpan_first (hd : d.Fresh) (hsub : d.subtype? = none) (span : Text) :
    d.scan.endSpan span = .ok (scan { d with subtype? := some span }) := by
  obtain ⟨hquality, hparameters⟩ := hd hsub
  unfold scan
  rw [hsub]
  rcases d.type? with _ | type
  · simp [Scan.endSpan, hquality, hparameters]
  · simp [Scan.endSpan, hquality, hparameters]

/-- **Ending a span** brings the draft to the stage that the reader comes to, or fails as the reader
does. -/
theorem endSpan_eq (hd : d.Fresh) (span : Text) :
    (∃ d', d.endSpan span = .ok d' ∧ d.scan.endSpan span = .ok d'.scan ∧ d'.subtype? ≠ none) ∨
    ∃ e, d.endSpan span = .error (.failed e) ∧ d.scan.endSpan span = .error e := by
  rcases hsub : d.subtype? with _ | subtype
  · refine Or.inl ⟨{ d with subtype? := some span }, ?_, endSpan_first hd hsub span, by simp⟩
    rw [endSpan, hsub]
  · have hne : d.subtype? ≠ none := by simp [hsub]
    rw [endSpan, hsub, scan_of_subtype hsub, Scan.endSpan, Scan.addSpan]
    simp only [addSpan, qualityText_eq, bind, Except.bind, trim_eq_nil_iff]
    rcases qualityText? span with _ | value
    · -- a span without a quality is a parameter unless it is blank
      rcases hblank : allBlank span with _ | _
      · refine Or.inl ⟨{ d with parameters := d.parameters ++ [span] }, rfl, ?_, hne⟩
        rw [scan_of_subtype (d := { d with parameters := d.parameters ++ [span] }) hsub]
        rfl
      · refine Or.inl ⟨d, rfl, ?_, hne⟩
        rw [scan_of_subtype hsub]
        rfl
    · dsimp only
      rcases Quality.read value with e | quality
      · exact Or.inr ⟨e, rfl, rfl⟩
      · refine Or.inl ⟨{ d with quality }, rfl, ?_, hne⟩
        rw [scan_of_subtype (d := { d with quality }) hsub]
        rfl

end Draft

/-! ### Bytes -/

namespace Cursor

open MediaRange

variable {header front span rest : Text} {d : Draft} {position : ℕ} {b : UInt8}

/-- A byte below 128 is a character of its own. -/
lemma eq_of_toUInt8_mem {c sep : Char} (hsep : sep.toNat < 128)
    (h : sep.toUInt8 ∈ String.utf8EncodeChar c) : c = sep := by
  have hval : c.val.toNat = c.toNat := rfl
  have hbyte : ∀ d : Char, d.toUInt8.toNat = d.toNat % 256 := fun d => UInt32.toNat_toUInt8 d.val
  rcases Nat.lt_or_ge 127 c.toNat with hc | hc
  · have hle := Bytes.le_of_mem_utf8EncodeChar hc h
    have h128 : (128 : UInt8).toNat = 128 := rfl
    rw [UInt8.le_iff_toNat_le, hbyte] at hle
    omega
  · unfold String.utf8EncodeChar at h
    simp only [hval] at h
    rw [if_pos hc, List.mem_singleton] at h
    have hnat := congrArg UInt8.toNat h
    rw [hbyte, UInt8.toNat_ofNat'] at hnat
    exact Char.toNat_inj.mp (by omega)

lemma scan_byte (h : (utf8 header)[position]? = some b) : scan header d position =
    if b = '/'.toUInt8 ∧ d.type? = none ∧ d.subtype? = none then
      (header.slice d.start position).bind fun type =>
        scan header { d with type? := some type, start := position + 1 } (position + 1)
    else if b = ';'.toUInt8 then
      (header.slice d.start position).bind fun span => (d.endSpan span).bind fun d' =>
        scan header { d' with start := position + 1 } (position + 1)
    else if b = ','.toUInt8 then .ok (d, position, position + 1)
    else scan header d (position + 1) := by
  obtain ⟨hlt, rfl⟩ := List.getElem?_eq_some_iff.mp h
  rw [scan, dif_pos hlt]
  rfl

lemma scan_end (h : (utf8 header).length ≤ position) :
    scan header d position = .ok (d, (utf8 header).length, (utf8 header).length) := by
  rw [scan, dif_neg (by omega)]

lemma scan_pass (h : (utf8 header)[position]? = some b) (hcomma : b ≠ ','.toUInt8)
    (hsemi : b ≠ ';'.toUInt8) (hslash : b = '/'.toUInt8 → d.scan ≠ .atType) :
    scan header d position = scan header d (position + 1) := by
  have hnot : ¬ (b = '/'.toUInt8 ∧ d.type? = none ∧ d.subtype? = none) := by
    rintro ⟨hb, ht, hs⟩
    exact hslash hb (by rw [Draft.scan, ht, hs])
  rw [scan_byte h, if_neg hnot, if_neg hsemi, if_neg hcomma]

lemma getElem?_utf8 (a b : Text) (c : Char) {k : ℕ} (hk : k < c.utf8Size) :
    (utf8 (a ++ c :: b))[(utf8 a).length + k]? = (String.utf8EncodeChar c)[k]? := by
  have hlength := String.length_utf8EncodeChar c
  rw [utf8_append, utf8_cons, List.getElem?_append_right (by omega), Nat.add_sub_cancel_left,
    List.getElem?_append_left (by omega)]

/-- **A character that separates nothing is passed**, byte by byte. -/
lemma scan_char {c : Char} (a b : Text) (hcomma : c ≠ ',') (hsemi : c ≠ ';')
    (hslash : c = '/' → d.scan ≠ .atType) :
    scan (a ++ c :: b) d (utf8 a).length = scan (a ++ c :: b) d (utf8 (a ++ [c])).length := by
  have hpass : ∀ k ≤ c.utf8Size, scan (a ++ c :: b) d (utf8 a).length =
      scan (a ++ c :: b) d ((utf8 a).length + k) := by
    intro k hk
    induction k with
    | zero => rfl
    | succ k ih =>
      have hlt : k < (String.utf8EncodeChar c).length := by
        rw [String.length_utf8EncodeChar]
        omega
      have hbyte := getElem?_utf8 a b c (k := k) (by omega)
      rw [List.getElem?_eq_getElem hlt] at hbyte
      have hmem := List.getElem_mem hlt
      rw [ih (by omega), ← Nat.add_assoc]
      refine scan_pass hbyte (fun h => hcomma ?_) (fun h => hsemi ?_) fun h => hslash ?_
      all_goals
        rw [h] at hmem
        exact eq_of_toUInt8_mem (by decide) hmem
  rw [hpass _ (Nat.le_refl _), length_utf8_append, length_utf8_cons, utf8_nil, List.length_nil,
    Nat.add_zero]

lemma getElem?_separator (a b : Text) (sep : Char)
    (h : String.utf8EncodeChar sep = [sep.toUInt8]) :
    (utf8 (a ++ sep :: b))[(utf8 a).length]? = some sep.toUInt8 := by
  have hsize : sep.utf8Size = 1 := by rw [← String.length_utf8EncodeChar, h, List.length_singleton]
  have hbyte := getElem?_utf8 a b sep (k := 0) (by omega)
  rw [h] at hbyte
  exact hbyte

lemma scan_eq_atType_iff : d.scan = .atType ↔ d.type? = none ∧ d.subtype? = none := by
  unfold Draft.scan
  rcases d.subtype? with _ | subtype <;> rcases d.type? with _ | type <;> simp

lemma scan_comma (hheader : header = front ++ (span ++ ',' :: rest)) :
    scan header d (utf8 (front ++ span)).length =
      .ok (d, (utf8 (front ++ span)).length, (utf8 (front ++ span ++ [','])).length) := by
  have hbyte := getElem?_separator (front ++ span) rest ',' rfl
  rw [List.append_assoc, ← hheader] at hbyte
  rw [scan_byte hbyte, if_neg fun h => absurd h.1 (by decide), if_neg (by decide), if_pos rfl,
    length_utf8_append (front ++ span)]
  rfl

lemma scan_semicolon (hheader : header = front ++ (span ++ ';' :: rest))
    (hstart : (utf8 front).length = d.start) :
    scan header d (utf8 (front ++ span)).length = (d.endSpan span).bind fun d' =>
      scan header { d' with start := (utf8 (front ++ span ++ [';'])).length }
        (utf8 (front ++ span ++ [';'])).length := by
  have hbyte := getElem?_separator (front ++ span) rest ';' rfl
  have hslice := slice_append front span (';' :: rest)
  rw [List.append_assoc, ← hheader] at hbyte
  rw [← hheader, hstart] at hslice
  rw [scan_byte hbyte, if_neg fun h => absurd h.1 (by decide), if_pos rfl, hslice,
    length_utf8_append (front ++ span)]
  rfl

lemma scan_slash (hheader : header = front ++ (span ++ '/' :: rest))
    (hstart : (utf8 front).length = d.start) (hscan : d.scan = .atType) :
    scan header d (utf8 (front ++ span)).length =
      scan header { d with type? := some span, start := (utf8 (front ++ span ++ ['/'])).length }
        (utf8 (front ++ span ++ ['/'])).length := by
  have hbyte := getElem?_separator (front ++ span) rest '/' rfl
  have hslice := slice_append front span ('/' :: rest)
  rw [List.append_assoc, ← hheader] at hbyte
  rw [← hheader, hstart] at hslice
  rw [scan_byte hbyte, if_pos ⟨rfl, scan_eq_atType_iff.mp hscan⟩, hslice,
    length_utf8_append (front ++ span)]
  rfl

lemma finish_eq (hd : d.Fresh) (hheader : header = front ++ (span ++ rest))
    (hstart : (utf8 front).length = d.start) (next : ℕ) :
    finish header (d, (utf8 (front ++ span)).length, next) =
      ((d.scan.endSpan span).map fun s => (s.range?, next)).mapError .failed := by
  have hslice := slice_append front span rest
  rw [finish, hheader, ← hstart, hslice]
  rcases Draft.endSpan_eq hd span with ⟨d', hd', hs, -⟩ | ⟨e, hd', hs⟩
  · simp only [bind, Except.bind, hd', hs, Except.map, Except.mapError, Draft.scan_range?]
    rfl
  · simp only [bind, Except.bind, hd', hs, Except.map, Except.mapError]

/-- **The cursor reads on as the reader of characters does**, from a place where the open span is
`span`. -/
theorem scan_eq (hd : d.Fresh) (hheader : header = front ++ (span ++ rest))
    (hstart : (utf8 front).length = d.start) :
    (scan header d (utf8 (front ++ span)).length).bind (finish header) =
      ((readFrom d.scan span.reverse rest).map fun answer =>
        (answer.1, (utf8 header).length - (utf8 answer.2).length)).mapError .failed := by
  induction rest generalizing front span d with
  | nil =>
    have hend : (utf8 header).length = (utf8 (front ++ span)).length := by
      rw [hheader, List.append_nil]
    rw [scan_end (Nat.le_of_eq hend), readFrom_nil, List.reverse_reverse, Except.bind]
    simp only [hend]
    rw [finish_eq hd hheader hstart]
    cases d.scan.endSpan span <;> simp [Except.map, Except.mapError]
  | cons c rest ih =>
    have hsplit : header = (front ++ span) ++ c :: rest := by rw [hheader, List.append_assoc]
    have hbehind : header = (front ++ span ++ [c]) ++ ([] ++ rest) := by rw [hsplit]; simp
    by_cases hcomma : c = ','
    · -- the end of the piece
      subst hcomma
      have hnext : (utf8 (front ++ span ++ [','])).length =
          (utf8 header).length - (utf8 rest).length := by
        rw [hbehind, List.nil_append, length_utf8_append _ rest, Nat.add_sub_cancel]
      rw [scan_comma hheader, readFrom_comma, List.reverse_reverse, Except.bind,
        finish_eq hd hheader hstart, hnext]
      cases d.scan.endSpan span <;> rfl
    by_cases hsemi : c = ';'
    · -- the end of a span
      subst hsemi
      rw [scan_semicolon hheader hstart, readFrom_semicolon, List.reverse_reverse]
      rcases Draft.endSpan_eq hd span with ⟨d', hd', hs, hsub⟩ | ⟨e, hd', hs⟩
      · have hih := ih (d := { d' with start := (utf8 (front ++ span ++ [';'])).length })
          (fun h => absurd h hsub) hbehind rfl
        rw [List.append_nil] at hih
        rw [hd', hs]
        exact hih
      · rw [hd', hs]
        rfl
    by_cases hslash : c = '/' ∧ d.scan = .atType
    · -- the end of the type
      obtain ⟨rfl, hscan⟩ := hslash
      have hih := ih (d := { d with
        type? := some span, start := (utf8 (front ++ span ++ ['/'])).length }) hd hbehind rfl
      rw [List.append_nil, Draft.scan_type (scan_eq_atType_iff.mp hscan).2] at hih
      rw [scan_slash hheader hstart hscan, hscan, readFrom_slash, List.reverse_reverse]
      exact hih
    · -- the open span goes on
      have hpass : c = '/' → d.scan ≠ .atType := fun hc hscan => hslash ⟨hc, hscan⟩
      have hlonger : header = front ++ ((span ++ [c]) ++ rest) := by rw [hheader]; simp
      have hih := ih hd hlonger hstart
      rw [hsplit, scan_char (front ++ span) rest hcomma hsemi hpass, ← hsplit,
        readFrom_cons _ _ hcomma hsemi hpass, List.append_assoc, hih, List.reverse_concat]

end Cursor

end ContentNegotiation
