import ContentNegotiation.Proofs.Choice
import ContentNegotiation.Request

/-!
How requests are answered.

The first header value of a request settles the answer. If it cannot be read the request is refused,
whatever negotiation would say; otherwise negotiation on its text decides, and where it chooses
nothing the first supported value answers, as it does without a header value.
-/

namespace ContentNegotiation

open Header

/-- All bytes are tabs or printable characters of ASCII. -/
def Readable (bytes : List UInt8) : Prop := ∀ b ∈ bytes, b = 9 ∨ 32 ≤ b ∧ b ≤ 126

instance (bytes : List UInt8) : Decidable (Readable bytes) :=
  inferInstanceAs (Decidable (∀ b ∈ bytes, b = 9 ∨ 32 ≤ b ∧ b ≤ 126))

lemma all_isReadableByte_iff {bytes : List UInt8} :
    bytes.all isReadableByte = true ↔ Readable bytes := by
  have hlast : ∀ b : UInt8, b < 127 ↔ b ≤ 126 := fun b => by
    rw [UInt8.lt_iff_toNat_lt, UInt8.le_iff_toNat_le]
    exact Nat.lt_succ_iff
  simp only [Readable, List.all_eq_true, isReadableByte, Bool.or_eq_true, Bool.and_eq_true,
    beq_iff_eq, decide_eq_true_eq, hlast]

namespace Transport

variable {Request Reply α : Type} {t : Transport Request Reply}
  {values : Request → List (List UInt8)} {status : Reply → ℕ} {body : Reply → String}

/-- What a transport is relied on for: it finds the first of the values that a request has, reads
the text of readable values and of no others, and replies as it is told. -/
structure Lawful (t : Transport Request Reply) (values : Request → List (List UInt8))
    (status : Reply → ℕ) (body : Reply → String) : Prop where
  first (request : Request) : t.acceptValue? request = (values request).head?
  readable (bytes : List UInt8) : (t.text? bytes).isSome = true ↔ Readable bytes
  text (bytes : List UInt8) (s : Text) : t.text? bytes = some s → s = asciiText bytes
  status (code : ℕ) (s : String) : status (t.reply code s) = code
  body (code : ℕ) (s : String) : body (t.reply code s) = s

lemma lawful_ofValues : ofValues.Lawful id Response.status Response.body where
  first _ := rfl
  readable bytes := by
    rw [← all_isReadableByte_iff]
    unfold ofValues readHeaderValue?
    simp only
    split <;> simp_all
  text bytes s h := by
    unfold ofValues readHeaderValue? at h
    simp only at h
    split at h
    · exact (Option.some.inj h).symm
    · cases h
  status _ _ := rfl
  body _ _ := rfl

namespace Lawful

variable (h : t.Lawful values status body) (n : Negotiator α) {request : Request}
  {bytes : List UInt8} {later : List (List UInt8)}

include h

lemma answer_nil (hv : values request = []) : t.answer n request = .ok n.first := by
  rw [answer, h.first, hv, List.head?_nil]

lemma answer_unreadable (hv : values request = bytes :: later) (hr : ¬ Readable bytes) :
    t.answer n request = .error .unreadable := by
  have htext : t.text? bytes = none := by
    rwa [← h.readable, Bool.not_eq_true, Option.isSome_eq_false_iff, Option.isNone_iff_eq_none]
      at hr
  rw [answer, h.first, hv, List.head?_cons]
  simp only [htext]

lemma answer_readable (hv : values request = bytes :: later) (hr : Readable bytes) :
    t.answer n request = match n.negotiate (asciiText bytes) with
      | .error e => .error (.failed e)
      | .ok value? => .ok (value?.getD n.first) := by
  obtain ⟨s, hs⟩ := Option.isSome_iff_exists.mp ((h.readable bytes).mpr hr)
  rw [answer, h.first, hv, List.head?_cons, ← h.text bytes s hs]
  cases hn : n.negotiate s with
  | error e => simp only [hs, hn]
  | ok value? => simp only [hs, hn]

lemma answer_eq_of_cons {request' : Request} {later' : List (List UInt8)}
    (hv : values request = bytes :: later) (hv' : values request' = bytes :: later') :
    t.answer n request' = t.answer n request := by
  rw [answer, answer, h.first, h.first, hv, hv', List.head?_cons, List.head?_cons]

/-- **Every request is answered by its first header value.** A value that is not readable is
refused, and so is one that negotiation fails on; otherwise the value that negotiation chooses
answers, or the first supported value if none is chosen or there is no header value. A refusal has
the status of a bad request and its own text for a body. Later header values do not count, and
without a header value, with an empty one, and with one that accepts nothing the answer is the
same. -/
theorem answer_iff :
    (∀ request,
      (t.answer n request = .error .unreadable ↔
        ∃ bytes later, values request = bytes :: later ∧ ¬ Readable bytes) ∧
      (∀ e, t.answer n request = .error (.failed e) ↔
        ∃ bytes later, values request = bytes :: later ∧ Readable bytes ∧
          n.negotiate (asciiText bytes) = .error e) ∧
      (∀ value, t.answer n request = .ok value ↔
        (∃ bytes later, values request = bytes :: later ∧ Readable bytes ∧
          n.negotiate (asciiText bytes) = .ok (some value)) ∨
        n.values[0]? = some value ∧ (values request = [] ∨
          ∃ bytes later, values request = bytes :: later ∧ Readable bytes ∧
            n.negotiate (asciiText bytes) = .ok none))) ∧
    (∀ refusal, status (t.refuse refusal) = 400 ∧ body (t.refuse refusal) = refusal.message) ∧
    (∀ request request' bytes later later', values request = bytes :: later →
      values request' = bytes :: later' → t.answer n request' = t.answer n request) ∧
    ∃ value, n.values[0]? = some value ∧ ∀ request, (values request = [] ∨
      (∃ later, values request = [] :: later) ∨
      (∃ bytes later, values request = bytes :: later ∧ Readable bytes ∧
        n.negotiate (asciiText bytes) = .ok none)) → t.answer n request = .ok value := by
  have hzero := n.values_zero
  refine ⟨fun request => ?_, fun refusal => ⟨h.status _ _, h.body _ _⟩,
    fun _ _ _ _ _ hv hv' => h.answer_eq_of_cons n hv hv', n.first, hzero, fun request hr => ?_⟩
  · rcases hv : values request with _ | ⟨bytes, later⟩
    · simp [h.answer_nil n hv, hzero]
    · by_cases hr : Readable bytes
      · rw [h.answer_readable n hv hr, hzero]
        rcases hn : n.negotiate (asciiText bytes) with e | _ | value
        · simp [hr, hn, eq_comm]
        · simp [hr, hn]
        · simp [hr, hn]
      · simp [h.answer_unreadable n hv hr, hr]
  · rcases hr with hv | ⟨later, hv⟩ | ⟨bytes, later, hv, hr, hn⟩
    · exact h.answer_nil n hv
    · have hanything : AcceptsAnything n.options.literal [] := Or.inl rfl
      have hempty := h.answer_readable n hv fun b hb => absurd hb List.not_mem_nil
      rw [asciiText, List.map_nil, n.negotiate_anything hanything] at hempty
      exact hempty
    · have hnone := h.answer_readable n hv hr
      rw [hn] at hnone
      exact hnone

end Lawful

/-- A star for everything is refused with a byte that is not readable behind it, a bad quality is
refused with its own text, and an empty value is answered as a request without any. -/
theorem answer_iff_refused :
    ∃ n : Negotiator ℕ, n.types = [⟨['a'], ['b'], []⟩] ∧ n.values = [7] ∧
      -- the star for everything and the byte 128, then `a/b`
      n.answer [[42, 47, 42, 128], [97, 47, 98]] = .error .unreadable ∧
      -- `a/b;q=x`
      n.answer [[97, 47, 98, 59, 113, 61, 120]] = .error (.failed (.invalidQuality .malformed)) ∧
      (Refusal.failed (.invalidQuality .malformed)).response.status = 400 ∧
      (Refusal.failed (.invalidQuality .malformed)).response.body =
        "negotiation failure: invalid quality param" ∧
      n.answer [[], [97]] = .ok 7 ∧ n.answer [] = .ok 7 := by
  let n : Negotiator ℕ := ⟨[(⟨['a'], ['b'], []⟩, 7)], by simp, {}⟩
  obtain ⟨hcases, hrefuse, -, value, hvalue, hsame⟩ := lawful_ofValues.answer_iff n
  obtain ⟨hstatus, hbody⟩ := hrefuse (.failed (.invalidQuality .malformed))
  cases hvalue
  refine ⟨n, rfl, rfl, ?_, ?_, hstatus, hbody.trans (by decide +kernel), ?_, ?_⟩
  · exact (hcases _).1.mpr ⟨_, _, rfl, by decide +kernel⟩
  · exact ((hcases _).2.1 _).mpr ⟨_, _, rfl, by decide +kernel, by decide +kernel⟩
  · exact hsame _ (Or.inr (Or.inl ⟨_, rfl⟩))
  · exact hsame _ (Or.inl rfl)

end Transport

end ContentNegotiation
