import ContentNegotiation.Proofs.Choice

/-!
Negotiation over a header, as a whole.

Without a fault in the header the choice is made among all of its valid ranges, in the order of
preference. With a fault it is made among the ranges of top quality in front of the fault, and
negotiation fails if they leave nothing to choose.
-/

namespace ContentNegotiation

open Header

namespace Negotiator

variable {α : Type} {n : Negotiator α} {header : Text} {before : List Text} {e : Error}

lemma negotiate_eq_choose (h : ¬ AcceptsAnything n.options.literal header)
    (hq : WellFormed header) :
    n.negotiate header = .ok ((choose? n.options.matching
      (descending MediaRange.rank (valid header)) n.types).bind fun i => n.values[i]?) := by
  rw [negotiate_literal n h, Walk.before_wellFormed h hq, Walk.order_nil, ← findSome?_pickFor?]
  rcases hf : (descending MediaRange.rank (valid header)).findSome?
      (n.pickFor? n.options.matching) with _ | value
  · exact outcome_none hf
  · exact outcome_some hf

lemma negotiate_eq_none (h : ¬ AcceptsAnything n.options.literal header)
    (hq : WellFormed header) :
    n.negotiate header = .ok none ↔
      ∀ r ∈ valid header, ∀ t ∈ n.types, r.covers n.options.matching t = false := by
  have hall : (∀ r ∈ valid header, ∀ t ∈ n.types, r.covers n.options.matching t = false) ↔
      choose? n.options.matching (descending MediaRange.rank (valid header)) n.types = none := by
    rw [choose?_eq_none]
    simp only [(perm_descending (valid header)).mem_iff]
  rw [hall, negotiate_eq_choose h hq]
  rcases hc : choose? n.options.matching (descending MediaRange.rank (valid header)) n.types
    with _ | i
  · exact ⟨fun _ => rfl, fun _ => rfl⟩
  · obtain ⟨value, hv⟩ := getElem?_choose? hc
    simp [hv]

lemma exists_negotiate_iff (h : ¬ AcceptsAnything n.options.literal header)
    (hq : WellFormed header) :
    (∃ value, n.negotiate header = .ok (some value)) ↔
      ∃ r ∈ valid header, ∃ t ∈ n.types, r.covers n.options.matching t = true := by
  constructor
  · rintro ⟨value, hv⟩
    by_contra hno
    have hnone : n.negotiate header = .ok none := by
      refine (negotiate_eq_none h hq).mpr fun r hr t ht => ?_
      rw [← Bool.not_eq_true]
      exact fun hcov => hno ⟨r, hr, t, ht, hcov⟩
    rw [hv] at hnone
    cases hnone
  · rintro ⟨r, hr, t, ht, hcov⟩
    obtain ⟨i, hi⟩ := exists_choose? ⟨r, (perm_descending _).mem_iff.mpr hr, t, ht, hcov⟩
    obtain ⟨value, hv⟩ := getElem?_choose? hi
    exact ⟨value, by rw [negotiate_eq_choose h hq, hi, Option.bind_some, hv]⟩

lemma negotiate_fault_chosen (h : ¬ AcceptsAnything n.options.literal header)
    (hf : FaultAfter header before e) {i : ℕ}
    (hc : choose? n.options.matching (tops before) n.types = some i) :
    ∃ value, n.values[i]? = some value ∧ n.negotiate header = .ok (some value) := by
  obtain ⟨value, hv⟩ := getElem?_choose? hc
  refine ⟨value, hv, ?_⟩
  rw [negotiate_literal n h, Walk.before_fault h hf]
  refine outcome_some ?_
  rw [findSome?_pickFor?, hc]
  exact hv

lemma negotiate_fault_unchosen (h : ¬ AcceptsAnything n.options.literal header)
    (hf : FaultAfter header before e)
    (hc : choose? n.options.matching (tops before) n.types = none) :
    n.negotiate header = .error e := by
  rw [negotiate_literal n h, Walk.before_fault h hf]
  refine outcome_none ?_
  rw [findSome?_pickFor?, hc]
  rfl

/-- **Negotiation without a fault.** A header that leaves the choice open is answered with the
first value. Any other header is answered with the value at the place chosen by its valid ranges
in the order of preference, and with none only if no valid range covers any supported type. -/
theorem negotiate_wellFormed {text : α → Text} {values : List α}
    (hn : ofList text values = .ok n) (literal : Bool) (matching : ParameterMatching)
    (header : Text) :
    ∃ types, values.mapM (fun value => ContentType.read (text value)) = .ok types ∧
      (AcceptsAnything literal header → ∃ first, values[0]? = some first ∧
        ((n.withLiteral literal).withMatching matching).negotiate header = .ok (some first)) ∧
      (¬ AcceptsAnything literal header → WellFormed header →
        ((n.withLiteral literal).withMatching matching).negotiate header =
          .ok ((choose? matching (descending MediaRange.rank (valid header)) types).bind
            fun i => values[i]?) ∧
        (((n.withLiteral literal).withMatching matching).negotiate header = .ok none ↔
          ∀ r ∈ valid header, ∀ t ∈ types, r.covers matching t = false)) := by
  obtain ⟨htypes, rfl⟩ := ofList_eq_ok hn
  set n' := (n.withLiteral literal).withMatching matching
  refine ⟨n.types, htypes, fun h => ?_, fun h hq => ?_⟩
  · exact ⟨n'.first, values_zero n', negotiate_anything n' h⟩
  · have h' : ¬ AcceptsAnything n'.options.literal header := h
    exact ⟨negotiate_eq_choose h' hq, negotiate_eq_none h' hq⟩

/-- Of two ranges of one quality the first in the header decides, whatever the server prefers. -/
theorem negotiate_wellFormed_tie :
    ∃ n, ofList id ["text/html".toList, "application/json".toList] = .ok n ∧
      ((n.withLiteral true).withMatching .exact).negotiate
        "*/*;q=0,application/json;q=0.5, text/*;q=0.5,".toList =
          .ok (some "application/json".toList) := by
  obtain ⟨n, hn⟩ : ∃ n, ofList id ["text/html".toList, "application/json".toList] = .ok n :=
    ⟨_, rfl⟩
  obtain ⟨types, htypes, -, hchoice⟩ := negotiate_wellFormed hn true .exact
    "*/*;q=0,application/json;q=0.5, text/*;q=0.5,".toList
  obtain ⟨hneg, -⟩ := hchoice (by decide +kernel) (by decide +kernel)
  have hread : ["text/html".toList, "application/json".toList].mapM
      (fun value => ContentType.read (id value)) =
      .ok [⟨"text".toList, "html".toList, []⟩, ⟨"application".toList, "json".toList, []⟩] := by
    decide +kernel
  rw [hread] at htypes
  cases htypes
  refine ⟨n, hn, ?_⟩
  rw [hneg, ← Walk.order_nil .exact, Walk.order_eq_foldl]
  decide +kernel

/-- **Negotiation with a fault.** Negotiation fails exactly if no range of top quality in front of
the fault covers a supported type, and then with the error of the fault. Otherwise those ranges
choose, whatever else the header says. -/
theorem negotiate_fault (n : Negotiator α) (header : Text) :
    (∀ e, n.negotiate header = .error e ↔ ¬ AcceptsAnything n.options.literal header ∧
      ∃ before, FaultAfter header before e ∧
        ∀ r ∈ tops before, ∀ t ∈ n.types, r.covers n.options.matching t = false) ∧
    (∀ before e, ¬ AcceptsAnything n.options.literal header → FaultAfter header before e →
      (∃ r ∈ tops before, ∃ t ∈ n.types, r.covers n.options.matching t = true) →
      ∃ i value, choose? n.options.matching (tops before) n.types = some i ∧
        n.values[i]? = some value ∧ n.negotiate header = .ok (some value)) := by
  refine ⟨fun e => ⟨fun he => ?_, ?_⟩, fun before e h hf hr => ?_⟩
  · have h : ¬ AcceptsAnything n.options.literal header := by
      intro h
      rw [negotiate_anything n h] at he
      cases he
    refine ⟨h, ?_⟩
    rcases wellFormed_or_fault header with hq | ⟨before, e', hf⟩
    · rw [negotiate_eq_choose h hq] at he
      cases he
    · rcases hc : choose? n.options.matching (tops before) n.types with _ | i
      · rw [negotiate_fault_unchosen h hf hc] at he
        cases he
        exact ⟨before, hf, choose?_eq_none.mp hc⟩
      · obtain ⟨value, -, hv⟩ := negotiate_fault_chosen h hf hc
        rw [hv] at he
        cases he
  · rintro ⟨h, before, hf, hc⟩
    exact negotiate_fault_unchosen h hf (choose?_eq_none.mpr hc)
  · obtain ⟨r, hr, t, ht, hcov⟩ := hr
    rcases hc : choose? n.options.matching (tops before) n.types with _ | i
    · have := choose?_eq_none.mp hc r hr t ht
      rw [hcov] at this
      cases this
    · obtain ⟨value, hv, hneg⟩ := negotiate_fault_chosen h hf hc
      exact ⟨i, value, rfl, hv, hneg⟩

theorem negotiate_fault_by_support :
    (∃ n : Negotiator ℕ, n.types = [⟨['a'], ['b'], []⟩] ∧
      n.negotiate "a/b;q=0,c/d,e;q=x,a/b".toList = .error (.invalidQuality .malformed)) ∧
    ∃ n : Negotiator ℕ, n.types = [⟨['a'], ['b'], []⟩, ⟨['c'], ['d'], []⟩] ∧
      n.negotiate "a/b;q=0,c/d,e;q=x,a/b".toList = .ok (some 1) := by
  have hf : FaultAfter "a/b;q=0,c/d,e;q=x,a/b".toList ["a/b;q=0".toList, "c/d".toList]
      (.invalidQuality .malformed) :=
    ⟨"e;q=x".toList, ["a/b".toList], by decide +kernel, by decide +kernel,
      [], ['x'], [], by decide +kernel, by simp, by decide +kernel⟩
  have hopen : ¬ AcceptsAnything false "a/b;q=0,c/d,e;q=x,a/b".toList := by decide +kernel
  constructor
  · refine ⟨⟨[(⟨['a'], ['b'], []⟩, 0)], by simp, {}⟩, rfl, ?_⟩
    exact ((negotiate_fault _ _).1 _).mpr ⟨hopen, _, hf, by decide +kernel⟩
  · let n : Negotiator ℕ := ⟨[(⟨['a'], ['b'], []⟩, 0), (⟨['c'], ['d'], []⟩, 1)], by simp, {}⟩
    have hcover : ∃ r ∈ tops ["a/b;q=0".toList, "c/d".toList],
        ∃ t ∈ [⟨['a'], ['b'], []⟩, ⟨['c'], ['d'], []⟩], r.covers .exact t = true := by
      decide +kernel
    obtain ⟨i, value, hi, hv, hneg⟩ := (negotiate_fault n _).2 _ _ hopen hf hcover
    have hplace : choose? .exact (tops ["a/b;q=0".toList, "c/d".toList])
        [⟨['a'], ['b'], []⟩, ⟨['c'], ['d'], []⟩] = some 1 := by decide +kernel
    cases hi.symm.trans hplace
    cases hv
    exact ⟨n, rfl, hneg⟩

end Negotiator

end ContentNegotiation
