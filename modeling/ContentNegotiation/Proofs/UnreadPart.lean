import ContentNegotiation.Proofs.SkippedParts

/-!
The part of a header that a walk has not read.

Behind a comma another piece begins, so what comes there does not change the pieces in front of it.
As long as something comes, the top ranges in front of the comma are shown at once, and a fault in
front of it ends the walk: nothing that a walk shows up to there, and no choice among these ranges,
depends on the rest of the header.
-/

namespace ContentNegotiation

namespace Header

variable {p s : Text}

lemma pieces_eq_parts (header : Text) : pieces header =
    if (parts header).getLast? = some [] then (parts header).dropLast else parts header := rfl

lemma pieces_append_comma (a b : Text) : pieces (a ++ ',' :: b) = parts a ++ pieces b := by
  have hne : parts b ≠ [] := List.cons_ne_nil _ _
  rw [pieces_eq_parts, pieces_eq_parts, parts_append, List.getLast?_append_of_ne_nil _ hne,
    List.dropLast_append_of_ne_nil hne]
  split <;> rfl

lemma pieces_append (hp : p.getLast? = some ',') (s : Text) :
    pieces (p ++ s) = pieces p ++ pieces s := by
  obtain ⟨a, rfl⟩ := List.getLast?_eq_some_iff.mp hp
  have ha := pieces_append_comma a []
  rw [pieces_nil, List.append_nil] at ha
  rw [ha, List.append_assoc, List.singleton_append, pieces_append_comma]

lemma FaultAfter.append {before : List Text} {e : Error} (hf : FaultAfter p before e)
    (hp : p.getLast? = some ',') (s : Text) : FaultAfter (p ++ s) before e := by
  obtain ⟨piece, others, hpieces, hw, hfault⟩ := hf
  refine ⟨piece, others ++ pieces s, ?_, hw, hfault⟩
  rw [pieces_append hp, hpieces, List.append_assoc, List.cons_append]

end Header

open Header

variable {p s s₁ s₂ : Text} {options : Options} {filters : List ContentType}

namespace Walk

lemma before_append (hp : p.getLast? = some ',') (hw : WellFormed p) (hs : s ≠ [])
    (hopen : ¬ AcceptsAnything options.literal (p ++ s)) (filters : List ContentType) :
    ∃ t : Route, (before (p ++ s) options filters).route =
      { t with ranges := tops (pieces p) ++ t.ranges } := by
  rw [(before_literal hopen filters).2, pieces_append hp]
  obtain ⟨kept, hroute⟩ := Route.through_append hw (pieces_ne_nil.mpr hs) []
  exact ⟨_, hroute⟩

/-- The walk shows the top ranges in front of the comma first, one for each move. -/
lemma start_append (hp : p.getLast? = some ',') (hw : WellFormed p) (hs : s ≠ [])
    (hopen : ¬ AcceptsAnything options.literal (p ++ s)) (htops : tops (pieces p) ≠ []) :
    ∃ w, start (p ++ s) options filters = .ok w ∧ ∀ n (h : n < (tops (pieces p)).length),
      (w.after n).current = some (tops (pieces p))[n] ∧
      (n + 1 < (tops (pieces p)).length → (w.after n).advance.1 = .ok true) := by
  obtain ⟨t, ht⟩ := before_append hp hw hs hopen filters
  have hne : tops (pieces p) ++ t.ranges ≠ [] := by simp [htops]
  obtain ⟨w, hstart, -, -, hshows⟩ := start_ok ht fun hnil => absurd hnil hne
  refine ⟨w, hstart, fun n h => ⟨?_, fun hn => ?_⟩⟩
  · have hget : (tops (pieces p) ++ t.ranges)[n]? = some (tops (pieces p))[n] := by
      rw [List.getElem?_append_left h, List.getElem?_eq_getElem h]
    rw [hshows.current n, List.getLast?_take, if_neg (Nat.succ_ne_zero n), Nat.add_sub_cancel,
      hget, Option.some_or]
  · have hlength : n + 1 < (tops (pieces p) ++ t.ranges).length := by
      rw [List.length_append]
      omega
    rw [hshows.answer n, if_pos hlength]

lemma start_append_fault {before : List Text} {e : Error} (hp : p.getLast? = some ',')
    (hf : FaultAfter p before e) (hopen₁ : ¬ AcceptsAnything options.literal (p ++ s₁))
    (hopen₂ : ¬ AcceptsAnything options.literal (p ++ s₂)) (filters : List ContentType) :
    (start (p ++ s₁) options filters = .error e ∧ start (p ++ s₂) options filters = .error e) ∨
      ∃ w₁ w₂, start (p ++ s₁) options filters = .ok w₁ ∧
        start (p ++ s₂) options filters = .ok w₂ ∧ w₁.Alike w₂ ∧
        ∀ n, (tops before).length ≤ n + 1 →
          (w₁.after n).advance.1 = .error e ∧ (w₂.after n).advance.1 = .error e := by
  have hf₁ := hf.append hp s₁
  have hf₂ := hf.append hp s₂
  by_cases hnil : tops before = []
  · have hroute₁ := before_fault hopen₁ hf₁ filters
    have hroute₂ := before_fault hopen₂ hf₂ filters
    rw [hnil] at hroute₁ hroute₂
    exact Or.inl ⟨start_error hroute₁, start_error hroute₂⟩
  · obtain ⟨w₁, hw₁, hheader₁, hshows₁⟩ := shows_fault hopen₁ hf₁ filters hnil
    obtain ⟨w₂, hw₂, hheader₂, hshows₂⟩ := shows_fault hopen₂ hf₂ filters hnil
    have hlist : ranges w₂.header = ranges w₁.header := by
      rw [hheader₁, hheader₂, ranges_eq_error.mpr ⟨before, hf₁⟩, ranges_eq_error.mpr ⟨before, hf₂⟩]
    refine Or.inr ⟨w₁, w₂, hw₁, hw₂, hshows₁.alike hshows₂ hlist, fun n hn => ?_⟩
    rw [hshows₁.answer n, hshows₂.answer n, if_neg (Nat.not_lt.mpr hn)]
    exact ⟨rfl, rfl⟩

end Walk

namespace Negotiator

variable {α : Type} {n : Negotiator α}

lemma negotiate_append (hp : p.getLast? = some ',') (hw : WellFormed p) (hs : s ≠ [])
    (hopen : ¬ AcceptsAnything n.options.literal (p ++ s)) {i : ℕ} {value : α}
    (hc : choose? n.options.matching (tops (pieces p)) n.types = some i)
    (hv : n.values[i]? = some value) : n.negotiate (p ++ s) = .ok (some value) := by
  obtain ⟨t, ht⟩ := Walk.before_append hp hw hs hopen []
  rw [negotiate_literal n hopen, ht]
  refine outcome_some ?_
  rw [List.findSome?_append, findSome?_pickFor?, hc, Option.bind_some, hv, Option.some_or]

end Negotiator

open Negotiator

/-- **The part not yet read has no influence.** Let a header be taken literally, and let something
come behind a comma in it. Without a fault in front of the comma, the walk shows the top ranges
there first, in the order written, whatever comes behind. With a fault there, walks fail alike at
their start or are alike for ever, up to the error that repeats. A server that supports a type
covered by one of those top ranges answers with the same value, even if there is a fault behind. -/
theorem Header.unread_irrelevant (hp : p.getLast? = some ',') (h₁ : s₁ ≠ []) (h₂ : s₂ ≠ [])
    (matching : ParameterMatching) (filters : List ContentType) :
    (WellFormed p → tops (pieces p) ≠ [] → ∃ w₁ w₂,
      Walk.start (p ++ s₁) ⟨true, matching⟩ filters = .ok w₁ ∧
      Walk.start (p ++ s₂) ⟨true, matching⟩ filters = .ok w₂ ∧
      ∀ n (h : n < (tops (pieces p)).length),
        (w₁.after n).current = some (tops (pieces p))[n] ∧
        (w₂.after n).current = some (tops (pieces p))[n] ∧
        (n + 1 < (tops (pieces p)).length →
          (w₁.after n).advance.1 = .ok true ∧ (w₂.after n).advance.1 = .ok true)) ∧
    (¬ WellFormed p → ∃ before e, FaultAfter p before e ∧
      ((Walk.start (p ++ s₁) ⟨true, matching⟩ filters = .error e ∧
          Walk.start (p ++ s₂) ⟨true, matching⟩ filters = .error e) ∨
        ∃ w₁ w₂, Walk.start (p ++ s₁) ⟨true, matching⟩ filters = .ok w₁ ∧
          Walk.start (p ++ s₂) ⟨true, matching⟩ filters = .ok w₂ ∧ w₁.Alike w₂ ∧
          ∀ n, (tops before).length ≤ n + 1 →
            (w₁.after n).advance.1 = .error e ∧ (w₂.after n).advance.1 = .error e)) ∧
    ∀ (α : Type) (n : Negotiator α), WellFormed p →
      (∃ r ∈ tops (pieces p), ∃ t ∈ n.types, r.covers n.options.matching t = true) →
      ∃ i value, choose? n.options.matching (tops (pieces p)) n.types = some i ∧
        n.values[i]? = some value ∧
        (n.withLiteral true).negotiate (p ++ s₁) = .ok (some value) ∧
        (n.withLiteral true).negotiate (p ++ s₂) = .ok (some value) := by
  have hopen₁ : ¬ AcceptsAnything (⟨true, matching⟩ : Options).literal (p ++ s₁) :=
    not_acceptsAnything_literal (by simp [h₁])
  have hopen₂ : ¬ AcceptsAnything (⟨true, matching⟩ : Options).literal (p ++ s₂) :=
    not_acceptsAnything_literal (by simp [h₂])
  refine ⟨fun hw htops => ?_, fun hw => ?_, fun α n hw hcovers => ?_⟩
  · obtain ⟨w₁, hw₁, hrun₁⟩ := Walk.start_append hp hw h₁ hopen₁ htops
    obtain ⟨w₂, hw₂, hrun₂⟩ := Walk.start_append hp hw h₂ hopen₂ htops
    refine ⟨w₁, w₂, hw₁, hw₂, fun n h => ⟨(hrun₁ n h).1, (hrun₂ n h).1, fun hn => ?_⟩⟩
    exact ⟨(hrun₁ n h).2 hn, (hrun₂ n h).2 hn⟩
  · rcases wellFormed_or_fault p with hw' | ⟨before, e, hf⟩
    · exact absurd hw' hw
    · exact ⟨before, e, hf, Walk.start_append_fault hp hf hopen₁ hopen₂ filters⟩
  · obtain ⟨i, hc⟩ := exists_choose? hcovers
    obtain ⟨value, hv⟩ := getElem?_choose? hc
    have hfinal : ∀ {s : Text}, s ≠ [] → ¬ AcceptsAnything true (p ++ s) →
        (n.withLiteral true).negotiate (p ++ s) = .ok (some value) := fun hs hopen =>
      negotiate_append (n := n.withLiteral true) hp hw hs hopen hc hv
    exact ⟨i, value, hc, hv, hfinal h₁ hopen₁, hfinal h₂ hopen₂⟩

/-- Whether a fault or another range comes behind the last comma, the second move shows the second
top range, and a server that supports it answers with it. -/
theorem Header.unread_irrelevant_second :
    (∃ w₁ w₂, Walk.start "a/b;q=.5,c/d,e/f;q=3,x/y;q=z".toList ⟨true, .legacy⟩ = .ok w₁ ∧
      Walk.start "a/b;q=.5,c/d,e/f;q=3,g/h".toList ⟨true, .legacy⟩ = .ok w₂ ∧
      (w₁.after 1).current.map (·.type) = some ['e'] ∧
      (w₂.after 1).current.map (·.type) = some ['e']) ∧
    ∃ n : Negotiator ℕ, n.types = [⟨['g'], ['h'], []⟩, ⟨['e'], ['f'], []⟩] ∧
      (n.withLiteral true).negotiate "a/b;q=.5,c/d,e/f;q=3,x/y;q=z".toList = .ok (some 1) ∧
      (n.withLiteral true).negotiate "a/b;q=.5,c/d,e/f;q=3,g/h".toList = .ok (some 1) := by
  have hw : WellFormed "a/b;q=.5,c/d,e/f;q=3,".toList := by decide +kernel
  have htypes : (tops (pieces "a/b;q=.5,c/d,e/f;q=3,".toList)).map (·.type) =
      [['c'], ['e']] := by decide +kernel
  have hlength : (tops (pieces "a/b;q=.5,c/d,e/f;q=3,".toList)).length = 2 := by
    rw [← List.length_map, htypes]
    rfl
  have hsecond : 1 < (tops (pieces "a/b;q=.5,c/d,e/f;q=3,".toList)).length := by
    rw [hlength]
    exact Nat.one_lt_two
  obtain ⟨hwalks, -, hanswers⟩ := @Header.unread_irrelevant "a/b;q=.5,c/d,e/f;q=3,".toList
    "x/y;q=z".toList "g/h".toList (by decide) (by decide) (by decide) .legacy []
  constructor
  · obtain ⟨w₁, w₂, hw₁, hw₂, hrun⟩ := hwalks hw (List.ne_nil_of_length_pos (by omega))
    have htype : (tops (pieces "a/b;q=.5,c/d,e/f;q=3,".toList))[1].type = ['e'] := by
      have hget := List.getElem?_map (f := (·.type))
        (l := tops (pieces "a/b;q=.5,c/d,e/f;q=3,".toList)) (i := 1)
      rw [htypes, List.getElem?_eq_getElem hsecond] at hget
      exact (Option.some.inj hget).symm
    obtain ⟨hcurrent₁, hcurrent₂, -⟩ := hrun 1 hsecond
    refine ⟨w₁, w₂, hw₁, hw₂, ?_, ?_⟩
    · rw [hcurrent₁, Option.map_some, htype]
    · rw [hcurrent₂, Option.map_some, htype]
  · let n : Negotiator ℕ := ⟨[(⟨['g'], ['h'], []⟩, 0), (⟨['e'], ['f'], []⟩, 1)], by simp, {}⟩
    have hcovers : ∃ r ∈ tops (pieces "a/b;q=.5,c/d,e/f;q=3,".toList),
        ∃ t ∈ n.types, r.covers n.options.matching t = true := by decide +kernel
    obtain ⟨i, value, hi, hv, hanswer₁, hanswer₂⟩ := hanswers ℕ n hw hcovers
    have hplace : choose? n.options.matching (tops (pieces "a/b;q=.5,c/d,e/f;q=3,".toList))
        n.types = some 1 := by decide +kernel
    cases hi.symm.trans hplace
    cases hv
    exact ⟨n, rfl, hanswer₁, hanswer₂⟩

end ContentNegotiation
