import ContentNegotiation.Proofs.WalkOrder

/-!
The walk over a header with a fault.

Such a walk shows the ranges of top quality in front of the piece that holds the fault, and
nothing else: the ranges kept on the way are never replayed, since the header never ends. From
there on every move finds the same fault again.
-/

namespace ContentNegotiation

open Header

namespace Walk

variable {header : Text} {options : Options} {before : List Text} {e : Error}

lemma before_fault (h : ¬ AcceptsAnything options.literal header)
    (hf : FaultAfter header before e) (filters : List ContentType) :
    (Walk.before header options filters).route =
      { ranges := tops before, failure := some e } := by
  obtain ⟨piece, others, hp, hw, he⟩ := hf
  rw [(before_literal h filters).2, hp, Route.through_fault hw he]

lemma collectAll_eq_error (w : Walk) :
    w.collectAll = .error e ↔ ∃ before, FaultAfter w.header before e := by
  rw [← ranges_eq_error, collectAll]
  cases ranges w.header <;> simp [Except.map]

lemma faultAfter_nil : ¬ FaultAfter [] before e := by
  rintro ⟨piece, others, hp, -, -⟩
  rw [pieces_nil] at hp
  simp at hp

lemma shows_fault (h : ¬ AcceptsAnything options.literal header) (hf : FaultAfter header before e)
    (filters : List ContentType) (hne : tops before ≠ []) :
    ∃ w, start header options filters = .ok w ∧ w.header = header ∧
      w.Shows { ranges := tops before, failure := some e } := by
  have hroute := before_fault h hf filters
  obtain ⟨w, hw, hheader, -, hshows⟩ := start_ok hroute fun hnil => absurd hnil hne
  rw [(before_literal h filters).1] at hheader
  exact ⟨w, hw, hheader, hshows⟩

lemma collectAll_after {filters : List ContentType} {w : Walk}
    (hw : start header options filters = .ok w) (n : ℕ) :
    (w.after n).collectAll = .error e ↔
      ¬ AcceptsAnything options.literal header ∧ ∃ before, FaultAfter header before e := by
  obtain ⟨hheader, -, hshows⟩ := shows_of_start hw
  rw [collectAll_eq_error, hshows.header n, hheader]
  by_cases hopen : AcceptsAnything options.literal header
  · rw [(before_anything hopen filters).1]
    constructor
    · rintro ⟨before, hf⟩
      exact absurd hf faultAfter_nil
    · intro h
      exact absurd hopen h.1
  · rw [(before_literal hopen filters).1]
    constructor
    · intro h
      exact ⟨hopen, h⟩
    · intro h
      exact h.2

/-- **A fault ends the walk for good.** The walk shows the top ranges before the fault, then every
move answers with its error and changes nothing that can be seen. The list of all ranges fails
with the same error wherever the walk stands, and for no other reason. -/
theorem start_fault (header : Text) (options : Options) (filters : List ContentType) :
    (∀ before e, ¬ AcceptsAnything options.literal header → FaultAfter header before e →
      (tops before = [] → start header options filters = .error e) ∧
      (tops before ≠ [] → ∃ w, start header options filters = .ok w ∧
        w.all = (tops before, some e) ∧
        ∀ n, (w.after n).current = ((tops before).take (n + 1)).getLast? ∧
          (∀ r, (w.after n).current = some r → Quality.one ≤ r.quality) ∧
          (w.after n).advance.1 =
            (if n + 1 < (tops before).length then .ok true else .error e) ∧
          (w.after n).hasRange = true ∧ (w.after n).header = header ∧
          ((tops before).length ≤ n + 1 → (w.after n).current = (tops before).getLast?))) ∧
    (∀ w, start header options filters = .ok w → ∀ n e, (w.after n).collectAll = .error e ↔
      ¬ AcceptsAnything options.literal header ∧ ∃ before, FaultAfter header before e) := by
  refine ⟨fun before e hopen hf => ⟨fun hnil => ?_, fun hne => ?_⟩,
    fun w hw n e => collectAll_after hw n⟩
  · have hroute := before_fault hopen hf filters
    rw [hnil] at hroute
    exact start_error hroute
  · obtain ⟨w, hw, hheader, hshows⟩ := shows_fault hopen hf filters hne
    refine ⟨w, hw, hshows.all, fun n => ⟨hshows.current n, fun r hr => ?_, hshows.answer n, ?_,
      (hshows.header n).trans hheader, fun hn => ?_⟩⟩
    · rw [hshows.current n] at hr
      have hmem := List.mem_of_mem_take (List.mem_of_getLast? hr)
      exact one_le_of_mem_tops hmem
    · rw [hshows.hasRange n]
      simpa using hne
    · rw [hshows.current n, List.take_of_length_le hn]

/-- Two ranges of top quality are shown, the one between them is not, and the fault stands in a
piece that is no range. -/
theorem start_fault_third_move :
    ∃ w, start "a/b,c/d;q=0,e/f,g;q=x;q=1,h/i".toList = .ok w ∧
      w.all.1.map (·.type) = [['a'], ['e']] ∧
      ∀ n, 1 ≤ n → (w.after n).advance.1 = .error (.invalidQuality .malformed) ∧
        (w.after n).collectAll = .error (.invalidQuality .malformed) := by
  have hf : FaultAfter "a/b,c/d;q=0,e/f,g;q=x;q=1,h/i".toList
      ["a/b".toList, "c/d;q=0".toList, "e/f".toList] (.invalidQuality .malformed) :=
    ⟨"g;q=x;q=1".toList, ["h/i".toList], by decide +kernel, by decide +kernel,
      [], ['x'], [['1']], by decide +kernel, by simp, by decide +kernel⟩
  have hopen : ¬ AcceptsAnything false "a/b,c/d;q=0,e/f,g;q=x;q=1,h/i".toList := by
    decide +kernel
  have htops : (tops ["a/b".toList, "c/d;q=0".toList, "e/f".toList]).map (·.type) =
      [['a'], ['e']] := by decide +kernel
  have hlen : (tops ["a/b".toList, "c/d;q=0".toList, "e/f".toList]).length = 2 := by
    rw [← List.length_map, htops]
    rfl
  obtain ⟨hshow, hall⟩ := start_fault "a/b,c/d;q=0,e/f,g;q=x;q=1,h/i".toList {} []
  obtain ⟨w, hw, hranges, hrun⟩ := (hshow _ _ hopen hf).2 fun h => by
    rw [h] at hlen
    cases hlen
  refine ⟨w, hw, by rw [hranges, htops], fun n hn => ⟨?_, ?_⟩⟩
  · obtain ⟨-, -, hanswer, -⟩ := hrun n
    rw [hanswer, hlen, if_neg (by omega)]
  · exact (hall w hw n _).mpr ⟨hopen, _, hf⟩

end Walk

end ContentNegotiation
