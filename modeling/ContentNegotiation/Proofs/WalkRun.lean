import ContentNegotiation.Proofs.WalkOrder

/-!
What can be seen of a walk while it runs.

The moves that show a range come first, and no more ranges are shown than pieces of the header have
been read. The first move that shows none settles the rest: every later one answers as it did, and
the latest range stays.
-/

namespace ContentNegotiation

open Header

/-- What is still to be read of the header. -/
def Stage.unread : Stage → Text
  | .reading rest _ => rest
  | .replaying _ => []

/-- The ranges that have been read and wait to be shown. -/
def Stage.waiting : Stage → List MediaRange
  | .reading _ kept => kept
  | .replaying pending => pending

/-- One stage leads to another while `k` ranges are shown: the pieces read on the way come first
among those not read, and each of them accounts for one range at most, shown or waiting. -/
def Stage.Leads (s : Stage) (k : ℕ) (s' : Stage) : Prop :=
  ∃ read, pieces s.unread = read ++ pieces s'.unread ∧
    k + s'.waiting.length ≤ read.length + s.waiting.length

namespace Stage.Leads

variable {s s' s'' : Stage} {k k' : ℕ}

lemma refl (s : Stage) : s.Leads 0 s := ⟨[], rfl, Nat.le_refl _⟩

lemma trans (h : s.Leads k s') (h' : s'.Leads k' s'') : s.Leads (k + k') s'' := by
  obtain ⟨read, hread, hlength⟩ := h
  obtain ⟨read', hread', hlength'⟩ := h'
  refine ⟨read ++ read', ?_, ?_⟩
  · rw [hread, hread', List.append_assoc]
  · rw [List.length_append]
    omega

lemma mono (h : s.Leads k s') (hk : k' ≤ k) : s.Leads k' s' := by
  obtain ⟨read, hread, hlength⟩ := h
  exact ⟨read, hread, Nat.le_trans (Nat.add_le_add_right hk _) hlength⟩

lemma of_read {rest rest' : Text} {r? : Option MediaRange} {kept kept' : List MediaRange}
    (hne : rest ≠ []) (h : MediaRange.read rest = .ok (r?, rest'))
    (hlength : k + kept'.length ≤ kept.length + 1) :
    (reading rest kept).Leads k (reading rest' kept') := by
  obtain ⟨-, rfl⟩ := MediaRange.read_eq_ok.mp h
  exact ⟨[firstPiece rest], pieces_cons hne, Nat.le_trans hlength (Nat.le_of_eq (Nat.add_comm _ _))⟩

end Stage.Leads

def Reading.stage : Reading → Stage
  | .top _ rest kept => .reading rest kept
  | .ended kept => .replaying kept
  | .failed _ rest kept => .reading rest kept

def Reading.found : Reading → ℕ
  | .top _ _ _ => 1
  | .ended _ => 0
  | .failed _ _ _ => 0

lemma leads_readOn (fits : MediaRange → Bool) (rest : Text) (kept : List MediaRange) :
    (Stage.reading rest kept).Leads (readOn fits rest kept).found
      (readOn fits rest kept).stage := by
  fun_induction readOn fits rest kept with
  | case1 kept => exact ⟨[], rfl, Nat.le_refl _⟩
  | case2 rest kept hne e h => exact .refl _
  | case3 rest kept hne rest' h ih =>
    have hskip : (Stage.reading rest kept).Leads 0 (.reading rest' kept) :=
      .of_read hne h (by omega)
    simpa only [Nat.zero_add] using hskip.trans ih
  | case4 rest kept hne r rest' h ht =>
    exact .of_read hne h (Nat.le_of_eq (Nat.add_comm _ _))
  | case5 rest kept hne r rest' h ht ih =>
    have hone : (if fits r then insertByQuality r kept else kept).length ≤ kept.length + 1 := by
      split
      · exact Nat.le_of_eq (perm_insertByQuality r kept).length_eq
      · exact Nat.le_succ _
    have hkeep : (Stage.reading rest kept).Leads 0
        (.reading rest' (if fits r then insertByQuality r kept else kept)) :=
      .of_read hne h (by rwa [Nat.zero_add])
    simpa only [Nat.zero_add, dite_eq_ite] using hkeep.trans ih

namespace Walk

variable {w : Walk} {header : Text} {options : Options} {filters : List ContentType}

lemma before_header_eq_nil : (before header options filters).header = [] ↔
    AcceptsAnything options.literal header := by
  constructor
  · intro hnil
    by_contra h
    rw [(before_literal h filters).1] at hnil
    exact h (Or.inl hnil)
  · intro h
    exact (before_anything h filters).1

/-! ### Runs -/

lemma after_add (w : Walk) (n k : ℕ) : w.after (n + k) = (w.after n).after k := by
  induction n generalizing w with
  | zero => rw [Nat.zero_add, after]
  | succ n ih => rw [Nat.succ_add, after, after, ih]

lemma route_idle (h : w.advance.1 ≠ .ok true) : w.route.ranges = [] := by
  obtain ⟨stage, hadv, -⟩ := advance_eq w
  by_contra hne
  apply h
  rw [hadv, Route.answer, if_neg hne]

/-- A move that shows no range leaves the latest one, and a walk whose next move answers alike. -/
lemma advance_idle (h : w.advance.1 ≠ .ok true) :
    w.advance.2.current = w.current ∧ w.advance.2.advance.1 = w.advance.1 := by
  obtain ⟨stage, hadv, hroute⟩ := advance_eq w
  obtain ⟨stage', hnext, -⟩ := advance_eq w.advance.2
  have hnil := route_idle h
  have hleft : w.advance.2.route = w.route := by
    rw [hadv, hroute, Route.drop, hnil, List.drop_nil, ← hnil]
  rw [hnext, hleft, hadv, hnil]
  exact ⟨rfl, rfl⟩

/-- **The first move that shows no range settles the rest of the run.** -/
theorem after_idle (h : w.advance.1 ≠ .ok true) (n : ℕ) :
    (w.after n).current = w.current ∧ (w.after n).advance.1 = w.advance.1 := by
  induction n generalizing w with
  | zero => exact ⟨rfl, rfl⟩
  | succ n ih =>
    obtain ⟨hcurrent, hanswer⟩ := advance_idle h
    rw [← hanswer] at h
    rw [after, (ih h).1, (ih h).2, hcurrent, hanswer]
    exact ⟨rfl, rfl⟩

/-- The ranges that the next `n` moves show. -/
def shown (w : Walk) : ℕ → List MediaRange
  | 0 => []
  | n + 1 =>
    match w.advance with
    | (.ok true, w') => w'.current.toList ++ w'.shown n
    | (_, w') => w'.shown n

lemma leads_replay {w' : Walk} {answer : Except Error Bool} {pending : List MediaRange}
    (h : w.replay pending = (answer, w')) :
    (Stage.replaying pending).Leads (if answer = .ok true then 1 else 0) w'.stage := by
  rcases pending with _ | ⟨r, pending⟩
  · obtain ⟨rfl, rfl⟩ := Prod.mk.inj h
    exact .refl _
  · obtain ⟨rfl, rfl⟩ := Prod.mk.inj h
    refine ⟨[], rfl, ?_⟩
    rw [if_pos rfl, List.length_nil]
    exact Nat.le_of_eq (by rw [Stage.waiting, Stage.waiting, List.length_cons]; omega)

theorem leads_advance {w' : Walk} {answer : Except Error Bool} (h : w.advance = (answer, w')) :
    w.stage.Leads (if answer = .ok true then 1 else 0) w'.stage := by
  rw [advance] at h
  rcases hs : w.stage with ⟨rest, kept⟩ | pending
  · have hread := leads_readOn (·.coversAll w.matching w.filters) rest kept
    rw [hs] at h
    simp only at h
    rcases hr : readOn (·.coversAll w.matching w.filters) rest kept with
      ⟨r, rest', kept'⟩ | kept' | ⟨e, rest', kept'⟩
    all_goals
      rw [hr] at h hread
      simp only at h
    · -- a range of top quality
      obtain ⟨rfl, rfl⟩ := Prod.mk.inj h
      exact hread
    · -- the header has ended
      simpa only [Reading.found, Nat.zero_add] using hread.trans (leads_replay h)
    · -- an error
      obtain ⟨rfl, rfl⟩ := Prod.mk.inj h
      exact hread
  · rw [hs] at h
    exact leads_replay h

/-- **Many moves** show no more ranges than what they read accounts for. -/
theorem leads_after (w : Walk) (n : ℕ) : w.stage.Leads (w.shown n).length (w.after n).stage := by
  induction n generalizing w with
  | zero => exact .refl _
  | succ n ih =>
    rcases hadv : w.advance with ⟨answer, w'⟩
    have hmove := leads_advance hadv
    rw [shown, after, hadv]
    split
    · next heq =>
      obtain ⟨rfl, rfl⟩ := Prod.mk.inj heq
      rw [List.length_append]
      exact (hmove.mono Option.length_toList_le).trans (ih w')
    · next heq =>
      obtain ⟨rfl, rfl⟩ := Prod.mk.inj heq
      simpa only [Nat.zero_add] using (hmove.mono (Nat.zero_le _)).trans (ih w')

lemma unread_before : (before header options filters).stage.unread =
    (before header options filters).header := by
  unfold before
  cases options.acceptsAnything header <;> rfl

lemma waiting_before : (before header options filters).stage.waiting = [] := by
  unfold before
  cases options.acceptsAnything header <;> rfl

lemma leads_start (hw : start header options filters = .ok w) :
    (before header options filters).stage.Leads w.current.toList.length w.stage := by
  rw [start] at hw
  split at hw
  · next found w' hadv =>
    cases hw
    have hmove := leads_advance hadv
    cases found with
    | true => exact hmove.mono Option.length_toList_le
    | false =>
      have hidle := (advance_idle (w := before header options filters) (by simp [hadv])).1
      rw [hadv] at hidle
      refine hmove.mono (Nat.le_of_eq ?_)
      simp only at hidle ⊢
      rw [hidle]
      rfl
  · cases hw

lemma read_of_start (hw : start header options filters = .ok w) (n : ℕ) :
    ∃ read, pieces w.header = read ++ pieces (w.after n).stage.unread ∧
      (w.current.toList ++ w.shown n).length ≤ read.length := by
  obtain ⟨read, hread, hlength⟩ := (leads_start hw).trans (leads_after w n)
  rw [unread_before] at hread
  rw [waiting_before, List.length_nil] at hlength
  refine ⟨read, ?_, ?_⟩
  · rw [(shows_of_start hw).1, hread]
  · rw [List.length_append]
    omega

variable {t : Route}

lemma Shows.current_isSome (h : w.Shows t) (n : ℕ) :
    (w.after n).hasRange = (w.after n).current.isSome := by
  rw [h.hasRange n, h.current n]
  rcases t.ranges with _ | ⟨r, rs⟩
  · rw [List.take_nil]
    rfl
  · rw [List.take_succ_cons, List.getLast?_cons]
    rfl

/-- **The run of a walk**, after any number of moves: the walk has a latest range if it had a first
one, and only a move that shows a range changes it; the ranges shown are at most as many as the
pieces of the header that have been read; a move that finds nothing left is followed by such moves
alone, and one that fails by moves that fail in the same way. The header is empty exactly if it
leaves the choice open, and then there is nothing to move to and nothing to list. -/
theorem start_run (hw : start header options filters = .ok w) (n : ℕ) :
    ((w.after n).hasRange = w.hasRange ∧ (w.after n).hasRange = (w.after n).current.isSome) ∧
    ((w.after n).advance.1 ≠ .ok true →
      (w.after n).advance.2.current = (w.after n).current) ∧
    (∃ read, pieces w.header = read ++ pieces (w.after n).stage.unread ∧
      (w.current.toList ++ w.shown n).length ≤ read.length) ∧
    ((w.after n).advance.1 = .ok false → ∀ k, (w.after (n + k)).advance.1 = .ok false ∧
      (w.after (n + k)).current = (w.after n).current) ∧
    (∀ e, (w.after n).advance.1 = .error e → ∀ k, (w.after (n + k)).advance.1 = .error e) ∧
    ((w.after n).header = w.header ∧
      (w.header = [] ↔ AcceptsAnything options.literal header) ∧
      (w.header ≠ [] → w.header = header)) ∧
    (AcceptsAnything options.literal header →
      (w.after n).advance.1 = .ok false ∧ (w.after n).collectAll = .ok []) := by
  obtain ⟨hheader, -, hshows⟩ := shows_of_start hw
  refine ⟨⟨?_, hshows.current_isSome n⟩, fun h => (advance_idle h).1, read_of_start hw n,
    fun h k => ?_, fun e h k => ?_, ⟨hshows.header n, ?_, fun hne => ?_⟩, fun h => ?_⟩
  · rw [hshows.hasRange n]
    exact (hshows.hasRange 0).symm
  · have hidle : (w.after n).advance.1 ≠ .ok true := by simp [h]
    obtain ⟨hcurrent, hanswer⟩ := after_idle hidle k
    rw [after_add, hanswer, hcurrent]
    exact ⟨h, rfl⟩
  · have hidle : (w.after n).advance.1 ≠ .ok true := by simp [h]
    rw [after_add, (after_idle hidle k).2, h]
  · rw [hheader, before_header_eq_nil]
  · rw [hheader] at hne ⊢
    exact (before_literal (fun h => hne ((before_anything h filters).1)) filters).1
  · obtain ⟨hnil, hroute⟩ := before_anything h filters
    constructor
    · rw [hshows.answer n, hroute]
      rfl
    · rw [collectAll, hshows.header n, hheader, hnil, ranges, dif_pos rfl]
      rfl

theorem start_run_failing :
    ∃ w, start "a/b,c/d;q=.5,e/f;q=x,g/h".toList = .ok w ∧ ∀ n,
      (w.after n).advance.1 = .error (.invalidQuality .malformed) ∧
      (w.after n).current.isSome = true ∧
      (w.current.toList ++ w.shown n).length + (pieces (w.after n).stage.unread).length ≤ 4 := by
  have hview : (start "a/b,c/d;q=.5,e/f;q=x,g/h".toList).map
      (fun w => (w.advance.1, w.hasRange, (pieces w.header).length)) =
        .ok (.error (.invalidQuality .malformed), true, 4) := by decide +kernel
  rcases hw : start "a/b,c/d;q=.5,e/f;q=x,g/h".toList with e | w
  · rw [hw] at hview
    cases hview
  · rw [hw] at hview
    simp only [Except.map, Except.ok.injEq, Prod.mk.injEq] at hview
    obtain ⟨hfails, hhas, hlength⟩ := hview
    refine ⟨w, rfl, fun n => ?_⟩
    obtain ⟨⟨hkeeps, hsome⟩, -, ⟨read, hread, hshown⟩, -⟩ := start_run hw n
    obtain ⟨-, -, -, -, hforever, -⟩ := start_run hw 0
    refine ⟨?_, ?_, ?_⟩
    · have hlater := hforever _ hfails n
      rwa [Nat.zero_add] at hlater
    · rw [← hsome, hkeeps, hhas]
    · rw [hread, List.length_append] at hlength
      omega

end Walk

end ContentNegotiation
