import ContentNegotiation.Proofs.Faults
import ContentNegotiation.Walk.Drain

/-!
The route of a walk: the ranges it has still to produce, and the error they end in.

The route is told from the pieces that are still to be read and the ranges that are kept. One
move shows the first range of the route and leaves the rest of it, whatever stage the walk is in,
so the route of a walk at its start says what every later move answers and shows.
-/

namespace ContentNegotiation

structure Route where
  ranges : List MediaRange
  failure : Option Error

namespace Route

/-- The answer of a move that finds nothing left to produce. -/
def last (t : Route) : Except Error Bool :=
  match t.failure with
  | none => .ok false
  | some e => .error e

def answer (t : Route) : Except Error Bool := if t.ranges = [] then t.last else .ok true

/-- The route after so many moves. -/
def drop (n : ℕ) (t : Route) : Route := { t with ranges := t.ranges.drop n }

lemma answer_eq_error {t : Route} {e : Error} :
    t.answer = .error e ↔ t.ranges = [] ∧ t.failure = some e := by
  unfold answer last
  by_cases h : t.ranges = []
  · rcases t.failure with _ | e' <;> simp [h]
  · simp [h]

lemma answer_eq_ok {t : Route} {found : Bool} :
    t.answer = .ok found ↔ found = !t.ranges.isEmpty ∧ (found = false → t.failure = none) := by
  unfold answer last
  by_cases h : t.ranges = []
  · rcases t.failure with _ | e <;> cases found <;> simp [h]
  · cases found <;> simp [h]

lemma answer_drop (n : ℕ) (t : Route) :
    (t.drop n).answer = if n < t.ranges.length then .ok true else t.last := by
  unfold answer drop
  by_cases h : n < t.ranges.length
  · have hne : t.ranges.drop n ≠ [] := by
      rw [ne_eq, List.drop_eq_nil_iff]
      omega
    rw [if_neg hne, if_pos h]
  · rw [if_pos (List.drop_eq_nil_iff.mpr (by omega)), if_neg h]
    rfl

lemma error_or_start (t : Route) :
    (∃ e, t = { ranges := [], failure := some e }) ∨ (t.ranges = [] → t.failure = none) := by
  obtain ⟨_ | ⟨r, rs⟩, _ | e⟩ := t
  · exact Or.inr fun _ => rfl
  · exact Or.inl ⟨e, rfl⟩
  · exact Or.inr fun h => by cases h
  · exact Or.inr fun h => by cases h

lemma drop_drop (m n : ℕ) (t : Route) : (t.drop m).drop n = t.drop (m + n) := by
  simp [drop]

def cons (r : MediaRange) (t : Route) : Route := { t with ranges := r :: t.ranges }

/-- The route through pieces of a header, some ranges of pieces before them being kept. -/
def through (fits : MediaRange → Bool) : List Text → List MediaRange → Route
  | [], kept => { ranges := kept, failure := none }
  | p :: ps, kept =>
    match MediaRange.ofPiece p with
    | .error e => { ranges := [], failure := some e }
    | .ok none => through fits ps kept
    | .ok (some r) =>
      if Quality.one ≤ r.quality ∧ ps ≠ [] then cons r (through fits ps kept)
      else through fits ps (if fits r then insertByQuality r kept else kept)

variable {fits : MediaRange → Bool} {p : Text} {ps : List Text} {kept : List MediaRange}

lemma through_error {e : Error} (h : MediaRange.ofPiece p = .error e) :
    through fits (p :: ps) kept = { ranges := [], failure := some e } := by
  rw [through, h]

lemma through_none (h : MediaRange.ofPiece p = .ok none) :
    through fits (p :: ps) kept = through fits ps kept := by
  rw [through, h]

lemma through_top {r : MediaRange} (h : MediaRange.ofPiece p = .ok (some r))
    (ht : Quality.one ≤ r.quality ∧ ps ≠ []) :
    through fits (p :: ps) kept = cons r (through fits ps kept) := by
  rw [through, h]
  exact if_pos ht

lemma through_keep {r : MediaRange} (h : MediaRange.ofPiece p = .ok (some r))
    (ht : ¬ (Quality.one ≤ r.quality ∧ ps ≠ [])) :
    through fits (p :: ps) kept =
      through fits ps (if fits r then insertByQuality r kept else kept) := by
  rw [through, h]
  exact if_neg ht

end Route

open Header in
/-- Reading on goes along the route, and the place where it stops has the rest of the route. -/
lemma route_readOn (fits : MediaRange → Bool) (rest : Text) (kept : List MediaRange) :
    match readOn fits rest kept with
    | .top r rest' kept' => Route.through fits (pieces rest) kept =
        .cons r (.through fits (pieces rest') kept')
    | .ended kept' => Route.through fits (pieces rest) kept = ⟨kept', none⟩
    | .failed e rest' kept' => Route.through fits (pieces rest) kept = ⟨[], some e⟩ ∧
        Route.through fits (pieces rest') kept' = ⟨[], some e⟩ := by
  fun_induction readOn fits rest kept with
  | case1 => simp [Route.through]
  | case2 rest kept hne e h =>
    have he : Route.through fits (pieces rest) kept = ⟨[], some e⟩ := by
      rw [pieces_cons hne, Route.through_error (MediaRange.read_eq_error.mp h)]
    exact ⟨he, he⟩
  | case3 rest kept hne rest' h ih =>
    obtain ⟨hr, rfl⟩ := MediaRange.read_eq_ok.mp h
    rw [pieces_cons hne, Route.through_none hr]
    exact ih
  | case4 rest kept hne r rest' h ht =>
    obtain ⟨hr, rfl⟩ := MediaRange.read_eq_ok.mp h
    rw [← pieces_ne_nil] at ht
    rw [pieces_cons hne, Route.through_top hr ht]
  | case5 rest kept hne r rest' h ht ih =>
    obtain ⟨hr, rfl⟩ := MediaRange.read_eq_ok.mp h
    rw [← pieces_ne_nil] at ht
    rw [pieces_cons hne, Route.through_keep hr ht]
    simpa only [dite_eq_ite] using ih

namespace Walk

/-- The route of the walk from its latest range on. -/
def route (w : Walk) : Route :=
  match w.stage with
  | .reading rest kept => .through (·.coversAll w.matching w.filters) (Header.pieces rest) kept
  | .replaying pending => { ranges := pending, failure := none }

lemma replay_eq (w : Walk) (pending : List MediaRange) : ∃ stage,
    w.replay pending = (Route.answer ⟨pending, none⟩,
      { w with stage := stage, current := pending.head?.or w.current }) ∧
    route { w with stage := stage, current := pending.head?.or w.current } =
      Route.drop 1 ⟨pending, none⟩ := by
  rcases pending with _ | ⟨r, pending⟩
  · exact ⟨.replaying [], rfl, rfl⟩
  · exact ⟨.replaying pending, rfl, rfl⟩

/-- **One move**: the answer, the range shown and the route left are those of the route. -/
theorem advance_eq (w : Walk) : ∃ stage,
    w.advance = (w.route.answer,
      { w with stage := stage, current := w.route.ranges.head?.or w.current }) ∧
    route { w with stage := stage, current := w.route.ranges.head?.or w.current } =
      w.route.drop 1 := by
  rcases hs : w.stage with ⟨rest, kept⟩ | pending
  · have hr := route_readOn (·.coversAll w.matching w.filters) rest kept
    have hroute : w.route =
        .through (·.coversAll w.matching w.filters) (Header.pieces rest) kept := by
      rw [route, hs]
    rw [advance, hs, hroute]
    simp only
    rcases hread : readOn (·.coversAll w.matching w.filters) rest kept with
      ⟨r, rest', kept'⟩ | kept' | ⟨e, rest', kept'⟩
    all_goals
      rw [hread] at hr
      simp only at hr
    · -- a range of top quality
      rw [hr]
      exact ⟨.reading rest' kept', rfl, rfl⟩
    · -- the header has ended
      rw [hr]
      exact replay_eq w kept'
    · -- an error, and nothing but this error is left from where the reader stopped
      rw [hr.1]
      exact ⟨.reading rest' kept', rfl, hr.2⟩
  · have hroute : w.route = ⟨pending, none⟩ := by rw [route, hs]
    rw [advance, hs, hroute]
    exact replay_eq w pending

lemma getLast?_take_succ (n : ℕ) (rs : List MediaRange) (r? : Option MediaRange) :
    (rs.take (n + 1)).getLast?.or r? = ((rs.drop 1).take n).getLast?.or (rs.head?.or r?) := by
  rcases rs with _ | ⟨r, rs⟩
  · simp
  · simp [List.getLast?_cons]

/-- The walk after so many moves, whatever they have answered. -/
def after (w : Walk) : ℕ → Walk
  | 0 => w
  | n + 1 => w.advance.2.after n

/-- **Many moves**: the route gets shorter from its front, and nothing but the stage and the
latest range changes. -/
theorem after_eq (w : Walk) (n : ℕ) : ∃ stage,
    w.after n = { w with
      stage := stage
      current := (w.route.ranges.take n).getLast?.or w.current } ∧
    (w.after n).route = w.route.drop n := by
  induction n generalizing w with
  | zero => exact ⟨w.stage, rfl, rfl⟩
  | succ n ih =>
    obtain ⟨stage₁, hadv, hroute₁⟩ := advance_eq w
    obtain ⟨stage, hafter, hroute⟩ := ih w.advance.2
    rw [hadv] at hafter hroute
    simp only [hroute₁] at hafter hroute
    refine ⟨stage, ?_, ?_⟩
    · rw [after, hadv, hafter, getLast?_take_succ]
      rfl
    · rw [after, hadv, hroute, Route.drop_drop, Nat.add_comm]

lemma route_of_advance {w w' : Walk} {answer : Except Error Bool} (h : w.advance = (answer, w')) :
    w.route.answer = answer ∧ w'.current = w.route.ranges.head?.or w.current ∧
      w'.route = w.route.drop 1 ∧ w'.matching = w.matching := by
  obtain ⟨stage, hadv, hroute⟩ := advance_eq w
  obtain ⟨rfl, rfl⟩ := Prod.mk.inj (hadv.symm.trans h)
  exact ⟨rfl, rfl, hroute, rfl⟩

lemma drain_eq (w : Walk) :
    w.drain.ranges = w.route.ranges ∧ w.drain.failure = w.route.failure := by
  fun_induction drain w with
  | case1 w e w' h =>
    obtain ⟨hr, hf⟩ := Route.answer_eq_error.mp (route_of_advance h).1
    exact ⟨hr.symm, hf.symm⟩
  | case2 w w' h =>
    obtain ⟨hr, hf⟩ := Route.answer_eq_ok.mp (route_of_advance h).1
    exact ⟨by simpa using hr.symm, (hf rfl).symm⟩
  | case3 w w' h remainder ih =>
    obtain ⟨ha, hc, hroute, -⟩ := route_of_advance h
    have hne := (Route.answer_eq_ok.mp ha).1
    rw [hroute] at ih
    refine ⟨?_, ih.2⟩
    simp only [remainder, ih.1, hc, Route.drop]
    rcases hr : w.route.ranges with _ | ⟨r, rs⟩
    · simp [hr] at hne
    · simp

/-- The walk shows the ranges of the route from its beginning, one for each move, and its last
answer is that of the route. -/
structure Shows (w : Walk) (t : Route) : Prop where
  all : w.all = (t.ranges, t.failure)
  answer (n : ℕ) : (w.after n).advance.1 = if n + 1 < t.ranges.length then .ok true else t.last
  current (n : ℕ) : (w.after n).current = (t.ranges.take (n + 1)).getLast?
  hasRange (n : ℕ) : (w.after n).hasRange = !t.ranges.isEmpty
  header (n : ℕ) : (w.after n).header = w.header
  matching (n : ℕ) : (w.after n).matching = w.matching

variable {header : Text} {options : Options} {filters : List ContentType}

lemma start_error {e : Error}
    (h : (before header options filters).route = { ranges := [], failure := some e }) :
    start header options filters = .error e := by
  obtain ⟨stage, hadv, -⟩ := advance_eq (before header options filters)
  rw [start, hadv, h]
  rfl

/-- **What a walk shows**: from its start on the walk shows its route, unless there is nothing on
the route but an error. -/
theorem start_ok {t : Route} (h : (before header options filters).route = t)
    (hok : t.ranges = [] → t.failure = none) :
    ∃ w, start header options filters = .ok w ∧
      w.header = (before header options filters).header ∧ w.matching = options.matching ∧
      w.Shows t := by
  obtain ⟨stage, hadv, hroute⟩ := advance_eq (before header options filters)
  set w₀ := before header options filters with hw₀
  have ha : t.answer = .ok (!t.ranges.isEmpty) :=
    Route.answer_eq_ok.mpr ⟨rfl, fun hf => hok (by simpa using hf)⟩
  rw [start, ← hw₀, hadv, h, ha]
  rw [h] at hroute
  set w : Walk := { w₀ with
    stage := stage
    current := t.ranges.head?.or w₀.current
    hasRange := !t.ranges.isEmpty } with hw
  have hwr : w.route = t.drop 1 := hroute
  have hwc : w.current = t.ranges.head? := by simp [hw, hw₀, before]
  refine ⟨w, rfl, rfl, rfl, ?_, fun n => ?_, fun n => ?_, fun n => ?_, fun n => ?_, fun n => ?_⟩
  · have hwf : w.hasRange = !t.ranges.isEmpty := rfl
    simp only [all, hwf, (drain_eq w).1, (drain_eq w).2, hwr, hwc]
    rcases hr : t.ranges with _ | ⟨r, rs⟩
    · simp [hok hr]
    · simp [Route.drop, hr]
  all_goals obtain ⟨stage', hafter, hleft⟩ := after_eq w n
  · obtain ⟨stage'', hnext, -⟩ := advance_eq (w.after n)
    rw [hnext, hleft, hwr, Route.drop_drop, Route.answer_drop, Nat.add_comm]
  · have hlast := getLast?_take_succ n t.ranges none
    rw [Option.or_none, Option.or_none] at hlast
    rw [hafter, hwr, hwc, hlast]
    rfl
  · rw [hafter]
  · rw [hafter]
  · rw [hafter]

lemma shows_of_start {w : Walk} (h : start header options filters = .ok w) :
    w.header = (before header options filters).header ∧ w.matching = options.matching ∧
      w.Shows (before header options filters).route := by
  rcases (before header options filters).route.error_or_start with ⟨e, he⟩ | hok
  · have herror := start_error he
    rw [h] at herror
    cases herror
  · obtain ⟨w', hw', hshows⟩ := start_ok rfl hok
    rw [h] at hw'
    cases hw'
    exact hshows

end Walk

end ContentNegotiation
