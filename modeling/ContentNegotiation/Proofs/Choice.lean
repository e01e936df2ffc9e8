import ContentNegotiation.Negotiator
import ContentNegotiation.Proofs.WalkFailure

/-!
What a negotiator chooses, and when it fails.

The search goes along the route of the walk, so the choice is settled by the ranges of the route:
the first of them that covers any supported type, and the first type that it covers. Only if no
range of the route covers a type does the error at its end count.
-/

namespace ContentNegotiation

open Header

/-- The place of the type to choose: the first that is covered by the first range that covers any
of the types. -/
def choose? (matching : ParameterMatching) (ranges : List MediaRange)
    (types : List ContentType) : Option ℕ :=
  (ranges.find? fun r => types.any (r.covers matching)).bind fun r =>
    types.findIdx? (r.covers matching)

namespace Negotiator

variable {α : Type}

def types (n : Negotiator α) : List ContentType := n.supported.map Prod.fst

def values (n : Negotiator α) : List α := n.supported.map Prod.snd

/-- The first supported value whose type the range covers. -/
def pickFor? (n : Negotiator α) (matching : ParameterMatching) (r : MediaRange) : Option α :=
  (n.supported.find? fun s => r.covers matching s.1).map Prod.snd

lemma pick?_eq (n : Negotiator α) (w : Walk) :
    n.pick? w = w.current.bind (n.pickFor? w.matching) := by
  unfold pick? Walk.covers pickFor?
  rcases w.current with _ | r
  · simp
  · simp

/-- What a search over a route comes to. -/
def outcome (pick : MediaRange → Option α) (t : Route) : Except Error (Option α) :=
  match t.ranges.findSome? pick with
  | some value => .ok (some value)
  | none =>
    match t.failure with
    | none => .ok none
    | some e => .error e

lemma outcome_some {pick : MediaRange → Option α} {t : Route} {value : α}
    (h : t.ranges.findSome? pick = some value) : outcome pick t = .ok (some value) := by
  rw [outcome, h]

lemma outcome_none {pick : MediaRange → Option α} {t : Route}
    (h : t.ranges.findSome? pick = none) :
    outcome pick t = match t.failure with
      | none => .ok none
      | some e => .error e := by
  rw [outcome, h]

end Negotiator

namespace Walk

open Negotiator

variable {α : Type}

/-- The first pick among the ranges that the walk shows, from the latest one on. The walk goes no
further than it must. -/
def firstFrom (pick : MediaRange → Option α) (w : Walk) : Except Error (Option α) :=
  match w.current.bind pick with
  | some a => .ok (some a)
  | none =>
    match _ : w.advance with
    | (.error e, _) => .error e
    | (.ok false, _) => .ok none
    | (.ok true, w') => firstFrom pick w'
termination_by w.stage.bound
decreasing_by exact bound_advance ‹_›

def first (pick : MediaRange → Option α) (w : Walk) : Except Error (Option α) :=
  if w.hasRange then w.firstFrom pick else .ok none

variable {pick : MediaRange → Option α} {w : Walk}

lemma firstFrom_some {a : α} (h : w.current.bind pick = some a) :
    w.firstFrom pick = .ok (some a) := by
  rw [firstFrom, h]

lemma firstFrom_none (h : w.current.bind pick = none) : w.firstFrom pick =
    match w.advance with
    | (.error e, _) => .error e
    | (.ok false, _) => .ok none
    | (.ok true, w') => w'.firstFrom pick := by
  rw [firstFrom, h]
  simp only
  split <;> next heq => rw [heq]

lemma findSome?_current (pick : MediaRange → Option α) (w : Walk) (rs : List MediaRange) :
    (w.current.toList ++ rs).findSome? pick = (w.current.bind pick).or (rs.findSome? pick) := by
  rw [List.findSome?_append]
  rcases w.current with _ | r <;> simp

/-- **The search follows the route**, from the latest range on. -/
theorem firstFrom_eq (pick : MediaRange → Option α) (w : Walk) :
    w.firstFrom pick =
      outcome pick { w.route with ranges := w.current.toList ++ w.route.ranges } := by
  fun_induction firstFrom pick w with
  | case1 w a hp =>
    rw [outcome_some]
    rw [findSome?_current, hp, Option.some_or]
  | case2 w hp e w' h =>
    obtain ⟨hr, hf⟩ := Route.answer_eq_error.mp (route_of_advance h).1
    rw [outcome_none, hf]
    rw [findSome?_current, hp, hr, List.findSome?_nil, Option.none_or]
  | case3 w hp w' h =>
    obtain ⟨hr, hf⟩ := Route.answer_eq_ok.mp (route_of_advance h).1
    have hnil : w.route.ranges = [] := by simpa using hr.symm
    rw [outcome_none, hf rfl]
    rw [findSome?_current, hp, hnil, List.findSome?_nil, Option.none_or]
  | case4 w hp w' h ih =>
    obtain ⟨ha, hc, hroute, -⟩ := route_of_advance h
    have hne := (Route.answer_eq_ok.mp ha).1
    have hranges : w'.current.toList ++ w'.route.ranges = w.route.ranges := by
      rw [hc, hroute, Route.drop]
      rcases hr : w.route.ranges with _ | ⟨r, rs⟩
      · simp [hr] at hne
      · simp
    have hskip : (w.current.toList ++ w.route.ranges).findSome? pick =
        w.route.ranges.findSome? pick := by
      rw [findSome?_current, hp, Option.none_or]
    rw [ih, hranges, hroute, outcome, outcome, hskip]
    rfl

lemma first_eq (pick : MediaRange → Option α) (w : Walk) :
    w.first pick = outcome pick { ranges := w.all.1, failure := w.all.2 } := by
  unfold first all
  rcases w.hasRange with _ | _
  · rfl
  · obtain ⟨hranges, hfailure⟩ := drain_eq w
    simp only [if_true, hranges, hfailure]
    exact firstFrom_eq pick w

lemma start_first (pick : MediaRange → Option α) (header : Text) (options : Options)
    (filters : List ContentType) : (do (← start header options filters).first pick) =
      outcome pick (before header options filters).route := by
  rcases (before header options filters).route.error_or_start with ⟨e, he⟩ | hok
  · rw [start_error he, he]
    rfl
  · obtain ⟨w, hw, -, -, hshows⟩ := start_ok rfl hok
    have hfirst := first_eq pick w
    rw [hshows.all] at hfirst
    rw [hw]
    exact hfirst

end Walk

namespace Negotiator

variable {α : Type}

lemma search_eq (n : Negotiator α) (w : Walk) :
    n.search w = w.firstFrom (n.pickFor? w.matching) := by
  fun_induction search n w with
  | case1 w value hp =>
    rw [pick?_eq] at hp
    rw [Walk.firstFrom_some hp]
  | case2 w hp e w' h =>
    rw [pick?_eq] at hp
    rw [Walk.firstFrom_none hp, h]
  | case3 w hp w' h =>
    rw [pick?_eq] at hp
    rw [Walk.firstFrom_none hp, h]
  | case4 w hp w' h ih =>
    rw [pick?_eq] at hp
    obtain ⟨-, -, -, hmatching⟩ := Walk.route_of_advance h
    rw [Walk.firstFrom_none hp, h, ih, hmatching]

variable (n : Negotiator α) {header : Text}

lemma negotiate_of_start {w : Walk} (h : Walk.start header n.options = .ok w) :
    n.negotiate header = if w.header = [] then .ok (some n.first)
      else if w.hasRange then n.search w else .ok none := by
  unfold negotiate
  rw [h]
  rfl

lemma negotiate_anything (h : AcceptsAnything n.options.literal header) :
    n.negotiate header = .ok (some n.first) := by
  obtain ⟨hheader, hroute⟩ := Walk.before_anything h []
  obtain ⟨w, hw, hwh, -, -⟩ := Walk.start_ok hroute fun _ => rfl
  rw [negotiate_of_start n hw, hwh, if_pos hheader]

/-- **The choice follows the route** of the walk without filters. -/
theorem negotiate_literal (h : ¬ AcceptsAnything n.options.literal header) :
    n.negotiate header = outcome (n.pickFor? n.options.matching)
      (Walk.before header n.options []).route := by
  have hne : header ≠ [] := fun hnil => h (Or.inl hnil)
  rw [← Walk.start_first]
  rcases hw : Walk.start header n.options with e | w
  · unfold negotiate
    rw [hw]
    rfl
  · obtain ⟨hheader, hmatching, -⟩ := Walk.shows_of_start hw
    rw [(Walk.before_literal h []).1] at hheader
    rw [negotiate_of_start n hw, hheader, if_neg hne, search_eq, hmatching]
    rfl

/-! ### Places in the list -/

lemma values_zero : n.values[0]? = some n.first := by
  obtain ⟨supported, hne, options⟩ := n
  rcases supported with _ | ⟨s, ss⟩
  · exact absurd rfl hne
  · rfl

lemma length_values : n.values.length = n.types.length := by simp [values, types]

lemma find?_fst {β : Type} (p : β → Bool) (l : List (β × α)) :
    (l.find? fun s => p s.1).map Prod.snd =
      ((l.map Prod.fst).findIdx? p).bind fun i => (l.map Prod.snd)[i]? := by
  induction l with
  | nil => rfl
  | cons s l ih =>
    rw [List.find?_cons, List.map_cons, List.map_cons, List.findIdx?_cons]
    by_cases hp : p s.1
    · simp [hp]
    · simp only [hp, ih, Bool.false_eq_true, if_false]
      rcases (l.map Prod.fst).findIdx? p with _ | i <;> simp

variable {n} {matching : ParameterMatching} {ranges : List MediaRange} {types : List ContentType}

lemma choose?_cons_of_any {r : MediaRange} (h : types.any (r.covers matching) = true) :
    choose? matching (r :: ranges) types = types.findIdx? (r.covers matching) := by
  rw [choose?, List.find?_cons, h]
  rfl

lemma choose?_cons_of_not_any {r : MediaRange} (h : types.any (r.covers matching) = false) :
    choose? matching (r :: ranges) types = choose? matching ranges types := by
  rw [choose?, List.find?_cons, h]
  rfl

lemma choose?_eq_none : choose? matching ranges types = none ↔
    ∀ r ∈ ranges, ∀ t ∈ types, r.covers matching t = false := by
  induction ranges with
  | nil => simp [choose?]
  | cons r ranges ih =>
    rw [List.forall_mem_cons, ← ih]
    rcases h : types.any (r.covers matching) with _ | _
    · rw [choose?_cons_of_not_any h]
      have hall : ∀ t ∈ types, r.covers matching t = false := by simpa using h
      exact ⟨fun hc => ⟨hall, hc⟩, fun hc => hc.2⟩
    · rw [choose?_cons_of_any h, List.findIdx?_eq_none_iff]
      obtain ⟨t, ht, hc⟩ := List.any_eq_true.mp h
      refine ⟨fun hn => absurd (hn t ht) (by simp [hc]), fun hn => hn.1⟩

lemma exists_choose? (h : ∃ r ∈ ranges, ∃ t ∈ types, r.covers matching t = true) :
    ∃ i, choose? matching ranges types = some i := by
  rw [← Option.ne_none_iff_exists']
  intro hnone
  obtain ⟨r, hr, t, ht, hcov⟩ := h
  have hnot := choose?_eq_none.mp hnone r hr t ht
  rw [hcov] at hnot
  cases hnot

lemma choose?_lt {i : ℕ} (h : choose? matching ranges types = some i) : i < types.length := by
  rw [choose?, Option.bind_eq_some_iff] at h
  obtain ⟨r, -, hi⟩ := h
  exact (List.findIdx?_eq_some_iff_getElem.mp hi).1

lemma findSome?_pickFor? (n : Negotiator α) (ranges : List MediaRange) :
    ranges.findSome? (n.pickFor? matching) =
      (choose? matching ranges n.types).bind fun i => n.values[i]? := by
  induction ranges with
  | nil => rfl
  | cons r ranges ih =>
    have hpick : n.pickFor? matching r =
        (n.types.findIdx? (r.covers matching)).bind fun i => n.values[i]? :=
      find?_fst (r.covers matching) n.supported
    rw [List.findSome?_cons, hpick]
    rcases h : n.types.any (r.covers matching) with _ | _
    · have hnone : n.types.findIdx? (r.covers matching) = none := by
        rw [List.findIdx?_eq_none_iff]
        simpa using h
      rw [choose?_cons_of_not_any h, hnone]
      exact ih
    · rw [choose?_cons_of_any h]
      rcases hi : n.types.findIdx? (r.covers matching) with _ | i
      · rw [List.findIdx?_eq_none_iff] at hi
        obtain ⟨t, ht, hc⟩ := List.any_eq_true.mp h
        exact absurd (hi t ht) (by simp [hc])
      · have hlt : i < n.values.length := by
          rw [length_values]
          exact (List.findIdx?_eq_some_iff_getElem.mp hi).1
        simp [hlt]

lemma getElem?_choose? {i : ℕ} (h : choose? matching ranges n.types = some i) :
    ∃ value, n.values[i]? = some value := by
  have hlt : i < n.values.length := by
    rw [length_values]
    exact choose?_lt h
  exact ⟨n.values[i], List.getElem?_eq_getElem hlt⟩

lemma mapM_with {β ε : Type} (f : α → Except ε β) (values : List α) :
    (values.mapM fun value => do return (← f value, value)) =
      (values.mapM f).map fun bs => bs.zip values := by
  induction values with
  | nil => rfl
  | cons value values ih =>
    rw [List.mapM_cons, List.mapM_cons, ih]
    rcases f value with e | b
    · rfl
    · cases values.mapM f <;> rfl

lemma mapM_pairs {β ε : Type} {f : α → Except ε β} {values : List α} {s : List (β × α)}
    (h : (values.mapM fun value => do return (← f value, value)) = .ok s) :
    values.mapM f = .ok (s.map Prod.fst) ∧ s.map Prod.snd = values := by
  rw [mapM_with] at h
  rcases hf : values.mapM f with e | bs
  · rw [hf] at h
    cases h
  · rw [hf] at h
    cases h
    have hlength := length_of_mapM hf
    have hfst : (bs.zip values).map Prod.fst = bs :=
      List.map_fst_zip (Nat.le_of_eq hlength)
    have hsnd : (bs.zip values).map Prod.snd = values :=
      List.map_snd_zip (Nat.le_of_eq hlength.symm)
    exact ⟨congrArg Except.ok hfst.symm, hsnd⟩

lemma ofList_eq_ok {text : α → Text} {values : List α} (h : ofList text values = .ok n) :
    values.mapM (fun value => ContentType.read (text value)) = .ok n.types ∧
      n.values = values := by
  obtain ⟨s, hs, h⟩ := bind_eq_ok.mp h
  split at h
  · cases h
  · cases h
    exact mapM_pairs hs

end Negotiator

end ContentNegotiation
