import ContentNegotiation.Proofs.Choice
import ContentNegotiation.Proofs.Readings
import Mathlib.Order.Hom.Basic

/-!
Negotiation as the choice of a place in the server's list.

A server that offers the places of its types instead of values is asked the same way, and every
server over these types answers with its value at the place chosen. The place is told from the
readings of the header and the types, and does not change when types are left out that were not
chosen.
-/

namespace ContentNegotiation

open Header

namespace Negotiator

variable {α : Type} {n : Negotiator α}

/-! ### Places -/

/-- The negotiator over the same types that answers with their places. -/
def places (n : Negotiator α) : Negotiator ℕ where
  supported := n.types.zipIdx
  supported_ne_nil := by
    have := n.supported_ne_nil
    simpa [types] using this
  options := n.options

/-- The place in the list of the value that the header is answered with. -/
def place (n : Negotiator α) (header : Text) : Except Error (Option ℕ) :=
  n.places.negotiate header

/-- The place of the first type that the range covers. -/
def placeFor? (matching : ParameterMatching) (types : List ContentType) (r : MediaRange) :
    Option ℕ :=
  types.findIdx? (r.covers matching)

lemma types_places (n : Negotiator α) : n.places.types = n.types :=
  List.zipIdx_map_fst 0 n.types

lemma getElem?_values_places (n : Negotiator α) {i : ℕ} (hi : i < n.types.length) :
    n.places.values[i]? = some i := by
  have hvalues : n.places.values = List.range' 0 n.types.length := List.zipIdx_map_snd 0 n.types
  simp [hvalues, hi]

lemma length_types_pos (n : Negotiator α) : 0 < n.types.length := by
  have := n.supported_ne_nil
  simpa [types, List.length_pos_iff] using this

lemma first_places (n : Negotiator α) : n.places.first = 0 := by
  have hfirst := values_zero n.places
  rw [getElem?_values_places n n.length_types_pos] at hfirst
  exact (Option.some.inj hfirst).symm

lemma pickFor?_places (n : Negotiator α) (matching : ParameterMatching) :
    n.places.pickFor? matching = placeFor? matching n.types := by
  funext r
  have hpick : n.places.pickFor? matching r =
      (n.places.types.findIdx? (r.covers matching)).bind fun i => n.places.values[i]? :=
    find?_fst (r.covers matching) n.places.supported
  rw [hpick, types_places, placeFor?]
  rcases hi : n.types.findIdx? (r.covers matching) with _ | i
  · rfl
  · have hlt : i < n.types.length := (List.findIdx?_eq_some_iff_getElem.mp hi).1
    rw [Option.bind_some, getElem?_values_places n hlt]

/-- What a search sees of a range: its quality, and what is picked for it. -/
def sight (pick : MediaRange → Option α) (r : MediaRange) : Quality × Option α :=
  (r.quality, pick r)

lemma findSome?_sight (pick : MediaRange → Option α) (rs : List MediaRange) :
    rs.findSome? pick = (rs.map (sight pick)).findSome? Prod.snd := by
  rw [List.findSome?_map]
  rfl

/-- **The outcome is told from what the search sees of the readings.** -/
theorem outcome_outline_congr {pick pick' : MediaRange → Option α}
    {readings readings' : List (Except Error MediaRange)}
    (h : readings'.map (Except.map (sight pick')) = readings.map (Except.map (sight pick))) :
    outcome pick' (.outline [] readings') = outcome pick (.outline [] readings) := by
  have hquality : ∀ (pick : MediaRange → Option α) r, (sight pick r).1 = r.quality :=
    fun _ _ => rfl
  have hnil : ([] : List MediaRange).map (sight pick') = [].map (sight pick) := rfl
  obtain ⟨hranges, hfailure⟩ := Route.outline_congr (hquality pick) (hquality pick') hnil h
  rw [outcome, outcome, findSome?_sight, findSome?_sight, hranges, hfailure]

/-- A change of the ranges that leaves their qualities alone is as good as one of what is picked for
them. -/
lemma outcome_outline_map {f : MediaRange → MediaRange} (hf : ∀ r, (f r).quality = r.quality)
    (pick : MediaRange → Option α) (readings : List (Except Error MediaRange)) :
    outcome pick (.outline [] (readings.map (Except.map f))) =
      outcome (pick ∘ f) (.outline [] readings) := by
  refine outcome_outline_congr ?_
  rw [List.map_map]
  refine List.map_congr_left fun reading _ => ?_
  rcases reading with e | r
  · rfl
  · exact congrArg Except.ok (Prod.ext (hf r) rfl)

/-- **The place is told from the readings and the types.** -/
theorem place_eq (n : Negotiator α) (header : Text) :
    n.place header = if AcceptsAnything n.options.literal header then .ok (some 0)
      else outcome (placeFor? n.options.matching n.types) (.outline [] (readings header)) := by
  unfold place
  split
  · next h =>
    have h' : AcceptsAnything n.places.options.literal header := h
    rw [negotiate_anything n.places h', first_places]
  · next h =>
    have h' : ¬ AcceptsAnything n.places.options.literal header := h
    rw [negotiate_literal n.places h', Walk.route_eq_outline h', pickFor?_places]
    rfl

lemma findSome?_placeFor? (n : Negotiator α) (matching : ParameterMatching)
    (ranges : List MediaRange) :
    ranges.findSome? (placeFor? matching n.types) = choose? matching ranges n.types := by
  rw [← pickFor?_places, findSome?_pickFor?, types_places]
  rcases hc : choose? matching ranges n.types with _ | i
  · rfl
  · rw [Option.bind_some, getElem?_values_places n (choose?_lt hc)]

theorem negotiate_eq_place (n : Negotiator α) (header : Text) :
    n.negotiate header = (n.place header).map fun place? => place?.bind fun i => n.values[i]? := by
  rw [place_eq]
  split
  · next h =>
    rw [negotiate_anything n h, Except.map, Option.bind_some, values_zero]
  · next h =>
    rw [negotiate_literal n h, Walk.route_eq_outline h]
    set t := Route.outline [] (readings header)
    have hvalue : t.ranges.findSome? (n.pickFor? n.options.matching) =
        (choose? n.options.matching t.ranges n.types).bind fun i => n.values[i]? :=
      findSome?_pickFor? n t.ranges
    have hplace := findSome?_placeFor? n n.options.matching t.ranges
    rcases hc : choose? n.options.matching t.ranges n.types with _ | i
    · rw [hc] at hvalue hplace
      rw [outcome_none hvalue, outcome_none hplace]
      rcases t.failure with _ | e <;> rfl
    · obtain ⟨value, hv⟩ := getElem?_choose? hc
      rw [hc, Option.bind_some, hv] at hvalue
      rw [hc] at hplace
      rw [outcome_some hvalue, outcome_some hplace, Except.map, Option.bind_some, hv]

lemma place_lt {header : Text} {i : ℕ} (h : n.place header = .ok (some i)) :
    i < n.types.length := by
  rw [place_eq] at h
  split at h
  · obtain rfl : 0 = i := by simpa using h
    exact n.length_types_pos
  · next hopen =>
    rcases hs : (Route.outline [] (readings header)).ranges.findSome?
        (placeFor? n.options.matching n.types) with _ | j
    · rw [outcome_none hs] at h
      split at h <;> cases h
    · rw [outcome_some hs] at h
      cases h
      rw [findSome?_placeFor?] at hs
      exact choose?_lt hs

lemma negotiate_of_place {header : Text} {i : ℕ} (h : n.place header = .ok (some i)) :
    ∃ value, n.values[i]? = some value ∧ n.negotiate header = .ok (some value) := by
  have hlt : i < n.values.length := by
    rw [length_values]
    exact place_lt h
  have hvalue := List.getElem?_eq_getElem hlt
  refine ⟨n.values[i], hvalue, ?_⟩
  rw [negotiate_eq_place, h, Except.map, Option.bind_some, hvalue]

lemma place_eq_none {header : Text} :
    n.place header = .ok none ↔ n.negotiate header = .ok none := by
  rw [negotiate_eq_place]
  rcases hp : n.place header with e | _ | i
  · simp [Except.map]
  · simp [Except.map]
  · obtain ⟨value, hv, -⟩ := negotiate_of_place hp
    simp [Except.map, hv]

lemma place_eq_error {header : Text} {e : Error} :
    n.place header = .error e ↔ n.negotiate header = .error e := by
  rw [negotiate_eq_place]
  cases n.place header <;> simp [Except.map]

/-! ### Negotiators made from lists -/

variable {text : α → Text} {values : List α}

lemma ofList_error {e : Error}
    (h : values.mapM (fun value => ContentType.read (text value)) = .error e) :
    ofList text values = .error e := by
  unfold ofList
  rw [mapM_with, h]
  rfl

lemma exists_ofList {types : List ContentType}
    (h : values.mapM (fun value => ContentType.read (text value)) = .ok types)
    (hne : values ≠ []) : ∃ n, ofList text values = .ok n := by
  have hzip : types.zip values ≠ [] := by
    have hlength := length_of_mapM h
    rw [← List.length_pos_iff] at hne ⊢
    rw [List.length_zip]
    omega
  unfold ofList
  rw [mapM_with, h]
  exact ⟨⟨types.zip values, hzip, {}⟩, dif_neg hzip⟩

end Negotiator

end ContentNegotiation
