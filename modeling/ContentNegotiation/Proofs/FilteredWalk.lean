import ContentNegotiation.Proofs.Places

/-!
Filtering inside a walk, and checking the ranges of a walk afterwards.

A walk with filters leaves out ranges that do not fit, but only among those that are deferred. So it
shows fewer ranges than the walk without filters, and yet the same fitting ones in the same order,
and it fails where the other fails. A server of one type may ask the filtered walk instead.
-/

namespace ContentNegotiation

open Header

namespace Walk

variable {header : Text} {options : Options} {filters : List ContentType}

/-- The ranges that fit are the same on both routes, and a failure makes the routes equal. -/
lemma route_filtered (hopen : ¬ AcceptsAnything options.literal header)
    (filters : List ContentType) {t t' : Route}
    (ht : (before header options filters).route = t) (ht' : (before header options []).route = t') :
    t.ranges.filter (·.coversAll options.matching filters) =
        t'.ranges.filter (·.coversAll options.matching filters) ∧
      t.failure = t'.failure ∧ (t.failure ≠ none → t = t') := by
  rcases wellFormed_or_fault header with hw | ⟨before, e, hf⟩
  · rw [before_wellFormed hopen hw] at ht ht'
    subst ht ht'
    refine ⟨?_, rfl, fun h => absurd rfl h⟩
    have hall : (deferred (pieces header)).filter (·.coversAll options.matching []) =
        deferred (pieces header) := List.filter_eq_self.mpr fun _ _ => rfl
    rw [order, order, hall, descending_filter, List.filter_append, List.filter_append,
      List.filter_filter]
    simp only [Bool.and_self]
  · rw [before_fault hopen hf] at ht ht'
    subst ht ht'
    exact ⟨rfl, rfl, fun _ => rfl⟩

lemma filters_of_start {w : Walk} (h : start header options filters = .ok w) :
    w.filters = filters := by
  obtain ⟨stage, hadv, -⟩ := advance_eq (before header options filters)
  rw [start, hadv] at h
  split at h
  · next heq =>
    cases h
    rw [← (Prod.mk.inj heq).2]
    rfl
  · cases h

end Walk

namespace Negotiator

variable {α : Type} {t t' : Route} {wanted : MediaRange → Bool}

lemma outcome_guard_congr (hranges : t.ranges.filter wanted = t'.ranges.filter wanted)
    (hfailure : t.failure = t'.failure) :
    outcome (Option.guard wanted) t = outcome (Option.guard wanted) t' := by
  rw [outcome, outcome, List.findSome?_guard, List.findSome?_guard, ← List.head?_filter,
    ← List.head?_filter, hranges, hfailure]

lemma outcome_map_value {β : Type} (f : β → α) (pick : MediaRange → Option β) (t : Route) :
    outcome (fun r => (pick r).map f) t = (outcome pick t).map (Option.map f) := by
  have hmap : t.ranges.findSome? (fun r => (pick r).map f) = (t.ranges.findSome? pick).map f :=
    List.map_findSome?.symm
  rcases h : t.ranges.findSome? pick with _ | b
  · rw [h] at hmap
    rw [outcome_none hmap, outcome_none h]
    rcases t.failure with _ | e <;> rfl
  · rw [h] at hmap
    rw [outcome_some hmap, outcome_some h]
    rfl

lemma pickFor?_single {n : Negotiator α} {type : ContentType} {value : α}
    (hn : n.supported = [(type, value)]) (matching : ParameterMatching) :
    n.pickFor? matching = fun r =>
      (Option.guard (·.covers matching type) r).map fun _ => value := by
  funext r
  rw [pickFor?, hn, List.find?_cons, Option.guard]
  cases r.covers matching type <;> rfl

end Negotiator

open Negotiator

namespace Walk

variable {header : Text} {options : Options}

/-- The first range that is wanted among those that a walk over the header shows. -/
def find (header : Text) (options : Options) (filters : List ContentType)
    (wanted : MediaRange → Bool) : Except Error (Option MediaRange) := do
  (← start header options filters).first (Option.guard wanted)

lemma find_filtered (hopen : ¬ AcceptsAnything options.literal header)
    (filters : List ContentType) :
    find header options filters (·.coversAll options.matching filters) =
      find header options [] (·.coversAll options.matching filters) := by
  obtain ⟨hfits, hfailure, -⟩ := route_filtered hopen filters rfl rfl
  rw [find, find, start_first, start_first]
  exact outcome_guard_congr hfits hfailure

end Walk

namespace Negotiator

variable {α : Type} {n : Negotiator α} {type : ContentType} {value : α} {header : Text}

lemma negotiate_single (hn : n.supported = [(type, value)])
    (hopen : ¬ AcceptsAnything n.options.literal header) : n.negotiate header =
      (Walk.find header n.options [type] (·.covers n.options.matching type)).map
        (Option.map fun _ => value) := by
  have hfits : (fun r : MediaRange => r.coversAll n.options.matching [type]) =
      (·.covers n.options.matching type) := by
    funext r
    rw [MediaRange.coversAll, List.all_cons, List.all_nil, Bool.and_true]
  have hfind := Walk.find_filtered hopen [type]
  rw [hfits] at hfind
  rw [negotiate_literal n hopen, pickFor?_single hn, outcome_map_value, hfind, Walk.find,
    Walk.start_first]

end Negotiator

namespace Walk

variable {header : Text} {options : Options}

/-- **Filtering in the walk is checking afterwards.** Over a header that does not leave the choice
open the walk with filters and the walk without fail alike at their start, or they show the same
ranges that cover all filters, in the same order, and end alike, and the search for such a range has
the same outcome on both. So a server of one type answers with its value if the walk filtered by
this type shows a range that covers it, and with none or an error as that walk ends. -/
theorem start_filtered (hopen : ¬ AcceptsAnything options.literal header)
    (filters : List ContentType) :
    ((∃ e, start header options filters = .error e ∧ start header options = .error e) ∨
      ∃ w w', start header options filters = .ok w ∧ start header options = .ok w' ∧
        w.compatible = (·.coversAll options.matching filters) ∧
        w.first (Option.guard w.compatible) = w'.first (Option.guard w.compatible) ∧
        w.all.1.filter w.compatible = w'.all.1.filter w.compatible ∧ w.all.2 = w'.all.2) ∧
    ∀ (α : Type) (text : α → Text) (value : α) (type : ContentType),
      ContentType.read (text value) = .ok type → ∃ n, ofList text [value] = .ok n ∧
        ((n.withLiteral options.literal).withMatching options.matching).negotiate header =
          (find header options [type] (·.covers options.matching type)).map
            (Option.map fun _ => value) := by
  constructor
  · obtain ⟨hfits, hfailure, hsame⟩ := route_filtered hopen filters rfl rfl
    set t := (before header options filters).route with ht
    set t' := (before header options []).route with ht'
    rcases t.error_or_start with ⟨e, he⟩ | hok
    · have he' : t' = { ranges := [], failure := some e } := by rw [← hsame (by simp [he]), he]
      exact Or.inl ⟨e, start_error he, start_error he'⟩
    · have hok' : t'.ranges = [] → t'.failure = none := by
        intro hnil
        by_contra hne
        rw [← hfailure] at hne
        rw [← hsame hne] at hnil
        exact hne (hok hnil)
      obtain ⟨w, hw, -, hmatching, hshows⟩ := start_ok ht.symm hok
      obtain ⟨w', hw', -, -, hshows'⟩ := start_ok ht'.symm hok'
      have hcompatible : w.compatible = (·.coversAll options.matching filters) := by
        funext r
        rw [compatible, hmatching, filters_of_start hw]
      rw [← hcompatible] at hfits
      refine Or.inr ⟨w, w', hw, hw', hcompatible, ?_, ?_, ?_⟩
      · rw [first_eq, first_eq, hshows.all, hshows'.all]
        exact outcome_guard_congr hfits hfailure
      · rw [hshows.all, hshows'.all, hfits]
      · rw [hshows.all, hshows'.all, hfailure]
  · intro α text value type hread
    have hall : [value].mapM (fun value => ContentType.read (text value)) = .ok [type] := by
      rw [mapM_eq_ok_iff, List.map_singleton, hread]
      rfl
    obtain ⟨n, hn⟩ := exists_ofList hall (List.cons_ne_nil value [])
    obtain ⟨htypes, hvalues⟩ := ofList_eq_ok hn
    rw [hall] at htypes
    have hsupported : n.supported = [(type, value)] :=
      List.zip_of_prod (Except.ok.inj htypes).symm hvalues
    exact ⟨n, hn, @negotiate_single _ ((n.withLiteral options.literal).withMatching
      options.matching) _ _ _ hsupported hopen⟩

/-- The filtered walk leaves out two deferred ranges, but not the first one, which is shown at once.
Both walks find the same range for a type, and a server of this type answers with it. -/
theorem start_filtered_deferred :
    (∃ w w', start "a/b,c/d;q=.7,text/*;q=.5,e/f".toList { literal := true }
          [⟨"text".toList, "html".toList, []⟩] = .ok w ∧
        start "a/b,c/d;q=.7,text/*;q=.5,e/f".toList { literal := true } = .ok w' ∧
        w.all.1.map (·.type) = [['a'], "text".toList] ∧
        w'.all.1.map (·.type) = [['a'], ['e'], ['c'], "text".toList] ∧
        w.first (Option.guard w.compatible) = w'.first (Option.guard w.compatible)) ∧
    ∃ n, ofList id ["Text/HTML;level=1".toList] = .ok n ∧
      ((n.withLiteral true).withMatching .exact).negotiate
        "a/b,c/d;q=.7,text/*;q=.5,e/f".toList = .ok (some "Text/HTML;level=1".toList) := by
  have hopen : ¬ AcceptsAnything ({ literal := true } : Options).literal
      "a/b,c/d;q=.7,text/*;q=.5,e/f".toList := by decide
  obtain ⟨hwalks, hsingle⟩ := start_filtered hopen [⟨"text".toList, "html".toList, []⟩]
  have htypes : (start "a/b,c/d;q=.7,text/*;q=.5,e/f".toList { literal := true }
      [⟨"text".toList, "html".toList, []⟩]).map (fun w => w.all.1.map (·.type)) =
        .ok [['a'], "text".toList] := by decide +kernel
  have htypes' : (start "a/b,c/d;q=.7,text/*;q=.5,e/f".toList { literal := true }).map
      (fun w => w.all.1.map (·.type)) = .ok [['a'], ['e'], ['c'], "text".toList] := by
    decide +kernel
  constructor
  · rcases hwalks with ⟨e, he, -⟩ | ⟨w, w', hw, hw', -, hfirst, -⟩
    · rw [he] at htypes
      cases htypes
    · rw [hw] at htypes
      rw [hw'] at htypes'
      exact ⟨w, w', hw, hw', Except.ok.inj htypes, Except.ok.inj htypes', hfirst⟩
  · obtain ⟨n, hn, hnegotiate⟩ := hsingle Text id "Text/HTML;level=1".toList
      ⟨"Text".toList, "HTML".toList, [⟨"level".toList, ['1']⟩]⟩ (by decide +kernel)
    refine ⟨n, hn, hnegotiate.trans ?_⟩
    decide +kernel

end Walk

end ContentNegotiation
