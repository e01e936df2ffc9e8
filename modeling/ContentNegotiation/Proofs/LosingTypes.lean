import ContentNegotiation.Proofs.Places
import Mathlib.Data.List.NodupEquivFin

/-!
Leaving out types that a server supports.

Among the types that are kept the choice is the one made among all of them, unless that fell on a
type left out. So a server that comes to support more types answers as before, or with one of the
new types.
-/

namespace ContentNegotiation

open Header

/-- The list `kept` is what is left of `l` when members are left out, and `old` tells which places
in `l` are kept. -/
def KeptOf {β : Type} (old : ℕ ↪o ℕ) (kept l : List β) : Prop := ∀ j, kept[j]? = l[old j]?

namespace KeptOf

variable {β γ : Type} {old : ℕ ↪o ℕ} {kept l : List β}

lemma exists_iff_sublist : (∃ old, KeptOf old kept l) ↔ kept.Sublist l :=
  List.sublist_iff_exists_orderEmbedding_getElem?_eq.symm

lemma mem (h : KeptOf old kept l) {a : β} (ha : a ∈ kept) : a ∈ l := by
  obtain ⟨j, hj⟩ := List.getElem?_of_mem ha
  rw [h j] at hj
  exact List.mem_of_getElem? hj

lemma map (h : KeptOf old kept l) (f : β → γ) : KeptOf old (kept.map f) (l.map f) := by
  intro j
  rw [List.getElem?_map, List.getElem?_map, h j]

lemma of_map {f : β → γ} (hf : Function.Injective f)
    (h : KeptOf old (kept.map f) (l.map f)) : KeptOf old kept l := by
  intro j
  have hj := h j
  rw [List.getElem?_map, List.getElem?_map] at hj
  exact Option.map_injective hf hj

lemma findIdx?_eq_some {p : β → Bool} {i : ℕ} : l.findIdx? p = some i ↔
    (∃ a, l[i]? = some a ∧ p a = true) ∧ ∀ j < i, ∀ a, l[j]? = some a → p a = false := by
  rw [List.findIdx?_eq_some_iff_getElem]
  constructor
  · rintro ⟨hi, hp, hfirst⟩
    refine ⟨⟨l[i], List.getElem?_eq_getElem hi, hp⟩, fun j hj a ha => ?_⟩
    obtain ⟨_, rfl⟩ := List.getElem?_eq_some_iff.mp ha
    simpa using hfirst j hj
  · rintro ⟨⟨a, ha, hp⟩, hfirst⟩
    obtain ⟨hi, rfl⟩ := List.getElem?_eq_some_iff.mp ha
    refine ⟨hi, hp, fun j hj => ?_⟩
    have := hfirst j hj l[j] (List.getElem?_eq_getElem (by omega))
    simp [this]

lemma findIdx? (h : KeptOf old kept l) (p : β → Bool) :
    (∃ i, l.findIdx? p = some i ∧ ∀ j, old j ≠ i) ∨
      l.findIdx? p = (kept.findIdx? p).map old := by
  rcases hi : l.findIdx? p with _ | i
  · right
    rw [List.findIdx?_eq_none_iff] at hi
    have hkept : kept.findIdx? p = none :=
      List.findIdx?_eq_none_iff.mpr fun a ha => hi a (h.mem ha)
    rw [hkept, Option.map_none]
  · by_cases hold : ∃ j, old j = i
    · right
      obtain ⟨j, rfl⟩ := hold
      obtain ⟨⟨a, ha, hp⟩, hfirst⟩ := findIdx?_eq_some.mp hi
      have hkept : kept.findIdx? p = some j := by
        refine findIdx?_eq_some.mpr ⟨⟨a, by rw [h j, ha], hp⟩, fun k hk b hb => ?_⟩
        rw [h k] at hb
        exact hfirst (old k) (old.lt_iff_lt.mpr hk) b hb
      rw [hkept, Option.map_some]
    · left
      exact ⟨i, rfl, fun j hj => hold ⟨j, hj⟩⟩

end KeptOf

namespace Negotiator

variable {α : Type} {n m : Negotiator α} {old : ℕ ↪o ℕ}

/-- The choice among all fell on a place left out, or it is the choice among the kept ones. -/
def Transfers (old : ℕ ↪o ℕ) (all fewer : Option ℕ) : Prop :=
  (∃ i, all = some i ∧ ∀ j, old j ≠ i) ∨ all = fewer.map old

lemma transfers_findSome? {pick pick' : MediaRange → Option ℕ}
    (h : ∀ r, Transfers old (pick r) (pick' r)) (ranges : List MediaRange) :
    Transfers old (ranges.findSome? pick) (ranges.findSome? pick') := by
  induction ranges with
  | nil => exact Or.inr rfl
  | cons r ranges ih =>
    rw [List.findSome?_cons, List.findSome?_cons]
    rcases h r with ⟨i, hi, hnew⟩ | hsame
    · rw [hi]
      exact Or.inl ⟨i, rfl, hnew⟩
    · rw [hsame]
      rcases pick' r with _ | j
      · exact ih
      · exact Or.inr rfl

lemma place_kept (hoptions : m.options = n.options) (hkept : KeptOf old m.types n.types)
    (header : Text) :
    (∃ i, n.place header = .ok (some i) ∧ ∀ j, old j ≠ i) ∨
      n.place header = (m.place header).map (Option.map old) := by
  rw [place_eq, place_eq, hoptions]
  split
  · -- the first place is kept as the first one, or it is left out
    by_cases hold : ∃ j, old j = 0
    · obtain ⟨j, hj⟩ := hold
      have hzero : old 0 = 0 := by
        have hle : old 0 ≤ old j := old.le_iff_le.mpr (Nat.zero_le j)
        omega
      right
      rw [Except.map, Option.map_some, hzero]
    · exact Or.inl ⟨0, rfl, fun j hj => hold ⟨j, hj⟩⟩
  · set t := Route.outline [] (readings header)
    have hplace : ∀ r, Transfers old (placeFor? n.options.matching n.types r)
        (placeFor? n.options.matching m.types r) := fun r => hkept.findIdx? _
    rcases transfers_findSome? hplace t.ranges with ⟨i, hi, hnew⟩ | hsame
    · exact Or.inl ⟨i, outcome_some hi, hnew⟩
    · right
      rcases hj : t.ranges.findSome? (placeFor? n.options.matching m.types) with _ | j
      · rw [hj, Option.map_none] at hsame
        rw [outcome_none hsame, outcome_none hj]
        rcases t.failure with _ | e <;> rfl
      · rw [hj, Option.map_some] at hsame
        rw [outcome_some hsame, outcome_some hj]
        rfl

/-- A place that is chosen among all and kept is chosen among the kept ones, and so are the lack of
one and the error. -/
lemma place_of_kept (hoptions : m.options = n.options) (hkept : KeptOf old m.types n.types)
    {header : Text} {place : Except Error (Option ℕ)}
    (h : n.place header = place.map (Option.map old)) : m.place header = place := by
  have hinjective : Function.Injective (Except.map (Option.map old) :
      Except Error (Option ℕ) → Except Error (Option ℕ)) := by
    rintro (e | a) (e' | b) heq
    · exact congrArg Except.error (Except.error.inj heq)
    · cases heq
    · cases heq
    · exact congrArg Except.ok (Option.map_injective old.injective (Except.ok.inj heq))
  rcases place_kept hoptions hkept header with ⟨i, hi, hnew⟩ | hsame
  · rw [hi] at h
    rcases place with e | _ | j
    · cases h
    · cases h
    · have hij : i = old j := Option.some.inj (Except.ok.inj h)
      exact absurd hij.symm (hnew j)
  · exact hinjective (hsame.symm.trans h)

variable {text : α → Text} {values kept : List α}

lemma ofList_kept (hn : ofList text values = .ok n) (hsub : kept.Sublist values)
    (hne : kept ≠ []) : ∃ m, ofList text kept = .ok m := by
  have hread : ∀ value ∈ kept, ∃ t, ContentType.read (text value) = .ok t := fun value hv =>
    exists_mapM_ok.mp ⟨_, (ofList_eq_ok hn).1⟩ value (hsub.subset hv)
  obtain ⟨types, htypes⟩ := exists_mapM_ok.mpr hread
  exact exists_ofList htypes hne

lemma keptOf_types (hn : ofList text values = .ok n) (hm : ofList text kept = .ok m)
    (hkept : KeptOf old kept values) : KeptOf old m.types n.types := by
  have hread := hkept.map fun value => ContentType.read (text value)
  rw [mapM_eq_ok_iff.mp (ofList_eq_ok hn).1, mapM_eq_ok_iff.mp (ofList_eq_ok hm).1] at hread
  exact hread.of_map fun _ _ => Except.ok.inj

/-- **The choice does not depend on losing alternatives.** A server that supports only some of the
values, in the same order, answers with the value that is chosen among all of them if it is kept;
where none of all is accepted it accepts none, and it fails where the other fails. So the place
among all is one that is left out, or it is the one among those kept. -/
theorem negotiate_kept (hn : ofList text values = .ok n) (hsub : kept.Sublist values)
    (hne : kept ≠ []) :
    ∃ m, ofList text kept = .ok m ∧ (∃ old, KeptOf old kept values) ∧
      ∀ old, KeptOf old kept values → ∀ literal matching header,
        let all := (n.withLiteral literal).withMatching matching
        let fewer := (m.withLiteral literal).withMatching matching
        (∀ j, all.place header = .ok (some (old j)) →
          fewer.place header = .ok (some j) ∧ fewer.negotiate header = all.negotiate header) ∧
        (all.negotiate header = .ok none → fewer.negotiate header = .ok none) ∧
        (∀ e, all.negotiate header = .error e → fewer.negotiate header = .error e) ∧
        ((∃ i, all.place header = .ok (some i) ∧ ∀ j, old j ≠ i) ∨
          all.place header = (fewer.place header).map (Option.map old)) := by
  obtain ⟨m, hm⟩ := ofList_kept hn hsub hne
  refine ⟨m, hm, KeptOf.exists_iff_sublist.mpr hsub, fun old hkept literal matching header => ?_⟩
  intro all fewer
  have hread : KeptOf old m.types n.types := keptOf_types hn hm hkept
  have htypes : KeptOf old fewer.types all.types := hread
  have hoptions : fewer.options = all.options := rfl
  refine ⟨fun j hj => ?_, fun hnone => ?_, fun e he => ?_, place_kept hoptions htypes header⟩
  · have hfewer : fewer.place header = .ok (some j) := place_of_kept hoptions htypes hj
    have hvalue : fewer.values[j]? = all.values[old j]? := by
      have hall : all.values = values := (ofList_eq_ok hn).2
      have hkeptValues : fewer.values = kept := (ofList_eq_ok hm).2
      rw [hall, hkeptValues, hkept j]
    refine ⟨hfewer, ?_⟩
    rw [negotiate_eq_place, negotiate_eq_place, hfewer, hj, Except.map, Except.map,
      Option.bind_some, Option.bind_some, hvalue]
  · rw [← place_eq_none] at hnone ⊢
    exact place_of_kept hoptions htypes hnone
  · rw [← place_eq_error] at he ⊢
    exact place_of_kept hoptions htypes he

/-- The last of three types is still chosen when the first one, which is preferred by the server
but less so by the client, is left out. -/
theorem negotiate_kept_tail :
    ∃ m, ofList id ["application/json".toList, "image/png".toList] = .ok m ∧
      ((m.withLiteral true).withMatching .legacy).place
        "text/*;q=.5,*/png;q=0.9;x,image/*;q=0.90".toList = .ok (some 1) := by
  let n : Negotiator Text := ⟨[(⟨"text".toList, "html".toList, []⟩, "text/html".toList),
    (⟨"application".toList, "json".toList, []⟩, "application/json".toList),
    (⟨"image".toList, "png".toList, []⟩, "image/png".toList)], by simp, {}⟩
  have hn : ofList id ["text/html".toList, "application/json".toList, "image/png".toList] =
      .ok n := rfl
  have hsub : ["application/json".toList, "image/png".toList].Sublist
      ["text/html".toList, "application/json".toList, "image/png".toList] :=
    List.sublist_cons_self _ _
  obtain ⟨m, hm, -, hkept⟩ := negotiate_kept hn hsub (List.cons_ne_nil _ _)
  let old : ℕ ↪o ℕ := OrderEmbedding.ofStrictMono Nat.succ fun _ _ => Nat.succ_lt_succ
  have hplace : ((n.withLiteral true).withMatching .legacy).place
      "text/*;q=.5,*/png;q=0.9;x,image/*;q=0.90".toList = .ok (some 2) := by decide +kernel
  exact ⟨m, hm, ((hkept old (fun _ => rfl) true .legacy _).1 1 hplace).1⟩

end Negotiator

end ContentNegotiation
