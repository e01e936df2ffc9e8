import ContentNegotiation.Proofs.HeaderAnswers
import ContentNegotiation.Proofs.Negotiation
import ContentNegotiation.Proofs.Readings
import Mathlib.Data.List.Perm.Basic

/-!
Headers that ask for less.

A range that stands for more names and states fewer parameters still covers what it covered, and
what it covers may lose parameters. So a header that is not empty stays acceptable when its ranges
are broadened, when their qualities or their order change and when more ranges come in. The empty
header is an exception, since it accepts everything and a first range ends that.
-/

namespace ContentNegotiation

open Text

/-! ### Ranges -/

/-- The same name or a star, with blank characters around it. -/
def BroaderName (name name' : Text) : Prop := name' = name ∨ trim name' = ['*']

structure MediaRange.Broader (r r' : MediaRange) : Prop where
  type : BroaderName r.type r'.type
  subtype : BroaderName r.subtype r'.subtype
  parameters : r'.parameters.Sublist r.parameters

structure ContentType.Fewer (t t' : ContentType) : Prop where
  type : t'.type = t.type
  subtype : t'.subtype = t.subtype
  parameters : t'.parameters.Sublist t.parameters

lemma MediaRange.Broader.refl (r : MediaRange) : r.Broader r := ⟨.inl rfl, .inl rfl, .refl _⟩

lemma ContentType.Fewer.refl (t : ContentType) : t.Fewer t := ⟨rfl, rfl, .refl _⟩

lemma MediaRange.admitsName_mono {pattern pattern' name : Text}
    (hpattern : BroaderName pattern pattern') (h : admitsName pattern name = true) :
    admitsName pattern' name = true := by
  rcases hpattern with rfl | hstar
  · exact h
  · rw [admitsName, hstar]
    rfl

lemma ParameterMatching.satisfiedExact_mono {spans spans' : List Text} {ps ps' : List Parameter}
    (hspans : spans' ⊆ spans) (hps : ps' ⊆ ps) (h : satisfiedExact spans ps = true) :
    satisfiedExact spans' ps' = true := by
  simp only [satisfiedExact, List.all_eq_true] at h ⊢
  exact fun p hp span hspan => h p (hps hp) span (hspans hspan)

/-- **A broader range covers at least as much**, and a content type stays covered when it loses
parameters. -/
theorem MediaRange.covers_mono {r r' : MediaRange} {t t' : ContentType} (hr : r.Broader r')
    (ht : t.Fewer t') (h : r.covers .exact t = true) : r'.covers .exact t' = true := by
  simp only [covers, Bool.and_eq_true] at h ⊢
  obtain ⟨⟨htype, hsubtype⟩, hparameters⟩ := h
  rw [ht.type, ht.subtype]
  exact ⟨⟨admitsName_mono hr.type htype, admitsName_mono hr.subtype hsubtype⟩,
    ParameterMatching.satisfiedExact_mono hr.parameters.subset ht.parameters.subset hparameters⟩

/-! ### Headers -/

namespace MediaRange

structure BroaderPiece (piece piece' : Text) : Prop where
  names : ∀ type subtype, cut '/' (split ';' piece).1 = some (type, subtype) →
    ∃ type' subtype', cut '/' (split ';' piece').1 = some (type', subtype') ∧
      BroaderName type type' ∧ BroaderName subtype subtype'
  parameters : ((split ';' piece').2.filter isParameter).Sublist
    ((split ';' piece).2.filter isParameter)

variable {piece piece' : Text}

lemma BroaderPiece.refl (piece : Text) : BroaderPiece piece piece :=
  ⟨fun _ _ hcut => ⟨_, _, hcut, .inl rfl, .inl rfl⟩, .refl _⟩

lemma BroaderPiece.exists_broader (h : BroaderPiece piece piece') (hw : WellFormed piece)
    (hw' : WellFormed piece') {r : MediaRange} (hr : ofPiece? piece = some r) :
    ∃ r', ofPiece? piece' = some r' ∧ r.Broader r' := by
  have hread := ofPiece_eq_iff.mp hw.ofPiece_eq
  have hread' := ofPiece_eq_iff.mp hw'.ofPiece_eq
  rw [hr] at hread
  obtain _ | _ | ⟨-, hname, hslash, hparameters, -⟩ := hread
  obtain ⟨type', subtype', hcut, htype, hsubtype⟩ := h.names _ _ (cut_eq_some.mpr ⟨hname, hslash⟩)
  rcases hr' : ofPiece? piece' with _ | r'
  · rw [hr'] at hread'
    obtain _ | ⟨-, hslash'⟩ | _ := hread'
    rw [cut_eq_none.mpr hslash'] at hcut
    cases hcut
  · rw [hr'] at hread'
    obtain _ | _ | ⟨-, hname', hslash', hparameters', -⟩ := hread'
    rw [cut_eq_some.mpr ⟨hname', hslash'⟩] at hcut
    cases hcut
    refine ⟨r', rfl, htype, hsubtype, ?_⟩
    rw [hparameters, hparameters']
    exact h.parameters

end MediaRange

namespace Header

/-- The header with its pieces broadened one by one, in any order and among further ones. -/
def Broadened (header header' : Text) : Prop :=
  ∃ ps, List.Forall₂ MediaRange.BroaderPiece (pieces header) ps ∧ ps.Subperm (pieces header')

variable {header header' : Text}

lemma Broadened.ne_nil (h : Broadened header header') (hne : header ≠ []) : header' ≠ [] := by
  obtain ⟨ps, hpieces, hsub⟩ := h
  have hlength : 0 < (pieces header).length := List.length_pos_iff.mpr (pieces_ne_nil.mpr hne)
  rw [hpieces.length_eq] at hlength
  exact pieces_ne_nil.mp (List.ne_nil_of_length_pos (Nat.lt_of_lt_of_le hlength hsub.length_le))

lemma Broadened.exists_broader (h : Broadened header header') (hw : WellFormed header)
    (hw' : WellFormed header') {r : MediaRange} (hr : r ∈ valid header) :
    ∃ r' ∈ valid header', r.Broader r' := by
  obtain ⟨ps, hpieces, hsub⟩ := h
  obtain ⟨piece, hpiece, hr⟩ := List.mem_filterMap.mp hr
  obtain ⟨piece', hpiece', hbroader⟩ := exists_mem_of_forall₂ hpieces hpiece
  have hmem := hsub.subset hpiece'
  obtain ⟨r', hr', hb⟩ := hbroader.exists_broader (hw piece hpiece) (hw' piece' hmem) hr
  exact ⟨r', List.mem_filterMap.mpr ⟨piece', hmem, hr'⟩, hb⟩

end Header

open Header

namespace Negotiator

variable {α : Type}

/-- **Broadening never makes a header unacceptable**, for a server that matches parameters exactly
and takes headers literally. A broader range covers what it covered, and what is covered may lose
parameters. A header without a fault that is not empty and is answered with a value is so after its
pieces have been broadened, with any finite qualities, in any order and among further pieces. -/
theorem negotiate_broadened (n : Negotiator α) :
    (∀ r r' t, MediaRange.Broader r r' → r.covers .exact t = true → r'.covers .exact t = true) ∧
    (∀ (r : MediaRange) t t', ContentType.Fewer t t' → r.covers .exact t = true →
      r.covers .exact t' = true) ∧
    ∀ header header', header ≠ [] → WellFormed header → WellFormed header' →
      Broadened header header' →
      let s := (n.withLiteral true).withMatching .exact
      (∃ value, s.negotiate header = .ok (some value)) →
        ∃ value, s.negotiate header' = .ok (some value) := by
  refine ⟨fun r r' t hr => MediaRange.covers_mono hr (.refl t),
    fun r t t' ht => MediaRange.covers_mono (.refl r) ht, fun header header' hne hw hw' hb => ?_⟩
  intro s
  rw [exists_negotiate_iff (not_acceptsAnything_literal hne) hw,
    exists_negotiate_iff (not_acceptsAnything_literal (hb.ne_nil hne)) hw']
  rintro ⟨r, hr, t, ht, hcovers⟩
  obtain ⟨r', hr', hbroader⟩ := hb.exists_broader hw hw' hr
  exact ⟨r', hr', t, ht, MediaRange.covers_mono hbroader (.refl t) hcovers⟩

/-- A range for all types states one parameter less, and a content type has one parameter less. In a
header a range becomes one for all subtypes, loses a parameter, gets a negative quality and moves
behind a range that nothing is supported for. -/
theorem negotiate_broadened_behind :
    MediaRange.covers ⟨" *".toList, ['b'], ["z=3".toList], .one⟩ .exact
      ⟨['a'], ['b'], [⟨['x'], ['1']⟩]⟩ = true ∧
    MediaRange.covers ⟨['a'], ['b'], ["x=1".toList], .one⟩ .exact
      ⟨['a'], ['b'], [⟨['y'], ['2']⟩]⟩ = true ∧
    ∃ n, ofList id ["a/b;x=1;y=2".toList] = .ok n ∧
      ∃ value, ((n.withLiteral true).withMatching .exact).negotiate
        "e/f;q=.1,a/ *\t;q=.5;y=2;Q=-3,c/d".toList = .ok (some value) := by
  let n₀ : Negotiator Text := ⟨[(⟨['a'], ['b'], [⟨['x'], ['1']⟩, ⟨['y'], ['2']⟩]⟩,
    "a/b;x=1;y=2".toList)], by simp, {}⟩
  have hbroader : MediaRange.BroaderPiece "a/b;x=\"1\";q=1;y=2".toList
      "a/ *\t;q=.5;y=2;Q=-3".toList := by
    refine ⟨fun type subtype hcut => ?_, by decide⟩
    have hnames : cut '/' (split ';' "a/b;x=\"1\";q=1;y=2".toList).1 = some (['a'], ['b']) := by
      decide
    rw [hnames] at hcut
    cases hcut
    exact ⟨['a'], " *\t".toList, by decide, .inl rfl, .inr (by decide)⟩
  have hb : Broadened "c/d,a/b;x=\"1\";q=1;y=2".toList
      "e/f;q=.1,a/ *\t;q=.5;y=2;Q=-3,c/d".toList :=
    ⟨["c/d".toList, "a/ *\t;q=.5;y=2;Q=-3".toList],
      .cons (.refl _) (.cons hbroader .nil), by decide⟩
  have hvalue : ∃ value, ((n₀.withLiteral true).withMatching .exact).negotiate
      "c/d,a/b;x=\"1\";q=1;y=2".toList = .ok (some value) := by
    rw [exists_negotiate_iff (not_acceptsAnything_literal (by decide)) (by decide +kernel)]
    decide +kernel
  obtain ⟨hrange, htype, hheader⟩ := negotiate_broadened n₀
  refine ⟨?_, ?_, n₀, rfl, ?_⟩
  · exact hrange ⟨['a'], ['b'], ["x=1".toList, "z=3".toList], .one⟩ _ _
      ⟨.inr (by decide), .inl rfl, by decide⟩ (by decide)
  · exact htype _ ⟨['a'], ['b'], [⟨['x'], ['1']⟩, ⟨['y'], ['2']⟩]⟩ _
      ⟨rfl, rfl, by decide⟩ (by decide)
  · exact hheader _ _ (by decide) (by decide +kernel) (by decide +kernel) hb hvalue

/-- The empty header accepts everything, and no longer does so with a range that nothing is
supported for. -/
theorem negotiate_empty_broadened :
    ∃ n, ofList id ["a/b".toList] = .ok n ∧
      WellFormed [] ∧ "x/y".toList ≠ [] ∧ WellFormed "x/y".toList ∧ Broadened [] "x/y".toList ∧
      ((n.withLiteral true).withMatching .exact).negotiate [] = .ok (some "a/b".toList) ∧
      ((n.withLiteral true).withMatching .exact).negotiate "x/y".toList = .ok none := by
  let n₀ : Negotiator Text := ⟨[(⟨['a'], ['b'], []⟩, "a/b".toList)], by simp, {}⟩
  have hb : Broadened [] "x/y".toList := ⟨[], .nil, by decide⟩
  refine ⟨n₀, rfl, by decide, by decide, by decide, hb, negotiate_anything _ (.inl rfl), ?_⟩
  refine (negotiate_eq_none (not_acceptsAnything_literal (by decide)) (by decide)).mpr ?_
  decide +kernel

end Negotiator

end ContentNegotiation
