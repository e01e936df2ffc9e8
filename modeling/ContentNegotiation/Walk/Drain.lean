import ContentNegotiation.Walk.Basic

/-!
Walking to the end.

Every range that is produced uses up some of the header or one of the ranges kept, so a walk ends.
-/

namespace ContentNegotiation

/-- A number that every produced range makes smaller. -/
def Stage.bound : Stage → Nat
  | .reading rest kept => rest.length + kept.length
  | .replaying pending => pending.length

/-- Where reading on stops, less is left of the header and of the ranges kept taken together. -/
theorem bound_readOn (fits : MediaRange → Bool) (rest : Text) (kept : List MediaRange) :
    match readOn fits rest kept with
    | .top _ rest' kept' => rest'.length + kept'.length < rest.length + kept.length
    | .ended kept' => kept'.length ≤ rest.length + kept.length
    | .failed _ rest' kept' => rest'.length + kept'.length ≤ rest.length + kept.length := by
  have hinsert : ∀ r kept, (insertByQuality r kept).length = kept.length + 1 := by
    intro r kept
    fun_induction insertByQuality r kept with
    | case1 => rfl
    | case2 => rfl
    | case3 s kept hlt ih => rw [List.length_cons, ih, List.length_cons]
  fun_induction readOn fits rest kept with
  | case1 => simp
  | case2 => simp
  | case3 rest kept hne rest' h ih =>
    have := MediaRange.length_lt_of_read h hne
    split <;> simp_all <;> omega
  | case4 rest kept hne r rest' h =>
    have := MediaRange.length_lt_of_read h hne
    simpa using this
  | case5 rest kept hne r rest' h _ ih =>
    have := MediaRange.length_lt_of_read h hne
    have hk : (if fits r then insertByQuality r kept else kept).length ≤ kept.length + 1 := by
      split <;> simp [hinsert]
    split <;> simp_all <;> omega

namespace Walk

theorem bound_advance {w w' : Walk} (h : w.advance = (.ok true, w')) :
    w'.stage.bound < w.stage.bound := by
  have replayed : ∀ pending, w.replay pending = (.ok true, w') →
      w'.stage.bound < pending.length := by
    intro pending h
    cases pending with
    | nil => simp [replay] at h
    | cons r pending =>
      simp only [replay, Prod.mk.injEq, true_and] at h
      simp [← h, Stage.bound]
  rw [advance] at h
  split at h
  · next rest kept hs =>
    have hb := bound_readOn (·.coversAll w.matching w.filters) rest kept
    rw [hs, Stage.bound]
    split at h
    · next heq =>
      rw [heq] at hb
      simp only [Prod.mk.injEq, true_and] at h
      simpa [← h, Stage.bound] using hb
    · next heq =>
      rw [heq] at hb
      exact Nat.lt_of_lt_of_le (replayed _ h) hb
    · simp at h
  · next pending hs =>
    rw [hs, Stage.bound]
    exact replayed _ h

structure Remainder where
  ranges : List MediaRange
  failure : Option Error
  walk : Walk

/-- Walks to the end, or to the first error. -/
def drain (w : Walk) : Remainder :=
  match _ : w.advance with
  | (.error e, w') => { ranges := [], failure := some e, walk := w' }
  | (.ok false, w') => { ranges := [], failure := none, walk := w' }
  | (.ok true, w') =>
    let remainder := drain w'
    { remainder with ranges := w'.current.toList ++ remainder.ranges }
termination_by w.stage.bound
decreasing_by exact bound_advance ‹_›

/-- All ranges of the walk from the latest on, and the error that ends it, if any. -/
def all (w : Walk) : List MediaRange × Option Error :=
  if w.hasRange then
    let remainder := w.drain
    (w.current.toList ++ remainder.ranges, remainder.failure)
  else ([], none)

end Walk

end ContentNegotiation
