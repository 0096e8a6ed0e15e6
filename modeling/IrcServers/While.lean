import Mathlib.Order.WellFounded

/-!
# Loops that run until their test fails

One round of a loop is a partial function on the loop's variables: `none` when
the test fails, and otherwise the variables after the body.  `Ends` is the
relation between the variables before the loop and those after it; a loop that
goes on for ever is related to nothing, so `Ends` says that the loop ends.

A loop ends when its rounds lower a measure with values in any well-founded
order.  Pairs of numbers serve for a loop that repeats a call until it succeeds.
-/

namespace While

variable {σ τ : Type*} {body : σ → Option σ}

/-- The loop, started with the variables `s`, ends with the variables `t`. -/
inductive Ends (body : σ → Option σ) : σ → σ → Prop
  | stop {s : σ} (htest : body s = none) : Ends body s s
  | round {s next t : σ} (hround : body s = some next) (rest : Ends body next t) :
      Ends body s t

/-- The test fails at the end. -/
theorem Ends.test {s t : σ} (h : Ends body s t) : body t = none := by
  induction h with
  | stop htest => exact htest
  | round hround rest ih => exact ih

/-- A loop ends in one way only. -/
theorem Ends.unique {s t t' : σ} (h : Ends body s t) (h' : Ends body s t') : t = t' := by
  induction h with
  | stop htest =>
      cases h' with
      | stop _ => rfl
      | round hround _ => simp [htest] at hround
  | round hround rest ih =>
      cases h' with
      | stop htest => simp [htest] at hround
      | round hround' rest' =>
          obtain rfl := Option.some.inj (hround.symm.trans hround')
          exact ih rest'

/-- **Total correctness.**  A loop whose rounds keep an invariant and lower a
measure ends, with the invariant. -/
theorem exists_ends {β : Type*} [LT β] [WellFoundedLT β] (inv : σ → Prop) (measure : σ → β)
    (hround : ∀ s next, inv s → body s = some next → inv next ∧ measure next < measure s)
    {s : σ} (hs : inv s) : ∃ t, Ends body s t ∧ inv t := by
  induction hn : measure s using WellFoundedLT.induction generalizing s with
  | ind n ih =>
      cases hbody : body s with
      | none => exact ⟨s, .stop hbody, hs⟩
      | some next =>
          obtain ⟨hnext, hless⟩ := hround s next hs hbody
          obtain ⟨t, hends, ht⟩ := ih (measure next) (hn ▸ hless) hnext rfl
          exact ⟨t, .round hbody hends, ht⟩

/-- A loop simulated by another one, round by round, ends as the other does. -/
theorem Ends.simulates {body' : τ → Option τ} (related : σ → τ → Prop)
    (hstop : ∀ s u, related s u → body s = none → body' u = none)
    (hround : ∀ s u next, related s u → body s = some next →
      ∃ next', body' u = some next' ∧ related next next')
    {s t : σ} {u : τ} (h : Ends body s t) (hs : related s u) :
    ∃ v, Ends body' u v ∧ related t v := by
  induction h generalizing u with
  | stop htest => exact ⟨u, .stop (hstop _ u hs htest), hs⟩
  | round hbody rest ih =>
      obtain ⟨next', hbody', hnext⟩ := hround _ u _ hs hbody
      obtain ⟨v, hends, ht⟩ := ih hnext
      exact ⟨v, .round hbody' hends, ht⟩

/-- At most so many rounds of a loop. -/
def rounds (body : σ → Option σ) : Nat → σ → σ
  | 0, s => s
  | n + 1, s =>
      match body s with
      | none => s
      | some next => rounds body n next

/-- Enough rounds are the whole loop. -/
theorem ends_of_rounds {n : Nat} {s : σ} (h : body (rounds body n s) = none) :
    Ends body s (rounds body n s) := by
  induction n generalizing s with
  | zero => exact .stop h
  | succ n ih =>
      cases hbody : body s with
      | none =>
          simp only [rounds, hbody]
          exact .stop hbody
      | some next =>
          simp only [rounds, hbody] at h ⊢
          exact .round hbody (ih h)

end While
