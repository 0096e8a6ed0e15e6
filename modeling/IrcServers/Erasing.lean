import IrcServers.While
import Mathlib.Data.List.Nodup

/-!
# Loops that erase the entry they stand on

A loop goes along a list by index and has the entry under the index erased
before the index goes on.  What followed the erased entry has moved under the
index, so the loop steps over it: every other entry is visited, and the list is
emptied only if it had at most one.

A program whose rounds do this to one of its lists is followed through a view
of its variables.
-/

namespace While

variable {α σ : Type*}

/-- Every other entry of a list, its first one included. -/
def everyOther : List α → List α
  | [] => []
  | [a] => [a]
  | a :: _ :: l => a :: everyOther l

/-- The first element stays, the second one is passed over. -/
theorem everyOther_cons (a : α) (l : List α) : everyOther (a :: l) = a :: everyOther l.tail := by
  cases l <;> rfl

/-- Only an empty list has no first element. -/
theorem everyOther_eq_nil {l : List α} : everyOther l = [] ↔ l = [] := by
  cases l <;> simp [everyOther_cons, everyOther]

/-- Behind the first element nothing is left of a list of one. -/
theorem everyOther_tail_eq_nil {l : List α} : everyOther l.tail = [] ↔ l.length ≤ 1 := by
  rw [everyOther_eq_nil, ← List.length_eq_zero_iff, List.length_tail]
  omega

/-- A list that is all visited is one with nothing stepped over. -/
theorem everyOther_of_length_le {l : List α} (h : l.length ≤ 1) : everyOther l = l := by
  match l, h with
  | [], _ => rfl
  | [_], _ => rfl

/-- The variables of such a loop: the index, the list, and what has been
visited. -/
structure Erasing (α : Type*) where
  i : Nat
  list : List α
  visited : List α

/-- One round: the entry under the index is erased, and the index goes on. -/
def Erasing.round (v : Erasing α) : Option (Erasing α) :=
  v.list[v.i]?.map fun a =>
    { i := v.i + 1, list := v.list.eraseIdx v.i, visited := v.visited ++ [a] }

/-- A round erases the element at the index and steps over the next one. -/
theorem Erasing.round_append (kept l visited : List α) (a : α) :
    round ⟨kept.length, kept ++ a :: l, visited⟩ =
      some ⟨kept.length + 1, kept ++ l, visited ++ [a]⟩ := by
  simp [round, List.eraseIdx_append_of_length_le]

/-- Beyond the end there is no round. -/
theorem Erasing.round_eq_none {v : Erasing α} (h : v.list.length ≤ v.i) : v.round = none := by
  simp [round, h]

/-- Where no entry stands twice, erasing an entry by its value is erasing it at
its index. -/
theorem Erasing.round_of_nodup [BEq α] [LawfulBEq α] {v : Erasing α} (h : v.list.Nodup) :
    v.round = v.list[v.i]?.map fun a =>
      { i := v.i + 1, list := v.list.erase a, visited := v.visited ++ [a] } := by
  unfold round
  cases ha : v.list[v.i]? with
  | none => rfl
  | some a =>
      obtain ⟨hi, rfl⟩ := List.getElem?_eq_some_iff.mp ha
      rw [Option.map_some, Option.map_some, h.erase_getElem v.i hi]

/-- **Every other entry.**  The loop ends; behind the entries it has passed it
visits the first entry, keeps the second, and so on. -/
theorem Erasing.ends (l kept visited : List α) :
    ∃ i, Ends round ⟨kept.length, kept ++ l, visited⟩
      ⟨i, kept ++ everyOther l.tail, visited ++ everyOther l⟩ := by
  induction l using everyOther.induct generalizing kept visited with
  | case1 =>
      refine ⟨kept.length, ?_⟩
      rw [List.tail_nil, everyOther, List.append_nil, List.append_nil]
      exact .stop (round_eq_none (Nat.le_refl _))
  | case2 a =>
      refine ⟨kept.length + 1, .round (round_append kept [] visited a) ?_⟩
      rw [List.tail_cons, everyOther, everyOther, List.append_nil]
      exact .stop (round_eq_none (Nat.le_succ _))
  | case3 a b l ih =>
      -- `b` comes to stand under the index `a` had, which is passed
      obtain ⟨i, hends⟩ := ih (kept ++ [b]) (visited ++ [a])
      refine ⟨i, .round (round_append kept (b :: l) visited a) ?_⟩
      rw [List.length_append, List.append_assoc, List.append_assoc, List.append_assoc] at hends
      rw [List.tail_cons, everyOther_cons b, everyOther]
      exact hends

/-- A loop whose rounds do to a view of its variables what `round` does leaves
the view with every other entry. -/
theorem exists_ends_of_view {body : σ → Option σ} (view : σ → Erasing α) (inv : σ → Prop)
    (hround : ∀ s, inv s → (body s).map view = (view s).round)
    (hkeep : ∀ s next, inv s → body s = some next → inv next)
    {s : σ} (hs : inv s) (hi : (view s).i = 0) (hvisited : (view s).visited = []) :
    ∃ t, Ends body s t ∧ inv t ∧ (view t).list = everyOther (view s).list.tail ∧
      (view t).visited = everyOther (view s).list := by
  have hstop : ∀ v u, view u = v ∧ inv u → v.round = none → body u = none := by
    rintro v u ⟨rfl, hu⟩ hnone
    rw [← hround u hu] at hnone
    exact Option.map_eq_none_iff.mp hnone
  have hnext : ∀ v u next, view u = v ∧ inv u → v.round = some next →
      ∃ next', body u = some next' ∧ view next' = next ∧ inv next' := by
    rintro v u next ⟨rfl, hu⟩ hsome
    rw [← hround u hu] at hsome
    obtain ⟨next', hbody, hview'⟩ := Option.map_eq_some_iff.mp hsome
    exact ⟨next', hbody, hview', hkeep u next' hu hbody⟩
  have hview : view s = ⟨0, (view s).list, []⟩ := by rw [← hi, ← hvisited]
  obtain ⟨i, hends⟩ := Erasing.ends (view s).list [] []
  obtain ⟨t, ht, hfinal, hinv⟩ := hends.simulates (fun v u => view u = v ∧ inv u) hstop hnext
    ⟨hview, hs⟩
  exact ⟨t, ht, hinv, congrArg Erasing.list hfinal, congrArg Erasing.visited hfinal⟩

end While
