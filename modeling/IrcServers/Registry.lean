import Mathlib.Data.List.Basic

/-!
# Registries

Entries are created under a name and stay, one behind the other; all start with the
same value, and the values are written from time to time.  What stands in a registry
is determined by its history: which entries there are by the creations
(`names_replay`), and what an entry holds by the writes since its own
(`mem_replay_iff`).
-/

namespace Registry

variable {ν β : Type*}

/-- What happens to a registry. -/
inductive Event (ν β : Type*) where
  | create (n : ν)
  | write (n : ν) (f : β → β)

/-- The entries after an event. -/
def apply [DecidableEq ν] (fresh : β) (rows : List (ν × β)) : Event ν β → List (ν × β)
  | .create n => rows ++ [(n, fresh)]
  | .write n f => rows.map fun row => if row.1 = n then (row.1, f row.2) else row

/-- The entries after a history, from given ones on. -/
def replay [DecidableEq ν] (fresh : β) (events : List (Event ν β)) (rows : List (ν × β)) :
    List (ν × β) := events.foldl (apply fresh) rows

/-- The names of the entries that are created, in order. -/
def created : List (Event ν β) → List ν
  | [] => []
  | .create n :: events => n :: created events
  | .write _ _ :: events => created events

/-- What the writes to `n` make of a value. -/
def written [DecidableEq ν] (n : ν) : List (Event ν β) → β → β
  | [], value => value
  | .write m f :: events, value => written n events (if m = n then f value else value)
  | .create _ :: events, value => written n events value

section Replay

variable [DecidableEq ν] {fresh value : β} {n : ν} {events : List (Event ν β)}
  {rows : List (ν × β)}

/-- Writing changes no name. -/
theorem names_apply_write (f : β → β) :
    (apply fresh rows (.write n f)).map Prod.fst = rows.map Prod.fst := by
  unfold apply
  rw [List.map_map]
  refine List.map_congr_left fun row _ => ?_
  rw [Function.comp_apply]
  split <;> rfl

/-- **The entries** are those there were and those created since, in order. -/
theorem names_replay :
    (replay fresh events rows).map Prod.fst = rows.map Prod.fst ++ created events := by
  induction events generalizing rows with
  | nil => exact (List.append_nil _).symm
  | cons event events ih =>
      rw [replay, List.foldl_cons, ← replay, ih]
      cases event with
      | create n => simp [apply, created]
      | write n f => rw [names_apply_write, created]

/-- After a write, the row of that name has the new value and the others their old one.
-/
theorem mem_apply_write {m : ν} {f : β → β} :
    (n, value) ∈ apply fresh rows (.write m f) ↔
      ∃ old, (n, old) ∈ rows ∧ value = if m = n then f old else old := by
  simp only [apply, List.mem_map, Prod.exists]
  constructor
  · rintro ⟨n', old, hold, heq⟩
    by_cases hn : n' = m
    · rw [if_pos hn] at heq
      obtain ⟨rfl, rfl⟩ := Prod.mk.inj heq
      exact ⟨old, hold, (if_pos hn.symm).symm⟩
    · rw [if_neg hn] at heq
      obtain ⟨rfl, rfl⟩ := Prod.mk.inj heq
      exact ⟨old, hold, (if_neg (Ne.symm hn)).symm⟩
  · rintro ⟨old, hold, rfl⟩
    refine ⟨n, old, hold, ?_⟩
    by_cases hn : n = m
    · rw [if_pos hn, if_pos hn.symm]
    · rw [if_neg hn, if_neg (Ne.symm hn)]

/-- **The values.**  An entry holds what the writes made of the value it had, or, if
it was created since, what the writes after that made of the first value. -/
theorem mem_replay_iff :
    (n, value) ∈ replay fresh events rows ↔
      (∃ old, (n, old) ∈ rows ∧ value = written n events old) ∨
        ∃ before after, events = before ++ .create n :: after ∧
          value = written n after fresh := by
  induction events generalizing rows with
  | nil => simp [replay, written]
  | cons event events ih =>
      have hlater : (∃ before after, event :: events = before ++ .create n :: after ∧
            value = written n after fresh) ↔
          (event = .create n ∧ value = written n events fresh) ∨
            ∃ before after, events = before ++ .create n :: after ∧
              value = written n after fresh := by
        constructor
        · rintro ⟨before, after, heq, hvalue⟩
          cases before with
          | nil =>
              obtain ⟨rfl, rfl⟩ := List.cons.inj heq
              exact Or.inl ⟨rfl, hvalue⟩
          | cons first before =>
              obtain ⟨-, rfl⟩ := List.cons.inj heq
              exact Or.inr ⟨before, after, rfl, hvalue⟩
        · rintro (⟨rfl, hvalue⟩ | ⟨before, after, rfl, hvalue⟩)
          · exact ⟨[], events, rfl, hvalue⟩
          · exact ⟨event :: before, after, rfl, hvalue⟩
      rw [replay, List.foldl_cons, ← replay, ih, hlater, ← or_assoc]
      refine or_congr_left ?_
      cases event with
      | create m =>
          simp only [apply, written, List.mem_append, List.mem_singleton, Prod.mk.injEq,
            Event.create.injEq]
          constructor
          · rintro ⟨old, hold | ⟨rfl, rfl⟩, hvalue⟩
            · exact Or.inl ⟨old, hold, hvalue⟩
            · exact Or.inr ⟨rfl, hvalue⟩
          · rintro (⟨old, hold, hvalue⟩ | ⟨rfl, hvalue⟩)
            · exact ⟨old, Or.inl hold, hvalue⟩
            · exact ⟨fresh, Or.inr ⟨rfl, rfl⟩, hvalue⟩
      | write m f =>
          simp only [mem_apply_write, written, reduceCtorEq, false_and, or_false]
          constructor
          · rintro ⟨_, ⟨old, hold, rfl⟩, hvalue⟩
            exact ⟨old, hold, hvalue⟩
          · rintro ⟨old, hold, hvalue⟩
            exact ⟨_, ⟨old, hold, rfl⟩, hvalue⟩

end Replay

end Registry
