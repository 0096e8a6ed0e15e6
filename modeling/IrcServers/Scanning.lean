import Mathlib.Data.List.Nodup
import IrcServers.Run

/-!
# Scanning a table that changes

A loop goes through a table by index.  A round marks the entries that want to be
served and then looks at them one after the other; serving one may take entries
out of the table, and new ones are put, without a mark, at its end.  When an
entry goes, all those behind it move up by one, and if the index has reached it
the next one is passed over.

Nothing marked is lost by this.  In every round the served are some of the
marked, in the order of the table (`served_sublist`), and each time an entry is
passed over it moves up: a marked entry that stays is passed over in at most as
many rounds as there are entries before it (`marks_le`).
-/

namespace Scanning

variable {κ : Type*} [DecidableEq κ]

/-- The table, with the mark of each entry, and the index of the entry the loop
looks at next. -/
structure Scan (κ : Type*) where
  entries : List (κ × Bool)
  index : Nat

/-- What happens in such a loop: a new round begins, an entry without a mark is
passed by, a marked one is served, or the table changes. -/
inductive Event (κ : Type*) where
  | mark (marks : κ → Bool)
  | pass
  | serve (k : κ)
  | change (keeps : κ → Bool) (more : List κ)

namespace Scan

/-- The keys of the table. -/
def keys (s : Scan κ) : List κ := s.entries.map Prod.fst

/-- The marks of a new round. -/
def mark (s : Scan κ) (marks : κ → Bool) : Scan κ where
  entries := s.entries.map fun entry => (entry.1, marks entry.1)
  index := 0

/-- Entries go, and new ones come without a mark. -/
def change (s : Scan κ) (keeps : κ → Bool) (more : List κ) : Scan κ :=
  { s with
    entries := (s.entries.filter fun entry => keeps entry.1) ++ more.map fun k => (k, false) }

/-- The entry is marked, and the index has not come to it yet. -/
def Ahead (s : Scan κ) (k : κ) : Prop := (k, true) ∈ s.entries.drop s.index

instance (s : Scan κ) (k : κ) : Decidable (s.Ahead k) :=
  inferInstanceAs (Decidable ((k, true) ∈ s.entries.drop s.index))

omit [DecidableEq κ] in
/-- Marking changes no key. -/
@[simp] theorem keys_mark (s : Scan κ) (marks : κ → Bool) : (s.mark marks).keys = s.keys := by
  simp [keys, mark]

omit [DecidableEq κ] in
/-- A change of the list keeps some keys, and appends others. -/
@[simp] theorem keys_change (s : Scan κ) (keeps : κ → Bool) (more : List κ) :
    (s.change keeps more).keys = s.keys.filter keeps ++ more := by
  simp [keys, change, List.filter_map, Function.comp_def]

end Scan

/-- One event.  A round begins when the one before is over, and the keys of the
table stay distinct. -/
def step (s : Scan κ) : Event κ → Option (Scan κ)
  | .mark marks => if s.entries.length ≤ s.index then some (s.mark marks) else none
  | .pass =>
      match s.entries[s.index]? with
      | some (_, false) => some { s with index := s.index + 1 }
      | _ => none
  | .serve k =>
      if s.entries[s.index]? = some (k, true) then some { s with index := s.index + 1 } else none
  | .change keeps more =>
      if (s.change keeps more).keys.Nodup then some (s.change keeps more) else none

/-- The entries served. -/
def served : List (Event κ) → List κ
  | [] => []
  | .serve k :: events => k :: served events
  | .mark _ :: events | .pass :: events | .change _ _ :: events => served events

omit [DecidableEq κ] in
/-- Those served first, and then those served later. -/
theorem served_append (first second : List (Event κ)) :
    served (first ++ second) = served first ++ served second := by
  induction first with
  | nil => rfl
  | cons event first ih => cases event <;> simp [served, ih]

omit [DecidableEq κ] in
/-- Who is served has an event that says so. -/
theorem mem_served {k : κ} {events : List (Event κ)} :
    k ∈ served events ↔ .serve k ∈ events := by
  induction events with
  | nil => exact iff_of_false List.not_mem_nil List.not_mem_nil
  | cons event events ih => cases event <;> simp [served, ih]

/-- The rounds that begin with a mark for `k`. -/
def marksOf (k : κ) : List (Event κ) → Nat
  | [] => 0
  | .mark marks :: events => (if marks k then 1 else 0) + marksOf k events
  | .pass :: events | .serve _ :: events | .change _ _ :: events => marksOf k events

/-- No change takes `k` out of the table. -/
def Stays (k : κ) (events : List (Event κ)) : Prop :=
  ∀ keeps more, .change keeps more ∈ events → keeps k = true

/-- No round begins. -/
def SameRound (events : List (Event κ)) : Prop := ∀ marks, .mark marks ∉ events

omit [DecidableEq κ] in
/-- The marks are counted over both histories. -/
theorem marksOf_append (k : κ) (first second : List (Event κ)) :
    marksOf k (first ++ second) = marksOf k first + marksOf k second := by
  induction first with
  | nil => exact (Nat.zero_add _).symm
  | cons event first ih => cases event <;> simp [marksOf, ih, Nat.add_assoc]

variable {s next : Scan κ} {k : κ} {events : List (Event κ)}

omit [DecidableEq κ] in
/-- Who stays for all events stays for the later ones. -/
theorem Stays.tail {event : Event κ} (h : Stays k (event :: events)) : Stays k events :=
  fun keeps more hmem => h keeps more (List.mem_cons_of_mem _ hmem)

omit [DecidableEq κ] in
/-- A history within one round is so after its first event too. -/
theorem SameRound.tail {event : Event κ} (h : SameRound (event :: events)) : SameRound events :=
  fun marks hmem => h marks (List.mem_cons_of_mem _ hmem)

/-- The keys stay distinct. -/
theorem nodup_step {event : Event κ} (h : step s event = some next) (hs : s.keys.Nodup) :
    next.keys.Nodup := by
  cases event with
  | mark marks =>
      simp only [step] at h
      split at h
      · cases h
        simpa using hs
      · cases h
  | pass =>
      simp only [step] at h
      split at h
      · cases h
        exact hs
      · cases h
  | serve j =>
      simp only [step] at h
      split at h
      · cases h
        exact hs
      · cases h
  | change keeps more =>
      simp only [step] at h
      split at h
      · rename_i hnodup
        cases h
        exact hnodup
      · cases h

omit [DecidableEq κ] in
/-- An entry of the table, with those before it and behind it. -/
theorem exists_split (hs : s.keys.Nodup) (hk : k ∈ s.keys) :
    ∃ before marked behind, s.entries = before ++ (k, marked) :: behind ∧
      k ∉ before.map Prod.fst ∧ k ∉ behind.map Prod.fst := by
  obtain ⟨⟨j, marked⟩, hmem, rfl⟩ := List.mem_map.mp hk
  obtain ⟨before, behind, hsplit⟩ := List.append_of_mem hmem
  refine ⟨before, marked, behind, hsplit, ?_⟩
  rw [Scan.keys, hsplit, List.map_append, List.map_cons] at hs
  obtain ⟨-, hbehind, hapart⟩ := List.nodup_append.mp hs
  exact ⟨fun hin => hapart _ hin _ List.mem_cons_self rfl, (List.nodup_cons.mp hbehind).1⟩

/-- The place of an entry is the number of those before it. -/
theorem idxOf_split {before behind : List (κ × Bool)} {marked : Bool}
    (hbefore : k ∉ before.map Prod.fst) :
    ((before ++ (k, marked) :: behind).map Prod.fst).idxOf k = before.length := by
  rw [List.map_append, List.map_cons, List.idxOf_append_of_notMem hbefore, List.idxOf_cons_self,
    List.length_map, Nat.add_zero]

omit [DecidableEq κ] in
/-- A marked entry is ahead while the index is not past its place. -/
theorem mem_drop_split {before behind : List (κ × Bool)} {marked : Bool} {i : Nat}
    (hbefore : k ∉ before.map Prod.fst) (hbehind : k ∉ behind.map Prod.fst) :
    (k, true) ∈ (before ++ (k, marked) :: behind).drop i ↔ i ≤ before.length ∧ marked = true := by
  have hno : ∀ {l : List (κ × Bool)}, k ∉ l.map Prod.fst → (k, true) ∉ l := fun hl hin =>
    hl (List.mem_map.mpr ⟨_, hin, rfl⟩)
  constructor
  · intro hin
    have hmarked : marked = true := by
      rcases List.mem_append.mp (List.mem_of_mem_drop hin) with hin | hin
      · exact (hno hbefore hin).elim
      · rcases List.mem_cons.mp hin with heq | hin
        · exact (Prod.mk.inj heq).2.symm
        · exact (hno hbehind hin).elim
    refine ⟨?_, hmarked⟩
    by_contra hlt
    obtain ⟨d, rfl⟩ : ∃ d, i = before.length + (d + 1) :=
      ⟨i - before.length - 1, by omega⟩
    rw [← List.drop_drop, List.drop_left, List.drop_succ_cons] at hin
    exact hno hbehind (List.mem_of_mem_drop hin)
  · intro h
    obtain ⟨hle, rfl⟩ := h
    rw [List.drop_append_of_le_length hle]
    exact List.mem_append_right _ List.mem_cons_self

/-- One event moves a waiting entry up, or leaves it where the index has not been;
only the mark of a new round changes this. -/
theorem step_waits {event : Event κ} (h : step s event = some next) (hs : s.keys.Nodup)
    (hk : k ∈ s.keys) (hserve : event ≠ .serve k)
    (hstays : ∀ keeps more, event = .change keeps more → keeps k = true) :
    k ∈ next.keys ∧
      marksOf k [event] + next.keys.idxOf k + (if s.Ahead k then 1 else 0) ≤
        s.keys.idxOf k + (if next.Ahead k then 1 else 0) := by
  cases event with
  | mark marks =>
      simp only [step] at h
      split at h
      · rename_i hover
        cases h
        have hnot : ¬ s.Ahead k := by simp [Scan.Ahead, List.drop_eq_nil_of_le hover]
        have hahead : (s.mark marks).Ahead k ↔ marks k = true := by
          obtain ⟨⟨j, marked⟩, hmem, rfl⟩ := List.mem_map.mp hk
          simp only [Scan.Ahead, Scan.mark, List.drop_zero, List.mem_map, Prod.mk.injEq]
          constructor
          · intro hin
            obtain ⟨entry, -, hkey, hmark⟩ := hin
            exact hkey ▸ hmark
          · intro hmark
            exact ⟨_, hmem, rfl, hmark⟩
        refine ⟨by simpa using hk, ?_⟩
        simp only [marksOf, Scan.keys_mark, hahead, if_neg hnot]
        omega
      · cases h
  | pass =>
      simp only [step] at h
      split at h
      · rename_i j hentry
        cases h
        obtain ⟨hlt, hget⟩ := List.getElem?_eq_some_iff.mp hentry
        have hahead : ({ s with index := s.index + 1 } : Scan κ).Ahead k ↔ s.Ahead k := by
          simp [Scan.Ahead, List.drop_eq_getElem_cons hlt, hget]
        refine ⟨hk, ?_⟩
        simp only [marksOf, hahead]
        exact Nat.le_of_eq (by rw [Nat.zero_add]; rfl)
      · cases h
  | serve j =>
      simp only [step] at h
      split at h
      · rename_i hentry
        cases h
        obtain ⟨hlt, hget⟩ := List.getElem?_eq_some_iff.mp hentry
        have hne : k ≠ j := fun heq => hserve (heq ▸ rfl)
        have hahead : ({ s with index := s.index + 1 } : Scan κ).Ahead k ↔ s.Ahead k := by
          simp [Scan.Ahead, List.drop_eq_getElem_cons hlt, hget, hne]
        refine ⟨hk, ?_⟩
        simp only [marksOf, hahead]
        exact Nat.le_of_eq (by rw [Nat.zero_add]; rfl)
      · cases h
  | change keeps more =>
      have hkept := hstays keeps more rfl
      have hnodup := nodup_step h hs
      simp only [step] at h
      split at h
      · cases h
        have hnext : k ∈ (s.change keeps more).keys := by
          rw [Scan.keys_change]
          exact List.mem_append_left _ (List.mem_filter.mpr ⟨hk, hkept⟩)
        refine ⟨hnext, ?_⟩
        obtain ⟨before, marked, behind, hsplit, hbefore, hbehind⟩ := exists_split hs hk
        have hentries : (s.change keeps more).entries =
            before.filter (fun entry => keeps entry.1) ++ (k, marked) ::
              (behind.filter (fun entry => keeps entry.1) ++ more.map fun j => (j, false)) := by
          simp [Scan.change, hsplit, hkept]
        have hkbefore : k ∉ (before.filter fun entry => keeps entry.1).map Prod.fst := fun hin =>
          hbefore (List.map_subset _ (List.filter_subset_self _) hin)
        rw [Scan.keys, hentries, List.map_append, List.map_cons] at hnodup
        obtain ⟨-, hrest, -⟩ := List.nodup_append.mp hnodup
        have hkbehind := (List.nodup_cons.mp hrest).1
        have hplace : s.keys.idxOf k = before.length := by
          rw [Scan.keys, hsplit, idxOf_split hbefore]
        have hplace' : (s.change keeps more).keys.idxOf k =
            (before.filter fun entry => keeps entry.1).length := by
          rw [Scan.keys, hentries, idxOf_split hkbefore]
        have hahead : s.Ahead k ↔ s.index ≤ before.length ∧ marked = true := by
          rw [Scan.Ahead, hsplit, mem_drop_split hbefore hbehind]
        have hahead' : (s.change keeps more).Ahead k ↔
            s.index ≤ (before.filter fun entry => keeps entry.1).length ∧ marked = true := by
          rw [Scan.Ahead, hentries]
          exact mem_drop_split hkbefore hkbehind
        have hle := List.length_filter_le (fun entry : κ × Bool => keeps entry.1) before
        -- either the place is the same, and the index is not past it, or it is smaller
        simp only [marksOf, hplace, hplace', hahead, hahead']
        cases marked <;> simp only [and_true, and_false, if_false, Bool.false_eq_true] <;> grind
      · cases h

/-- **Waiting.**  While an entry stays in the table without being served, every
round that begins with a mark for it finds it further up. -/
theorem waits (h : Run.perform step events s = some next) (hs : s.keys.Nodup) (hk : k ∈ s.keys)
    (hserve : .serve k ∉ events) (hstays : Stays k events) :
    marksOf k events + next.keys.idxOf k + (if s.Ahead k then 1 else 0) ≤
      s.keys.idxOf k + (if next.Ahead k then 1 else 0) := by
  induction events generalizing s with
  | nil =>
      obtain rfl : s = next := by simpa [Run.perform] using h
      simp [marksOf]
  | cons event events ih =>
      obtain ⟨middle, hstep, hrest⟩ := Option.bind_eq_some_iff.mp h
      obtain ⟨hnot, hnone⟩ := not_or.mp (mt List.mem_cons.mpr hserve)
      obtain ⟨hmiddle, hfirst⟩ := step_waits hstep hs hk (Ne.symm hnot) fun keeps more heq =>
        hstays keeps more (heq ▸ List.mem_cons_self)
      have hlater := ih hrest (nodup_step hstep hs) hmiddle hnone hstays.tail
      have hsum : marksOf k (event :: events) = marksOf k [event] + marksOf k events :=
        marksOf_append k [event] events
      omega

/-- **Bounded waiting.**  A marked entry that stays is passed over in at most as
many rounds as there are entries before it. -/
theorem marks_le (h : Run.perform step events s = some next) (hs : s.keys.Nodup) (hk : k ∈ s.keys)
    (hserve : .serve k ∉ events) (hstays : Stays k events) :
    marksOf k events ≤ s.keys.idxOf k + 1 := by
  have hwaits := waits h hs hk hserve hstays
  have hbit : (if next.Ahead k then 1 else 0) ≤ 1 := by
    split
    · exact Nat.le_refl 1
    · exact Nat.zero_le 1
  omega

/-- Those still to be served when the index goes on from here. -/
def Scan.ahead (s : Scan κ) : List κ :=
  ((s.entries.drop s.index).filter fun entry => entry.2).map Prod.fst

omit [DecidableEq κ] in
/-- What a change leaves ahead was ahead before. -/
theorem ahead_change (s : Scan κ) (keeps : κ → Bool) (more : List κ) :
    List.Sublist (s.change keeps more).ahead s.ahead := by
  have hnew : ∀ i, ((more.map fun k => (k, false)).drop i).filter (fun entry => entry.2) = [] := by
    intro i
    rw [List.filter_eq_nil_iff]
    intro entry hin
    obtain ⟨k, -, rfl⟩ := List.mem_map.mp (List.mem_of_mem_drop hin)
    simp
  have hsplit : (s.change keeps more).ahead =
      (((s.entries.filter fun entry => keeps entry.1).drop s.index).filter
        fun entry => entry.2).map Prod.fst := by
    simp only [Scan.ahead, Scan.change, List.drop_append, List.filter_append, hnew,
      List.append_nil]
  rw [hsplit]
  refine (List.Sublist.filter _ ?_).map _
  have hparts : s.entries.filter (fun entry => keeps entry.1) =
      (s.entries.take s.index).filter (fun entry => keeps entry.1) ++
        (s.entries.drop s.index).filter fun entry => keeps entry.1 := by
    rw [← List.filter_append, List.take_append_drop]
  have hshort : ((s.entries.take s.index).filter fun entry => keeps entry.1).length ≤ s.index :=
    Nat.le_trans (List.length_filter_le _ _) (List.length_take_le _ _)
  rw [hparts, List.drop_append, List.drop_eq_nil_of_le hshort, List.nil_append]
  exact (List.drop_sublist _ _).trans List.filter_sublist

/-- One event of a round, by what is served and what is still ahead. -/
theorem step_ahead {event : Event κ} (h : step s event = some next)
    (hround : ∀ marks, event ≠ .mark marks) :
    List.Sublist (served [event] ++ next.ahead) s.ahead := by
  cases event with
  | mark marks => exact (hround marks rfl).elim
  | pass =>
      simp only [step] at h
      split at h
      · rename_i j hentry
        cases h
        obtain ⟨hlt, hget⟩ := List.getElem?_eq_some_iff.mp hentry
        simp [served, Scan.ahead, List.drop_eq_getElem_cons hlt, hget]
      · cases h
  | serve j =>
      simp only [step] at h
      split at h
      · rename_i hentry
        cases h
        obtain ⟨hlt, hget⟩ := List.getElem?_eq_some_iff.mp hentry
        simp [served, Scan.ahead, List.drop_eq_getElem_cons hlt, hget]
      · cases h
  | change keeps more =>
      simp only [step] at h
      split at h
      · cases h
        exact ahead_change s keeps more
      · cases h

/-- **The order of a round.**  What is served in the rest of a round are some of
those still marked, each once and in the order of the table. -/
theorem served_sublist (h : Run.perform step events s = some next) (hround : SameRound events) :
    List.Sublist (served events ++ next.ahead) s.ahead := by
  induction events generalizing s with
  | nil =>
      obtain rfl : s = next := by simpa [Run.perform] using h
      exact List.Sublist.refl _
  | cons event events ih =>
      obtain ⟨middle, hstep, hrest⟩ := Option.bind_eq_some_iff.mp h
      have hfirst := step_ahead hstep fun marks heq => hround marks (heq ▸ List.mem_cons_self)
      have hlater := ih hrest hround.tail
      have hsum : served (event :: events) = served [event] ++ served events :=
        served_append [event] events
      rw [hsum, List.append_assoc]
      exact ((List.Sublist.refl _).append hlater).trans hfirst

/-- The first entries of the table stay the first while none of them goes. -/
theorem prefix_stays {first : List κ} (h : Run.perform step events s = some next)
    (hfirst : first <+: s.keys) (hstay : ∀ j ∈ first, Stays j events) : first <+: next.keys := by
  induction events generalizing s with
  | nil =>
      obtain rfl : s = next := by simpa [Run.perform] using h
      exact hfirst
  | cons event events ih =>
      obtain ⟨middle, hstep, hrest⟩ := Option.bind_eq_some_iff.mp h
      refine ih hrest ?_ fun j hj => (hstay j hj).tail
      cases event with
      | mark marks =>
          simp only [step] at hstep
          split at hstep
          · cases hstep
            simpa using hfirst
          · cases hstep
      | pass =>
          simp only [step] at hstep
          split at hstep
          · cases hstep
            exact hfirst
          · cases hstep
      | serve j =>
          simp only [step] at hstep
          split at hstep
          · cases hstep
            exact hfirst
          · cases hstep
      | change keeps more =>
          simp only [step] at hstep
          split at hstep
          · cases hstep
            have hkept : first.filter keeps = first := List.filter_eq_self.mpr fun j hj =>
              hstay j hj keeps more List.mem_cons_self
            rw [Scan.keys_change]
            exact (hkept ▸ hfirst.filter keeps).trans (List.prefix_append _ _)
          · cases hstep

/-- **A round that loses nobody in front.**  By the end of a round an entry that was
marked at its beginning is served, if it and those before it stay. -/
theorem served_of_stay {first : List κ} {marks : κ → Bool}
    (h : Run.perform step (.mark marks :: events) s = some next) (hs : s.keys.Nodup)
    (hfirst : first ++ [k] <+: s.keys) (hmarked : marks k = true)
    (hover : next.entries.length ≤ next.index)
    (hstay : ∀ j ∈ first ++ [k], Stays j events) : .serve k ∈ events := by
  have hround : ∀ j ∈ first ++ [k], Stays j (.mark marks :: events) := by
    intro j hj keeps more hmem
    exact hstay j hj keeps more (by simpa using hmem)
  have hlast := prefix_stays h hfirst hround
  have hk : k ∈ s.keys := hfirst.subset (List.mem_append_right _ List.mem_cons_self)
  have hnodup : (first ++ [k]).Nodup := hs.sublist hfirst.sublist
  have hapart : k ∉ first := fun hin =>
    (List.nodup_append.mp hnodup).2.2 k hin k List.mem_cons_self rfl
  have hplace : ∀ {keys : List κ}, first ++ [k] <+: keys → keys.idxOf k = first.length := by
    intro keys hpre
    obtain ⟨rest, rfl⟩ := hpre
    rw [List.append_assoc, List.idxOf_append_of_notMem hapart, List.singleton_append,
      List.idxOf_cons_self, Nat.add_zero]
  by_contra hnot
  have hwaits := waits h hs hk (by simpa using hnot)
    (hround k (List.mem_append_right _ List.mem_cons_self))
  have hpassed : ¬ next.Ahead k := by simp [Scan.Ahead, List.drop_eq_nil_of_le hover]
  rw [hplace hfirst, hplace hlast, if_neg hpassed] at hwaits
  simp only [marksOf, hmarked, if_true] at hwaits
  omega

end Scanning
