import Mathlib.Data.List.Induction
import Mathlib.Data.List.Nodup
import Mathlib.Logic.Function.Basic
import IrcServers.Run

/-!
# Rooms

Parties enter rooms and leave them.  A room opens for the first who enters it, with
the data that one brings, and is gone with the last who leaves.  Whoever comes later
is let in if the room admits what he brings.  In between, the data may be written.

The state of the rooms is determined by their history, and can be read off it.  The
members of a room are those who have entered and not left since, in the order of
entering (`members_eq_standing`); its data are those of the one who opened it, with
the writes since (`exists_opening`); and what the members brought still fits the data
if no write breaks that (`fits_of_member`).
-/

namespace Rooms

variable {ν π β : Type*}

/-- What happens to the rooms. -/
inductive Event (ν π β : Type*) where
  | enter (n : ν) (p : π) (brought : β)
  | leave (n : ν) (p : π)
  | write (n : ν) (f : β → β)

/-- An open room: who is in it, in the order of entering, and its data.  Nobody is in
it twice, and an empty room is not kept. -/
@[ext] structure Room (π β : Type*) where
  members : List π
  data : β
  nodup : members.Nodup
  occupied : members ≠ []

/-- The open rooms by name. -/
abbrev State (ν π β : Type*) := ν → Option (Room π β)

namespace Room

/-- A room with the one who opens it. -/
def opened (p : π) (data : β) : Room π β where
  members := [p]
  data := data
  nodup := List.nodup_singleton p
  occupied := List.cons_ne_nil p []

/-- Another one enters. -/
def enter (r : Room π β) (p : π) (hnew : p ∉ r.members) : Room π β where
  members := r.members ++ [p]
  data := r.data
  nodup := List.nodup_append.mpr ⟨r.nodup, List.nodup_singleton p, fun _ hq _ hx heq =>
    hnew (List.mem_singleton.mp hx ▸ heq ▸ hq)⟩
  occupied := List.append_ne_nil_of_right_ne_nil _ (List.cons_ne_nil p [])

/-- Somebody leaves, if he is there. -/
def leave [DecidableEq π] (r : Room π β) (p : π) : Option (Room π β) :=
  if hgone : r.members.erase p = [] then none
  else some ⟨r.members.erase p, r.data, r.nodup.erase p, hgone⟩

/-- The data are written. -/
def write (r : Room π β) (f : β → β) : Room π β := { r with data := f r.data }

end Room

section Machine

variable [DecidableEq ν] [DecidableEq π] (admits : Room π β → β → Bool)

/-- One event.  Nobody enters a room he is in, or one that does not admit him. -/
def step (s : State ν π β) : Event ν π β → Option (State ν π β)
  | .enter n p brought =>
      match s n with
      | none => some (Function.update s n (some (.opened p brought)))
      | some r =>
          if hnew : p ∉ r.members then
            if admits r brought then some (Function.update s n (some (r.enter p hnew))) else none
          else none
  | .leave n p => some (Function.update s n ((s n).bind fun r => r.leave p))
  | .write n f => some (Function.update s n ((s n).map fun r => r.write f))

end Machine

/-- Who is in a room, nobody if it is not open. -/
def members (s : State ν π β) (n : ν) : List π := ((s n).map Room.members).getD []

/-- `p` leaves the room `n`. -/
def leaves [DecidableEq ν] [DecidableEq π] (n : ν) (p : π) : List (Event ν π β) → Bool
  | [] => false
  | .leave m q :: events => (m = n && q = p) || leaves n p events
  | .enter _ _ _ :: events | .write _ _ :: events => leaves n p events

/-- Who enters the room `n` and does not leave it afterwards, in the order of
entering. -/
def standing [DecidableEq ν] [DecidableEq π] (n : ν) : List (Event ν π β) → List π
  | [] => []
  | .enter m p _ :: events =>
      if m = n ∧ leaves n p events = false then p :: standing n events else standing n events
  | .leave _ _ :: events | .write _ _ :: events => standing n events

/-- What the writes to the room `n` make of its data. -/
def written [DecidableEq ν] (n : ν) : List (Event ν π β) → β → β
  | [], data => data
  | .write m f :: events, data => written n events (if m = n then f data else data)
  | .enter _ _ _ :: events, data | .leave _ _ :: events, data => written n events data

section History

variable [DecidableEq ν] [DecidableEq π] {admits : Room π β → β → Bool} {s next : State ν π β}
  {n : ν} {p : π} {events : List (Event ν π β)}

/-- What one event does to the room `n`. -/
inductive Changes (admits : Room π β → β → Bool) (n : ν) (s next : State ν π β) :
    Event ν π β → Prop
  | opened (p : π) (brought : β) (hclosed : s n = none)
      (hnext : next n = some (.opened p brought)) : Changes admits n s next (.enter n p brought)
  | entered (p : π) (brought : β) (r : Room π β) (hopen : s n = some r) (hnew : p ∉ r.members)
      (hadmits : admits r brought = true) (hnext : next n = some (r.enter p hnew)) :
      Changes admits n s next (.enter n p brought)
  | left (p : π) (hnext : next n = (s n).bind fun r => r.leave p) :
      Changes admits n s next (.leave n p)
  | written (f : β → β) (hnext : next n = (s n).map fun r => r.write f) :
      Changes admits n s next (.write n f)
  | elsewhere (event : Event ν π β) (hnext : next n = s n)
      (hleaves : ∀ p, leaves n p [event] = false) (hstanding : standing n [event] = [])
      (hwritten : ∀ data, Rooms.written n [event] data = data) : Changes admits n s next event

/-- **One event**, seen from one room. -/
theorem step_changes {event : Event ν π β} (h : step admits s event = some next) (n : ν) :
    Changes admits n s next event := by
  have hother : ∀ {m : ν} {room : Option (Room π β)}, m ≠ n →
      Function.update s m room n = s n := fun hm => Function.update_of_ne (Ne.symm hm) _ _
  cases event with
  | enter m p brought =>
      simp only [step] at h
      by_cases hm : m = n
      · subst hm
        split at h
        · rename_i hclosed
          cases h
          exact .opened p brought hclosed (Function.update_self ..)
        · rename_i r hopen
          split at h
          · rename_i hnew
            split at h
            · rename_i hadmits
              cases h
              exact .entered p brought r hopen hnew hadmits (Function.update_self ..)
            · cases h
          · cases h
      · refine .elsewhere _ ?_ (fun _ => rfl) (by simp [standing, hm]) fun _ => rfl
        split at h
        · cases h
          exact hother hm
        · split at h
          · split at h
            · cases h
              exact hother hm
            · cases h
          · cases h
  | leave m p =>
      cases h
      by_cases hm : m = n
      · subst hm
        exact .left p (Function.update_self ..)
      · exact .elsewhere _ (hother hm) (fun _ => by simp [leaves, hm]) rfl fun _ => rfl
  | write m f =>
      cases h
      by_cases hm : m = n
      · subst hm
        exact .written f (Function.update_self ..)
      · exact .elsewhere _ (hother hm) (fun _ => rfl) rfl fun _ => by simp [written, hm]

omit [DecidableEq ν] [DecidableEq π] in
/-- Members are listed once. -/
theorem members_nodup (s : State ν π β) (n : ν) : (members s n).Nodup := by
  unfold members
  cases s n with
  | none => exact List.nodup_nil
  | some r => exact r.nodup

omit [DecidableEq ν] [DecidableEq π] in
/-- A room is open just when somebody is in it. -/
theorem members_eq_nil_iff : members s n = [] ↔ s n = none := by
  unfold members
  cases hroom : s n with
  | none => simp
  | some r => simp [r.occupied]

omit [DecidableEq ν] in
/-- Who is left in a room that somebody leaves. -/
theorem members_leave (room : Option (Room π β)) (p : π) :
    ((room.bind fun r => r.leave p).map Room.members).getD [] =
      ((room.map Room.members).getD []).erase p := by
  cases room with
  | none => rfl
  | some r =>
      simp only [Option.bind_some, Option.map_some, Option.getD_some, Room.leave]
      split
      · rename_i hgone
        exact hgone.symm
      · rfl

/-- The members after one event. -/
theorem members_step {event : Event ν π β} (h : step admits s event = some next) :
    members next n = (members s n).filter (fun p => leaves n p [event] = false) ++
      standing n [event] := by
  have hchanges := step_changes h n
  cases hchanges with
  | opened p brought hclosed hnext =>
      simp [members, hnext, hclosed, standing, leaves, Room.opened]
  | entered p brought r hopen hnew hadmits hnext =>
      simp [members, hnext, hopen, standing, leaves, Room.enter]
  | left p hnext =>
      have hkeeps : ∀ q, decide (leaves n q [(.leave n p : Event ν π β)] = false) = (q != p) := by
        intro q
        by_cases hq : p = q
        · simp [leaves, hq]
        · simp [leaves, hq, Ne.symm hq]
      rw [members, hnext, members_leave, ← members, (members_nodup s n).erase_eq_filter]
      simp only [hkeeps, standing, List.append_nil]
  | written f hnext =>
      simp [members, hnext, standing, leaves, Room.write, Function.comp_def]
  | elsewhere event hnext hleaves hstanding hwritten =>
      simp [members, hnext, hleaves, hstanding]

/-- Who leaves a room in a history leaves it in one of its parts. -/
theorem leaves_append (n : ν) (p : π) (first second : List (Event ν π β)) :
    leaves n p (first ++ second) = (leaves n p first || leaves n p second) := by
  induction first with
  | nil => rfl
  | cons event first ih => cases event <;> simp [leaves, ih, Bool.or_assoc]

omit [DecidableEq π] in
/-- What the later part writes is written over what the first one left. -/
theorem written_append (n : ν) (first second : List (Event ν π β)) (data : β) :
    written n (first ++ second) data = written n second (written n first data) := by
  induction first generalizing data with
  | nil => rfl
  | cons event first ih => cases event <;> simp [written, ih]

/-- Who stands after a history and more of it: who stood and does not leave, and who
enters and stays. -/
theorem standing_append (n : ν) (first second : List (Event ν π β)) :
    standing n (first ++ second) =
      (standing n first).filter (fun p => leaves n p second = false) ++ standing n second := by
  induction first with
  | nil => rfl
  | cons event first ih =>
      cases event with
      | enter m p brought =>
          simp only [List.cons_append, standing, leaves_append, ih]
          by_cases hm : m = n
          · by_cases hfirst : leaves n p first = false <;>
              by_cases hsecond : leaves n p second = false <;> simp [hm, hfirst, hsecond]
          · simp [hm]
      | leave m p => exact ih
      | write m f => exact ih

/-- Somebody leaves several rooms. -/
theorem leaves_map_leave (n : ν) (p q : π) (names : List ν) :
    leaves n p (names.map fun m => (.leave m q : Event ν π β)) = decide (q = p ∧ n ∈ names) := by
  induction names with
  | nil => simp [leaves]
  | cons m names ih =>
      by_cases hm : m = n
      · by_cases hq : q = p <;> simp [leaves, ih, hm, hq]
      · simp [leaves, ih, hm, Ne.symm hm]

/-- Nobody who has left all rooms stands in one. -/
theorem standing_map_leave (n : ν) (q : π) (names : List ν) :
    standing n (names.map fun m => (.leave m q : Event ν π β)) = [] := by
  induction names with
  | nil => rfl
  | cons m names ih => exact ih

/-- **The members, by history**: who was in the room and has not left, and who has
entered and not left since. -/
theorem members_after (h : Run.perform (step admits) events s = some next) (n : ν) :
    members next n = (members s n).filter (fun p => leaves n p events = false) ++
      standing n events := by
  induction events generalizing s with
  | nil =>
      obtain rfl : s = next := by simpa [Run.perform] using h
      simp [leaves, standing]
  | cons event events ih =>
      obtain ⟨middle, hstep, hrest⟩ := Option.bind_eq_some_iff.mp h
      have hboth : ((members s n).filter fun p => leaves n p [event] = false).filter
          (fun p => leaves n p events = false) =
          (members s n).filter fun p => leaves n p (event :: events) = false := by
        rw [List.filter_filter]
        refine List.filter_congr fun p _ => ?_
        rw [show event :: events = [event] ++ events from rfl, leaves_append]
        cases leaves n p [event] <;> cases leaves n p events <;> rfl
      have hnew : (standing n [event]).filter (fun p => leaves n p events = false) ++
          standing n events = standing n (event :: events) := by
        cases event with
        | enter m p brought =>
            by_cases hm : m = n
            · by_cases hleaves : leaves n p events = false <;> simp [standing, leaves, hm, hleaves]
            · simp [standing, hm]
        | leave m p => simp [standing]
        | write m f => simp [standing]
      rw [ih hrest, members_step hstep, List.filter_append, List.append_assoc, hboth, hnew]

/-- **The members of a room** that was not open at first are those who have entered
and not left since, in the order of entering. -/
theorem members_eq_standing (h : Run.perform (step admits) events s = some next)
    (hclosed : s n = none) : members next n = standing n events := by
  rw [members_after h n]
  simp [members, hclosed]

/-- The data of a room that stays open through an event. -/
theorem data_step {event : Event ν π β} {r r' : Room π β}
    (h : step admits s event = some next) (hopen : s n = some r) (hnext : next n = some r') :
    r'.data = written n [event] r.data := by
  have hchanges := step_changes h n
  cases hchanges with
  | opened p brought hclosed _ => simp [hopen] at hclosed
  | entered p brought q hopen' hnew hadmits hnext' =>
      rw [hopen] at hopen'
      rw [hnext] at hnext'
      cases hopen'
      cases hnext'
      rfl
  | left p hnext' =>
      rw [hnext, hopen, Option.bind_some, Room.leave] at hnext'
      split at hnext'
      · cases hnext'
      · cases hnext'
        rfl
  | written f hnext' =>
      rw [hnext, hopen] at hnext'
      cases hnext'
      simp [written, Room.write]
  | elsewhere event hnext' hleaves hstanding hwritten =>
      rw [hnext, hopen] at hnext'
      cases hnext'
      exact (hwritten _).symm

/-- Only somebody who enters opens a room. -/
theorem opens_step {event : Event ν π β} {r : Room π β} (h : step admits s event = some next)
    (hclosed : s n = none) (hnext : next n = some r) :
    ∃ p brought, event = .enter n p brought ∧ r = .opened p brought := by
  have hchanges := step_changes h n
  cases hchanges with
  | opened p brought _ hnext' =>
      rw [hnext] at hnext'
      cases hnext'
      exact ⟨p, brought, rfl, rfl⟩
  | entered p brought q hopen hnew hadmits hnext' => simp [hopen] at hclosed
  | left p hnext' => simp [hnext, hclosed] at hnext'
  | written f hnext' => simp [hnext, hclosed] at hnext'
  | elsewhere event hnext' hleaves hstanding hwritten => simp [hnext, hclosed] at hnext'

/-- **The data of a room** are those of the one who opened it, with the writes since;
it was empty before that, and never afterwards. -/
theorem exists_opening {r : Room π β} (h : Run.perform (step admits) events s = some next)
    (hclosed : s n = none) (hopen : next n = some r) :
    ∃ before p brought after, events = before ++ .enter n p brought :: after ∧
      standing n before = [] ∧
      (∀ first, first <+: after → standing n (before ++ .enter n p brought :: first) ≠ []) ∧
      r.data = written n after brought := by
  have hoccupied : ∀ {events : List (Event ν π β)} {next : State ν π β} {r : Room π β},
      Run.perform (step admits) events s = some next → next n = some r →
      standing n events ≠ [] := by
    intro events next r h hopen
    rw [← members_eq_standing h hclosed]
    simp [members, hopen, r.occupied]
  induction events using List.reverseRecOn generalizing next r with
  | nil =>
      obtain rfl : s = next := by simpa [Run.perform] using h
      simp [hclosed] at hopen
  | append_singleton events event ih =>
      have hlast := hoccupied h hopen
      rw [Run.perform_append] at h
      obtain ⟨middle, hbefore, hstep⟩ := Option.bind_eq_some_iff.mp h
      obtain ⟨_, hstep, ⟨⟩⟩ := Option.bind_eq_some_iff.mp hstep
      cases hmiddle : middle n with
      | none =>
          obtain ⟨p, brought, rfl, rfl⟩ := opens_step hstep hmiddle hopen
          refine ⟨events, p, brought, [], rfl, ?_, ?_, rfl⟩
          · rw [← members_eq_standing hbefore hclosed]
            exact members_eq_nil_iff.mpr hmiddle
          · intro first hfirst
            rw [List.prefix_nil.mp hfirst]
            exact hlast
      | some r' =>
          obtain ⟨before, p, brought, after, rfl, hempty, hfull, hdata⟩ := ih hbefore hmiddle
          refine ⟨before, p, brought, after ++ [event], by simp, hempty, ?_, ?_⟩
          · intro first hfirst
            rcases List.prefix_concat_iff.mp hfirst with rfl | hfirst
            · simpa using hlast
            · exact hfull first hfirst
          · rw [data_step hstep hmiddle hopen, hdata, written_append]

/-- **What the members brought** fits the data of their room, if a room only admits
who fits and no write breaks that. -/
theorem fits_of_member (fits : β → β → Prop) {r : Room π β}
    (h : Run.perform (step admits) events s = some next) (hclosed : s n = none)
    (hopened : ∀ data, fits data data)
    (hadmits : ∀ (r : Room π β) brought, admits r brought = true → fits brought r.data)
    (hwrites : ∀ f, .write n f ∈ events → ∀ brought data, fits brought data → fits brought (f data))
    (hopen : next n = some r) (hp : p ∈ r.members) :
    ∃ before brought after, events = before ++ .enter n p brought :: after ∧
      leaves n p after = false ∧ fits brought r.data := by
  induction events using List.reverseRecOn generalizing next r with
  | nil =>
      obtain rfl : s = next := by simpa [Run.perform] using h
      simp [hclosed] at hopen
  | append_singleton events event ih =>
      rw [Run.perform_append] at h
      obtain ⟨middle, hbefore, hstep⟩ := Option.bind_eq_some_iff.mp h
      obtain ⟨_, hstep, ⟨⟩⟩ := Option.bind_eq_some_iff.mp hstep
      have hearlier : ∀ {r' : Room π β}, middle n = some r' → p ∈ r'.members →
          leaves n p [event] = false → (∀ brought, fits brought r'.data → fits brought r.data) →
          ∃ before brought after, events ++ [event] = before ++ .enter n p brought :: after ∧
            leaves n p after = false ∧ fits brought r.data := by
        intro r' hmiddle hp' hleaves hdata
        obtain ⟨before, brought, after, rfl, hstays, hfits⟩ := ih hbefore
          (fun f hf => hwrites f (List.mem_append_left _ hf)) hmiddle hp'
        refine ⟨before, brought, after ++ [event], by simp, ?_, hdata brought hfits⟩
        rw [leaves_append, hstays, hleaves]
        rfl
      have hchanges := step_changes hstep n
      cases hchanges with
      | opened q brought hmiddle hnext =>
          rw [hopen] at hnext
          cases hnext
          obtain rfl := List.mem_singleton.mp hp
          exact ⟨events, brought, [], rfl, rfl, hopened brought⟩
      | entered q brought r' hmiddle hnew hok hnext =>
          rw [hopen] at hnext
          cases hnext
          rcases List.mem_append.mp hp with hp | hp
          · exact hearlier hmiddle hp rfl fun _ hfits => hfits
          · obtain rfl := List.mem_singleton.mp hp
            exact ⟨events, brought, [], rfl, rfl, hadmits r' brought hok⟩
      | left q hnext =>
          cases hmiddle : middle n with
          | none => simp [hopen, hmiddle] at hnext
          | some r' =>
              rw [hopen, hmiddle, Option.bind_some, Room.leave] at hnext
              split at hnext
              · cases hnext
              · cases hnext
                obtain ⟨hne, hp'⟩ := r'.nodup.mem_erase_iff.mp hp
                exact hearlier hmiddle hp' (by simp [leaves, Ne.symm hne]) fun _ hfits => hfits
      | written f hnext =>
          cases hmiddle : middle n with
          | none => simp [hopen, hmiddle] at hnext
          | some r' =>
              rw [hopen, hmiddle] at hnext
              cases hnext
              exact hearlier hmiddle hp rfl fun brought hfits =>
                hwrites f (List.mem_append_right _ List.mem_cons_self) brought _ hfits
      | elsewhere _ hnext hleaves hstanding hwritten =>
          exact hearlier (hnext ▸ hopen) hp (hleaves p) fun _ hfits => hfits

end History

end Rooms
