import Mathlib.Data.Set.Insert
import Mathlib.Order.BooleanAlgebra.Set
import Mathlib.Tactic.Tauto
import IrcServers.Run

/-!
# A hub

Parties join a hub and leave it, and whatever one of them says is passed on to
all the others that are joined at that time.  This is what a chat server is for,
and what a channel of one is for.

The hub keeps, for each party, what it has been passed and by whom.  Over any
stretch in which a party stays it is passed what the others say, all of it, once,
and in the order in which it is said (`passed_of_stays`), and over any stretch in
which it is away it is passed nothing (`passed_of_away`).  There is one such order
for everybody.

A machine refines the hub if each of its steps stands for events of the hub;
then the same holds of what the machine hands to its parties.  Where a machine
hands out other things as well, `Passes` is the same for the part that matters.
-/

namespace Hub

variable {κ δ σ α : Type*}

/-- What happens at a hub. -/
inductive Event (κ δ : Type*) where
  | join (k : κ)
  | leave (k : κ)
  | say (k : κ) (data : δ)
deriving DecidableEq

/-- Who is joined, and what each party has been passed, with the one who said
it, the earliest first. -/
structure State (κ δ : Type*) where
  joined : Set κ
  passed : κ → List (κ × δ)

open Classical in
/-- Pass on what `k` says. -/
noncomputable def State.say (s : State κ δ) (k : κ) (data : δ) : State κ δ :=
  { s with
    passed := fun j =>
      if j ∈ s.joined ∧ j ≠ k then s.passed j ++ [(k, data)] else s.passed j }

open Classical in
/-- One event.  Nobody joins twice, and only who is joined can leave. -/
noncomputable def step (s : State κ δ) : Event κ δ → Option (State κ δ)
  | .join k => if k ∈ s.joined then none else some { s with joined := insert k s.joined }
  | .leave k => if k ∈ s.joined then some { s with joined := s.joined \ {k} } else none
  | .say k data => some (s.say k data)

/-- What is said, and by whom. -/
def said : List (Event κ δ) → List (κ × δ)
  | [] => []
  | .say k data :: events => (k, data) :: said events
  | .join _ :: events | .leave _ :: events => said events

@[simp] theorem said_append (first second : List (Event κ δ)) :
    said (first ++ second) = said first ++ said second := by
  induction first with
  | nil => rfl
  | cons event first ih => cases event <;> simp [said, ih]

variable {s next : State κ δ} {j k : κ} {events : List (Event κ δ)}

/-- One event, seen by a party that stays. -/
theorem step_of_stays [DecidableEq κ] {event : Event κ δ} (hstep : step s event = some next)
    (hk : k ∈ s.joined) (hstays : event ≠ .leave k) :
    k ∈ next.joined ∧
      next.passed k = s.passed k ++ (said [event]).filter fun m => m.1 ≠ k := by
  cases event with
  | join j =>
      simp only [step] at hstep
      split at hstep
      · cases hstep
      · cases hstep
        exact ⟨Set.mem_insert_of_mem _ hk, (List.append_nil _).symm⟩
  | leave j =>
      simp only [step] at hstep
      split at hstep
      · cases hstep
        have hne : k ≠ j := fun heq => hstays (heq ▸ rfl)
        exact ⟨⟨hk, hne⟩, (List.append_nil _).symm⟩
      · cases hstep
  | say j data =>
      cases hstep
      refine ⟨hk, ?_⟩
      by_cases hown : k = j
      · simp [State.say, said, hown]
      · have hother : j ≠ k := fun heq => hown heq.symm
        simp [State.say, said, hk, hown, hother]

/-- **What a party is passed while it stays**: what the others say, in order. -/
theorem passed_of_stays [DecidableEq κ] (h : Run.perform step events s = some next)
    (hk : k ∈ s.joined) (hstays : .leave k ∉ events) :
    k ∈ next.joined ∧ next.passed k = s.passed k ++ (said events).filter fun m => m.1 ≠ k := by
  induction events generalizing s with
  | nil =>
      obtain rfl : s = next := by simpa [Run.perform] using h
      exact ⟨hk, (List.append_nil _).symm⟩
  | cons event events ih =>
      obtain ⟨middle, hstep, hrest⟩ := Option.bind_eq_some_iff.mp h
      obtain ⟨hnot, hnone⟩ := not_or.mp (mt List.mem_cons.mpr hstays)
      obtain ⟨hmiddle, hfirst⟩ := step_of_stays hstep hk (Ne.symm hnot)
      obtain ⟨hnext, hlater⟩ := ih hrest hmiddle hnone
      refine ⟨hnext, ?_⟩
      rw [hlater, hfirst, List.append_assoc, ← List.filter_append, ← said_append]
      rfl

/-- A party that is away and does not join is passed nothing. -/
theorem passed_of_away (h : Run.perform step events s = some next)
    (hk : k ∉ s.joined) (haway : .join k ∉ events) :
    k ∉ next.joined ∧ next.passed k = s.passed k := by
  induction events generalizing s with
  | nil =>
      obtain rfl : s = next := by simpa [Run.perform] using h
      exact ⟨hk, rfl⟩
  | cons event events ih =>
      obtain ⟨middle, hstep, hrest⟩ := Option.bind_eq_some_iff.mp h
      obtain ⟨hnot, hnone⟩ := not_or.mp (mt List.mem_cons.mpr haway)
      have hmiddle : k ∉ middle.joined ∧ middle.passed k = s.passed k := by
        cases event with
        | join j =>
            simp only [step] at hstep
            split at hstep
            · cases hstep
            · cases hstep
              refine ⟨fun hmem => ?_, rfl⟩
              rcases hmem with rfl | hmem
              · exact hnot rfl
              · exact hk hmem
        | leave j =>
            simp only [step] at hstep
            split at hstep
            · cases hstep
              exact ⟨fun hmem => hk hmem.1, rfl⟩
            · cases hstep
        | say j data =>
            cases hstep
            exact ⟨hk, by simp [State.say, hk]⟩
      obtain ⟨hnext, hsame⟩ := ih hrest hmiddle.1 hnone
      exact ⟨hnext, hsame.trans hmiddle.2⟩

/-- What one party is handed of all that is sent. -/
def handedTo [DecidableEq κ] (sent : List (κ × δ)) (k : κ) : List δ :=
  (sent.filter fun m => m.1 = k).map Prod.snd

@[simp] theorem handedTo_append [DecidableEq κ] (first second : List (κ × δ)) (k : κ) :
    handedTo (first ++ second) k = handedTo first k ++ handedTo second k := by
  simp [handedTo]

/-- A copy for each of several different parties is one copy for each of them. -/
theorem handedTo_copies [DecidableEq κ] {recipients : List κ} (hnodup : recipients.Nodup)
    (data : δ) (k : κ) :
    handedTo (recipients.map fun j => (j, data)) k = if k ∈ recipients then [data] else [] := by
  induction recipients with
  | nil => rfl
  | cons j recipients ih =>
      obtain ⟨hnew, hrest⟩ := List.nodup_cons.mp hnodup
      have hsplit : handedTo ((j :: recipients).map fun j => (j, data)) k =
          (if j = k then [data] else []) ++
            handedTo (recipients.map fun j => (j, data)) k := by
        by_cases hj : j = k <;> simp [handedTo, hj]
      rw [hsplit, ih hrest]
      by_cases hj : j = k
      · subst hj
        simp [hnew]
      · simp [hj, Ne.symm hj]

/-- Passing something on is sending a copy to each of the others. -/
theorem State.say_copies [DecidableEq κ] {recipients : List κ} (hnodup : recipients.Nodup)
    (hothers : k ∈ recipients ↔ k ∈ s.joined ∧ k ≠ j) (data : δ) :
    ((s.say j data).passed k).map Prod.snd =
      (s.passed k).map Prod.snd ++ handedTo (recipients.map fun i => (i, data)) k := by
  rw [handedTo_copies hnodup]
  by_cases hk : k ∈ recipients
  · simp [State.say, hk, hothers.mp hk]
  · simp [State.say, hk, mt hothers.mpr hk]

/-- The state of a machine, seen as a state of the hub: who is connected, and
what each party has been handed. -/
structure Shows (joined : σ → Set κ) (handed : σ → κ → List δ) (s : σ) (t : State κ δ) : Prop where
  joined : t.joined = joined s
  handed : ∀ k, (t.passed k).map Prod.snd = handed s k

/-- The machine `step`, while `inv` holds, refines the hub: each step stands for
events of the hub. -/
structure Refines (step : σ → α → Option σ) (inv : σ → Prop) (events : σ → α → List (Event κ δ))
    (joined : σ → Set κ) (handed : σ → κ → List δ) : Prop where
  keeps : ∀ s a next, inv s → step s a = some next → inv next
  shown : ∀ s a next t, inv s → step s a = some next → Shows joined handed s t →
    ∃ t', Run.perform Hub.step (events s a) t = some t' ∧ Shows joined handed next t'

namespace Refines

variable {machine : σ → α → Option σ} {inv : σ → Prop} {events : σ → α → List (Event κ δ)}
  {joined : σ → Set κ} {handed : σ → κ → List δ} {first last : σ} {trace : Run.Trace σ α}
  {j k : κ}

/-- A hub in the state of the machine; who said what before does not matter. -/
theorem exists_shows (joined : σ → Set κ) (handed : σ → κ → List δ) (s : σ) :
    ∃ t, Shows joined handed s t :=
  ⟨⟨joined s, fun k => (handed s k).map fun data => (k, data)⟩, rfl, fun k => by
    simp [Function.comp_def]⟩

/-- **Runs.**  Whatever the machine does from a state is a run of the hub. -/
theorem run (h : Refines machine inv events joined handed) (hfirst : inv first)
    (run : Run.Steps machine (· = first) trace last) {t : State κ δ}
    (ht : Shows joined handed first t) :
    ∃ t', Run.perform Hub.step (Run.eventsOf events trace) t = some t' ∧
      Shows joined handed last t' := by
  obtain ⟨t', hperform, -, ht'⟩ := run.refines (fun s t => inv s ∧ Shows joined handed s t) events
    (fun s a next t hs hstep => by
      obtain ⟨t', hperform, ht'⟩ := h.shown s a next t hs.1 hstep hs.2
      exact ⟨t', hperform, h.keeps s a next hs.1 hstep, ht'⟩)
    ⟨hfirst, ht⟩
  exact ⟨t', hperform, ht'⟩

/-- **What a party is handed while it stays**: what the others say, all of it,
once, and in order. -/
theorem handed_of_stays [DecidableEq κ] (h : Refines machine inv events joined handed)
    (hfirst : inv first) (run : Run.Steps machine (· = first) trace last)
    (hk : k ∈ joined first) (hstays : .leave k ∉ Run.eventsOf events trace) :
    handed last k = handed first k ++
      ((said (Run.eventsOf events trace)).filter fun m => m.1 ≠ k).map Prod.snd := by
  obtain ⟨t, ht⟩ := exists_shows joined handed first
  obtain ⟨t', hperform, ht'⟩ := h.run hfirst run ht
  obtain ⟨-, hpassed⟩ := passed_of_stays hperform (ht.joined ▸ hk) hstays
  rw [← ht'.handed k, ← ht.handed k, hpassed, List.map_append]

/-- Who is away and does not join is handed nothing. -/
theorem handed_of_away (h : Refines machine inv events joined handed)
    (hfirst : inv first) (run : Run.Steps machine (· = first) trace last)
    (hk : k ∉ joined first) (haway : .join k ∉ Run.eventsOf events trace) :
    handed last k = handed first k := by
  obtain ⟨t, ht⟩ := exists_shows joined handed first
  obtain ⟨t', hperform, ht'⟩ := h.run hfirst run ht
  obtain ⟨-, hpassed⟩ := passed_of_away hperform (ht.joined ▸ hk) haway
  rw [← ht'.handed k, ← ht.handed k, hpassed]

end Refines

/-- The machine with a record of what its steps hand out. -/
def recording (machine : σ → α → Option σ) (copies : σ → α → List (κ × δ)) :
    σ × List (κ × δ) → α → Option (σ × List (κ × δ)) := fun s a =>
  (machine s.1 a).map fun next => (next, s.2 ++ copies s.1 a)

/-- The machine `step`, while `inv` holds, passes on what is said at the hub: `copies`
are the part of what a step hands out that belongs to the hub. -/
structure Passes [DecidableEq κ] (step : σ → α → Option σ) (inv : σ → Prop)
    (events : σ → α → List (Event κ δ)) (joined : σ → Set κ)
    (copies : σ → α → List (κ × δ)) : Prop where
  keeps : ∀ s a next, inv s → step s a = some next → inv next
  passed : ∀ s a next (t : State κ δ), inv s → step s a = some next → t.joined = joined s →
    ∃ t', Run.perform Hub.step (events s a) t = some t' ∧ t'.joined = joined next ∧
      ∀ k, (t'.passed k).map Prod.snd = (t.passed k).map Prod.snd ++ handedTo (copies s a) k

namespace Passes

variable [DecidableEq κ] {machine : σ → α → Option σ} {inv : σ → Prop}
  {events : σ → α → List (Event κ δ)} {joined : σ → Set κ} {copies : σ → α → List (κ × δ)}
  {first last : σ} {trace : Run.Trace σ α} {k : κ}

/-- The recording machine refines the hub. -/
theorem refines (h : Passes machine inv events joined copies) :
    Refines (recording machine copies) (fun s => inv s.1) (fun s => events s.1)
      (fun s => joined s.1) fun s => handedTo s.2 where
  keeps := by
    intro s a next hs hstep
    obtain ⟨middle, hmiddle, rfl⟩ := Option.map_eq_some_iff.mp hstep
    exact h.keeps s.1 a middle hs hmiddle
  shown := by
    intro s a next t hs hstep ht
    obtain ⟨middle, hmiddle, rfl⟩ := Option.map_eq_some_iff.mp hstep
    obtain ⟨t', hperform, hjoined, hpassed⟩ := h.passed s.1 a middle t hs hmiddle ht.joined
    refine ⟨t', hperform, hjoined, fun k => ?_⟩
    rw [hpassed, ht.handed, handedTo_append]

omit [DecidableEq κ] in
variable (events) in
/-- A run, with its record. -/
theorem exists_recording (run : Run.Steps machine (· = first) trace last) :
    ∃ recorded, Run.Steps (recording machine copies) (· = (first, [])) recorded
        (last, Run.eventsOf copies trace) ∧
      Run.eventsOf (fun s => events s.1) recorded = Run.eventsOf events trace := by
  induction run with
  | nil hstart => exact ⟨[], .nil (by rw [hstart]; rfl), rfl⟩
  | @cons trace s a next run hstep ih =>
      obtain ⟨recorded, hrecorded, hevents⟩ := ih
      refine ⟨((s, Run.eventsOf copies trace), a) :: recorded, hrecorded.cons ?_, ?_⟩
      · simp [recording, hstep, Run.eventsOf]
      · rw [Run.eventsOf, Run.eventsOf, hevents]

/-- **What a party is handed of the hub while it stays**: what the others say, all of
it, once, and in order. -/
theorem handed_of_stays (h : Passes machine inv events joined copies) (hfirst : inv first)
    (run : Run.Steps machine (· = first) trace last) (hk : k ∈ joined first)
    (hstays : .leave k ∉ Run.eventsOf events trace) :
    handedTo (Run.eventsOf copies trace) k =
      ((said (Run.eventsOf events trace)).filter fun m => m.1 ≠ k).map Prod.snd := by
  obtain ⟨recorded, hrecorded, hevents⟩ := exists_recording events run
  rw [← hevents] at hstays ⊢
  exact (h.refines.handed_of_stays hfirst hrecorded hk hstays).trans (List.nil_append _)

/-- Who is away and does not join is handed nothing of the hub. -/
theorem handed_of_away (h : Passes machine inv events joined copies) (hfirst : inv first)
    (run : Run.Steps machine (· = first) trace last) (hk : k ∉ joined first)
    (haway : .join k ∉ Run.eventsOf events trace) :
    handedTo (Run.eventsOf copies trace) k = [] := by
  obtain ⟨recorded, hrecorded, hevents⟩ := exists_recording events run
  rw [← hevents] at haway
  exact h.refines.handed_of_away hfirst hrecorded hk haway

end Passes

section Parties

variable [DecidableEq κ] {before after ks : List κ} {k : κ}

/-- The departures and arrivals between two lists of parties. -/
def moves (before after : List κ) : List (Event κ δ) :=
  (before.filter fun k => k ∉ after).map .leave ++ (after.filter fun k => k ∉ before).map .join

omit [DecidableEq κ] in
/-- Distinct clients that are joined leave one after the other. -/
theorem perform_leaves (hnodup : ks.Nodup) (hks : ∀ k ∈ ks, k ∈ s.joined) :
    Run.perform step (ks.map .leave) s = some { s with joined := s.joined \ {k | k ∈ ks} } := by
  induction ks generalizing s with
  | nil => simp [Run.perform]
  | cons k ks ih =>
      obtain ⟨hnew, hrest⟩ := List.nodup_cons.mp hnodup
      have hlater : ∀ j ∈ ks, j ∈ s.joined \ {k} := fun j hj =>
        ⟨hks j (List.mem_cons_of_mem _ hj), fun heq => hnew (Set.mem_singleton_iff.mp heq ▸ hj)⟩
      have hleft : s.joined \ {j | j ∈ k :: ks} = (s.joined \ {k}) \ {j | j ∈ ks} := by
        ext j
        simp only [Set.mem_sdiff, Set.mem_ofPred_eq, List.mem_cons, Set.mem_singleton_iff, not_or,
          and_assoc]
      rw [List.map_cons, Run.perform, step, if_pos (hks k List.mem_cons_self), Option.bind_some,
        ih hrest hlater, hleft]

omit [DecidableEq κ] in
/-- Distinct clients that are not joined join one after the other. -/
theorem perform_joins (hnodup : ks.Nodup) (hks : ∀ k ∈ ks, k ∉ s.joined) :
    Run.perform step (ks.map .join) s = some { s with joined := s.joined ∪ {k | k ∈ ks} } := by
  induction ks generalizing s with
  | nil => simp [Run.perform]
  | cons k ks ih =>
      obtain ⟨hnew, hrest⟩ := List.nodup_cons.mp hnodup
      have hlater : ∀ j ∈ ks, j ∉ insert k s.joined := by
        intro j hj hmem
        rcases hmem with rfl | hmem
        · exact hnew hj
        · exact hks j (List.mem_cons_of_mem _ hj) hmem
      have hcame : s.joined ∪ {j | j ∈ k :: ks} = insert k s.joined ∪ {j | j ∈ ks} := by
        ext j
        simp only [Set.mem_union, Set.mem_insert_iff, Set.mem_ofPred_eq, List.mem_cons]
        exact or_left_comm.trans or_assoc.symm
      rw [List.map_cons, Run.perform, step, if_neg (hks k List.mem_cons_self), Option.bind_some,
        ih hrest hlater, hcame]

/-- The moves lead from the one list to the other. -/
theorem perform_moves (hbefore : before.Nodup) (hafter : after.Nodup)
    (hs : s.joined = {k | k ∈ before}) :
    Run.perform step (moves before after) s = some { s with joined := {k | k ∈ after} } := by
  have hgone := perform_leaves (s := s) (hbefore.filter fun k => k ∉ after) fun k hk => by
    rw [hs]
    exact (List.mem_filter.mp hk).1
  rw [moves, Run.perform_append, hgone, Option.bind_some,
    perform_joins (hafter.filter fun k => k ∉ before)]
  · refine congrArg (fun joined => some { s with joined := joined }) ?_
    ext k
    simp only [hs, Set.mem_union, Set.mem_sdiff, Set.mem_ofPred_eq, List.mem_filter,
      decide_eq_true_eq]
    tauto
  · intro k hk hmem
    rw [hs] at hmem
    exact (of_decide_eq_true (List.mem_filter.mp hk).2) hmem.1

/-- Pass on several things, one after the other. -/
theorem perform_spoken (hnodup : before.Nodup) (spoken : List (κ × δ))
    (hs : s.joined = {k | k ∈ before}) :
    ∃ t, Run.perform step (spoken.map fun m => .say m.1 m.2) s = some t ∧ t.joined = s.joined ∧
      ∀ k, (t.passed k).map Prod.snd = (s.passed k).map Prod.snd ++ handedTo
        (spoken.flatMap fun m => (before.filter fun j => j ≠ m.1).map fun j => (j, m.2)) k := by
  induction spoken generalizing s with
  | nil => exact ⟨s, rfl, rfl, fun k => (List.append_nil _).symm⟩
  | cons m spoken ih =>
      obtain ⟨t, hperform, hjoined, hpassed⟩ := ih (s := s.say m.1 m.2) hs
      refine ⟨t, hperform, hjoined, fun k => ?_⟩
      have hothers : k ∈ before.filter (fun j => j ≠ m.1) ↔ k ∈ s.joined ∧ k ≠ m.1 := by
        rw [hs]
        simp
      rw [hpassed, State.say_copies (hnodup.filter _) hothers, List.flatMap_cons,
        handedTo_append, List.append_assoc]

variable {machine : σ → α → Option σ} {parties : σ → List κ}
  {spoken copies : σ → α → List (κ × δ)} {inv : σ → Prop} {trace : Run.Trace σ α} {first last : σ}

variable (machine parties spoken) in
/-- What happens at the hub in one step of a machine whose states list the parties. -/
def stepEvents (s : σ) (a : α) : List (Event κ δ) :=
  (spoken s a).map (fun m => .say m.1 m.2) ++
    ((machine s a).map fun next => moves (parties s) (parties next)).getD []

/-- If each step hands out copies of what is said in it to the others that are listed,
and to nobody else, then the machine passes on what is said. -/
theorem Passes.of_parties (hkeeps : ∀ s a next, inv s → machine s a = some next → inv next)
    (hnodup : ∀ s, inv s → (parties s).Nodup)
    (hcopies : ∀ s a next, inv s → machine s a = some next → copies s a =
      (spoken s a).flatMap fun m => ((parties s).filter fun j => j ≠ m.1).map fun j => (j, m.2)) :
    Passes machine inv (stepEvents machine parties spoken) (fun s => {k | k ∈ parties s})
      copies where
  keeps := hkeeps
  passed := by
    intro s a next t hs hstep ht
    obtain ⟨u, hsaid, hjoined, hpassed⟩ := perform_spoken (hnodup s hs) (spoken s a) ht
    refine ⟨{ u with joined := {k | k ∈ parties next} }, ?_, rfl, fun k => ?_⟩
    · rw [stepEvents, Run.perform_append, hsaid, Option.bind_some, hstep, Option.map_some,
        Option.getD_some]
      exact perform_moves (hnodup s hs) (hnodup next (hkeeps s a next hs hstep))
        (hjoined.trans ht)
    · rw [hcopies s a next hs hstep]
      exact hpassed k

omit [DecidableEq κ] in
/-- A history of sayings only. -/
@[simp] theorem said_spoken (spoken : List (κ × δ)) :
    said (spoken.map fun m => .say m.1 m.2) = spoken := by
  induction spoken with
  | nil => rfl
  | cons m spoken ih => simp [said, ih]

@[simp] theorem said_moves (before after : List κ) :
    said (moves before after : List (Event κ δ)) = [] := by
  have hleaves : ∀ ks : List κ, said (ks.map .leave : List (Event κ δ)) = [] := by
    intro ks
    induction ks with
    | nil => rfl
    | cons k ks ih => exact ih
  have hjoins : ∀ ks : List κ, said (ks.map .join : List (Event κ δ)) = [] := by
    intro ks
    induction ks with
    | nil => rfl
    | cons k ks ih => exact ih
  rw [moves, said_append, hleaves, hjoins, List.append_nil]

/-- What is said at the hub is what is said in the steps. -/
theorem said_stepEvents (trace : Run.Trace σ α) :
    said (Run.eventsOf (stepEvents machine parties spoken) trace) = Run.eventsOf spoken trace := by
  induction trace with
  | nil => rfl
  | cons entry trace ih =>
      obtain ⟨s, a⟩ := entry
      rw [Run.eventsOf, said_append, ih, Run.eventsOf, stepEvents, said_append, said_spoken]
      cases machine s a <;> simp [said]

/-- Those leave who were there before and are not there after. -/
theorem mem_moves_leave : (.leave k : Event κ δ) ∈ moves before after ↔ k ∈ before ∧ k ∉ after := by
  simp [moves]

/-- Those join who are there after and were not there before. -/
theorem mem_moves_join : (.join k : Event κ δ) ∈ moves before after ↔ k ∈ after ∧ k ∉ before := by
  simp [moves]

/-- Who is listed all along does not leave. -/
theorem not_leave_of_throughout (run : Run.Steps machine (· = first) trace last)
    (h : Run.Throughout (fun s => k ∈ parties s) trace last) :
    .leave k ∉ Run.eventsOf (stepEvents machine parties spoken) trace := by
  induction run with
  | nil hstart => simp [Run.eventsOf]
  | @cons trace s a next run hstep ih =>
      have hrest : Run.Throughout (fun s => k ∈ parties s) trace s :=
        ⟨h.2 _ List.mem_cons_self, fun entry hmem => h.2 entry (List.mem_cons_of_mem _ hmem)⟩
      simp only [Run.eventsOf, stepEvents, hstep, Option.map_some, Option.getD_some,
        List.mem_append, List.mem_map, mem_moves_leave, not_or]
      exact ⟨ih hrest, by simp, fun hleft => hleft.2 h.1⟩

/-- Who is never listed does not join. -/
theorem not_join_of_throughout (run : Run.Steps machine (· = first) trace last)
    (h : Run.Throughout (fun s => k ∉ parties s) trace last) :
    .join k ∉ Run.eventsOf (stepEvents machine parties spoken) trace := by
  induction run with
  | nil hstart => simp [Run.eventsOf]
  | @cons trace s a next run hstep ih =>
      have hrest : Run.Throughout (fun s => k ∉ parties s) trace s :=
        ⟨h.2 _ List.mem_cons_self, fun entry hmem => h.2 entry (List.mem_cons_of_mem _ hmem)⟩
      simp only [Run.eventsOf, stepEvents, hstep, Option.map_some, Option.getD_some,
        List.mem_append, List.mem_map, mem_moves_join, not_or]
      exact ⟨ih hrest, by simp, fun hcame => h.1 hcame.1⟩

variable (h : Passes machine inv (stepEvents machine parties spoken)
    (fun s => {k | k ∈ parties s}) copies) (hfirst : inv first)
  (run : Run.Steps machine (· = first) trace last)

include h hfirst run

/-- Who is listed all along is handed what the others say. -/
theorem Passes.handed_throughout (hk : Run.Throughout (fun s => k ∈ parties s) trace last) :
    handedTo (Run.eventsOf copies trace) k =
      ((Run.eventsOf spoken trace).filter fun m => m.1 ≠ k).map Prod.snd := by
  rw [h.handed_of_stays hfirst run (run.throughout_first hk) (not_leave_of_throughout run hk),
    said_stepEvents]

/-- Who is never listed is handed nothing. -/
theorem Passes.handed_never (hk : Run.Throughout (fun s => k ∉ parties s) trace last) :
    handedTo (Run.eventsOf copies trace) k = [] :=
  h.handed_of_away hfirst run (run.throughout_first hk) (not_join_of_throughout run hk)

end Parties

end Hub
