import Mathlib.Data.List.Basic

/-!
# Runs of a labelled machine

A machine is a partial step function: given a state and an action it either
refuses the action or returns the next state.  Every choice the environment
makes is part of the action, so the machine itself is deterministic.

A run is recorded with its latest step first, each action together with the
state it was taken in.  Besides the usual invariant rule there are two rules
for runs whose steps meet a condition: one for invariants kept only under the
condition, and one for the case where the condition is exact, so that the
invariant holds in every state of a run just when every step meets it.
-/

namespace Run

variable {σ α : Type*} {step : σ → α → Option σ} {start : σ → Prop}

/-- The steps of a run, latest first: the state before each and its action. -/
abbrev Trace (σ α : Type*) := List (σ × α)

/-- A finite run of the machine `step` from a start state. -/
inductive Steps (step : σ → α → Option σ) (start : σ → Prop) :
    Trace σ α → σ → Prop
  | nil {s : σ} (hstart : start s) : Steps step start [] s
  | cons {trace : Trace σ α} {s : σ} {a : α} {next : σ}
      (run : Steps step start trace s) (hstep : step s a = some next) :
      Steps step start ((s, a) :: trace) next

/-- The states some run ends in. -/
def Reachable (step : σ → α → Option σ) (start : σ → Prop) (s : σ) : Prop :=
  ∃ trace, Steps step start trace s

/-- Every step of the run meets `cond` in the state it was taken in. -/
def Meets (cond : σ → α → Prop) (trace : Trace σ α) : Prop :=
  ∀ entry ∈ trace, cond entry.1 entry.2

/-- `P` holds in every state the run passes through, the last one included. -/
def Throughout (P : σ → Prop) (trace : Trace σ α) (finish : σ) : Prop :=
  P finish ∧ ∀ entry ∈ trace, P entry.1

@[simp] theorem meets_nil (cond : σ → α → Prop) : Meets cond [] := by
  simp [Meets]

@[simp] theorem meets_cons {cond : σ → α → Prop} {s : σ} {a : α}
    {trace : Trace σ α} :
    Meets cond ((s, a) :: trace) ↔ cond s a ∧ Meets cond trace := by
  simp [Meets]

/-- A step to a state with `P`. -/
theorem Throughout.cons {P : σ → Prop} {trace : Trace σ α} {s next : σ} {a : α}
    (h : Throughout P trace s) (hnext : P next) : Throughout P ((s, a) :: trace) next :=
  ⟨hnext, fun entry hmem => by
    rcases List.mem_cons.mp hmem with rfl | hmem
    · exact h.1
    · exact h.2 entry hmem⟩

/-- `P` holds in every state the run passes through, each taken with the run
that leads there. -/
def Always (P : Trace σ α → σ → Prop) : Trace σ α → σ → Prop
  | [], s => P [] s
  | (s, a) :: trace, next => P ((s, a) :: trace) next ∧ Always P trace s

/-- What always holds holds at the end. -/
theorem Always.finish {P : Trace σ α → σ → Prop} {trace : Trace σ α} {s : σ}
    (h : Always P trace s) : P trace s := by
  cases trace with
  | nil => exact h
  | cons entry trace => exact h.1

/-- What implies another relation at every state implies it along the run. -/
theorem Always.imp {P Q : Trace σ α → σ → Prop} {trace : Trace σ α} {s : σ}
    (himp : ∀ trace s, P trace s → Q trace s) (h : Always P trace s) : Always Q trace s := by
  induction trace generalizing s with
  | nil => exact himp [] s h
  | cons entry trace ih => exact ⟨himp _ s h.1, ih h.2⟩

/-- **Conditional invariants over histories, in all states.**  They hold in every
state the run passes through, each taken with the run that leads there. -/
theorem Steps.always_of_meets {cond : σ → α → Prop} (inv : Trace σ α → σ → Prop)
    (hstart : ∀ s, start s → inv [] s)
    (hkeep : ∀ trace s a next, inv trace s → cond s a → step s a = some next →
      inv ((s, a) :: trace) next)
    {trace : Trace σ α} {s : σ} (run : Steps step start trace s)
    (hmeets : Meets cond trace) : Always inv trace s := by
  induction run with
  | nil h => exact hstart _ h
  | @cons trace s a next run hstep ih =>
      obtain ⟨hcond, hrest⟩ := meets_cons.mp hmeets
      have hall := ih hrest
      exact ⟨hkeep trace s a next hall.finish hcond hstep, hall⟩

/-- **Conditional invariants over histories.**  A relation between the run so
far and its state, kept by every step that meets the condition, holds of
every run whose steps all meet it. -/
theorem Steps.history_of_meets {cond : σ → α → Prop}
    (inv : Trace σ α → σ → Prop)
    (hstart : ∀ s, start s → inv [] s)
    (hkeep : ∀ trace s a next, inv trace s → cond s a → step s a = some next →
      inv ((s, a) :: trace) next)
    {trace : Trace σ α} {s : σ} (run : Steps step start trace s)
    (hmeets : Meets cond trace) : inv trace s :=
  (run.always_of_meets inv hstart hkeep hmeets).finish

/-- **Conditional invariants.**  The same for a property of the state. -/
theorem Steps.invariant_of_meets {cond : σ → α → Prop} (inv : σ → Prop)
    (hstart : ∀ s, start s → inv s)
    (hkeep : ∀ s a next, inv s → cond s a → step s a = some next → inv next)
    {trace : Trace σ α} {s : σ} (run : Steps step start trace s)
    (hmeets : Meets cond trace) : inv s :=
  run.history_of_meets (fun _ s => inv s) hstart
    (fun _ s a next => hkeep s a next) hmeets

/-- **Invariants.**  What holds at the start and is kept by every step holds
in every state of every run. -/
theorem Steps.invariant (inv : σ → Prop)
    (hstart : ∀ s, start s → inv s)
    (hkeep : ∀ s a next, inv s → step s a = some next → inv next)
    {trace : Trace σ α} {s : σ} (run : Steps step start trace s) : inv s :=
  run.invariant_of_meets inv hstart
    (fun s a next hinv (_ : True) hstep => hkeep s a next hinv hstep) (by simp [Meets])

/-- **Conditional invariants of all states.**  They hold in every state the run
passes through. -/
theorem Steps.throughout_of_meets {cond : σ → α → Prop} (inv : σ → Prop)
    (hstart : ∀ s, start s → inv s)
    (hkeep : ∀ s a next, inv s → cond s a → step s a = some next → inv next)
    {trace : Trace σ α} {s : σ} (run : Steps step start trace s)
    (hmeets : Meets cond trace) : Throughout inv trace s := by
  induction run with
  | nil h => exact ⟨hstart _ h, by simp⟩
  | @cons trace s a next run hstep ih =>
      obtain ⟨hcond, hrest⟩ := meets_cons.mp hmeets
      have hall := ih hrest
      exact hall.cons (hkeep s a next hall.1 hcond hstep)

/-- **Exact conditions.**  Let `base` be an invariant and suppose that, from a
state with `P`, a step leads to a state with `P` exactly when it meets the
condition.  Then a run has `P` throughout exactly when all its steps meet the
condition. -/
theorem Steps.throughout_iff_meets {cond : σ → α → Prop} (base P : σ → Prop)
    (hbase : ∀ s, start s → base s)
    (hkeep : ∀ s a next, base s → step s a = some next → base next)
    (hstart : ∀ s, start s → P s)
    (hexact : ∀ s a next, base s → P s → step s a = some next →
      (P next ↔ cond s a))
    {trace : Trace σ α} {s : σ} (run : Steps step start trace s) :
    Throughout P trace s ↔ Meets cond trace := by
  induction run with
  | nil h => simp [Throughout, hstart _ h]
  | @cons trace s a next run hstep ih =>
      have hb := run.invariant base hbase hkeep
      rw [meets_cons, ← ih]
      constructor
      · intro hthroughout
        obtain ⟨hnext, hall⟩ := hthroughout
        have hs : P s := hall (s, a) List.mem_cons_self
        exact ⟨(hexact s a next hb hs hstep).mp hnext, hs,
          fun entry hmem => hall entry (List.mem_cons_of_mem _ hmem)⟩
      · intro hmeets
        obtain ⟨hcond, hall⟩ := hmeets
        exact hall.cons ((hexact s a next hb hall.1 hstep).mpr hcond)

/-- A property that no step restores holds throughout a run just when it holds
at the end. -/
theorem Steps.throughout_iff_finish {P : σ → Prop}
    (hback : ∀ s a next, step s a = some next → P next → P s)
    {trace : Trace σ α} {s : σ} (run : Steps step start trace s) :
    Throughout P trace s ↔ P s := by
  refine ⟨fun h => h.1, fun hfinish => ?_⟩
  induction run with
  | nil _ => exact ⟨hfinish, by simp⟩
  | cons run hstep ih => exact (ih (hback _ _ _ hstep hfinish)).cons hfinish

/-- Two conditions that agree on the steps taken from states with an invariant
are met by the same runs. -/
theorem Steps.meets_iff_meets {cond cond' : σ → α → Prop} (base : σ → Prop)
    (hbase : ∀ s, start s → base s)
    (hkeep : ∀ s a next, base s → step s a = some next → base next)
    (hexact : ∀ s a next, base s → step s a = some next → (cond s a ↔ cond' s a))
    {trace : Trace σ α} {s : σ} (run : Steps step start trace s) :
    Meets cond trace ↔ Meets cond' trace := by
  induction run with
  | nil h => simp
  | @cons trace s a next run hstep ih =>
      rw [meets_cons, meets_cons, ih, hexact s a next (run.invariant base hbase hkeep) hstep]

/-- Every step of the run meets `cond`, which may look at the run before it. -/
def Along (cond : Trace σ α → σ → α → Prop) : Trace σ α → Prop
  | [] => True
  | (s, a) :: trace => cond trace s a ∧ Along cond trace

instance Along.decidable {cond : Trace σ α → σ → α → Prop}
    [∀ trace s a, Decidable (cond trace s a)] : ∀ trace, Decidable (Along cond trace)
  | [] => inferInstanceAs (Decidable True)
  | (_, _) :: trace =>
      have : Decidable (Along cond trace) := Along.decidable trace
      inferInstanceAs (Decidable (_ ∧ _))

/-- A condition that does not look at the run before the step. -/
theorem along_iff_meets {cond : σ → α → Prop} {trace : Trace σ α} :
    Along (fun _ s a => cond s a) trace ↔ Meets cond trace := by
  induction trace with
  | nil => exact iff_of_true trivial (meets_nil cond)
  | cons entry trace ih => rw [Along, meets_cons, ih]

/-- A trace meets two conditions when it meets each of them. -/
theorem meets_and {cond cond' : σ → α → Prop} {trace : Trace σ α} :
    Meets (fun s a => cond s a ∧ cond' s a) trace ↔ Meets cond trace ∧ Meets cond' trace :=
  forall₂_and

/-- **Exact conditions over histories.**  Let `base` be kept by every step, and
suppose that, from a state with `P`, a step leads to a state with `P` exactly
when it meets the condition.  Then a run always has `P` exactly when it meets
the condition all along. -/
theorem Steps.always_iff_along {cond : Trace σ α → σ → α → Prop} (base P : Trace σ α → σ → Prop)
    (hbase : ∀ s, start s → base [] s)
    (hkeep : ∀ trace s a next, base trace s → step s a = some next →
      base ((s, a) :: trace) next)
    (hstart : ∀ s, start s → P [] s)
    (hexact : ∀ trace s a next, base trace s → P trace s → step s a = some next →
      (P ((s, a) :: trace) next ↔ cond trace s a))
    {trace : Trace σ α} {s : σ} (run : Steps step start trace s) :
    Always P trace s ↔ Along cond trace := by
  have hinv : ∀ {trace s}, Steps step start trace s → base trace s := fun run =>
    run.history_of_meets base hbase (fun trace s a next h (_ : True) => hkeep trace s a next h)
      (by simp [Meets])
  induction run with
  | nil h => exact iff_of_true (hstart _ h) trivial
  | @cons trace s a next run hstep ih =>
      constructor
      · intro h
        exact ⟨(hexact trace s a next (hinv run) h.2.finish hstep).mp h.1, ih.mp h.2⟩
      · intro h
        have hs := ih.mpr h.2
        exact ⟨(hexact trace s a next (hinv run) hs.finish hstep).mpr h.1, hs⟩

/-- Carry out a list of actions, the first one first. -/
def perform (step : σ → α → Option σ) : List α → σ → Option σ
  | [], s => some s
  | a :: actions, s => (step s a).bind (perform step actions)

/-- Carrying out actions extends a run. -/
theorem Steps.perform {trace : Trace σ α} {s : σ}
    (run : Steps step start trace s) {actions : List α} {finish : σ}
    (h : Run.perform step actions s = some finish) :
    ∃ more, Steps step start (more ++ trace) finish ∧
      (more.map Prod.snd).reverse = actions := by
  induction actions generalizing s trace with
  | nil =>
      obtain rfl : s = finish := by simpa [Run.perform] using h
      exact ⟨[], by simpa using run, rfl⟩
  | cons a actions ih =>
      obtain ⟨next, hstep, hrest⟩ := Option.bind_eq_some_iff.mp h
      obtain ⟨more, hrun, hmore⟩ := ih (run.cons hstep) hrest
      exact ⟨more ++ [(s, a)], by simpa using hrun, by simp [hmore]⟩

/-- A run may be regarded as one from more start states. -/
theorem Steps.of_start {start' : σ → Prop} {trace : Trace σ α} {s : σ}
    (run : Steps step start trace s) (himp : ∀ s, start s → start' s) :
    Steps step start' trace s := by
  induction run with
  | nil hstart => exact .nil (himp _ hstart)
  | cons run hstep ih => exact ih.cons hstep

/-- Carrying out actions is a run from the state they are carried out in. -/
theorem steps_of_perform {s finish : σ} {actions : List α}
    (h : Run.perform step actions s = some finish) :
    ∃ trace, Steps step (· = s) trace finish ∧ (trace.map Prod.snd).reverse = actions := by
  have hnil : Steps step (· = s) [] s := .nil rfl
  obtain ⟨trace, hrun, hactions⟩ := hnil.perform h
  rw [List.append_nil] at hrun
  exact ⟨trace, hrun, hactions⟩

/-- The abstract actions a run stands for, the first one first. -/
def eventsOf {β : Type*} (events : σ → α → List β) : Trace σ α → List β
  | [] => []
  | (s, a) :: trace => eventsOf events trace ++ events s a

/-- A list of actions and then another one. -/
theorem perform_append {τ β : Type*} {astep : τ → β → Option τ} (first second : List β) (t : τ) :
    perform astep (first ++ second) t = (perform astep first t).bind (perform astep second) := by
  induction first generalizing t with
  | nil => rfl
  | cons b first ih =>
      simp only [List.cons_append, perform]
      cases astep t b with
      | none => rfl
      | some next => exact ih next

/-- **Forward simulation.**  If each step of a machine is matched by abstract
actions that keep the two states related, so is each run: from any abstract
state related to its start, its abstract actions can be carried out, and they
lead to a state related to its end. -/
theorem Steps.refines {τ β : Type*} {astep : τ → β → Option τ} (related : σ → τ → Prop)
    (events : σ → α → List β)
    (hstep : ∀ s a next t, related s t → step s a = some next →
      ∃ t', Run.perform astep (events s a) t = some t' ∧ related next t')
    {first : σ} {t : τ} (hfirst : related first t) {trace : Trace σ α} {s : σ}
    (run : Steps step (· = first) trace s) :
    ∃ t', Run.perform astep (eventsOf events trace) t = some t' ∧ related s t' := by
  induction run with
  | nil hstart => exact ⟨t, rfl, hstart ▸ hfirst⟩
  | @cons trace s a next run hstep' ih =>
      obtain ⟨u, hrun, hu⟩ := ih
      obtain ⟨t', hmore, ht'⟩ := hstep s a next u hu hstep'
      refine ⟨t', ?_, ht'⟩
      rw [eventsOf, perform_append, hrun]
      exact hmore

/-- **Views.**  Steps that do not mind how the state is viewed make the same runs under
every view. -/
theorem Steps.viewed {τ : Type*} {step' : τ → α → Option τ} {f : σ → τ} {cond : σ → α → Prop}
    (h : ∀ s a, cond s a → step' (f s) a = (step s a).map f) {first : σ} {trace : Trace σ α}
    {s : σ} (run : Steps step (· = first) trace s) (hmeets : Meets cond trace) :
    Steps step' (· = f first) (trace.map fun entry => (f entry.1, entry.2)) (f s) := by
  induction run with
  | nil hstart => exact .nil (congrArg f hstart)
  | @cons trace s a next run hstep ih =>
      obtain ⟨hcond, hrest⟩ := meets_cons.mp hmeets
      exact (ih hrest).cons (by rw [h s a hcond, hstep, Option.map_some])

/-- What holds throughout a run holds where it starts. -/
theorem Steps.throughout_first {P : σ → Prop} {first : σ} {trace : Trace σ α} {s : σ}
    (run : Steps step (· = first) trace s) (h : Throughout P trace s) : P first := by
  induction run with
  | nil hstart => exact hstart ▸ h.1
  | @cons trace s a next run hstep ih =>
      exact ih ⟨h.2 _ List.mem_cons_self, fun entry hmem => h.2 entry (List.mem_cons_of_mem _ hmem)⟩

/-- The start of a run. -/
theorem Steps.first {trace : Trace σ α} {s : σ} (run : Steps step start trace s) :
    ∃ first, start first ∧ Steps step (· = first) trace s := by
  induction run with
  | nil hstart => exact ⟨_, hstart, .nil rfl⟩
  | cons run hstep ih =>
      obtain ⟨first, hfirst, run⟩ := ih
      exact ⟨first, hfirst, run.cons hstep⟩

/-- A concrete run is given by its actions: if they can be carried out from a
start state and the result passes the test `p`, some run ends in a state that
passes it. -/
theorem exists_steps_of_perform (step : σ → α → Option σ) {s : σ} (hstart : start s)
    (actions : List α) (p : σ → Bool) (h : (Run.perform step actions s).any p = true) :
    ∃ trace finish, Steps step start trace finish ∧ p finish = true := by
  obtain ⟨finish, hfinish, hp⟩ := (Option.any_eq_true _ _).mp h
  obtain ⟨more, hrun, _⟩ := (Steps.nil hstart).perform hfinish
  exact ⟨_, finish, hrun, hp⟩

/-- Two concrete runs, compared by the test `p`. -/
theorem exists_two_steps_of_perform (step : σ → α → Option σ) {s : σ} (hstart : start s)
    (actions actions' : List α) (p : σ → σ → Bool)
    (h : ((Run.perform step actions s).any fun finish =>
      (Run.perform step actions' s).any (p finish)) = true) :
    ∃ trace finish trace' finish', Steps step start trace finish ∧
      Steps step start trace' finish' ∧ p finish finish' = true := by
  obtain ⟨trace, finish, run, htest⟩ := exists_steps_of_perform step hstart actions _ h
  obtain ⟨trace', finish', run', hp⟩ := exists_steps_of_perform step hstart actions' _ htest
  exact ⟨trace, finish, trace', finish', run, run', hp⟩

/-- Carry out a list of actions after a run so far, and record them. -/
def record (step : σ → α → Option σ) :
    List α → Trace σ α × σ → Option (Trace σ α × σ)
  | [], done => some done
  | a :: actions, (trace, s) =>
      (step s a).bind fun next => record step actions ((s, a) :: trace, next)

/-- What is recorded is a run. -/
theorem Steps.record {trace : Trace σ α} {s : σ} (run : Steps step start trace s)
    {actions : List α} {recorded : Trace σ α × σ}
    (h : Run.record step actions (trace, s) = some recorded) :
    Steps step start recorded.1 recorded.2 := by
  induction actions generalizing s trace with
  | nil =>
      obtain rfl : (trace, s) = recorded := by simpa [Run.record] using h
      exact run
  | cons a actions ih =>
      obtain ⟨next, hstep, hrest⟩ := Option.bind_eq_some_iff.mp h
      exact ih (run.cons hstep) hrest

/-- A concrete run is given by its actions, and tested together with its
history. -/
theorem exists_steps_of_record (step : σ → α → Option σ) {s : σ} (hstart : start s)
    (actions : List α) (p : Trace σ α → σ → Bool)
    (h : (Run.record step actions ([], s)).any (fun recorded => p recorded.1 recorded.2) = true) :
    ∃ trace finish, Steps step start trace finish ∧ p trace finish = true := by
  obtain ⟨recorded, hrecorded, hp⟩ := (Option.any_eq_true _ _).mp h
  exact ⟨recorded.1, recorded.2, (Steps.nil hstart).record hrecorded, hp⟩

/-- The history, latest entry first, has entries of the given kinds in the
given order, possibly with others between them. -/
def InOrder {β : Type*} (kinds : List (β → Prop)) (history : List β) : Prop :=
  ∃ entries, List.Sublist entries history ∧
    List.Forall₂ (fun kind entry => kind entry) kinds entries

section InOrder

variable {β : Type*} {kind : β → Prop} {kinds : List (β → Prop)} {history longer : List β}

/-- Nothing is in order in every history. -/
theorem InOrder.nil (history : List β) : InOrder [] history :=
  ⟨[], List.nil_sublist _, .nil⟩

/-- What has happened stays in the history. -/
theorem InOrder.mono (h : InOrder kinds history) (hsub : List.Sublist history longer) :
    InOrder kinds longer := by
  obtain ⟨entries, hentries, hkinds⟩ := h
  exact ⟨entries, hentries.trans hsub, hkinds⟩

/-- The next kind of entry is added at the front. -/
theorem InOrder.cons {entry : β} (hentry : kind entry) (h : InOrder kinds history) :
    InOrder (kind :: kinds) (entry :: history) := by
  obtain ⟨entries, hentries, hkinds⟩ := h
  exact ⟨entry :: entries, hentries.cons_cons entry, .cons hentry hkinds⟩

end InOrder

/-- The machine that refuses every action for which the condition fails. -/
def guarded (step : σ → α → Option σ) (cond : σ → α → Prop)
    [∀ s a, Decidable (cond s a)] (s : σ) (a : α) : Option σ :=
  if cond s a then step s a else none

/-- A guarded step is a step that meets the guard. -/
theorem guarded_eq_some {cond : σ → α → Prop} [∀ s a, Decidable (cond s a)] {s next : σ} {a : α} :
    guarded step cond s a = some next ↔ cond s a ∧ step s a = some next := by
  unfold guarded
  by_cases hcond : cond s a <;> simp [hcond]

/-- The runs of the guarded machine are the runs that meet the condition. -/
theorem Steps.of_guarded {cond : σ → α → Prop} [∀ s a, Decidable (cond s a)]
    {trace : Trace σ α} {s : σ} (run : Steps (guarded step cond) start trace s) :
    Steps step start trace s ∧ Meets cond trace := by
  induction run with
  | nil hstart => exact ⟨.nil hstart, meets_nil cond⟩
  | @cons trace s a next run hstep ih =>
      obtain ⟨hcond, hstep⟩ := guarded_eq_some.mp hstep
      exact ⟨ih.1.cons hstep, meets_cons.mpr ⟨hcond, ih.2⟩⟩

/-- A run that meets the guard is a run of the guarded steps. -/
theorem Steps.to_guarded {cond : σ → α → Prop} [∀ s a, Decidable (cond s a)]
    {trace : Trace σ α} {s : σ} (run : Steps step start trace s) (hmeets : Meets cond trace) :
    Steps (guarded step cond) start trace s := by
  induction run with
  | nil hstart => exact .nil hstart
  | @cons trace s a next run hstep ih =>
      obtain ⟨hcond, hrest⟩ := meets_cons.mp hmeets
      exact (ih hrest).cons (guarded_eq_some.mpr ⟨hcond, hstep⟩)

/-- The same for runs whose steps are to meet a condition. -/
theorem exists_steps_meeting (step : σ → α → Option σ) (cond : σ → α → Prop)
    [∀ s a, Decidable (cond s a)] {s : σ} (hstart : start s) (actions : List α) (p : σ → Bool)
    (h : (Run.perform (guarded step cond) actions s).any p = true) :
    ∃ trace finish, Steps step start trace finish ∧ Meets cond trace ∧ p finish = true := by
  obtain ⟨trace, finish, hrun, hp⟩ := exists_steps_of_perform _ hstart actions p h
  exact ⟨trace, finish, hrun.of_guarded.1, hrun.of_guarded.2, hp⟩

end Run
