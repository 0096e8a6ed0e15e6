import Mathlib.Data.List.Basic

/-!
# Outcomes of procedures that return, throw or fault

A C++ procedure that changes the program state `σ` may return, may leave by an
exception `ε` (the changes made so far remain), or may reach a point where the
language defines no further behaviour, recorded as a fault `φ`.  Sequencing,
catch lists and loops over a list are defined on these outcomes, with the
rules by which a property of the state is carried through them.
-/

/-- How a procedure call ends. -/
inductive Outcome (σ ε φ : Type*) where
  | done (s : σ)
  | thrown (e : ε) (s : σ)
  | fault (f : φ)

namespace Outcome

variable {σ ε φ β : Type*}

/-- Go on only when the first procedure has returned. -/
def andThen (first : Outcome σ ε φ) (next : σ → Outcome σ ε φ) : Outcome σ ε φ :=
  match first with
  | done s => next s
  | thrown e s => thrown e s
  | fault f => fault f

/-- A `try` block whose handlers for the exceptions in `caught` are empty. -/
def catching (caught : ε → Bool) (body : Outcome σ ε φ) : Outcome σ ε φ :=
  match body with
  | thrown e s => if caught e then done s else thrown e s
  | done s => done s
  | fault f => fault f

/-- A loop over a list, left early by an exception or a fault. -/
def each (body : β → σ → Outcome σ ε φ) : List β → σ → Outcome σ ε φ
  | [], s => done s
  | x :: xs, s => (body x s).andThen (each body xs)

/-- Go on with the result of a lookup; using one that failed is a fault. -/
def require (lookup : Option β) (failure : φ) (next : β → Outcome σ ε φ) : Outcome σ ε φ :=
  match lookup with
  | some x => next x
  | none => fault failure

/-- The state in which the procedure left, if it left at all. -/
def state? : Outcome σ ε φ → Option σ
  | done s => some s
  | thrown _ s => some s
  | fault _ => none

/-- The same ending with another view of the state. -/
def mapState {τ : Type*} (f : σ → τ) : Outcome σ ε φ → Outcome τ ε φ
  | done s => done (f s)
  | thrown e s => thrown e (f s)
  | fault failure => fault failure

@[simp] theorem andThen_done (s : σ) (next : σ → Outcome σ ε φ) :
    (done s).andThen next = next s := rfl

@[simp] theorem andThen_thrown (e : ε) (s : σ) (next : σ → Outcome σ ε φ) :
    (thrown e s).andThen next = thrown e s := rfl

@[simp] theorem andThen_fault (f : φ) (next : σ → Outcome σ ε φ) :
    (fault f).andThen next = fault f := rfl

@[simp] theorem catching_done (caught : ε → Bool) (s : σ) :
    (done s : Outcome σ ε φ).catching caught = done s := rfl

@[simp] theorem catching_fault (caught : ε → Bool) (f : φ) :
    (fault f : Outcome σ ε φ).catching caught = fault f := rfl

@[simp] theorem catching_thrown (caught : ε → Bool) (e : ε) (s : σ) :
    (thrown e s : Outcome σ ε φ).catching caught =
      if caught e then done s else thrown e s := rfl

@[simp] theorem require_some (x : β) (failure : φ) (next : β → Outcome σ ε φ) :
    require (some x) failure next = next x := rfl

@[simp] theorem require_none (failure : φ) (next : β → Outcome σ ε φ) :
    require none failure next = fault failure := rfl

@[simp] theorem each_nil (body : β → σ → Outcome σ ε φ) (s : σ) :
    each body [] s = done s := rfl

@[simp] theorem each_cons (body : β → σ → Outcome σ ε φ) (x : β) (xs : List β)
    (s : σ) : each body (x :: xs) s = (body x s).andThen (each body xs) := rfl

/-- The state left behind, by a return or by an exception, is related to the
state before by `R`. -/
def Leaves (R : σ → Prop) (outcome : Outcome σ ε φ) : Prop :=
  ∀ s, outcome.state? = some s → R s

@[simp] theorem leaves_done {R : σ → Prop} {s : σ} :
    (done s : Outcome σ ε φ).Leaves R ↔ R s := by simp [Leaves, state?]

@[simp] theorem leaves_thrown {R : σ → Prop} {e : ε} {s : σ} :
    (thrown e s : Outcome σ ε φ).Leaves R ↔ R s := by simp [Leaves, state?]

@[simp] theorem leaves_fault {R : σ → Prop} {f : φ} :
    (fault f : Outcome σ ε φ).Leaves R := by simp [Leaves, state?]

/-- Weaken what is known of the state left behind. -/
theorem Leaves.imp {R S : σ → Prop} {outcome : Outcome σ ε φ}
    (h : outcome.Leaves R) (himp : ∀ s, R s → S s) : outcome.Leaves S :=
  fun s hs => himp s (h s hs)

/-- Sequencing: the second procedure starts where the first returned, and the
first may leave more than is asked of the whole. -/
theorem Leaves.andThen_of_imp {R S : σ → Prop} {first : Outcome σ ε φ}
    {next : σ → Outcome σ ε φ} (hfirst : first.Leaves R) (himp : ∀ s, R s → S s)
    (hnext : ∀ s, R s → (next s).Leaves S) : (first.andThen next).Leaves S := by
  cases first with
  | done s => exact hnext s (leaves_done.mp hfirst)
  | thrown e s => exact hfirst.imp himp
  | fault f => exact leaves_fault

/-- Sequencing, with the same property at every point. -/
theorem Leaves.andThen {R : σ → Prop} {first : Outcome σ ε φ}
    {next : σ → Outcome σ ε φ} (hfirst : first.Leaves R)
    (hnext : ∀ s, R s → (next s).Leaves R) : (first.andThen next).Leaves R :=
  hfirst.andThen_of_imp (fun _ => id) hnext

/-- What holds for every result of a lookup holds after the lookup. -/
theorem Leaves.require {R : σ → Prop} {lookup : Option β} {failure : φ}
    {next : β → Outcome σ ε φ} (hnext : ∀ x, lookup = some x → (next x).Leaves R) :
    (require lookup failure next).Leaves R := by
  cases lookup with
  | none => exact leaves_fault
  | some x => exact hnext x rfl

/-- Both branches of a test leave what the test is to leave. -/
theorem Leaves.ite {R : σ → Prop} {c : Prop} [Decidable c] {yes no : Outcome σ ε φ}
    (hyes : c → yes.Leaves R) (hno : ¬ c → no.Leaves R) : (if c then yes else no).Leaves R := by
  by_cases h : c
  · rw [if_pos h]
    exact hyes h
  · rw [if_neg h]
    exact hno h

/-- Catching exceptions does not change the state left behind. -/
@[simp] theorem leaves_catching {R : σ → Prop} {caught : ε → Bool}
    {body : Outcome σ ε φ} : (body.catching caught).Leaves R ↔ body.Leaves R := by
  cases body with
  | thrown e s => by_cases h : caught e <;> simp [h]
  | done s => simp
  | fault f => simp

/-- **Loop rule.**  What every iteration preserves, the loop preserves. -/
theorem Leaves.each {R : σ → Prop} {body : β → σ → Outcome σ ε φ}
    {xs : List β} (hbody : ∀ x ∈ xs, ∀ s, R s → (body x s).Leaves R)
    {s : σ} (hs : R s) : (each body xs s).Leaves R := by
  induction xs generalizing s with
  | nil => exact leaves_done.mpr hs
  | cons x xs ih =>
      exact (hbody x List.mem_cons_self s hs).andThen fun s' hs' =>
        ih (fun y hy => hbody y (List.mem_cons_of_mem _ hy)) hs'

/-- Every exception that leaves the procedure satisfies `E`. -/
def ThrowsOnly (E : ε → Prop) (outcome : Outcome σ ε φ) : Prop :=
  ∀ e s, outcome = thrown e s → E e

@[simp] theorem throwsOnly_done {E : ε → Prop} {s : σ} :
    (done s : Outcome σ ε φ).ThrowsOnly E := by simp [ThrowsOnly]

@[simp] theorem throwsOnly_thrown {E : ε → Prop} {e : ε} {s : σ} :
    (thrown e s : Outcome σ ε φ).ThrowsOnly E ↔ E e := by simp [ThrowsOnly]

@[simp] theorem throwsOnly_fault {E : ε → Prop} {f : φ} :
    (fault f : Outcome σ ε φ).ThrowsOnly E := by simp [ThrowsOnly]

/-- Both parts of a sequence throw only such exceptions. -/
theorem ThrowsOnly.andThen {E : ε → Prop} {first : Outcome σ ε φ}
    {next : σ → Outcome σ ε φ} (hfirst : first.ThrowsOnly E)
    (hnext : ∀ s, (next s).ThrowsOnly E) : (first.andThen next).ThrowsOnly E := by
  cases first with
  | done s => exact hnext s
  | thrown e s => exact hfirst
  | fault f => exact throwsOnly_fault

/-- The rounds of a loop throw only such exceptions. -/
theorem ThrowsOnly.each {E : ε → Prop} {body : β → σ → Outcome σ ε φ}
    (hbody : ∀ x s, (body x s).ThrowsOnly E) (xs : List β) (s : σ) :
    (each body xs s).ThrowsOnly E := by
  induction xs generalizing s with
  | nil => exact throwsOnly_done
  | cons x xs ih => exact (hbody x s).andThen ih

/-- A lookup throws nothing itself. -/
theorem ThrowsOnly.require {E : ε → Prop} {lookup : Option β} {failure : φ}
    {next : β → Outcome σ ε φ} (hnext : ∀ x, lookup = some x → (next x).ThrowsOnly E) :
    (require lookup failure next).ThrowsOnly E := by
  cases lookup with
  | none => exact throwsOnly_fault
  | some x => exact hnext x rfl

/-- Each branch is judged with its condition at hand. -/
theorem ThrowsOnly.ite {E : ε → Prop} {c : Prop} [Decidable c] {yes no : Outcome σ ε φ}
    (hyes : c → yes.ThrowsOnly E) (hno : ¬ c → no.ThrowsOnly E) :
    (if c then yes else no).ThrowsOnly E := by
  by_cases h : c
  · rw [if_pos h]
    exact hyes h
  · rw [if_neg h]
    exact hno h

/-- What leaves a `try` block is not in its catch list. -/
theorem throwsOnly_catching (caught : ε → Bool) (body : Outcome σ ε φ) :
    (body.catching caught).ThrowsOnly fun e => caught e = false := by
  intro e s h
  cases body with
  | done s' => cases h
  | fault f => cases h
  | thrown e' s' =>
      by_cases hcaught : caught e' = true
      · simp [hcaught] at h
      · obtain ⟨rfl, -⟩ : e' = e ∧ s' = s := by simpa [hcaught] using h
        simpa using hcaught

/-- A `try` block returns when its body does, or when what the body throws is
caught. -/
theorem catching_eq_done {caught : ε → Bool} {body : Outcome σ ε φ} {s : σ}
    (h : body.catching caught = done s) :
    body = done s ∨ ∃ e, caught e = true ∧ body = thrown e s := by
  cases body with
  | done s' => exact Or.inl h
  | fault f => cases h
  | thrown e s' =>
      rw [catching_thrown] at h
      split at h
      · cases h
        exact Or.inr ⟨e, ‹_›, rfl⟩
      · cases h

/-- A catch list changes nothing for a procedure that throws none of it. -/
theorem ThrowsOnly.catching_eq {caught : ε → Bool} {body : Outcome σ ε φ}
    (h : body.ThrowsOnly fun e => caught e = false) : body.catching caught = body := by
  cases body with
  | done s => rfl
  | fault f => rfl
  | thrown e s => rw [catching_thrown, h e s rfl, if_neg Bool.false_ne_true]

/-- Sequencing after a procedure that does not throw. -/
theorem Leaves.andThen_of_throwsOnly {R S : σ → Prop} {first : Outcome σ ε φ}
    {next : σ → Outcome σ ε φ} (hfirst : first.Leaves R) (hnone : first.ThrowsOnly fun _ => False)
    (hnext : ∀ s, R s → (next s).Leaves S) : (first.andThen next).Leaves S := by
  cases first with
  | done s => exact hnext s (leaves_done.mp hfirst)
  | thrown e s => exact (hnone e s rfl).elim
  | fault f => exact leaves_fault

/-- Sequences whose parts do not mind the view. -/
theorem andThen_mapState {τ : Type*} {f : σ → τ} {next : σ → Outcome σ ε φ}
    {next' : τ → Outcome τ ε φ} (h : ∀ s, next' (f s) = (next s).mapState f)
    (first : Outcome σ ε φ) :
    (first.mapState f).andThen next' = (first.andThen next).mapState f := by
  cases first with
  | done s => exact h s
  | thrown e s => rfl
  | fault failure => rfl

/-- Loops whose bodies do not mind the view. -/
theorem each_mapState {τ : Type*} {f : σ → τ} {body : β → σ → Outcome σ ε φ}
    {body' : β → τ → Outcome τ ε φ} (h : ∀ x s, body' x (f s) = (body x s).mapState f)
    (xs : List β) (s : σ) : each body' xs (f s) = (each body xs s).mapState f := by
  induction xs generalizing s with
  | nil => rfl
  | cons x xs ih =>
      rw [each_cons, each_cons, h x s]
      exact andThen_mapState ih (body x s)

/-- Loops over the same list, whose bodies agree in the states they go through. -/
theorem each_congr {R : σ → Prop} {body body' : β → σ → Outcome σ ε φ} {xs : List β}
    (hsame : ∀ x ∈ xs, ∀ s, R s → body x s = body' x s)
    (hbody : ∀ x ∈ xs, ∀ s, R s → (body x s).Leaves R) {s : σ} (hs : R s) :
    each body xs s = each body' xs s := by
  induction xs generalizing s with
  | nil => rfl
  | cons x xs ih =>
      have hleaves := hbody x List.mem_cons_self s hs
      rw [each_cons, each_cons, ← hsame x List.mem_cons_self s hs]
      cases hfirst : body x s with
      | done s' =>
          rw [hfirst, leaves_done] at hleaves
          exact ih (fun y hy => hsame y (List.mem_cons_of_mem _ hy))
            (fun y hy => hbody y (List.mem_cons_of_mem _ hy)) hleaves
      | thrown e s' => rfl
      | fault f => rfl

/-- A loop has no fault that its body has not. -/
theorem each_ne_fault {R : σ → Prop} {body : β → σ → Outcome σ ε φ} {xs : List β} {f : φ}
    (hnot : ∀ x ∈ xs, ∀ s, R s → body x s ≠ fault f)
    (hbody : ∀ x ∈ xs, ∀ s, R s → (body x s).Leaves R) {s : σ} (hs : R s) :
    each body xs s ≠ fault f := by
  induction xs generalizing s with
  | nil => simp
  | cons x xs ih =>
      have hleaves := hbody x List.mem_cons_self s hs
      have hfirst := hnot x List.mem_cons_self s hs
      rw [each_cons]
      cases hdone : body x s with
      | done s' =>
          rw [hdone, leaves_done] at hleaves
          exact ih (fun y hy => hnot y (List.mem_cons_of_mem _ hy))
            (fun y hy => hbody y (List.mem_cons_of_mem _ hy)) hleaves
      | thrown e s' => simp
      | fault g =>
          rw [hdone] at hfirst
          exact hfirst

end Outcome

/-- How a call ends, whatever state it leaves. -/
inductive Ending (ε φ : Type*) where
  | returned
  | thrown (e : ε)
  | faulted (f : φ)
deriving DecidableEq

namespace Ending

variable {ε φ : Type*}

/-- What a catch list makes of an ending. -/
def caught (caught : ε → Bool) : Ending ε φ → Ending ε φ
  | .thrown e => if caught e then .returned else .thrown e
  | e => e

@[simp] theorem caught_returned (caught : ε → Bool) :
    (.returned : Ending ε φ).caught caught = .returned := rfl

@[simp] theorem caught_thrown (caught : ε → Bool) (e : ε) :
    (.thrown e : Ending ε φ).caught caught = if caught e then .returned else .thrown e := rfl

@[simp] theorem caught_faulted (caught : ε → Bool) (f : φ) :
    (.faulted f : Ending ε φ).caught caught = .faulted f := rfl

/-- Faults are not caught. -/
theorem caught_eq_faulted {catches : ε → Bool} {ending : Ending ε φ} {f : φ} :
    ending.caught catches = .faulted f ↔ ending = .faulted f := by
  cases ending with
  | returned => simp
  | thrown e => by_cases h : catches e <;> simp [h]
  | faulted g => simp

end Ending

namespace Outcome

variable {σ ε φ β : Type*}

/-- The ending of an outcome. -/
def ending : Outcome σ ε φ → Ending ε φ
  | done _ => .returned
  | thrown e _ => .thrown e
  | fault f => .faulted f

@[simp] theorem ending_done (s : σ) : (done s : Outcome σ ε φ).ending = .returned := rfl

@[simp] theorem ending_thrown (e : ε) (s : σ) :
    (thrown e s : Outcome σ ε φ).ending = .thrown e := rfl

@[simp] theorem ending_fault (f : φ) : (fault f : Outcome σ ε φ).ending = .faulted f := rfl

/-- Code that returns leaves a state. -/
theorem ending_eq_returned {outcome : Outcome σ ε φ} :
    outcome.ending = .returned ↔ ∃ s, outcome = done s := by
  cases outcome <;> simp

/-- An exception leaves a state too. -/
theorem ending_eq_thrown {outcome : Outcome σ ε φ} {e : ε} :
    outcome.ending = .thrown e ↔ ∃ s, outcome = thrown e s := by
  cases outcome <;> simp [eq_comm]

/-- A fault leaves none. -/
theorem ending_eq_faulted {outcome : Outcome σ ε φ} {f : φ} :
    outcome.ending = .faulted f ↔ outcome = fault f := by
  cases outcome <;> simp

/-- A test ends as the branch taken. -/
theorem ending_ite (c : Prop) [Decidable c] (yes no : Outcome σ ε φ) :
    (if c then yes else no).ending = if c then yes.ending else no.ending :=
  apply_ite ending c yes no

/-- A lookup, when all that follows it ends alike. -/
theorem ending_require {lookup : Option β} {failure : φ} {next : β → Outcome σ ε φ}
    {e : Ending ε φ} (hnext : ∀ x, lookup = some x → (next x).ending = e) :
    (require lookup failure next).ending = if lookup.isSome then e else .faulted failure := by
  cases lookup with
  | none => rfl
  | some x => exact hnext x rfl

/-- Catching exceptions and forgetting the state commute. -/
theorem ending_catching (caught : ε → Bool) (body : Outcome σ ε φ) :
    (body.catching caught).ending = body.ending.caught caught := by
  cases body with
  | done s => rfl
  | thrown e s => by_cases h : caught e <;> simp [h]
  | fault f => rfl

/-- A catch list changes nothing for a procedure that does not throw. -/
theorem ending_catching_of_not_thrown {caught : ε → Bool} {body : Outcome σ ε φ}
    (h : ∀ e, body.ending ≠ .thrown e) : (body.catching caught).ending = body.ending := by
  cases body with
  | done s => rfl
  | thrown e s => exact (h e rfl).elim
  | fault f => rfl

/-- A procedure that only prepares the state does not change how the next one
ends, if the next one ends alike from all states the first can leave. -/
theorem ending_andThen {R : σ → Prop} {first : Outcome σ ε φ} {next : σ → Outcome σ ε φ}
    {e : Ending ε φ} (hfirst : first.ending = .returned) (hleaves : first.Leaves R)
    (hnext : ∀ s, R s → (next s).ending = e) : (first.andThen next).ending = e := by
  obtain ⟨s, rfl⟩ := ending_eq_returned.mp hfirst
  exact hnext s (leaves_done.mp hleaves)

/-- A sequence whose first part does not return ends with it. -/
theorem ending_andThen_of_ne {first : Outcome σ ε φ} (next : σ → Outcome σ ε φ)
    (h : first.ending ≠ .returned) : (first.andThen next).ending = first.ending := by
  cases first with
  | done s => exact (h rfl).elim
  | thrown e s => rfl
  | fault f => rfl

end Outcome
