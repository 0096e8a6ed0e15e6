import Mathlib.Order.Lattice.Nat
import Mathlib.Data.Finset.Lattice.Fold
import IrcServers.Bircd.Server

/-!
# How `bircd` serves its descriptors

`check_fd` goes through the descriptors in increasing order and stops when `r` has
come down to zero.  But `r` counts a descriptor that is ready in both sets twice and
is lowered once for it.  The handlers change the table while the loop goes through
it: a client that hangs up leaves a free slot behind, and a new one takes a free
slot, perhaps the one that was just left.

This file says what a turn of the loop does, once, and derives from it that the
slots keep their handlers, that the loop serves what `select` reported, and when it
calls a handler that is not there.
-/

namespace Bircd

/-- The function `fct_read` points to in a slot of that type. -/
def FdType.readFct : FdType → Option ReadFct
  | .free => none
  | .serv => some .srvAccept
  | .client => some .clientRead

/-- The function `fct_write` points to in a slot of that type. -/
def FdType.writeFct : FdType → Option WriteFct
  | .free | .serv => none
  | .client => some .clientWrite

variable {e next middle : Env} {a : Action} {answer : Option Answer} {i : Fd}
  {trace : Run.Trace Env Action} {ready : Option (Finset Fd × Finset Fd)}

namespace Env

section Frames

variable (e : Env) (fd : Fd) (f : FdSlot → FdSlot)

@[simp] theorem setSlot_maxfd : (e.setSlot fd f).maxfd = e.maxfd := rfl

@[simp] theorem setSlot_r : (e.setSlot fd f).r = e.r := rfl

@[simp] theorem setSlot_fdRead : (e.setSlot fd f).fdRead = e.fdRead := rfl

@[simp] theorem setSlot_fdWrite : (e.setSlot fd f).fdWrite = e.fdWrite := rfl

@[simp] theorem setSlot_checking : (e.setSlot fd f).checking = e.checking := rfl

@[simp] theorem setSlot_sent : (e.setSlot fd f).sent = e.sent := rfl

@[simp] theorem setSlot_ending : (e.setSlot fd f).ending = e.ending := rfl

/-- The written slot changes, the others stay. -/
theorem setSlot_fds (i : Fd) :
    (e.setSlot fd f).fds i = if i = fd then f (e.fds fd) else e.fds i := by
  unfold setSlot
  by_cases hi : i = fd
  · simp [hi]
  · simp [hi]

end Frames

/-- The loop variables and the sets, which no handler touches. -/
structure SameLoop (e next : Env) : Prop where
  maxfd : next.maxfd = e.maxfd
  r : next.r = e.r
  fdRead : next.fdRead = e.fdRead
  fdWrite : next.fdWrite = e.fdWrite
  checking : next.checking = e.checking

/-- The same sets report the same descriptors. -/
theorem SameLoop.ready_iff (h : SameLoop e next) (i : Fd) : next.Ready i ↔ e.Ready i := by
  unfold Ready
  rw [h.fdRead, h.fdWrite]

/-- What a call of `fct_read` for the descriptor `i` does. -/
inductive Called (e : Env) (i : Fd) : Option Answer → Env → Prop
  | exited (hfct : (e.fds i).fctRead = some .srvAccept) :
      Called e i (some (.accepted none)) (e.halt .exited)
  | accepted (cs : Fd) (hfct : (e.fds i).fctRead = some .srvAccept) (hbelow : cs < e.maxfd)
      (hfree : (e.fds cs).type = .free) :
      Called e i (some (.accepted (some cs))) (e.srvAccept (some cs))
  | hungUp (data : Option Str) (hfct : (e.fds i).fctRead = some .clientRead)
      (hdata : data = none ∨ data = some []) :
      Called e i (some (.received data)) (e.setSlot i FdSlot.cleanFd)
  | received (data : Str) (hfct : (e.fds i).fctRead = some .clientRead) (hdata : data ≠ []) :
      Called e i (some (.received (some data))) (e.clientRead i (some data))
  | null (hfct : (e.fds i).fctRead = none) : Called e i none (e.halt .nullCall)

/-- The handler that is called is the one of the slot. -/
theorem called_of_callRead (h : e.callRead i answer = some next) : Called e i answer next := by
  unfold callRead at h
  split at h
  · rename_i cs hfct
    split at h
    · rename_i hcs
      cases h
      cases cs with
      | none => exact .exited hfct
      | some cs =>
          obtain ⟨hbelow, hfree⟩ := hcs cs rfl
          exact .accepted cs hfct hbelow hfree
    · cases h
  · rename_i data hfct
    split at h
    · cases h
      rcases data with _ | _ | ⟨c, data⟩
      · exact .hungUp none hfct (Or.inl rfl)
      · exact .hungUp (some []) hfct (Or.inr rfl)
      · exact .received (c :: data) hfct (by simp)
    · cases h
  · rename_i hfct
    cases h
    exact .null hfct
  · cases h

/-- No handler touches the loop. -/
theorem Called.sameLoop (h : Called e i answer next) : SameLoop e next := by
  cases h with
  | exited | accepted | hungUp | null => exact ⟨rfl, rfl, rfl, rfl, rfl⟩
  | received data hfct hdata =>
      rcases data with _ | ⟨c, data⟩
      · exact (hdata rfl).elim
      · exact ⟨rfl, rfl, rfl, rfl, rfl⟩

/-- What a turn of the loop in `check_fd` does. -/
inductive Turned (e : Env) : Option Answer → Env → Prop
  | pastFdSet (hpast : ¬ e.checking < fdSetSize) : Turned e none (e.halt .pastFdSet)
  | unread (hbit : e.checking < fdSetSize) (hunread : e.checking ∉ e.fdRead) :
      Turned e none e.checkWrite
  | ended {answer : Option Answer} {middle : Env} (hbit : e.checking < fdSetSize)
      (hread : e.checking ∈ e.fdRead) (hcalled : Called e e.checking answer middle)
      (hended : middle.ending ≠ none) : Turned e answer middle
  | served {answer : Option Answer} {middle : Env} (hbit : e.checking < fdSetSize)
      (hread : e.checking ∈ e.fdRead) (hcalled : Called e e.checking answer middle)
      (hgoing : middle.ending = none) : Turned e answer middle.checkWrite

/-- A turn passes by, or calls the handlers of its descriptor. -/
theorem turned_of_checkFd (hgoing : e.ending = none) (h : e.checkFd answer = some next) :
    Turned e answer next := by
  unfold checkFd at h
  split at h
  · rename_i hbit
    obtain ⟨middle, hmiddle, rfl⟩ := Option.map_eq_some_iff.mp h
    unfold checkRead at hmiddle
    split at hmiddle
    · rename_i hread
      have hcalled := called_of_callRead hmiddle
      split
      · exact .served hbit hread hcalled ‹_›
      · exact .ended hbit hread hcalled ‹_›
    · rename_i hunread
      split at hmiddle
      · rename_i hanswer
        cases hmiddle
        rw [if_pos hgoing, hanswer]
        exact .unread hbit hunread
      · cases hmiddle
  · split at h
    · rename_i hpast hanswer
      cases h
      rw [hanswer]
      exact .pastFdSet hpast
    · cases h

/-- The turn goes on to the next descriptor. -/
def turnOver (e : Env) : Env :=
  { e with
    r := if e.Ready e.checking then e.r - 1 else e.r
    checking := e.checking + 1 }

/-- The end of a turn: `fct_write` is missing, or the loop goes on. -/
theorem checkWrite_cases (hgoing : e.ending = none) :
    (e.checking ∈ e.fdWrite ∧ (e.fds e.checking).fctWrite = none ∧
      e.checkWrite = e.halt .nullCall) ∨
    ((e.checking ∈ e.fdWrite → (e.fds e.checking).fctWrite ≠ none) ∧
      e.checkWrite = e.turnOver) := by
  unfold checkWrite
  by_cases hwrite : e.checking ∈ e.fdWrite
  · cases hfct : (e.fds e.checking).fctWrite with
    | none =>
        refine Or.inl ⟨hwrite, rfl, ?_⟩
        simp [hwrite, callWrite, hfct, halt]
    | some fct =>
        refine Or.inr ⟨fun _ => by simp, ?_⟩
        simp [hwrite, callWrite, hfct, hgoing, turnOver]
  · refine Or.inr ⟨fun h => (hwrite h).elim, ?_⟩
    simp [hwrite, hgoing, turnOver]

/-- `init_fd` and `do_select`, if all descriptors in use have a bit. -/
theorem select_of_bits (hgoing : e.ending = none) (hbits : ∀ i ∈ e.watched, i < fdSetSize) :
    e.select ready = { e.initFd.doSelect ready with checking := 0 } := by
  unfold select
  rw [if_pos]
  unfold initFd
  rw [if_pos hbits]
  exact hgoing

/-- A descriptor without a bit in the sets is the end of `FD_SET`. -/
theorem select_of_no_bit (hnone : ¬ ∀ i ∈ e.watched, i < fdSetSize) :
    e.select ready = e.halt .pastFdSet := by
  unfold select initFd
  rw [if_neg hnone]
  rfl

end Env

/-- One step, by what it does. -/
inductive Stepped (e : Env) : Action → Env → Prop
  | select (ready : Option (Finset Fd × Finset Fd)) (hround : ¬ e.Checks)
      (hreports : e.Reports ready) : Stepped e (.select ready) (e.select ready)
  | check {answer : Option Answer} {next : Env} (hchecks : e.Checks)
      (hturned : e.Turned answer next) : Stepped e (.check answer) next

/-- A step is one of those that are described, of a program that goes on. -/
theorem stepped_of_step (h : step e a = some next) : e.ending = none ∧ Stepped e a next := by
  unfold step at h
  split at h
  · rename_i hgoing
    refine ⟨hgoing, ?_⟩
    cases a with
    | select ready =>
        dsimp only at h
        split at h
        · rename_i hguard
          cases h
          exact .select ready hguard.1 hguard.2
        · cases h
    | check answer =>
        dsimp only at h
        split at h
        · exact .check ‹_› (Env.turned_of_checkFd hgoing h)
        · cases h
  · cases h

@[simp] theorem FdType.readFct_eq_clientRead {t : FdType} :
    t.readFct = some .clientRead ↔ t = .client := by
  cases t <;> simp [FdType.readFct]

@[simp] theorem FdType.readFct_eq_srvAccept {t : FdType} :
    t.readFct = some .srvAccept ↔ t = .serv := by
  cases t <;> simp [FdType.readFct]

@[simp] theorem FdType.readFct_eq_none {t : FdType} : t.readFct = none ↔ t = .free := by
  cases t <;> simp [FdType.readFct]

@[simp] theorem FdType.writeFct_eq_none {t : FdType} : t.writeFct = none ↔ t ≠ .client := by
  cases t <;> simp [FdType.writeFct]

/-- All of a slot but the buffer that is read into. -/
structure FdSlot.Same (slot slot' : FdSlot) : Prop where
  type : slot'.type = slot.type
  fctRead : slot'.fctRead = slot.fctRead
  fctWrite : slot'.fctWrite = slot.fctWrite
  bufWrite : slot'.bufWrite = slot.bufWrite

/-- A slot is the same as itself. -/
theorem FdSlot.Same.refl (slot : FdSlot) : slot.Same slot := ⟨rfl, rfl, rfl, rfl⟩

/-- The slot of a new client. -/
def FdSlot.client (slot : FdSlot) : FdSlot :=
  { slot.cleanFd with
    type := .client, fctRead := some .clientRead, fctWrite := some .clientWrite }

namespace Env

/-- **Slots.**  A call of `fct_read` leaves a slot as it was, fills a free one for a
new client, or frees the one it was called for. -/
theorem Called.slot (h : Called e i answer next) (j : Fd) :
    (e.fds j).Same (next.fds j) ∨
    (answer = some (.accepted (some j)) ∧ (e.fds i).fctRead = some .srvAccept ∧
      (e.fds j).type = .free ∧ j < e.maxfd ∧ next.fds j = (e.fds j).client) ∨
    ((∃ data, answer = some (.received data) ∧ (data = none ∨ data = some [])) ∧ j = i ∧
      (e.fds i).fctRead = some .clientRead ∧ next.fds j = (e.fds j).cleanFd) := by
  cases h with
  | exited | null => exact Or.inl (.refl _)
  | accepted cs hfct hbelow hfree =>
      simp only [srvAccept, setSlot_fds]
      by_cases hj : j = cs
      · subst hj
        exact Or.inr (Or.inl ⟨rfl, hfct, hfree, hbelow, by simp [FdSlot.client]⟩)
      · rw [if_neg hj]
        exact Or.inl (.refl _)
  | hungUp data hfct hdata =>
      rw [setSlot_fds]
      by_cases hj : j = i
      · subst hj
        exact Or.inr (Or.inr ⟨⟨data, rfl, hdata⟩, rfl, hfct, by simp⟩)
      · rw [if_neg hj]
        exact Or.inl (.refl _)
  | received data hfct hdata =>
      left
      rcases data with _ | ⟨c, data⟩
      · exact (hdata rfl).elim
      · simp only [clientRead, setSlot_fds]
        by_cases hj : j = i
        · rw [if_pos hj, hj]
          exact ⟨rfl, rfl, rfl, rfl⟩
        · rw [if_neg hj]
          exact .refl _

/-- The table of descriptors: each slot has the handlers of its type, the slots in
use are inside the table, and one of them listens. -/
structure Sound (e : Env) : Prop where
  fctRead : ∀ i, (e.fds i).fctRead = (e.fds i).type.readFct
  fctWrite : ∀ i, (e.fds i).fctWrite = (e.fds i).type.writeFct
  inside : ∀ i, (e.fds i).type ≠ .free → i < e.maxfd
  listens : ∃ s, ∀ i, (e.fds i).type = .serv ↔ i = s

/-- The table is sound by its slots and its size. -/
theorem Sound.congr (h : e.Sound) (hfds : next.fds = e.fds) (hmaxfd : next.maxfd = e.maxfd) :
    next.Sound := by
  refine ⟨?_, ?_, ?_, ?_⟩ <;> rw [hfds]
  · exact h.fctRead
  · exact h.fctWrite
  · rw [hmaxfd]
    exact h.inside
  · exact h.listens

/-- A handler fills a free slot or frees a used one, with all its members. -/
theorem Sound.called (h : e.Sound) (hcalled : Called e i answer next) : next.Sound := by
  have hslot := hcalled.slot
  obtain ⟨s, hs⟩ := h.listens
  refine ⟨fun j => ?_, fun j => ?_, fun j hused => ?_, s, fun j => ?_⟩
  · rcases hslot j with hsame | ⟨-, -, -, -, hnew⟩ | ⟨-, -, -, hfreed⟩
    · rw [hsame.fctRead, hsame.type, h.fctRead]
    · rw [hnew]; rfl
    · rw [hfreed]; rfl
  · rcases hslot j with hsame | ⟨-, -, -, -, hnew⟩ | ⟨-, -, -, hfreed⟩
    · rw [hsame.fctWrite, hsame.type, h.fctWrite]
    · rw [hnew]; rfl
    · rw [hfreed]; rfl
  · rw [hcalled.sameLoop.maxfd]
    rcases hslot j with hsame | ⟨-, -, -, hbelow, -⟩ | ⟨-, -, -, hfreed⟩
    · exact h.inside j (hsame.type ▸ hused)
    · exact hbelow
    · rw [hfreed] at hused
      exact (hused rfl).elim
  · rcases hslot j with hsame | ⟨-, -, hfree, -, hnew⟩ | ⟨-, rfl, hfct, hfreed⟩
    · rw [hsame.type, hs j]
    · refine iff_of_false (by simp [hnew, FdSlot.client]) fun heq => ?_
      rw [(hs j).mpr heq] at hfree
      cases hfree
    · have hclient := FdType.readFct_eq_clientRead.mp ((h.fctRead j).symm.trans hfct)
      refine iff_of_false (by simp [hfreed, FdSlot.cleanFd]) fun heq => ?_
      rw [(hs j).mpr heq] at hclient
      cases hclient

/-- `client_write` is empty, so writing changes no slot. -/
theorem checkWrite_fds (e : Env) : e.checkWrite.fds = e.fds ∧ e.checkWrite.maxfd = e.maxfd := by
  unfold checkWrite callWrite
  by_cases hwrite : e.checking ∈ e.fdWrite
  · simp only [if_pos hwrite]
    split <;> split <;> exact ⟨rfl, rfl⟩
  · simp only [if_neg hwrite]
    split <;> exact ⟨rfl, rfl⟩

/-- A turn leaves the table sound. -/
theorem Turned.sound (hturned : e.Turned answer next) (h : e.Sound) : next.Sound := by
  cases hturned with
  | pastFdSet => exact h.congr rfl rfl
  | unread => exact h.congr e.checkWrite_fds.1 e.checkWrite_fds.2
  | ended hbit hread hcalled hended => exact h.called hcalled
  | served hbit hread hcalled hgoing =>
      exact (h.called hcalled).congr (checkWrite_fds _).1 (checkWrite_fds _).2

/-- Building the sets changes no slot. -/
theorem initFd_fds (e : Env) : e.initFd.fds = e.fds ∧ e.initFd.maxfd = e.maxfd := by
  unfold initFd
  split <;> exact ⟨rfl, rfl⟩

/-- Nor does waiting for them. -/
theorem select_fds (e : Env) (ready : Option (Finset Fd × Finset Fd)) :
    (e.select ready).fds = e.fds ∧ (e.select ready).maxfd = e.maxfd := by
  unfold select
  dsimp only
  split
  · cases ready <;> exact e.initFd_fds
  · exact e.initFd_fds

end Env

/-- At the start one slot listens, and the others are free. -/
theorem initial_slot (maxfd s i : Nat) (leftover : Fd → Str × Str) :
    ((initial maxfd s leftover).fds i).type = (if i = s then .serv else .free) ∧
    ((initial maxfd s leftover).fds i).fctRead = (if i = s then some .srvAccept else none) ∧
    ((initial maxfd s leftover).fds i).fctWrite = none ∧
    ((initial maxfd s leftover).fds i).bufWrite = (leftover i).2 := by
  by_cases hi : i = s <;> simp [initial, hi]

/-- The table is sound at the start. -/
theorem sound_start (h : Start e) : e.Sound := by
  obtain ⟨maxfd, s, leftover, hs, rfl⟩ := h
  have hslot := fun i => initial_slot maxfd s i leftover
  refine ⟨fun i => ?_, fun i => ?_, fun i hused => ?_, s, fun i => ?_⟩
  · rw [(hslot i).1, (hslot i).2.1]
    split <;> rfl
  · rw [(hslot i).1, (hslot i).2.2.1]
    split <;> rfl
  · rw [(hslot i).1] at hused
    split at hused
    · exact ‹i = s› ▸ hs
    · exact (hused rfl).elim
  · rw [(hslot i).1]
    by_cases hi : i = s <;> simp [hi]

/-- A step leaves it sound. -/
theorem sound_step (h : e.Sound) (hstep : step e a = some next) : next.Sound := by
  cases (stepped_of_step hstep).2 with
  | select ready hround hreports => exact h.congr (e.select_fds ready).1 (e.select_fds ready).2
  | check hchecks hturned => exact hturned.sound h

/-- **The table.**  In every state of a run the slots are sound. -/
theorem sound (run : Steps trace e) : e.Sound :=
  run.invariant Env.Sound (fun _ => sound_start) fun _ _ _ => sound_step

/-- What is still ready belongs to a slot in use: no handler frees a slot the loop
has still to come to. -/
structure Env.Scanning (e : Env) : Prop where
  bits : ∀ i, e.Ready i → i < e.maxfd ∧ i < fdSetSize
  inUse : ∀ i, e.checking ≤ i → e.Ready i → (e.fds i).type ≠ .free

/-- A turn after which the program goes on. -/
theorem Env.Turned.going (h : e.Turned answer next) (hgoing : e.ending = none)
    (hnext : next.ending = none) :
    e.checking < fdSetSize ∧ ∃ middle : Env, (∀ i, (middle.fds i).type ≠ .free ∨
        i = e.checking ∨ (e.fds i).type = .free) ∧
      SameLoop e middle ∧ next = middle.turnOver := by
  cases h with
  | pastFdSet => cases hnext
  | ended hbit hread hcalled hended => exact (hended hnext).elim
  | unread hbit hunread =>
      rcases e.checkWrite_cases hgoing with ⟨-, -, hnull⟩ | ⟨-, hover⟩
      · rw [hnull] at hnext
        cases hnext
      · exact ⟨hbit, e, fun i => (em _).elim (Or.inr ∘ Or.inr) Or.inl,
          ⟨rfl, rfl, rfl, rfl, rfl⟩, hover⟩
  | @served answer middle hbit hread hcalled hmiddle =>
      rcases middle.checkWrite_cases hmiddle with ⟨-, -, hnull⟩ | ⟨-, hover⟩
      · rw [hnull] at hnext
        cases hnext
      · refine ⟨hbit, middle, fun i => ?_, hcalled.sameLoop, hover⟩
        rcases hcalled.slot i with hsame | ⟨-, -, hfree, -⟩ | ⟨-, hi, -⟩
        · rw [hsame.type]
          exact (em _).elim (Or.inr ∘ Or.inr) Or.inl
        · exact Or.inr (Or.inr hfree)
        · exact Or.inr (Or.inl hi)

/-- A step frees no slot that the loop has still to come to. -/
theorem scanning_step (h : e.Scanning) (hstep : step e a = some next)
    (hnext : next.ending = none) : next.Scanning := by
  obtain ⟨hgoing, hstepped⟩ := stepped_of_step hstep
  cases hstepped with
  | select ready hround hreports =>
      by_cases hbits : ∀ i ∈ e.watched, i < fdSetSize
      · rw [Env.select_of_bits hgoing hbits]
        have hwatched : ∀ i, Env.Ready { e.initFd.doSelect ready with checking := 0 } i →
            i ∈ e.watched := by
          intro i hi
          rcases ready with _ | ⟨readable, writable⟩
          · rcases hi with hi | hi <;> simp only [Env.doSelect, Env.initFd, if_pos hbits] at hi
            · exact hi
            · exact (Finset.mem_filter.mp hi).1
          · rcases hi with hi | hi
            · exact ((hreports _ rfl).1 i hi).1
            · exact (Finset.mem_filter.mp ((hreports _ rfl).2 i hi).1).1
        have hfds : (e.initFd.doSelect ready).fds = e.fds ∧
            (e.initFd.doSelect ready).maxfd = e.maxfd := by
          cases ready <;> exact e.initFd_fds
        refine ⟨fun i hi => ?_, fun i _ hi => ?_⟩
        · dsimp only
          rw [hfds.2]
          exact ⟨Finset.mem_range.mp (Finset.mem_filter.mp (hwatched i hi)).1,
            hbits i (hwatched i hi)⟩
        · dsimp only
          rw [hfds.1]
          exact (Finset.mem_filter.mp (hwatched i hi)).2
      · rw [Env.select_of_no_bit hbits] at hnext
        cases hnext
  | check hchecks hturned =>
      obtain ⟨-, middle, hused, hloop, rfl⟩ := hturned.going hgoing hnext
      have hready : ∀ i, middle.turnOver.Ready i ↔ e.Ready i := hloop.ready_iff
      refine ⟨fun i hi => ?_, fun i hle hi => ?_⟩
      · change i < middle.maxfd ∧ _
        rw [hloop.maxfd]
        exact h.bits i ((hready i).mp hi)
      · change middle.checking + 1 ≤ i at hle
        rw [hloop.checking] at hle
        have hkept := h.inUse i (Nat.le_of_succ_le hle) ((hready i).mp hi)
        rcases hused i with hi | heq | hfree
        · exact hi
        · exact (Nat.lt_irrefl i (heq ▸ hle)).elim
        · exact (hkept hfree).elim

/-- Nothing is ready at the start. -/
theorem scanning_start (h : Start e) : e.Scanning := by
  obtain ⟨maxfd, s, leftover, -, rfl⟩ := h
  constructor <;> simp [Env.Ready, initial]

/-- What is known of every state of a run. -/
structure Env.Kept (e : Env) : Prop where
  table : e.Sound
  scan : e.ending = none → e.Scanning

/-- What is known of every state is kept by a step. -/
theorem kept_step (h : e.Kept) (hstep : step e a = some next) : next.Kept :=
  ⟨sound_step h.table hstep, scanning_step (h.scan (stepped_of_step hstep).1) hstep⟩

/-- It is known of the start. -/
theorem kept_start (h : Start e) : e.Kept := ⟨sound_start h, fun _ => scanning_start h⟩

/-- It is known of every state of a run. -/
theorem kept (run : Steps trace e) : e.Kept :=
  run.invariant Env.Kept (fun _ => kept_start) fun _ _ _ => kept_step

/-- The descriptors whose handlers the current round has called, in order. -/
def served : Run.Trace Env Action → List Fd
  | (e, .check _) :: trace =>
      served trace ++ if e.Ready e.checking then [e.checking] else []
  | _ => []

/-- What `select` reported in the current round. -/
def report : Run.Trace Env Action → Option (Finset Fd × Finset Fd)
  | [] => none
  | (_, .select ready) :: _ => ready
  | (_, .check _) :: trace => report trace

/-- The ready descriptors the loop has still to come to. -/
def Env.remaining (e : Env) : Finset Fd := (e.fdRead ∪ e.fdWrite).filter fun i => e.checking ≤ i

/-- Inside a round in which `select` reported `sets`.  The counter `r` is too high by
the descriptors that are ready in both. -/
structure Round (sets : Finset Fd × Finset Fd) (done : List Fd) (e : Env) : Prop where
  fdRead : e.fdRead = sets.1
  fdWrite : e.fdWrite = sets.2
  done : done = (List.range e.checking).filter fun i => i ∈ sets.1 ∪ sets.2
  count : e.r = e.remaining.card + (sets.1 ∩ sets.2).card
  inside : e.checking ≤ e.maxfd
  stops : sets.1 ∩ sets.2 = ∅ → e.checking ≤ (sets.1 ∪ sets.2).sup fun i => i + 1

/-- A round, or a time at which `select` has reported nothing. -/
def InRound (trace : Run.Trace Env Action) (e : Env) : Prop :=
  match report trace with
  | none => served trace = [] ∧ e.r ≤ 0
  | some sets => Round sets (served trace) e

/-- Those remain that are ready and not passed yet. -/
theorem Env.mem_remaining : i ∈ e.remaining ↔ e.Ready i ∧ e.checking ≤ i := by
  simp [remaining, Ready]

/-- The descriptor of a turn is counted off. -/
theorem Env.card_remaining_turnOver (e : Env) :
    e.turnOver.remaining.card + (if e.Ready e.checking then 1 else 0) = e.remaining.card := by
  by_cases hready : e.Ready e.checking
  · have herase : e.turnOver.remaining = e.remaining.erase e.checking := by
      ext i
      rw [Finset.mem_erase, Env.mem_remaining, Env.mem_remaining]
      change e.Ready i ∧ e.checking + 1 ≤ i ↔ _
      constructor
      · rintro ⟨hi, hlt⟩
        exact ⟨Nat.ne_of_gt hlt, hi, Nat.le_of_succ_le hlt⟩
      · rintro ⟨hne, hi, hle⟩
        exact ⟨hi, Nat.lt_of_le_of_ne hle (Ne.symm hne)⟩
    rw [if_pos hready, herase]
    exact Finset.card_erase_add_one (Env.mem_remaining.mpr ⟨hready, Nat.le_refl _⟩)
  · have hsame : e.turnOver.remaining = e.remaining := by
      ext i
      rw [Env.mem_remaining, Env.mem_remaining]
      change e.Ready i ∧ e.checking + 1 ≤ i ↔ _
      constructor
      · rintro ⟨hi, hlt⟩
        exact ⟨hi, Nat.le_of_succ_le hlt⟩
      · rintro ⟨hi, hle⟩
        refine ⟨hi, Nat.lt_of_le_of_ne hle fun heq => ?_⟩
        exact hready (heq ▸ hi)
    rw [if_neg hready, hsame, Nat.add_zero]

/-- A turn inside a round. -/
theorem Round.turn {sets : Finset Fd × Finset Fd} {done : List Fd} (h : Round sets done e)
    (hchecks : e.Checks) :
    Round sets (done ++ if e.Ready e.checking then [e.checking] else []) e.turnOver := by
  have hready : e.Ready e.checking ↔ e.checking ∈ sets.1 ∪ sets.2 := by
    rw [Env.Ready, h.fdRead, h.fdWrite, Finset.mem_union]
  have hcard := e.card_remaining_turnOver
  refine ⟨h.fdRead, h.fdWrite, ?_, ?_, hchecks.1, fun hboth => ?_⟩
  · change _ = (List.range (e.checking + 1)).filter _
    rw [List.range_succ, List.filter_append, ← h.done, List.filter_singleton]
    by_cases hin : e.checking ∈ sets.1 ∪ sets.2
    · simp [hready, hin]
    · simp [hready, hin]
  · change (if e.Ready e.checking then e.r - 1 else e.r) = _
    rw [h.count]
    split
    · rw [if_pos ‹_›] at hcard
      omega
    · rw [if_neg ‹_›] at hcard
      omega
  · have hcount := h.count
    rw [hboth, Finset.card_empty] at hcount
    have hsome : e.remaining.Nonempty := by
      rw [← Finset.card_pos]
      have := hchecks.2
      omega
    obtain ⟨i, hi⟩ := hsome
    obtain ⟨hi, hle⟩ := Env.mem_remaining.mp hi
    rw [Env.Ready, h.fdRead, h.fdWrite, ← Finset.mem_union] at hi
    exact Nat.le_trans (Nat.succ_le_succ hle) (Finset.le_sup (f := fun i => i + 1) hi)

/-- A round is judged by the loop variables and the sets. -/
theorem Round.congr {sets : Finset Fd × Finset Fd} {done : List Fd} (h : Round sets done e)
    (hloop : Env.SameLoop e next) : Round sets done next := by
  have hremaining : next.remaining = e.remaining := by
    unfold Env.remaining
    rw [hloop.fdRead, hloop.fdWrite, hloop.checking]
  refine ⟨hloop.fdRead ▸ h.fdRead, hloop.fdWrite ▸ h.fdWrite, hloop.checking ▸ h.done, ?_, ?_,
    fun hboth => hloop.checking ▸ h.stops hboth⟩
  · rw [hloop.r, hremaining, h.count]
  · rw [hloop.checking, hloop.maxfd]
    exact h.inside

/-- A step goes on with the round, or starts one. -/
theorem inRound_step (h : e.ending = none → InRound trace e) (hstep : step e a = some next)
    (hnext : next.ending = none) : InRound ((e, a) :: trace) next := by
  obtain ⟨hgoing, hstepped⟩ := stepped_of_step hstep
  have hround := h hgoing
  cases hstepped with
  | select ready hidle hreports =>
      by_cases hbits : ∀ i ∈ e.watched, i < fdSetSize
      · rw [Env.select_of_bits hgoing hbits]
        unfold InRound
        rcases ready with _ | sets
        · exact ⟨rfl, by simp [Env.doSelect]⟩
        · refine ⟨rfl, rfl, rfl, ?_, Nat.zero_le _, fun _ => Nat.zero_le _⟩
          have hall : Env.remaining { e.initFd.doSelect (some sets) with checking := 0 } =
              sets.1 ∪ sets.2 := by
            simp [Env.remaining, Env.doSelect]
          rw [hall]
          have hcount := Finset.card_union_add_card_inter sets.1 sets.2
          simp only [Env.doSelect]
          omega
      · rw [Env.select_of_no_bit hbits] at hnext
        cases hnext
  | @check answer _ hchecks hturned =>
      obtain ⟨-, middle, -, hloop, rfl⟩ := hturned.going hgoing hnext
      unfold InRound at hround ⊢
      simp only [report, served]
      split at hround
      · exact absurd hchecks.2 (Int.not_lt.mpr hround.2)
      · have hnext := (hround.congr hloop).turn (by
          unfold Env.Checks
          rw [hloop.checking, hloop.maxfd, hloop.r]
          exact hchecks)
        simp only [hloop.checking, hloop.ready_iff] at hnext
        exact hnext

/-- Every state of a run is in a round, or `select` has not reported yet. -/
theorem inRound (run : Steps trace e) : e.ending = none → InRound trace e :=
  run.history_of_meets (fun trace e => e.ending = none → InRound trace e)
    (fun _ ⟨_, _, _, _, hstart⟩ _ => hstart ▸ ⟨rfl, Int.le_refl _⟩)
    (fun _ _ _ _ h (_ : True) hstep => inRound_step h hstep) (by simp [Run.Meets])

/-- **Every ready descriptor is served.**  When the loop of `check_fd` ends, the
handlers have been called for the descriptors `select` reported, for each once and
in increasing order, however many it counted twice.  If it counted none twice, the
loop ends right behind the last of them, and otherwise only behind the table. -/
theorem served_reported (run : Steps trace e) (hgoing : e.ending = none) (hend : ¬ e.Checks) :
    match report trace with
    | none => served trace = []
    | some sets =>
        served trace = ((List.range e.maxfd).filter fun i => i ∈ sets.1 ∪ sets.2) ∧
        e.checking = if sets.1 ∩ sets.2 = ∅ then (sets.1 ∪ sets.2).sup fun i => i + 1
          else e.maxfd := by
  have hround := inRound run hgoing
  have hscan := (kept run).scan hgoing
  unfold InRound at hround
  split at hround
  · exact hround.1
  · rename_i sets _
    have hinside : ∀ i ∈ sets.1 ∪ sets.2, i < e.maxfd := by
      intro i hi
      refine (hscan.bits i ?_).1
      rw [Env.Ready, hround.fdRead, hround.fdWrite]
      exact Finset.mem_union.mp hi
    have hpassed : ∀ i ∈ sets.1 ∪ sets.2, i < e.checking := by
      intro i hi
      rcases not_and_or.mp hend with hlast | hcounted
      · exact Nat.lt_of_lt_of_le (hinside i hi) (Nat.le_of_not_lt hlast)
      · by_contra hlate
        have hmem : i ∈ e.remaining := by
          rw [Env.mem_remaining, Env.Ready, hround.fdRead, hround.fdWrite]
          exact ⟨Finset.mem_union.mp hi, Nat.le_of_not_lt hlate⟩
        have hpos := Finset.card_pos.mpr ⟨i, hmem⟩
        have hcount := hround.count
        omega
    refine ⟨?_, ?_⟩
    · obtain ⟨d, hd⟩ := Nat.exists_eq_add_of_le hround.inside
      have hnone : ((List.range d).map (e.checking + ·)).filter (fun i => i ∈ sets.1 ∪ sets.2) =
          [] := by
        refine List.filter_eq_nil_iff.mpr fun i hi => ?_
        obtain ⟨k, -, rfl⟩ := List.mem_map.mp hi
        rw [decide_eq_true_eq]
        exact fun hmem => Nat.not_lt.mpr (Nat.le_add_right _ k) (hpassed _ hmem)
      rw [hround.done, hd, List.range_add, List.filter_append, hnone, List.append_nil]
    · split
      · rename_i hboth
        exact Nat.le_antisymm (hround.stops hboth) (Finset.sup_le hpassed)
      · rename_i hboth
        have hpos := Finset.card_pos.mpr (Finset.nonempty_iff_ne_empty.mpr hboth)
        have hcount := hround.count
        have hlast : ¬ e.checking < e.maxfd := fun hlt => hend ⟨hlt, by omega⟩
        exact Nat.le_antisymm hround.inside (Nat.le_of_not_lt hlast)

/-- The start of a server with eight descriptors, a listening socket 3 and empty
buffers. -/
theorem start_empty : Start (initial 8 3 fun _ => ([], [])) := ⟨8, 3, _, by decide, rfl⟩

/-- Two clients connect, and in the third round both have written. -/
theorem served_reported_both : ∃ trace e, Steps trace e ∧
    report trace = some ({4, 5}, ∅) ∧ served trace = [4, 5] ∧ e.checking = 6 := by
  obtain ⟨trace, e, run, htest⟩ := Run.exists_steps_of_record step start_empty
    [.select (some ({3}, ∅)), .check none, .check none, .check none,
      .check (some (.accepted (some 4))),
      .select (some ({3}, ∅)), .check none, .check none, .check none,
      .check (some (.accepted (some 5))),
      .select (some ({4, 5}, ∅)), .check none, .check none, .check none, .check none,
      .check (some (.received (some "a".toList))), .check (some (.received (some "b".toList)))]
    (fun trace e => report trace = some ({4, 5}, ∅) ∧ e.ending = none ∧ ¬ e.Checks ∧
      e.maxfd = 8) (by decide +kernel)
  obtain ⟨hreport, hgoing, hend, hmaxfd⟩ := of_decide_eq_true htest
  have hall := served_reported run hgoing hend
  rw [hreport, hmaxfd] at hall
  exact ⟨trace, e, run, hreport, hall.1.trans (by decide), hall.2.trans (by decide)⟩

end Bircd
