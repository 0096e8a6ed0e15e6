import IrcServers.Bircd.Serving

/-!
# How `bircd` ends

The listening socket has no `fct_write`, and a client that hangs up loses its own
while the loop of `check_fd` is still at its descriptor.  So a handler is missing
exactly when one of these descriptors is ready for writing as well, which depends on
what `malloc` has left in `buf_write`.

If the buffers happen to be empty and the table has no more slots than an `fd_set`
has bits, the program ends in one way only: by a failing `accept`.
-/

namespace Bircd

variable {e next : Env} {a : Action} {answer : Option Answer} {trace : Run.Trace Env Action}

/-- If the descriptor of the turn is ready for writing, it is a client that does not
hang up in this turn, unless the program exits before. -/
def HandlerStays (e : Env) : Action → Prop
  | .select _ => True
  | .check answer =>
      e.checking ∈ e.fdWrite →
        ((e.fds e.checking).type = .client ∧
          answer ≠ some (.received none) ∧ answer ≠ some (.received (some []))) ∨
        answer = some (.accepted none)

instance (e : Env) : ∀ a, Decidable (HandlerStays e a)
  | .select _ => inferInstanceAs (Decidable True)
  | .check _ => inferInstanceAs (Decidable (_ → _))

/-- `fct_write` behind a call of `fct_read` for the descriptor of the turn. -/
theorem Env.Called.fctWrite_eq_none (h : e.Called e.checking answer next) (hsound : e.Sound)
    (hused : (e.fds e.checking).type ≠ .free) (hgoing : next.ending = none) :
    (next.fds e.checking).fctWrite = none ↔
      ¬ ((e.fds e.checking).type = .client ∧
        answer ≠ some (.received none) ∧ answer ≠ some (.received (some []))) := by
  have hfct := hsound.fctRead e.checking
  cases h with
  | exited | null => cases hgoing
  | accepted cs hserv hbelow hfree =>
      have htype := FdType.readFct_eq_srvAccept.mp (hfct.symm.trans hserv)
      have hne : e.checking ≠ cs := fun heq => hused (heq ▸ hfree)
      have hwrite := hsound.fctWrite e.checking
      rw [htype] at hwrite
      simp [srvAccept, setSlot_fds, hne, hwrite, htype, FdType.writeFct]
  | hungUp data hclient hdata =>
      rcases hdata with rfl | rfl <;> simp [setSlot_fds, FdSlot.cleanFd]
  | received data hclient hdata =>
      have htype := FdType.readFct_eq_clientRead.mp (hfct.symm.trans hclient)
      have hwrite := hsound.fctWrite e.checking
      rw [htype] at hwrite
      rcases data with _ | ⟨c, data⟩
      · exact (hdata rfl).elim
      · simp [clientRead, setSlot_fds, hwrite, htype, FdType.writeFct]

/-- A turn calls no function through a null pointer just when the handler stays. -/
theorem Env.Turned.ending_iff (h : e.Turned answer next) (hgoing : e.ending = none)
    (hsound : e.Sound) (hscan : e.Scanning) :
    next.ending ≠ some .nullCall ↔ HandlerStays e (.check answer) := by
  have hused : e.Ready e.checking → (e.fds e.checking).type ≠ .free :=
    hscan.inUse _ (Nat.le_refl _)
  cases h with
  | pastFdSet hpast =>
      have hnot : e.checking ∉ e.fdWrite := fun hwrite => hpast (hscan.bits _ (Or.inr hwrite)).2
      exact iff_of_true (by simp [halt]) fun hwrite => (hnot hwrite).elim
  | unread hbit hunread =>
      have hwrite := hsound.fctWrite e.checking
      rcases e.checkWrite_cases hgoing with ⟨hmem, hnull, hhalt⟩ | ⟨hkept, hover⟩
      · rw [hhalt]
        have htype := FdType.writeFct_eq_none.mp (hwrite.symm.trans hnull)
        refine iff_of_false (by simp [halt]) fun hstays => ?_
        rcases hstays hmem with ⟨hclient, -⟩ | hanswer
        · exact htype hclient
        · cases hanswer
      · rw [hover]
        refine iff_of_true (by simp [turnOver, hgoing]) fun hmem => Or.inl ⟨?_, by simp, by simp⟩
        by_contra htype
        exact hkept hmem (hwrite.trans (FdType.writeFct_eq_none.mpr htype))
  | ended hbit hread hcalled hended =>
      cases hcalled with
      | exited hfct => exact iff_of_true (by simp [halt]) fun _ => Or.inr rfl
      | accepted | hungUp => exact (hended hgoing).elim
      | received data hfct hdata =>
          rcases data with _ | ⟨c, data⟩
          · exact (hdata rfl).elim
          · exact (hended hgoing).elim
      | null hfct =>
          have hfree := FdType.readFct_eq_none.mp ((hsound.fctRead _).symm.trans hfct)
          exact (hused (Or.inl hread) hfree).elim
  | @served answer middle hbit hread hcalled hmiddle =>
      have hcount := hcalled.fctWrite_eq_none hsound (hused (Or.inl hread)) hmiddle
      have hexit : answer ≠ some (.accepted none) := by
        rintro rfl
        cases hcalled
        cases hmiddle
      have hloop := hcalled.sameLoop
      rcases middle.checkWrite_cases hmiddle with ⟨hmem, hnull, hhalt⟩ | ⟨hkept, hover⟩
      · rw [hhalt]
        rw [hloop.checking] at hnull hmem
        refine iff_of_false (by simp [halt]) fun hstays => ?_
        rcases hstays (hloop.fdWrite ▸ hmem) with hclient | hanswer
        · exact hcount.mp hnull hclient
        · exact hexit hanswer
      · rw [hover]
        rw [hloop.checking, hloop.fdWrite] at hkept
        refine iff_of_true (by simp [turnOver, hmiddle]) fun hmem => Or.inl ?_
        exact not_not.mp fun hnot => hkept hmem (hcount.mpr hnot)

/-- A turn calls no null pointer just when the handler of its descriptor stays in the
slot. -/
theorem null_call_step (h : e.Kept) (hstep : step e a = some next) :
    next.ending ≠ some .nullCall ↔ HandlerStays e a := by
  obtain ⟨hgoing, hstepped⟩ := stepped_of_step hstep
  cases hstepped with
  | select ready hround hreports =>
      refine iff_of_true ?_ trivial
      by_cases hbits : ∀ i ∈ e.watched, i < fdSetSize
      · rw [Env.select_of_bits hgoing hbits]
        have hending : (e.initFd.doSelect ready).ending = none := by
          cases ready <;> simp only [Env.doSelect, Env.initFd, if_pos hbits, hgoing]
        simp [hending]
      · rw [Env.select_of_no_bit hbits]
        simp [Env.halt]
  | check hchecks hturned => exact hturned.ending_iff hgoing h.table (h.scan hgoing)

/-- **No null call.**  A run calls no function through a null pointer, if and only if,
whenever the loop is at a descriptor that is ready for writing, this is a client that
does not hang up in the same turn. -/
theorem no_null_call_iff (run : Steps trace e) :
    Run.Throughout (fun e => e.ending ≠ some .nullCall) trace e ↔ Run.Meets HandlerStays trace :=
  run.throughout_iff_meets Env.Kept _ (fun _ => kept_start) (fun _ _ _ => kept_step)
    (fun _ ⟨_, _, _, _, hstart⟩ => hstart ▸ by simp [initial])
    (fun _ _ _ h _ hstep => null_call_step h hstep)

/-- The start of a server whose `buf_write` happens to hold a letter everywhere. -/
theorem start_leftover : Start (initial 8 3 fun _ => ([], ['x'])) := ⟨8, 3, _, by decide, rfl⟩

/-- With a letter left in `buf_write`, a client that connects and hangs up makes the
server call `fct_write` when it is gone. -/
theorem no_null_call_iff_hungUp : ∃ trace e, Steps trace e ∧ e.ending = some .nullCall ∧
    ¬ Run.Meets HandlerStays trace := by
  obtain ⟨trace, e, run, htest⟩ := Run.exists_steps_of_record step start_leftover
    [.select (some ({3}, ∅)), .check none, .check none, .check none,
      .check (some (.accepted (some 4))),
      .select (some ({4}, {4})), .check none, .check none, .check none, .check none,
      .check (some (.received (some [])))]
    (fun _ e => e.ending = some .nullCall) (by decide +kernel)
  have hnull : e.ending = some .nullCall := of_decide_eq_true htest
  exact ⟨trace, e, run, hnull, fun hmeets => ((no_null_call_iff run).mpr hmeets).1 hnull⟩

/-- The buffers are empty and the table has a bit for each slot. -/
structure Env.Blank (e : Env) : Prop where
  bufWrite : ∀ i, strlen (e.fds i).bufWrite = 0
  fdWrite : e.fdWrite = ∅
  few : e.maxfd ≤ fdSetSize

/-- A handler leaves the buffer for writing empty. -/
theorem Env.Blank.called {i : Fd} (h : e.Blank) (hcalled : e.Called i answer next) :
    next.Blank := by
  have hloop := hcalled.sameLoop
  refine ⟨fun j => ?_, hloop.fdWrite ▸ h.fdWrite, hloop.maxfd ▸ h.few⟩
  rcases hcalled.slot j with hsame | ⟨-, -, -, -, hnew⟩ | ⟨-, -, -, hfreed⟩
  · rw [hsame.bufWrite]
    exact h.bufWrite j
  · rw [hnew]
    exact h.bufWrite j
  · rw [hfreed]
    exact h.bufWrite j

/-- With nothing to write a turn ends as it begins. -/
theorem Env.Blank.checkWrite (h : e.Blank) (hgoing : e.ending = none) :
    e.checkWrite = e.turnOver := by
  rcases e.checkWrite_cases hgoing with ⟨hmem, -⟩ | ⟨-, hover⟩
  · rw [h.fdWrite] at hmem
    cases hmem
  · exact hover

/-- The next turn finds the buffers as they were. -/
theorem Env.Blank.turnOver (h : e.Blank) : e.turnOver.Blank := ⟨h.bufWrite, h.fdWrite, h.few⟩

/-- What `Blank` makes of a turn: the program ends by a failing `accept` only. -/
theorem Env.Blank.turned (h : e.Blank) (hturned : e.Turned answer next) (hchecks : e.Checks)
    (hgoing : e.ending = none) (hsound : e.Sound) (hscan : e.Scanning) :
    next.Blank ∧ next.ending = if answer = some (.accepted none) then some .exited else none := by
  cases hturned with
  | pastFdSet hpast => exact (hpast (Nat.lt_of_lt_of_le hchecks.1 h.few)).elim
  | unread hbit hunread =>
      rw [h.checkWrite hgoing]
      exact ⟨h.turnOver, hgoing⟩
  | ended hbit hread hcalled hended =>
      refine ⟨h.called hcalled, ?_⟩
      cases hcalled with
      | exited hfct => rfl
      | accepted | hungUp => exact (hended hgoing).elim
      | received data hfct hdata =>
          rcases data with _ | ⟨c, data⟩
          · exact (hdata rfl).elim
          · exact (hended hgoing).elim
      | null hfct =>
          have hfree := FdType.readFct_eq_none.mp ((hsound.fctRead _).symm.trans hfct)
          exact (hscan.inUse _ (Nat.le_refl _) (Or.inl hread) hfree).elim
  | @served answer middle hbit hread hcalled hmiddle =>
      have hblank := h.called hcalled
      rw [hblank.checkWrite hmiddle]
      refine ⟨hblank.turnOver, ?_⟩
      rw [if_neg]
      · exact hmiddle
      · rintro rfl
        cases hcalled
        cases hmiddle

/-- With a bit for each slot, `FD_SET` stays inside the sets. -/
theorem Env.Blank.select {ready : Option (Finset Fd × Finset Fd)} (h : e.Blank)
    (hgoing : e.ending = none) (hreports : e.Reports ready) :
    (e.select ready).Blank ∧ (e.select ready).ending = none := by
  have hbits : ∀ i ∈ e.watched, i < fdSetSize := fun i hi =>
    Nat.lt_of_lt_of_le (Finset.mem_range.mp (Finset.mem_filter.mp hi).1) h.few
  have hwritten : e.written = ∅ := by
    unfold written
    exact Finset.filter_eq_empty_iff.mpr fun i _ => by simp [h.bufWrite i]
  rw [select_of_bits hgoing hbits]
  rcases ready with _ | ⟨readable, writable⟩
  · refine ⟨⟨?_, ?_, ?_⟩, ?_⟩ <;> simp only [doSelect, initFd, if_pos hbits]
    · exact h.bufWrite
    · exact hwritten
    · exact h.few
    · exact hgoing
  · have hnone : writable = ∅ := by
      refine Finset.eq_empty_of_forall_notMem fun i hi => ?_
      have hmem := ((hreports _ rfl).2 i hi).1
      rw [hwritten] at hmem
      cases hmem
    refine ⟨⟨?_, ?_, ?_⟩, ?_⟩ <;> simp only [doSelect, initFd, if_pos hbits]
    · exact h.bufWrite
    · exact hnone
    · exact h.few
    · exact hgoing

/-- No `accept` has failed. -/
def AcceptsAll (_ : Env) (a : Action) : Prop := a ≠ .check (some (.accepted none))

/-- Runs of a server that starts with empty buffers. -/
structure Env.Survives (trace : Run.Trace Env Action) (e : Env) : Prop where
  kept : e.Kept
  blank : e.Blank
  ending : e.ending = none ∨ e.ending = some .exited
  going_iff : e.ending = none ↔ Run.Meets AcceptsAll trace

/-- A server with empty buffers survives as long as `accept` does not fail. -/
theorem survives_step (h : e.Survives trace) (hstep : step e a = some next) :
    next.Survives ((e, a) :: trace) := by
  obtain ⟨hgoing, hstepped⟩ := stepped_of_step hstep
  have hkept := kept_step h.kept hstep
  have hbefore := h.going_iff.mp hgoing
  cases hstepped with
  | select ready hround hreports =>
      obtain ⟨hblank, hending⟩ := h.blank.select hgoing hreports
      have hcond : AcceptsAll e (.select ready) := by simp [AcceptsAll]
      exact ⟨hkept, hblank, Or.inl hending,
        iff_of_true hending (Run.meets_cons.mpr ⟨hcond, hbefore⟩)⟩
  | @check answer _ hchecks hturned =>
      obtain ⟨hblank, hending⟩ :=
        h.blank.turned hturned hchecks hgoing h.kept.table (h.kept.scan hgoing)
      by_cases hfails : answer = some (.accepted none)
      · rw [if_pos hfails] at hending
        refine ⟨hkept, hblank, Or.inr hending, iff_of_false (by simp [hending]) fun hmeets => ?_⟩
        exact (Run.meets_cons.mp hmeets).1 (hfails ▸ rfl)
      · rw [if_neg hfails] at hending
        have hcond : AcceptsAll e (.check answer) := by simpa [AcceptsAll] using hfails
        exact ⟨hkept, hblank, Or.inl hending,
          iff_of_true hending (Run.meets_cons.mpr ⟨hcond, hbefore⟩)⟩

end Bircd
