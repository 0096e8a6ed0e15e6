import IrcServers.Hub
import IrcServers.Bircd.Serving

/-!
# What `bircd` relays

Each client is a party of a hub: it joins when its connection is accepted, leaves
when `recv` returns no data, and says what `recv` returns for it.  Every turn of the
loop in `check_fd` is one of these events or none, so a run of the server is a run of
the hub, whatever the rounds look like and whichever descriptors are used again.
-/

namespace Bircd

variable {e next first : Env} {a : Action} {answer : Option Answer} {i k : Fd}
  {past trace : Run.Trace Env Action} {t : Hub.State Fd Str}

/-- The descriptors of the clients. -/
def Env.clients (e : Env) : Set Fd := {k | (e.fds k).type = .client}

/-- What has been handed to `send` for the descriptor `k`. -/
def Env.handed (e : Env) (k : Fd) : List Str := Hub.handedTo e.sent k

/-- What a step is at the hub. -/
def events (e : Env) : Action → List (Hub.Event Fd Str)
  | .check (some (.accepted (some cs))) => [.join cs]
  | .check (some (.received (some (c :: data)))) => [.say e.checking (c :: data)]
  | .check (some (.received _)) => [.leave e.checking]
  | _ => []

/-- The server, seen as a hub. -/
abbrev Env.Shows (e : Env) (t : Hub.State Fd Str) : Prop := Hub.Shows Env.clients Env.handed e t

/-- The hub is shown by the slots and by what has been sent. -/
theorem Env.Shows.congr (h : e.Shows t) (hfds : next.fds = e.fds) (hsent : next.sent = e.sent) :
    next.Shows t := by
  refine ⟨?_, fun k => ?_⟩
  · rw [h.joined]
    unfold clients
    rw [hfds]
  · rw [h.handed k]
    unfold handed
    rw [hsent]

/-- The others are the clients but one. -/
theorem Env.mem_others (hsound : e.Sound) : k ∈ e.others i ↔ k ∈ e.clients ∧ k ≠ i := by
  simp only [others, clients, List.mem_filter, List.mem_range, decide_eq_true_eq,
    Set.mem_ofPred_eq]
  constructor
  · exact fun hmem => hmem.2
  · intro hclient
    have hused : (e.fds k).type ≠ .free := by simp [hclient.1]
    exact ⟨hsound.inside k hused, hclient⟩

/-- What `client_read` hands out. -/
theorem Env.handed_received {c : Char} {data : Str} :
    (e.clientRead i (some (c :: data))).handed k =
      e.handed k ++ Hub.handedTo ((e.others i).map fun j => (j, c :: data)) k := by
  have hothers : (e.setSlot i fun slot =>
      { slot with bufRead := (c :: data) ++ slot.bufRead.drop (c :: data).length }).others i =
      e.others i := by
    unfold others
    refine List.filter_congr fun j _ => ?_
    rw [setSlot_fds]
    by_cases hj : j = i <;> simp [hj]
  simp only [handed, clientRead, hothers, Hub.handedTo_append, setSlot_sent]
  simp [setSlot_fds]

/-- A call of `fct_read` is an event at the hub. -/
theorem Env.Called.shown (h : e.Called i answer next) (hsound : e.Sound) (hi : i = e.checking)
    (ht : e.Shows t) :
    ∃ t', Run.perform Hub.step (events e (.check answer)) t = some t' ∧ next.Shows t' := by
  have hfct := hsound.fctRead i
  cases h with
  | exited | null => exact ⟨t, rfl, ht.congr rfl rfl⟩
  | accepted cs hserv hbelow hfree =>
      have hnew : cs ∉ t.joined := by
        rw [ht.joined]
        intro hclient
        have hboth := hfree.symm.trans hclient
        cases hboth
      refine ⟨{ t with joined := insert cs t.joined }, ?_, ?_, fun k => ?_⟩
      · simp [events, Run.perform, Hub.step, hnew]
      · rw [ht.joined]
        ext k
        simp only [clients, srvAccept, setSlot_fds, Set.mem_insert_iff, Set.mem_ofPred_eq]
        by_cases hk : k = cs <;> simp [hk]
      · exact ht.handed k
  | hungUp data hclient hdata =>
      have htype := FdType.readFct_eq_clientRead.mp (hfct.symm.trans hclient)
      have hjoined : e.checking ∈ t.joined := by
        rw [ht.joined, ← hi]
        exact htype
      refine ⟨{ t with joined := t.joined \ {e.checking} }, ?_, ?_, fun k => ?_⟩
      · rcases hdata with rfl | rfl <;> simp [events, Run.perform, Hub.step, hjoined]
      · rw [ht.joined, ← hi]
        ext k
        simp only [clients, setSlot_fds, Set.mem_sdiff, Set.mem_singleton_iff, Set.mem_ofPred_eq]
        by_cases hk : k = i <;> simp [hk, FdSlot.cleanFd]
      · exact ht.handed k
  | received data hclient hdata =>
      rcases data with _ | ⟨c, data⟩
      · exact (hdata rfl).elim
      · refine ⟨t.say e.checking (c :: data), rfl, ?_, fun k => ?_⟩
        · change t.joined = _
          rw [ht.joined]
          ext k
          simp only [clients, clientRead, setSlot_fds, Set.mem_ofPred_eq]
          by_cases hk : k = i <;> simp [hk]
        · have hothers : k ∈ e.others i ↔ k ∈ t.joined ∧ k ≠ e.checking := by
            rw [mem_others hsound, ht.joined, hi]
          have hnodup : (e.others i).Nodup := List.nodup_range.filter _
          rw [handed_received, ← ht.handed k]
          exact Hub.State.say_copies hnodup hothers (c :: data)

/-- `client_write` sends nothing. -/
theorem Env.checkWrite_sent (e : Env) : e.checkWrite.sent = e.sent := by
  unfold checkWrite callWrite
  by_cases hwrite : e.checking ∈ e.fdWrite
  · simp only [if_pos hwrite]
    split <;> split <;> rfl
  · simp only [if_neg hwrite]
    split <;> rfl

/-- So it does not change what is shown. -/
theorem Env.Shows.checkWrite (h : e.Shows t) : e.checkWrite.Shows t :=
  h.congr e.checkWrite_fds.1 e.checkWrite_sent

/-- Waiting sends nothing. -/
theorem Env.select_sent (e : Env) (ready : Option (Finset Fd × Finset Fd)) :
    (e.select ready).sent = e.sent := by
  have hinit : e.initFd.sent = e.sent := by
    unfold initFd
    split <;> rfl
  unfold select
  dsimp only
  split
  · cases ready <;> exact hinit
  · exact hinit

/-- **The server is a hub.**  Every step of the server stands for what its events do at
the hub. -/
theorem refines : Hub.Refines step Env.Sound events Env.clients Env.handed where
  keeps := fun _ _ _ => sound_step
  shown := by
    intro e a next t hsound hstep ht
    have ht : e.Shows t := ht
    cases (stepped_of_step hstep).2 with
    | select ready hround hreports =>
        exact ⟨t, rfl, ht.congr (e.select_fds ready).1 (e.select_sent ready)⟩
    | check hchecks hturned =>
        cases hturned with
        | pastFdSet => exact ⟨t, rfl, ht.congr rfl rfl⟩
        | unread => exact ⟨t, rfl, ht.checkWrite⟩
        | ended hbit hread hcalled hended => exact hcalled.shown hsound rfl ht
        | served hbit hread hcalled hgoing =>
            obtain ⟨t', hperform, ht'⟩ := hcalled.shown hsound rfl ht
            exact ⟨t', hperform, Env.Shows.checkWrite ht'⟩

/-- **Runs of the server are runs of the hub**: it starts with nobody connected, and at
the end the same parties are joined and have been passed the same. -/
theorem run_of_hub (run : Steps trace e) :
    ∃ t, Run.perform Hub.step (Run.eventsOf events trace) ⟨∅, fun _ => []⟩ = some t ∧
      t.joined = e.clients ∧ ∀ k, (t.passed k).map Prod.snd = e.handed k := by
  obtain ⟨first, hfirst, run⟩ := run.first
  have hsound := sound_start hfirst
  obtain ⟨maxfd, s, leftover, -, rfl⟩ := hfirst
  have hshows : (initial maxfd s leftover).Shows ⟨∅, fun _ => []⟩ := by
    refine ⟨Set.ext fun k => ?_, fun k => rfl⟩
    refine iff_of_false (Set.notMem_empty k) fun hclient => ?_
    have htype := (initial_slot maxfd s k leftover).1.symm.trans hclient
    split at htype <;> cases htype
  obtain ⟨t, hperform, ht⟩ := refines.run hsound run hshows
  exact ⟨t, hperform, ht.joined, ht.handed⟩

/-- The first round of a server in which somebody connects, on the descriptor `cs`. -/
def connect (cs : Fd) : List Action :=
  [.select (some ({3}, ∅)), .check none, .check none, .check none,
    .check (some (.accepted (some cs)))]

/-- A round in which the clients on 4 and 5 have written. -/
def talk (four five : String) : List Action :=
  [.select (some ({4, 5}, ∅)), .check none, .check none, .check none, .check none,
    .check (some (.received (some four.toList))), .check (some (.received (some five.toList)))]

/-- Two clients connect, and both write in one round. -/
theorem run_of_hub_two : ∃ trace e t, Steps trace e ∧
    Run.perform Hub.step (Run.eventsOf events trace) ⟨∅, fun _ => []⟩ = some t ∧
    (t.passed 4).map Prod.snd = ["b".toList] ∧ (t.passed 5).map Prod.snd = ["a".toList] := by
  obtain ⟨trace, e, run, htest⟩ := Run.exists_steps_of_record step start_empty
    (connect 4 ++ connect 5 ++ talk "a" "b")
    (fun _ e => e.handed 4 = ["b".toList] ∧ e.handed 5 = ["a".toList]) (by decide +kernel)
  obtain ⟨hfour, hfive⟩ := of_decide_eq_true htest
  obtain ⟨t, hperform, -, hpassed⟩ := run_of_hub run
  exact ⟨trace, e, t, run, hperform, (hpassed 4).trans hfour, (hpassed 5).trans hfive⟩

/-- **What a client is sent while it is connected**: the data of all the others, each
piece once and unchanged, in the order in which the server read them, and nothing of
its own. -/
theorem handed_while_connected (run : Steps past first)
    (more : Run.Steps step (· = first) trace e) (hk : k ∈ first.clients)
    (hstays : .leave k ∉ Run.eventsOf events trace) :
    e.handed k = first.handed k ++
      ((Hub.said (Run.eventsOf events trace)).filter fun m => m.1 ≠ k).map Prod.snd :=
  refines.handed_of_stays (sound run) more hk hstays

/-- Two clients are connected; both write, twice. -/
theorem handed_while_connected_two : ∃ past first trace e, Steps past first ∧
    Run.Steps step (· = first) trace e ∧
    e.handed 4 = first.handed 4 ++ ["b".toList, "d".toList] := by
  obtain ⟨past, first, run, htest⟩ := Run.exists_steps_of_record step start_empty
    (connect 4 ++ connect 5)
    (fun _ first => (Run.record step (talk "a" "b" ++ talk "c" "d") ([], first)).any fun recorded =>
      (first.fds 4).type = .client ∧
        Run.eventsOf events recorded.1 = [.say 4 "a".toList, .say 5 "b".toList,
          .say 4 "c".toList, .say 5 "d".toList]) (by decide +kernel)
  obtain ⟨⟨trace, e⟩, hrecorded, hevents⟩ := (Option.any_eq_true _ _).mp htest
  obtain ⟨hclient, hevents⟩ := of_decide_eq_true hevents
  have hnil : Run.Steps step (· = first) [] first := .nil rfl
  have more := hnil.record hrecorded
  have hall := handed_while_connected (k := 4) run more hclient (by rw [hevents]; decide)
  rw [hevents] at hall
  exact ⟨past, first, trace, e, run, more, hall⟩

end Bircd
