import IrcServers.Hub
import IrcServers.TcpMu2.SelectLoop

/-!
# What the `select` server of `tcp_mu2/irc_mu2` relays

The server is the same hub as `bircd`, with a set of descriptors in place of a table
of slots: an accepted connection joins, a client that hangs up leaves, and what is
received from one client is passed on to the others.  What is not relayed is lost
only with the run itself, when an accept stores behind the end of `clients`.
-/

namespace TcpMu2

variable {s next first : Server} {a : Action} {past trace : Run.Trace Server Action} {k fd : Fd}
  {t : Hub.State Fd Str}

namespace Server

/-- The clients that are connected. -/
def clientFds (s : Server) : Set Fd := {k | k ∈ s.current ∧ k ≠ s.serversocket}

/-- What has been sent to the descriptor `k`. -/
def handed (s : Server) (k : Fd) : List Str := Hub.handedTo s.sent k

/-- The sets of descriptors: what the loop has still to come to is watched, and
nothing that is watched lies above `maxfd`. -/
structure Watches (s : Server) : Prop where
  below : ∀ fd ∈ s.current, fd ≤ s.maxfd
  sorted : s.ready.Pairwise (· < ·)
  ready : ∀ fd ∈ s.ready, fd ∈ s.current

/-- The server, seen as a hub. -/
abbrev Shows (s : Server) (t : Hub.State Fd Str) : Prop := Hub.Shows clientFds handed s t

end Server

/-- What a step is at the hub. -/
def events (s : Server) : Action → List (Hub.Event Fd Str)
  | .accept (some clisock) =>
      if s.i < maxClients ∧ clisock < fdSetSize then [.join clisock] else []
  | .recv data =>
      match s.ready, data with
      | fd :: _, some (c :: data) => [.say fd (c :: data)]
      | fd :: _, _ => [.leave fd]
      | [], _ => []
  | _ => []

/-- One step, by what it does to the connections. -/
inductive Served (s : Server) : Action → Server → Prop
  | select (readSet : List Fd) (hsorted : readSet.Pairwise (· < ·))
      (hread : ∀ fd ∈ readSet, fd ∈ s.current) :
      Served s (.select readSet) { s with ready := readSet }
  | refused (ready : List Fd) (hready : s.ready = s.serversocket :: ready) :
      Served s (.accept none) { s with ready := ready }
  | accepted (ready : List Fd) (clisock : Fd) (hready : s.ready = s.serversocket :: ready)
      (hnew : clisock ∉ s.current) :
      Served s (.accept (some clisock)) ({ s with ready := ready }.acceptServ clisock)
  | hungUp (fd : Fd) (ready : List Fd) (data : Option Str) (hready : s.ready = fd :: ready)
      (hclient : fd ≠ s.serversocket) (hdata : data = none ∨ data = some []) :
      Served s (.recv data) ({ s with ready := ready }.close fd)
  | received (fd : Fd) (ready : List Fd) (c : Char) (data : Str) (hready : s.ready = fd :: ready)
      (hclient : fd ≠ s.serversocket) :
      Served s (.recv (some (c :: data))) ({ s with ready := ready }.broadcast fd (c :: data))

/-- A step does one of the four things that are described. -/
theorem served_of_step (h : step s a = some next) : Served s a next := by
  unfold step at h
  split at h
  · split at h
    · split at h
      · rename_i hguard
        cases h
        exact .select _ hguard.1 fun fd hfd => (hguard.2 fd hfd).1
      · cases h
    · rename_i hready
      split at h
      · rename_i heq
        subst heq
        split at h
        · cases h
          exact .refused _ hready
        · split at h
          · cases h
            exact .accepted _ _ hready ‹_›
          · cases h
      · cases h
    · rename_i hready
      split at h
      · rename_i hclient
        split at h
        · cases h
          exact .hungUp _ _ _ hready hclient (Or.inl rfl)
        · cases h
          exact .hungUp _ _ _ hready hclient (Or.inr rfl)
        · rename_i data hempty
          split at h
          · cases h
            rcases data with _ | ⟨c, data⟩
            · exact (hempty rfl).elim
            · exact .received _ _ c data hready hclient
          · cases h
      · cases h
    · cases h
  · cases h

/-- `accept_serv`, when what it does is defined, and when it is not. -/
theorem Server.acceptServ_cases (s : Server) (clisock : Fd) :
    (s.i < maxClients ∧ clisock < fdSetSize ∧
      (s.acceptServ clisock).current = s.current.insert clisock ∧
      (s.acceptServ clisock).maxfd = max s.maxfd clisock) ∨
    (¬ (s.i < maxClients ∧ clisock < fdSetSize) ∧
      (s.acceptServ clisock).current = s.current ∧
      (s.acceptServ clisock).maxfd = s.maxfd) := by
  unfold acceptServ
  split
  · dsimp only
    split
    · exact Or.inl ⟨‹_›, ‹_›, rfl, rfl⟩
    · exact Or.inr ⟨fun h => absurd h.2 ‹_›, rfl, rfl⟩
  · exact Or.inr ⟨fun h => absurd h.1 ‹_›, rfl, rfl⟩

/-- Storing a connection sends nothing and reports nothing. -/
theorem Server.acceptServ_frame (s : Server) (clisock : Fd) :
    (s.acceptServ clisock).serversocket = s.serversocket ∧
      (s.acceptServ clisock).ready = s.ready ∧ (s.acceptServ clisock).sent = s.sent := by
  unfold acceptServ
  split
  · dsimp only
    split <;> exact ⟨rfl, rfl, rfl⟩
  · exact ⟨rfl, rfl, rfl⟩

/-- A step leaves the sets of descriptors in order. -/
theorem watches_step (h : s.Watches) (hstep : step s a = some next) : next.Watches := by
  cases served_of_step hstep with
  | select readSet hsorted hread => exact ⟨h.below, hsorted, hread⟩
  | refused ready hready =>
      have hsorted := h.sorted
      rw [hready] at hsorted
      exact ⟨h.below, (List.pairwise_cons.mp hsorted).2, fun fd hfd =>
        h.ready fd (hready ▸ List.mem_cons_of_mem _ hfd)⟩
  | accepted ready clisock hready hnew =>
      have hsorted := h.sorted
      rw [hready] at hsorted
      obtain ⟨-, hframe, -⟩ := Server.acceptServ_frame { s with ready := ready } clisock
      have hrest : ∀ fd ∈ ready, fd ∈ s.current := fun fd hfd =>
        h.ready fd (hready ▸ List.mem_cons_of_mem _ hfd)
      rcases Server.acceptServ_cases { s with ready := ready } clisock with
        ⟨-, -, hcurrent, hmaxfd⟩ | ⟨-, hcurrent, hmaxfd⟩
      · refine ⟨fun fd hfd => ?_, ?_, fun fd hfd => ?_⟩
        · rw [hcurrent, List.mem_insert_iff] at hfd
          rw [hmaxfd]
          rcases hfd with rfl | hfd
          · exact Nat.le_max_right _ _
          · exact Nat.le_trans (h.below fd hfd) (Nat.le_max_left _ _)
        · rw [hframe]
          exact (List.pairwise_cons.mp hsorted).2
        · rw [hframe] at hfd
          rw [hcurrent]
          exact List.mem_insert_of_mem (hrest fd hfd)
      · refine ⟨?_, ?_, ?_⟩
        · rw [hcurrent, hmaxfd]
          exact h.below
        · rw [hframe]
          exact (List.pairwise_cons.mp hsorted).2
        · rw [hframe, hcurrent]
          exact hrest
  | hungUp fd ready data hready hclient hdata =>
      have hsorted := h.sorted
      rw [hready] at hsorted
      obtain ⟨hfirst, hrest⟩ := List.pairwise_cons.mp hsorted
      refine ⟨fun j hj => h.below j (List.mem_of_mem_filter hj), hrest, fun j hj => ?_⟩
      -- the loop has passed the descriptor that is closed
      have hlater : j ≠ fd := Nat.ne_of_gt (hfirst j hj)
      exact List.mem_filter.mpr ⟨h.ready j (hready ▸ List.mem_cons_of_mem _ hj), by simpa⟩
  | received fd ready c data hready hclient =>
      have hsorted := h.sorted
      rw [hready] at hsorted
      exact ⟨h.below, (List.pairwise_cons.mp hsorted).2, fun j hj =>
        h.ready j (hready ▸ List.mem_cons_of_mem _ hj)⟩

/-- Only the listening socket is watched at the start. -/
theorem watches_start (h : Start s) : s.Watches := by
  obtain ⟨serversocket, -, rfl⟩ := h
  refine ⟨fun fd hfd => ?_, by simp [initial], by simp [initial]⟩
  exact Nat.le_of_eq (List.mem_singleton.mp hfd)

/-- The hub is shown by the watched descriptors and by what has been sent. -/
theorem Server.Shows.congr (h : s.Shows t) (hcurrent : next.current = s.current)
    (hserver : next.serversocket = s.serversocket) (hsent : next.sent = s.sent) :
    next.Shows t := by
  refine ⟨?_, fun k => ?_⟩
  · rw [h.joined]
    unfold clientFds
    rw [hcurrent, hserver]
  · rw [h.handed k]
    unfold handed
    rw [hsent]

/-- **The server is a hub.** -/
theorem refines : Hub.Refines step Server.Watches events Server.clientFds Server.handed where
  keeps := fun _ _ _ => watches_step
  shown := by
    intro s a next t hwatches hstep ht
    have ht : s.Shows t := ht
    cases served_of_step hstep with
    | select readSet hsorted hread => exact ⟨t, rfl, ht.congr rfl rfl rfl⟩
    | refused ready hready => exact ⟨t, rfl, ht.congr rfl rfl rfl⟩
    | accepted ready clisock hready hnew =>
        obtain ⟨hserver, -, hsent⟩ := Server.acceptServ_frame { s with ready := ready } clisock
        rcases Server.acceptServ_cases { s with ready := ready } clisock with
          ⟨hslot, hbit, hcurrent, -⟩ | ⟨hnot, hcurrent, -⟩
        · have hout : clisock ∉ t.joined := by
            rw [ht.joined]
            exact fun hclient => hnew hclient.1
          have hpast : clisock ≠ s.serversocket := fun heq =>
            hnew (heq ▸ hwatches.ready _ (hready ▸ List.mem_cons_self))
          refine ⟨{ t with joined := insert clisock t.joined }, ?_, ?_, fun k => ?_⟩
          · have hevent : events s (.accept (some clisock)) = [.join clisock] :=
              if_pos ⟨hslot, hbit⟩
            simp [hevent, Run.perform, Hub.step, hout]
          · rw [ht.joined]
            ext k
            simp only [Server.clientFds, hcurrent, hserver, Set.mem_insert_iff,
              Set.mem_ofPred_eq, List.mem_insert_iff]
            by_cases hk : k = clisock <;> simp [hk, hpast]
          · rw [ht.handed k]
            unfold Server.handed
            rw [hsent]
        · have hevent : events s (.accept (some clisock)) = [] := if_neg hnot
          exact ⟨t, by rw [hevent]; rfl, ht.congr hcurrent hserver hsent⟩
    | hungUp fd ready data hready hclient hdata =>
        have hin : fd ∈ t.joined := by
          rw [ht.joined]
          exact ⟨hwatches.ready _ (hready ▸ List.mem_cons_self), hclient⟩
        have hevent : events s (.recv data) = [.leave fd] := by
          rcases hdata with rfl | rfl <;> simp [events, hready]
        refine ⟨{ t with joined := t.joined \ {fd} }, ?_, ?_, ht.handed⟩
        · simp [hevent, Run.perform, Hub.step, hin]
        · rw [ht.joined]
          ext k
          simp only [Server.clientFds, Server.close, Set.mem_sdiff, Set.mem_singleton_iff,
            Set.mem_ofPred_eq, List.mem_filter, decide_eq_true_eq]
          constructor
          · exact fun h => ⟨⟨h.1.1, h.2⟩, h.1.2⟩
          · exact fun h => ⟨⟨h.1.1, h.2⟩, h.1.2⟩
    | received fd ready c data hready hclient =>
        have hevent : events s (.recv (some (c :: data))) = [.say fd (c :: data)] := by
          simp [events, hready]
        refine ⟨t.say fd (c :: data), by rw [hevent]; rfl, ht.joined, fun k => ?_⟩
        have hnodup : ((List.range (s.maxfd + 1)).filter fun i =>
            i ∈ s.current ∧ i ≠ s.serversocket ∧ i ≠ fd).Nodup := List.nodup_range.filter _
        have hothers : k ∈ ((List.range (s.maxfd + 1)).filter fun i =>
            i ∈ s.current ∧ i ≠ s.serversocket ∧ i ≠ fd) ↔ k ∈ t.joined ∧ k ≠ fd := by
          rw [ht.joined]
          simp only [List.mem_filter, List.mem_range, decide_eq_true_eq, Server.clientFds,
            Set.mem_ofPred_eq]
          constructor
          · exact fun h => ⟨⟨h.2.1, h.2.2.1⟩, h.2.2.2⟩
          · exact fun h => ⟨Nat.lt_succ_of_le (hwatches.below k h.1.1), h.1.1, h.1.2, h.2⟩
        rw [Hub.State.say_copies hnodup hothers, ht.handed k]
        exact (Hub.handedTo_append _ _ k).symm

/-- **What a client is sent while it is connected**: the data of all the others, each
piece once and unchanged, in the order in which the server read them, and nothing of
its own. -/
theorem relayed_while_connected (run : Steps past first)
    (more : Run.Steps step (· = first) trace s) (hk : k ∈ first.clientFds)
    (hstays : .leave k ∉ Run.eventsOf events trace) :
    s.handed k = first.handed k ++
      ((Hub.said (Run.eventsOf events trace)).filter fun m => m.1 ≠ k).map Prod.snd :=
  refines.handed_of_stays
    (run.invariant Server.Watches (fun _ => watches_start) fun _ _ _ => watches_step) more hk hstays

/-- Two clients are connected; one writes, then the other, then the first again. -/
theorem relayed_while_connected_two : ∃ past first trace s, Steps past first ∧
    Run.Steps step (· = first) trace s ∧
    s.handed 5 = first.handed 5 ++ ["a".toList, "c".toList] := by
  have hstart : Start (initial 3) := ⟨3, by decide, rfl⟩
  obtain ⟨past, first, run, htest⟩ := Run.exists_steps_of_record step hstart
    [.select [3], .accept (some 4), .select [3], .accept (some 5)]
    (fun _ first => (Run.record step [.select [4, 5], .recv (some "a".toList),
        .recv (some "b".toList), .select [4], .recv (some "c".toList)] ([], first)).any
      fun recorded => 5 ∈ first.current ∧ 5 ≠ first.serversocket ∧
        Run.eventsOf events recorded.1 =
          [.say 4 "a".toList, .say 5 "b".toList, .say 4 "c".toList]) (by decide +kernel)
  obtain ⟨⟨trace, s⟩, hrecorded, hevents⟩ := (Option.any_eq_true _ _).mp htest
  obtain ⟨hin, hclient, hevents⟩ := of_decide_eq_true hevents
  have hnil : Run.Steps step (· = first) [] first := .nil rfl
  have more := hnil.record hrecorded
  have hall := relayed_while_connected (k := 5) run more ⟨hin, hclient⟩ (by rw [hevents]; decide)
  rw [hevents] at hall
  exact ⟨past, first, trace, s, run, more, hall⟩

end TcpMu2
