import IrcServers.Run

/-!
# The `select` server of `tcp_mu2/irc_mu2`

`ft_loop` as a labelled machine.  A round starts with `select`, after which the
loop goes through the descriptors that are ready, in increasing order; the
results of `select`, `accept` and `recv` are chosen by the action.  A failing
`select` ends the program.

Every accepted connection is stored in the next slot of `clients`: the index `i`
is raised by each accept and lowered by nothing.  The loop that passes a message
on has a variable `i` of its own.
-/

namespace TcpMu2

/-- A string, byte by byte. -/
abbrev Str := List Char

/-- A file descriptor; a call that fails returns none. -/
abbrev Fd := Nat

/-- `MAX_CLIENTS`. -/
def maxClients : Nat := 1024

/-- `BUFFER_SIZE`. -/
def bufferSize : Nat := 300000

/-- `FD_SETSIZE`: an `fd_set` has a bit for each smaller descriptor. -/
def fdSetSize : Nat := 1024

/-- `struct s_server`, with the globals `maxfd` and `i`.  Of `clients` the
member `socketfd` is kept.  `ready` are the descriptors of `read_set` that the
loop has still to come to, `stored` the indices at which `accept_serv` has
stored, and `defined` is lost with the first write outside an array. -/
structure Server where
  serversocket : Fd
  current : List Fd
  ready : List Fd
  clients : Vector Fd maxClients
  maxfd : Fd
  i : Nat
  sent : List (Fd × Str)
  stored : List Nat
  defined : Bool

/-- What the kernel answers next.  `recv` returns no data when the peer has
hung up, and none when it fails. -/
inductive Action where
  | select (readSet : List Fd)
  | accept (clisock : Option Fd)
  | recv (data : Option Str)

namespace Server

/-- `accept_serv`, with the connection `clisock`. -/
def acceptServ (s : Server) (clisock : Fd) : Server :=
  if h : s.i < maxClients then
    let s := { s with stored := s.stored ++ [s.i], clients := s.clients.set s.i clisock h }
    if clisock < fdSetSize then
      { s with
        current := s.current.insert clisock
        maxfd := max s.maxfd clisock
        i := s.i + 1 }
    else { s with defined := false }
  else { s with stored := s.stored ++ [s.i], defined := false }

/-- `close(fd)` and `FD_CLR(fd, &server->current)`. -/
def close (s : Server) (fd : Fd) : Server :=
  { s with current := s.current.filter (· ≠ fd) }

/-- A message is passed on to every other client. -/
def broadcast (s : Server) (fd : Fd) (data : Str) : Server :=
  { s with
    sent := s.sent ++ ((List.range (s.maxfd + 1)).filter fun i =>
      i ∈ s.current ∧ i ≠ s.serversocket ∧ i ≠ fd).map fun i => (i, data) }

/-- The clients that are connected. -/
def connected (s : Server) : List Fd := s.current.filter (· ≠ s.serversocket)

/-- Every store of `accept_serv` was into a slot of `clients`. -/
def InBounds (s : Server) : Prop := ∀ k ∈ s.stored, k < maxClients

end Server

/-- One answer of the kernel and what `ft_loop` does with it.  `select` watches
the descriptors up to `maxfd`, so the loop comes to all that it reports; `accept`
returns descriptors that are not in use. -/
def step (s : Server) (a : Action) : Option Server :=
  if s.defined then
    match a, s.ready with
    | .select readSet, [] =>
        if readSet.Pairwise (· < ·) ∧ ∀ fd ∈ readSet, fd ∈ s.current ∧ fd ≤ s.maxfd then
          some { s with ready := readSet }
        else none
    | .accept clisock, fd :: ready =>
        if fd = s.serversocket then
          match clisock with
          | none => some { s with ready := ready }
          | some clisock =>
              if clisock ∉ s.current then some ({ s with ready := ready }.acceptServ clisock)
              else none
        else none
    | .recv data, fd :: ready =>
        if fd ≠ s.serversocket then
          match data with
          | none | some [] => some ({ s with ready := ready }.close fd)
          | some data =>
              if data.length < bufferSize then some ({ s with ready := ready }.broadcast fd data)
              else none
        else none
    | _, _ => none
  else none

/-- The server as `main` sets it up. -/
def initial (serversocket : Fd) : Server where
  serversocket := serversocket
  current := [serversocket]
  ready := []
  clients := Vector.replicate maxClients 0
  maxfd := serversocket
  i := 0
  sent := []
  stored := []
  defined := true

/-- A start of the server. -/
def Start (s : Server) : Prop := ∃ serversocket < fdSetSize, s = initial serversocket

/-- Runs of the server. -/
abbrev Steps (trace : Run.Trace Server Action) (s : Server) : Prop :=
  Run.Steps step Start trace s

/-- The kernel returns a new connection. -/
def Action.accepts : Action → Bool
  | .accept (some _) => true
  | _ => false

/-- The connections accepted in a run. -/
def accepted (trace : Run.Trace Server Action) : Nat := trace.countP fun entry => entry.2.accepts

variable {s next : Server} {a : Action} {trace : Run.Trace Server Action}

/-- What an answer of the kernel does to the slots: an accepted connection is
stored, and any other answer leaves them. -/
inductive Stores (s : Server) : Action → Server → Prop
  | accepts {ready : List Fd} {clisock : Fd} (hnew : clisock ∉ s.current) :
      Stores s (.accept (some clisock)) ({ s with ready := ready }.acceptServ clisock)
  | keeps {a : Action} {next : Server} (hother : a.accepts = false)
      (hstored : next.stored = s.stored) (hi : next.i = s.i) : Stores s a next

/-- Only an accepted connection is stored. -/
theorem stores_of_step (h : step s a = some next) : s.defined = true ∧ Stores s a next := by
  unfold step at h
  split at h
  · refine ⟨‹_›, ?_⟩
    split at h
    · split at h
      · cases h
        exact .keeps rfl rfl rfl
      · cases h
    · split at h
      · split at h
        · cases h
          exact .keeps rfl rfl rfl
        · split at h
          · cases h
            exact .accepts ‹_›
          · cases h
      · cases h
    · split at h
      · split at h
        · cases h
          exact .keeps rfl rfl rfl
        · cases h
          exact .keeps rfl rfl rfl
        · split at h
          · cases h
            exact .keeps rfl rfl rfl
          · cases h
      · cases h
    · cases h
  · cases h

/-- `accept_serv` stores at the index `i`, and raises it if what it does is
defined. -/
theorem Server.acceptServ_counts (s : Server) (clisock : Fd) :
    (s.acceptServ clisock).stored = s.stored ++ [s.i] ∧
      ((s.acceptServ clisock).defined = true → (s.acceptServ clisock).i = s.i + 1) := by
  unfold acceptServ
  split
  · dsimp only
    split
    · exact ⟨rfl, fun _ => rfl⟩
    · exact ⟨rfl, fun h => by cases h⟩
  · exact ⟨rfl, fun h => by cases h⟩

/-- The slots are filled one after the other, and `i` counts the accepts. -/
structure Counts (trace : Run.Trace Server Action) (s : Server) : Prop where
  stored : s.stored = List.range (accepted trace)
  i : s.defined = true → s.i = accepted trace

/-- A step keeps the count of the accepts. -/
theorem Counts.step (h : Counts trace s) (hstep : step s a = some next) :
    Counts ((s, a) :: trace) next := by
  obtain ⟨hdefined, hstores⟩ := stores_of_step hstep
  have hi := h.i hdefined
  cases hstores with
  | @accepts ready clisock hnew =>
      obtain ⟨hstored, hraised⟩ := Server.acceptServ_counts { s with ready := ready } clisock
      have hcount : accepted ((s, .accept (some clisock)) :: trace) = accepted trace + 1 :=
        List.countP_cons_of_pos rfl
      refine ⟨?_, fun hdone => ?_⟩
      · rw [hstored, hcount, List.range_succ, ← h.stored, ← hi]
      · rw [hraised hdone, hcount, ← hi]
  | keeps hother hstored hkept =>
      have hcount : accepted ((s, a) :: trace) = accepted trace :=
        List.countP_cons_of_neg (by simp [hother])
      exact ⟨by rw [hstored, hcount, h.stored], fun _ => by rw [hkept, hcount, hi]⟩

/-- The index of a run is the number of its accepts. -/
theorem counts (run : Steps trace s) : Counts trace s :=
  run.history_of_meets Counts (fun _ ⟨_, _, hstart⟩ => hstart ▸ ⟨rfl, fun _ => rfl⟩)
    (fun _ _ _ _ h (_ : True) hstep => h.step hstep) (by simp [Run.Meets])

/-- What is stored stays stored. -/
theorem stored_subset (hstep : step s a = some next) : s.stored ⊆ next.stored := by
  cases (stores_of_step hstep).2 with
  | accepts hnew =>
      rw [(Server.acceptServ_counts _ _).1]
      exact List.subset_append_left _ _
  | keeps hother hstored hkept => exact hstored ▸ List.Subset.refl _

/-- The stores are in bounds as long as no more connections have been accepted than
there are slots. -/
theorem Counts.inBounds_iff (h : Counts trace s) : s.InBounds ↔ accepted trace ≤ maxClients := by
  unfold Server.InBounds
  rw [h.stored]
  constructor
  · intro hall
    refine Nat.le_of_not_lt fun hmany => ?_
    exact Nat.lt_irrefl _ (hall maxClients (List.mem_range.mpr hmany))
  · intro hfew k hk
    exact Nat.lt_of_lt_of_le (List.mem_range.mp hk) hfew

/-- **The slots.**  All the stores of a run are into slots of `clients` if and
only if the run accepts no more connections than there are slots, however many
of them are connected at a time. -/
theorem stores_in_bounds_iff (run : Steps trace s) :
    Run.Throughout Server.InBounds trace s ↔ accepted trace ≤ maxClients := by
  have hback : ∀ s a next, TcpMu2.step s a = some next → next.InBounds → s.InBounds :=
    fun s a next hstep hnext k hk => hnext k (stored_subset hstep hk)
  rw [run.throughout_iff_finish hback]
  exact (counts run).inBounds_iff

/-- A run with never more than one client connected ends here. -/
def OneAtATime (s : Server) : Prop :=
  ∃ trace, Steps trace s ∧ Run.Throughout (fun s => s.connected.length ≤ 1) trace s

/-- A step after which at most one client is connected goes on with such a run. -/
theorem OneAtATime.step (h : OneAtATime s) (hstep : step s a = some next)
    (hnext : next.connected.length ≤ 1) : OneAtATime next := by
  obtain ⟨trace, run, hall⟩ := h
  exact ⟨_, run.cons hstep, hall.cons hnext⟩

/-- Between two rounds, with the listening socket 3, these clients connected,
and `n` slots used. -/
structure Between (clients : List Fd) (n : Nat) (s : Server) : Prop where
  serversocket : s.serversocket = 3
  current : s.current = clients ++ [3]
  ready : s.ready = []
  maxfd : ∀ fd ∈ s.current, fd ≤ s.maxfd
  i : s.i = n
  defined : s.defined = true

variable {clients : List Fd} {n : Nat}

/-- A watched descriptor becomes ready. -/
theorem Between.select (h : Between clients n s) (fd : Fd) (hfd : fd ∈ s.current) :
    step s (.select [fd]) = some { s with ready := [fd] } := by
  simp [step, h.defined, h.ready, hfd, h.maxfd fd hfd]

/-- A client connects, on the descriptor 4. -/
theorem Between.accept (h : Between [] n s) :
    step { s with ready := [3] } (.accept (some 4)) =
      some ({ s with ready := [] }.acceptServ 4) := by
  simp [step, h.defined, h.serversocket, h.current]

/-- The client on the descriptor 4 hangs up. -/
theorem Between.hangUp (h : Between [4] n s) :
    step { s with ready := [4] } (.recv (some [])) = some ({ s with ready := [] }.close 4) := by
  simp [step, h.defined, h.serversocket]

/-- The client on the descriptor 4 takes a slot. -/
theorem Between.accepted (h : Between [] n s) (hn : n < maxClients) :
    Between [4] (n + 1) ({ s with ready := [] }.acceptServ 4) := by
  have hi : s.i < maxClients := h.i.symm ▸ hn
  have hcurrent : s.current.insert 4 = [4, 3] := by rw [h.current]; rfl
  have hmaxfd : 3 ≤ s.maxfd := h.maxfd 3 (by simp [h.current])
  have hbit : (4 : Fd) < fdSetSize := by decide
  simp only [Server.acceptServ, dif_pos hi, if_pos hbit, hcurrent]
  refine ⟨h.serversocket, rfl, rfl, fun fd hfd => ?_, congrArg (· + 1) h.i, h.defined⟩
  rcases List.mem_cons.mp hfd with rfl | hfd
  · exact Nat.le_max_right _ _
  · rw [List.mem_singleton.mp hfd]
    exact Nat.le_trans hmaxfd (Nat.le_max_left _ _)

/-- When the only client hangs up, nobody is connected. -/
theorem Between.closed (h : Between [4] n s) :
    Between [] n ({ s with ready := [] }.close 4) := by
  refine ⟨h.serversocket, ?_, rfl, fun fd hfd => ?_, h.i, h.defined⟩
  · simp [Server.close, h.current]
  · exact h.maxfd fd (List.mem_of_mem_filter hfd)

/-- Between two rounds those are connected that are listed. -/
theorem Between.connected_le_one (h : Between clients n s) (hfew : clients.length ≤ 1) :
    s.connected.length ≤ 1 := by
  have hfilter : s.connected = clients.filter (· ≠ 3) := by
    simp [Server.connected, h.current, h.serversocket]
  rw [hfilter]
  exact Nat.le_trans (List.length_filter_le _ _) hfew

/-- A client connects and hangs up again: one more slot is used. -/
theorem Between.connection (h : Between [] n s) (hn : n < maxClients) (hone : OneAtATime s) :
    ∃ s', OneAtATime s' ∧ Between [] (n + 1) s' := by
  have hnone := h.connected_le_one (by decide)
  have hpolled := hone.step (h.select 3 (by simp [h.current])) hnone
  have hbusy := h.accepted hn
  have hfew := hbusy.connected_le_one (by decide)
  have hserved := hpolled.step h.accept hfew
  have hready := hserved.step (hbusy.select 4 (by simp [hbusy.current])) hfew
  have hidle := hbusy.closed
  exact ⟨_, hready.step hbusy.hangUp (hidle.connected_le_one (by decide)), hidle⟩

/-- `n` clients can connect one after the other. -/
theorem exists_connections (hn : n ≤ maxClients) : ∃ s, OneAtATime s ∧ Between [] n s := by
  induction n with
  | zero =>
      have hstart : Start (initial 3) := ⟨3, by decide, rfl⟩
      refine ⟨initial 3, ⟨[], .nil hstart, by decide, by simp⟩, rfl, rfl, rfl, ?_, rfl, rfl⟩
      intro fd hfd
      exact Nat.le_of_eq (List.mem_singleton.mp hfd)
  | succ n ih =>
      obtain ⟨s, hone, hbetween⟩ := ih (Nat.le_of_succ_le hn)
      exact hbetween.connection hn hone

/-- A client connects, writes a line and hangs up, and another connects. -/
theorem stores_in_bounds_iff_two : ∃ trace s, Steps trace s ∧ s.stored = [0, 1] ∧
    Run.Throughout Server.InBounds trace s := by
  have hstart : Start (initial 3) := ⟨3, by decide, rfl⟩
  obtain ⟨trace, s, run, htest⟩ := Run.exists_steps_of_record step hstart
    [.select [3], .accept (some 4), .select [4], .recv (some "hi\n".toList), .select [4],
      .recv (some []), .select [3], .accept (some 4)]
    (fun trace s => s.stored = [0, 1] ∧ accepted trace ≤ maxClients) (by decide +kernel)
  obtain ⟨hstored, hfew⟩ := of_decide_eq_true htest
  exact ⟨trace, s, run, hstored, (stores_in_bounds_iff run).mpr hfew⟩

/-- With never more than one client connected, the 1025th connection is stored
behind the end of `clients`. -/
theorem stores_past_clients : ¬ ∀ trace s, Steps trace s →
    Run.Throughout (fun s => s.connected.length ≤ 1) trace s →
    Run.Throughout Server.InBounds trace s := by
  intro hall
  obtain ⟨s, hone, h⟩ := exists_connections (Nat.le_refl maxClients)
  have hi : ¬ s.i < maxClients := h.i.symm ▸ Nat.lt_irrefl maxClients
  have hserved : ({ s with ready := [] }.acceptServ 4).connected = s.connected := by
    simp [Server.acceptServ, hi, Server.connected]
  have hpolled := hone.step (h.select 3 (by simp [h.current]))
    (h.connected_le_one (by decide))
  obtain ⟨trace, run, hfew⟩ := hpolled.step h.accept
    (hserved ▸ h.connected_le_one (by decide))
  have hstored : s.i ∈ ({ s with ready := [] }.acceptServ 4).stored := by
    rw [(Server.acceptServ_counts _ 4).1]
    exact List.mem_append_right _ List.mem_cons_self
  exact hi ((hall trace _ run hfew).1 s.i hstored)

end TcpMu2
