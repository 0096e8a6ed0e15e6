import IrcServers.FtIrc.Reachable

/-!
# The descriptors given to `poll`

`pollFds` only grows: the top of the loop appends the clients from index
`lastClientSize` on.  As long as no client is removed this makes it the
listening socket followed by the clients' descriptors.  After a removal the
next call of `poll` still has the descriptor of the client that is gone, since
no client can be accepted before that call.
-/

namespace FtIrc

variable {w w' : World} {a : Action} {trace : Run.Trace World Action}

/-- The list given to `poll`: the listening socket, then one entry for each
client. -/
def World.PollsClients (w : World) : Prop :=
  ∃ fds, w.pollFds = w.listener :: fds ∧ List.Perm fds (w.srv.fdsOf w.srv.clients)

/-- The step removes no client. -/
def RemovesNone (w : World) (a : Action) : Prop := w.removes a = none

instance (w : World) (a : Action) : Decidable (RemovesNone w a) :=
  inferInstanceAs (Decidable (w.removes a = none))

/-- The clients counted at the last call of `poll` are polled, in their order. -/
structure World.Polled (w : World) : Prop where
  fds : w.pollFds = w.listener :: w.srv.fdsOf (w.srv.clients.take w.lastClientSize)
  counted : w.lastClientSize ≤ w.srv.clients.length

/-- Some descriptor is polled that belongs to no client, and no client will be
accepted before the next call of `poll`. -/
structure World.Stale (w : World) : Prop where
  fd : ∃ fd ∈ w.pollFds.tail, fd ∉ w.srv.fdsOf w.srv.clients
  serving : w.phase = .serving

/-- A message that is being handled came from a descriptor that is polled. -/
def World.Attends (w : World) : Prop :=
  ∀ fd lines, w.pending = some (fd, lines) → fd ∈ w.pollFds.tail ∧ w.phase = .serving

/-- The top of the loop adds the clients that were not counted. -/
theorem World.Polled.gather (h : w.Polled) : w.gather.Polled := by
  refine ⟨?_, Nat.le_refl _⟩
  unfold World.gather
  dsimp only
  rw [h.fds, List.cons_append, List.take_length]
  unfold Server.fdsOf
  rw [← List.map_append, List.take_append_drop]

/-- Gathering the descriptors again polls the clients. -/
theorem World.Polled.pollsClients (h : w.Polled) : w.gather.PollsClients := by
  refine ⟨_, h.gather.fds, ?_⟩
  have hall : w.gather.lastClientSize = w.gather.srv.clients.length := rfl
  rw [hall, List.take_length]

/-- A stale descriptor is still there at the next call of `poll`. -/
theorem World.Stale.not_pollsClients (h : w.Stale) : ¬ w.gather.PollsClients := by
  intro hpolls
  obtain ⟨fd, hfd, hgone⟩ := h.fd
  obtain ⟨fds, hfds, hperm⟩ := hpolls
  have hin : fd ∈ w.gather.pollFds.tail := by
    unfold World.gather
    cases hpollFds : w.pollFds with
    | nil =>
        rw [hpollFds] at hfd
        cases hfd
    | cons head rest =>
        rw [hpollFds] at hfd
        exact List.mem_append_left _ hfd
  rw [hfds] at hin
  exact hgone (hperm.subset hin)

/-- The poll list stays right while nobody comes or goes. -/
theorem World.Polled.of_keeps (h : w.Polled) (hkeeps : w.srv.Keeps w'.srv)
    (hlistener : w'.listener = w.listener) (hfds : w'.pollFds = w.pollFds)
    (hsize : w'.lastClientSize = w.lastClientSize) : w'.Polled := by
  refine ⟨?_, ?_⟩
  · rw [hfds, h.fds, hlistener, hsize, hkeeps.same, Server.fdsOf_congr hkeeps.fd]
  · rw [hsize, hkeeps.same]
    exact h.counted

/-- Reads and lines leave the list alone. -/
theorem Stepped.pollFds (h : Stepped w a w') (hold : a ≠ .gather) :
    w'.pollFds = w.pollFds ∧ w'.listener = w.listener ∧ w'.lastClientSize = w.lastClientSize := by
  cases h with
  | gather => exact (hold rfl).elim
  | accept => exact ⟨rfl, rfl, rfl⟩
  | read =>
      obtain ⟨hfds, hlistener, hsize, -⟩ := World.read_keeps w _ _
      exact ⟨hfds, hlistener, hsize⟩
  | readFails => exact ⟨rfl, rfl, rfl⟩
  | line => exact ⟨rfl, rfl, rfl⟩

/-- After a read the loop is past the accept. -/
theorem Stepped.serving (h : Stepped w a w') (hattends : w.Attends) (hold : a ≠ .gather) :
    w'.phase = .serving := by
  cases h with
  | gather => exact (hold rfl).elim
  | accept => rfl
  | read => exact (World.read_keeps w _ _).2.2.2
  | readFails => rfl
  | line hpending => exact (hattends _ _ hpending).2

/-- A step goes on with a message from a polled descriptor, or takes one from there. -/
theorem Stepped.attends (h : Stepped w a w') (hattends : w.Attends) : w'.Attends := by
  intro fd lines hpending
  have hserving := h.serving hattends
  have hfds := h.pollFds
  cases h with
  | gather hidle => rw [show w.gather.pending = none from hidle] at hpending; cases hpending
  | accept => exact ⟨(hattends fd lines hpending).1, rfl⟩
  | @read fd' message hphase hidle hpolled =>
      refine ⟨?_, hserving (by simp)⟩
      rw [World.read_pending] at hpending
      rw [(hfds (by simp)).1, (mem_of_remaining hpending).1]
      exact hpolled
  | readFails hphase hidle => rw [show _ = none from hidle] at hpending; cases hpending
  | line hbefore =>
      obtain ⟨hin, hphase⟩ := hattends _ _ hbefore
      refine ⟨?_, hphase⟩
      rw [(mem_of_remaining hpending).1]
      exact hin

/-- Nothing is served at the start. -/
theorem attends_start (h : Start w) : w.Attends := by
  obtain ⟨password, createdDate, listener, keepsFd, rfl⟩ := h
  exact fun fd lines hpending => by cases hpending

/-- Nothing has been polled at the start. -/
theorem polled_start (h : Start w) : w.Polled := by
  obtain ⟨password, createdDate, listener, keepsFd, rfl⟩ := h
  exact ⟨rfl, Nat.le_refl _⟩

/-- The client that a step removes was polled. -/
theorem Stepped.removed_polled (h : Stepped w a w') (hattends : w.Attends) {client : ClientPtr}
    {k : Nat} (hremoves : w.removes a = some (client, k)) :
    a ≠ .gather ∧ (w.srv.memory client).fd ∈ w.pollFds.tail := by
  cases h with
  | gather => cases hremoves
  | accept => cases hremoves
  | readFails => cases hremoves
  | read hphase hidle hpolled =>
      refine ⟨by simp, ?_⟩
      simp only [World.removes] at hremoves
      split at hremoves
      · obtain ⟨found, hfound, heq⟩ := Option.map_eq_some_iff.mp hremoves
        cases heq
        rw [Server.fd_of_getClient hfound]
        exact hpolled
      · cases hremoves
  | line hpending =>
      refine ⟨by simp, ?_⟩
      simp only [World.removes, hpending] at hremoves
      rw [Server.fd_of_getClient (Server.removing_some hremoves).1]
      exact (hattends _ _ hpending).1

/-- The clients that were counted stay the first ones while nobody is removed. -/
theorem World.Polled.stepped (h : w.Polled) (htidy : Tidy w) (hstep : Stepped w a w')
    (hnone : RemovesNone w a) : w'.Polled := by
  rcases hstep.accept_or_handled htidy with ⟨fd, hostName, rfl, rfl⟩ | hhandled
  · refine ⟨?_, ?_⟩
    · rw [show w.pollFds = _ from h.fds]
      have htake : (w.srv.clients ++ [w.srv.nextPtr]).take w.lastClientSize =
          w.srv.clients.take w.lastClientSize := List.take_append_of_le_length h.counted
      have hold : (w.srv.addClient fd hostName).fdsOf (w.srv.clients.take w.lastClientSize) =
          w.srv.fdsOf (w.srv.clients.take w.lastClientSize) :=
        List.map_congr_left fun p hp => congrArg Client.fd
          (Server.addClient_memory (htidy.fresh p (List.mem_of_mem_take hp)) fd hostName)
      dsimp only
      rw [← hold, ← htake]
      rfl
    · have hcounted := h.counted
      simp only [Server.addClient, List.length_append]
      omega
  · by_cases hgather : a = .gather
    · subst hgather
      cases hstep with
      | gather => exact h.gather
    · rw [hnone] at hhandled
      obtain ⟨hfds, hlistener, hsize⟩ := hstep.pollFds hgather
      exact h.of_keeps hhandled hlistener hfds hsize

/-- A removal leaves the descriptor of the client in the list. -/
theorem stale_of_removes (htidy : Tidy w) (hattends : w.Attends) (hstep : Stepped w a w')
    (hremoves : ¬ RemovesNone w a) : w'.Stale := by
  obtain ⟨⟨client, k⟩, hremoves⟩ := Option.ne_none_iff_exists'.mp hremoves
  obtain ⟨hgather, hpolled⟩ := hstep.removed_polled hattends hremoves
  have haccept : ∀ fd host, a ≠ .accept fd host := by
    intro fd host heq
    rw [heq] at hremoves
    cases hremoves
  have hhandled := hstep.handled htidy haccept
  rw [hremoves] at hhandled
  obtain ⟨hevolves, hclients, -⟩ := hhandled
  have hclient := (removes_some hremoves).1
  refine ⟨⟨(w.srv.memory client).fd, ?_, fun hin => ?_⟩, hstep.serving hattends hgather⟩
  · rw [(hstep.pollFds hgather).1]
    exact hpolled
  · rw [Server.fdsOf_evolves hevolves htidy.clients] at hin
    obtain ⟨p, hp, hfd⟩ := List.mem_map.mp hin
    rw [hclients] at hp
    obtain ⟨hin, hne⟩ := (Server.parted_clients htidy.fds hclient).mp hp
    exact hne (Server.eq_of_fd htidy.fds hin hclient hfd)

/-- A stale poll list stays so until the descriptors are gathered again. -/
theorem World.Stale.stepped (h : w.Stale) (htidy : Tidy w) (hattends : w.Attends)
    (hstep : Stepped w a w') (hgather : a ≠ .gather) : w'.Stale := by
  obtain ⟨fd, hfd, hgone⟩ := h.fd
  have haccept : ∀ fd host, a ≠ .accept fd host := by
    intro fd host heq
    subst heq
    cases hstep with
    | accept hphase =>
        have hserving := h.serving
        rw [hphase] at hserving
        cases hserving
  have hevolves := (hstep.handled htidy haccept).evolves
  refine ⟨⟨fd, ?_, fun hin => hgone ?_⟩, hstep.serving hattends hgather⟩
  · rw [(hstep.pollFds hgather).1]
    exact hfd
  · rw [Server.fdsOf_evolves hevolves htidy.clients] at hin
    exact (hevolves.clients.map _).subset hin

/-- Every call of `poll` in the run was given the right list. -/
def PollsRight (trace : Run.Trace World Action) : Prop :=
  ∀ entry ∈ trace, entry.2 = .gather → entry.1.gather.PollsClients

/-- As long as every call of `poll` was right, the list is the clients' if no
client has been removed, and stale if one has. -/
theorem polled_or_stale (run : Steps trace w) (hright : PollsRight trace) :
    w.Attends ∧ ((Run.Meets RemovesNone trace ∧ w.Polled) ∨
      (¬ Run.Meets RemovesNone trace ∧ w.Stale)) := by
  induction run with
  | nil hstart =>
      exact ⟨attends_start hstart, Or.inl ⟨Run.meets_nil _, polled_start hstart⟩⟩
  | @cons trace w a next run hstep ih =>
      have htidy := tidy run
      have hstep := stepped_of_step hstep
      obtain ⟨hattends, hcases⟩ := ih fun entry hmem => hright entry (List.mem_cons_of_mem _ hmem)
      refine ⟨hstep.attends hattends, ?_⟩
      rw [Run.meets_cons]
      rcases hcases with ⟨hmeets, hpolled⟩ | ⟨hnot, hstale⟩
      · by_cases hnone : RemovesNone w a
        · exact Or.inl ⟨⟨hnone, hmeets⟩, hpolled.stepped htidy hstep hnone⟩
        · exact Or.inr ⟨fun h => hnone h.1, stale_of_removes htidy hattends hstep hnone⟩
      · have hgather : a ≠ .gather := fun heq =>
          hstale.not_pollsClients (hright (w, a) List.mem_cons_self heq)
        exact Or.inr ⟨fun h => hnot h.2, hstale.stepped htidy hattends hstep hgather⟩

/-- Without a removal every call of `poll` is right. -/
theorem pollsRight_of_meets (run : Steps trace w) (hmeets : Run.Meets RemovesNone trace) :
    PollsRight trace ∧ w.Polled :=
  (run.history_of_meets (fun trace w => Tidy w ∧ PollsRight trace ∧ w.Polled)
    (fun _ hstart => ⟨tidy_start hstart, by simp [PollsRight], polled_start hstart⟩)
    (fun trace w a next hinv hnone hstep => by
      obtain ⟨htidy, hright, hpolled⟩ := hinv
      have hstep := stepped_of_step hstep
      refine ⟨htidy.stepped hstep, fun entry hmem hgather => ?_,
        hpolled.stepped htidy hstep hnone⟩
      rcases List.mem_cons.mp hmem with rfl | hmem
      · exact hpolled.pollsClients
      · exact hright entry hmem hgather) hmeets).2

/-- **The polled descriptors.**  In a run that ends with a call of `poll`, every
call is given the listening socket followed by one entry for each client, if
and only if the run removes no client. -/
theorem polls_clients_iff (run : Steps ((w, .gather) :: trace) w') :
    PollsRight ((w, .gather) :: trace) ↔ Run.Meets RemovesNone ((w, .gather) :: trace) := by
  cases run with
  | cons run hstep =>
      rw [Run.meets_cons]
      constructor
      · intro hright
        refine ⟨rfl, ?_⟩
        obtain ⟨-, hcases⟩ := polled_or_stale run fun entry hmem =>
          hright entry (List.mem_cons_of_mem _ hmem)
        rcases hcases with ⟨hmeets, -⟩ | ⟨-, hstale⟩
        · exact hmeets
        · exact (hstale.not_pollsClients (hright (w, .gather) List.mem_cons_self rfl)).elim
      · intro hmeets entry hmem hgather
        obtain ⟨hright, hpolled⟩ := pollsRight_of_meets run hmeets.2
        rcases List.mem_cons.mp hmem with rfl | hmem
        · exact hpolled.pollsClients
        · exact hright entry hmem hgather

/-- Two clients connect, one of them logs in, and `poll` is called again. -/
theorem polls_clients_iff_login : ∃ trace w w', Steps ((w, .gather) :: trace) w' ∧
    w.srv.clients = [0, 1] ∧ PollsRight ((w, .gather) :: trace) := by
  obtain ⟨trace, w, run, hmeets, htest⟩ := Run.exists_steps_meeting step RemovesNone start_pw
    ([.gather, .accept 5 "h".toList, .gather, .accept 6 "i".toList] ++
      packet 5 ["PASS pw", "NICK a", "USER a a a :n"])
    (fun w => w.pending.isNone ∧ w.srv.clients = [0, 1]) (by decide +kernel)
  obtain ⟨hidle, hclients⟩ := of_decide_eq_true htest
  have hgather : step w .gather = some w.gather := if_pos (Option.isNone_iff_eq_none.mp hidle)
  have hrun := run.cons hgather
  exact ⟨trace, w, _, hrun, hclients, (polls_clients_iff hrun).mpr
    (Run.meets_cons.mpr ⟨rfl, hmeets⟩)⟩

/-- A client connects in the round in which another hangs up: the next call of
`poll` is given the descriptor 5, which is no client's, and not the descriptor
6 of the client there is. -/
theorem accepted_client_not_polled : ¬ ∀ trace w, Steps trace w → PollsRight trace := by
  intro hall
  obtain ⟨trace, w, run, htest⟩ := Run.exists_steps_of_perform step start_pw
    [.gather, .accept 5 "h".toList, .gather, .accept 6 "i".toList, .read 5 []]
    (fun w => w.pending.isNone ∧ w.gather.pollFds = [3, 5] ∧ w.srv.fdsOf w.srv.clients = [6])
    (by decide +kernel)
  obtain ⟨hidle, hpollFds, hfds⟩ := of_decide_eq_true htest
  have hgather : step w .gather = some w.gather := if_pos (Option.isNone_iff_eq_none.mp hidle)
  obtain ⟨fds, hlist, hperm⟩ :=
    hall _ _ (run.cons hgather) (w, .gather) List.mem_cons_self rfl
  rw [hpollFds] at hlist
  obtain ⟨-, rfl⟩ := List.cons.inj hlist
  rw [show w.gather.srv.fdsOf w.gather.srv.clients = [6] from hfds] at hperm
  exact absurd (List.singleton_perm_singleton.mp hperm) (by decide)

end FtIrc
