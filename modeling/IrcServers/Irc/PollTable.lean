import IrcServers.Irc.Nicknames

/-!
# The client table and the poll list

`acceptConnection` enters a descriptor in the poll list and in `_clients`, and
`closeConnection` takes it out of both.  The loop over the lines of a buffer,
however, looks its client up with `_clients[clientSocket]`, which creates an
entry when a line before has closed the connection.  The two tables agree after
every buffer of a run just when no line is handled for such a descriptor.
-/

namespace Irc

namespace Tables

variable {t t' : Tables} {fd f k : Fd} {p : ClientPtr}

/-- The clients are those of the polled descriptors, the listening socket
apart, each polled once and stored under its own descriptor. -/
structure Agree (t : Tables) : Prop where
  keys : ∀ fd : Fd, (t.clients[fd]?).isSome = true ↔ fd ∈ t.pollFds ∧ fd ≠ t.serverSocket
  nodup : t.pollFds.Nodup
  socket : ∀ (fd : Fd) (p : ClientPtr), t.clients[fd]? = some p →
    (t.memory p).clientSocketFd = fd

/-- Only open descriptors are polled. -/
def PollsOpen (t : Tables) : Prop := ∀ f ∈ t.pollFds, f ∈ t.openFds

/-- Some entry belongs to a descriptor that is not open. -/
def Stray (t : Tables) : Prop := ∃ (fd : Fd) (p : ClientPtr),
  t.clients[fd]? = some p ∧ fd ∉ t.openFds

/-- An entry of a descriptor that is not open is not polled. -/
theorem Stray.not_agree (h : t.Stray) (hopen : t.PollsOpen) : ¬ t.Agree := by
  intro hagree
  obtain ⟨fd, p, hp, hclosed⟩ := h
  have hpolled := (hagree.keys fd).mp (by simp [hp])
  exact hclosed (hopen fd hpolled.1)

/-- The entries, the polled and the open descriptors, and the listening socket
are those of another state. -/
structure SameFds (t t' : Tables) : Prop where
  clients : t'.clients = t.clients
  pollFds : t'.pollFds = t.pollFds
  openFds : t'.openFds = t.openFds
  serverSocket : t'.serverSocket = t.serverSocket

/-- A line changes neither the descriptors nor what is stored under them. -/
theorem sameFds_effect {parts : List Str} (h : Effect p parts t t') : t.SameFds t' := by
  rw [h.frame]
  exact ⟨rfl, rfl, rfl, rfl⟩

/-- Closing opens nothing. -/
theorem mem_openFds_closeConnection (h : k ∈ (t.closeConnection f).openFds) : k ∈ t.openFds := by
  unfold closeConnection at h
  split at h
  · exact (List.mem_filter.mp h).1
  · exact h

/-- A closed descriptor is not polled any more. -/
theorem PollsOpen.closeConnection (h : t.PollsOpen) (f : Fd) :
    (t.closeConnection f).PollsOpen := by
  unfold Tables.closeConnection
  split
  · intro k hk
    obtain ⟨hk, hne⟩ := List.mem_filter.mp hk
    exact List.mem_filter.mpr ⟨h k hk, hne⟩
  · exact h

/-- Which polled descriptors are open depends on the two lists only. -/
theorem PollsOpen.congr (h : t.PollsOpen) (hpoll : t'.pollFds = t.pollFds)
    (hopen : t'.openFds = t.openFds) : t'.PollsOpen := by
  intro k hk
  rw [hpoll] at hk
  rw [hopen]
  exact h k hk

/-- A lookup of a client changes no poll list. -/
theorem index_pollFds (t : Tables) (fd : Fd) (junk : Leftover) :
    (t.index fd junk).1.pollFds = t.pollFds := by
  unfold index
  split <;> rfl

/-- An entry of a descriptor that is not open survives a close. -/
theorem Stray.closeConnection (h : t.Stray) (f : Fd) : (t.closeConnection f).Stray := by
  obtain ⟨fd, p, hp, hclosed⟩ := h
  refine ⟨fd, p, ?_, fun hin => hclosed (mem_openFds_closeConnection hin)⟩
  rw [closeConnection_clients, if_neg]
  · exact hp
  · intro hboth
    exact hclosed (hboth.2 ▸ hboth.1)

/-- A lookup removes no entry. -/
theorem Stray.index (h : t.Stray) (fd : Fd) (junk : Leftover) : (t.index fd junk).1.Stray := by
  obtain ⟨k, p, hk, hclosed⟩ := h
  rw [← index_openFds t fd junk] at hclosed
  by_cases hfd : fd = k
  · exact ⟨k, (t.index fd junk).2, by rw [index_clients, if_pos hfd], hclosed⟩
  · exact ⟨k, p, by rw [index_clients, if_neg hfd, hk], hclosed⟩

/-- Indexing a descriptor that is not open leaves an entry for it. -/
theorem stray_index (hclosed : fd ∉ t.openFds) (junk : Leftover) :
    (t.index fd junk).1.Stray :=
  ⟨fd, (t.index fd junk).2, by rw [index_clients, if_pos rfl], by rwa [index_openFds]⟩

/-- A line leaves a stray entry where it is. -/
theorem Stray.of_sameFds (h : t.Stray) (hsame : t.SameFds t') : t'.Stray := by
  obtain ⟨fd, p, hp, hclosed⟩ := h
  exact ⟨fd, p, by rw [hsame.clients, hp], by rwa [hsame.openFds]⟩

/-- A line leaves the tables in agreement. -/
theorem Agree.of_sameFds (h : t.Agree) (hsame : t.SameFds t')
    (hsocket : ∀ (fd : Fd) (p : ClientPtr), t'.clients[fd]? = some p →
      (t'.memory p).clientSocketFd = fd) : t'.Agree where
  keys := by
    rw [hsame.clients, hsame.pollFds, hsame.serverSocket]
    exact h.keys
  nodup := hsame.pollFds ▸ h.nodup
  socket := hsocket

/-- So does closing a connection, which erases the entry and the descriptor. -/
theorem Agree.closeConnection (h : t.Agree) (f : Fd) : (t.closeConnection f).Agree := by
  by_cases hopen : f ∈ t.openFds
  · have hpoll : (t.closeConnection f).pollFds = t.pollFds.filter (· ≠ f) := by
      simp [Tables.closeConnection, hopen]
    have hserver : (t.closeConnection f).serverSocket = t.serverSocket := by
      simp [Tables.closeConnection, hopen]
    refine ⟨fun fd => ?_, hpoll ▸ h.nodup.filter _, fun fd p hp => ?_⟩
    · rw [hpoll, hserver, closeConnection_clients]
      have hkeys := h.keys fd
      by_cases hfd : f = fd
      · subst hfd
        simp [hopen]
      · rw [if_neg fun hboth => hfd hboth.2, hkeys]
        simp [Ne.symm hfd]
    · rw [closeConnection_memory]
      rw [closeConnection_clients] at hp
      split at hp
      · cases hp
      · exact h.socket fd p hp
  · rwa [Tables.closeConnection, if_neg hopen]

/-- A new connection is polled once and stored under its descriptor. -/
theorem Agree.acceptConnection (h : t.Agree) (hregistry : t.Registry) (hopen : t.PollsOpen)
    (hlistening : t.serverSocket ∈ t.pollFds) (hfresh : fd ∉ t.openFds) (ip : Str) (port : Nat) :
    (t.acceptConnection fd ip port).Agree := by
  have hnone := hregistry.absent hfresh
  have hsocket : ∀ (k : Fd) (p : ClientPtr),
      (t.acceptConnection fd ip port).clients[k]? = some p →
        ((t.acceptConnection fd ip port).memory p).clientSocketFd = k :=
    fun _ _ => (hregistry.acceptConnection hfresh ip port).socket
  have hserver : fd ≠ t.serverSocket := by
    rintro rfl
    exact hfresh (hopen _ hlistening)
  rw [acceptConnection_of_none hnone] at hsocket ⊢
  refine ⟨fun k => ?_, ?_, hsocket⟩
  · have hkeys := h.keys k
    by_cases hk : fd = k
    · subst hk
      simp [hserver]
    · simpa [Std.ExtTreeMap.getElem?_insert, hk, Ne.symm hk] using hkeys
  · exact List.nodup_append.mpr ⟨h.nodup, List.nodup_singleton fd, by
      intro k hk k' hfd heq
      subst heq
      exact hfresh (List.mem_singleton.mp hfd ▸ hopen k hk)⟩

end Tables

/-- The entry of `fd` was made for the connection accepted in some step of the
run. -/
def BuiltBy (trace : Run.Trace World Action) (fd : Fd) (p : ClientPtr) : Prop :=
  ∃ (w : World) (ip : Str) (port : Nat), (w, Action.accept fd ip port) ∈ trace ∧
    (w.srv.acceptConnection fd ip port).clients[fd]? = some p

/-- The state of an attended run: a line is only read from a descriptor that
has an entry or is closed. -/
structure Attentive (trace : Run.Trace World Action) (w : World) : Prop where
  registry : w.srv.Registry
  agree : w.srv.Agree
  built : ∀ (fd : Fd) (p : ClientPtr), w.srv.clients[fd]? = some p → BuiltBy trace fd p
  reading : ∀ fd lines, w.reading = some (fd, lines) → fd ∈ w.srv.openFds →
    (w.srv.clients[fd]?).isSome = true

/-- Only the listening socket is polled at the start. -/
theorem pollsOpen_start {w : World} (h : Start w) : w.srv.PollsOpen := by
  obtain ⟨password, host, serverSocket, botSocket, _, rfl⟩ := h
  intro k hk
  obtain rfl : k = serverSocket := by simpa [initial] using hk
  simp [initial]

/-- A step polls open descriptors only. -/
theorem pollsOpen_step {w next : World} {a : Action} (h : w.srv.PollsOpen)
    (hstep : step w a = some next) : next.srv.PollsOpen := by
  have hindex : ∀ fd junk, (w.srv.index fd junk).1.PollsOpen := fun fd junk =>
    h.congr (Tables.index_pollFds _ _ _) (Tables.index_openFds _ _ _)
  have hentered : (w.entered a).PollsOpen := by
    unfold World.entered
    split
    · split
      · exact hindex _ _
      · exact h
    · exact h
  rcases (step_move hstep).closes_or with ⟨f, _, htables⟩ |
    ⟨_, ⟨fd, ip, port, _, htables⟩ | htables | ⟨env, fd, line, lines, _, _, heffect⟩⟩
  · rw [htables]
    exact hentered.closeConnection f
  · rw [htables, Tables.acceptConnection_eq]
    intro k hk
    rcases List.mem_append.mp hk with hk | hk
    · exact List.mem_cons_of_mem _ (h k hk)
    · exact List.mem_singleton.mp hk ▸ List.mem_cons_self
  · rw [htables]
    exact h
  · have hsame := Tables.sameFds_effect heffect
    exact (hindex _ _).congr hsame.pollFds hsame.openFds

/-- Nothing is being read at the start. -/
theorem attentive_start {w : World} (h : Start w) : Attentive [] w := by
  refine ⟨registry_start h, ?_, ?_, ?_⟩ <;>
    obtain ⟨password, host, serverSocket, botSocket, _, rfl⟩ := h
  · refine ⟨fun fd => ?_, by simp [initial], by simp [initial]⟩
    simp [initial]
  · simp [initial]
  · simp [initial]

/-- The entries of `remaining` are those of the buffer. -/
theorem fd_of_remaining {fd k : Fd} {lines rest : List Str}
    (h : remaining fd lines = some (k, rest)) : k = fd := by
  unfold remaining at h
  split at h
  · cases h
  · cases h
    rfl

/-- An attended step. -/
theorem Attentive.step {trace : Run.Trace World Action} {w next : World} {a : Action}
    (h : Attentive trace w) (hopen : w.srv.PollsOpen) (ha : Attended w a)
    (hstep : Irc.step w a = some next) : Attentive ((w, a) :: trace) next := by
  have hregistry := registry_step h.registry ha hstep
  have hbuilt : ∀ {fd p}, w.srv.clients[fd]? = some p → BuiltBy ((w, a) :: trace) fd p := by
    intro fd p hp
    obtain ⟨v, ip, port, hmem, hv⟩ := h.built fd p hp
    exact ⟨v, ip, port, List.mem_cons_of_mem _ hmem, hv⟩
  have hclosed : ∀ {f : Fd} {fd : Fd} {p : ClientPtr},
      (w.srv.closeConnection f).clients[fd]? = some p → w.srv.clients[fd]? = some p := by
    intro f fd p hp
    rw [Tables.closeConnection_clients] at hp
    split at hp
    · cases hp
    · exact hp
  cases step_move hstep with
  | accepted fd ip port _ hidle hfresh htables hreading =>
      obtain ⟨-, hlistening, -⟩ := accept_guard hstep
      refine ⟨hregistry, ?_, ?_, by simp [hreading]⟩
      · rw [htables]
        exact h.agree.acceptConnection h.registry hopen hlistening hfresh ip port
      · intro k p hp
        rw [htables] at hp
        have hnone := h.registry.absent hfresh
        rcases Tables.accepted_entry h.registry.addresses hnone hp with ⟨rfl, rfl, _⟩ | ⟨hold, _⟩
        · exact ⟨w, ip, port, List.mem_cons_self, hp⟩
        · exact hbuilt hold
  | received fd results text _ hidle hpolled htext htables hreading =>
      obtain ⟨-, -, hne, -⟩ := receive_guard hstep
      refine ⟨hregistry, htables ▸ h.agree, fun k p hp => hbuilt (htables ▸ hp), ?_⟩
      intro k lines hk _
      rw [hreading] at hk
      rw [fd_of_remaining hk, htables]
      exact (h.agree.keys fd).mpr ⟨hpolled, hne⟩
  | hungUp fd results _ hidle hpolled hend htables hreading =>
      exact ⟨hregistry, htables ▸ h.agree.closeConnection fd,
        fun k p hp => hbuilt (hclosed (htables ▸ hp)), by simp [hreading]⟩
  | handled env fd line lines _ hline hquit heffect hreading =>
      obtain ⟨p, hp, hindex⟩ := ha.issuer hline
      rw [hindex] at heffect
      have hsame := Tables.sameFds_effect heffect
      refine ⟨hregistry, h.agree.of_sameFds hsame fun _ _ => hregistry.socket, ?_, ?_⟩
      · intro k q hq
        rw [hsame.clients] at hq
        exact hbuilt hq
      · intro k rest hk _
        rw [hreading] at hk
        rw [fd_of_remaining hk, hsame.clients, hp]
        rfl
  | quitted env fd line lines _ hline hquit hsent htables hreading =>
      obtain ⟨p, hp, hindex⟩ := ha.issuer hline
      simp only [hindex, h.registry.socket hp] at htables
      refine ⟨hregistry, htables ▸ h.agree.closeConnection fd,
        fun k p hp => hbuilt (hclosed (htables ▸ hp)), ?_⟩
      intro k rest hk hin
      rw [hreading] at hk
      rw [fd_of_remaining hk, htables] at hin
      simp [Tables.closeConnection, h.registry.isOpen hp] at hin
  | aborted env fd line lines _ hline hquit hfailed htables hreading =>
      obtain ⟨p, hp, hindex⟩ := ha.issuer hline
      simp only [hindex] at htables
      exact ⟨hregistry, htables ▸ h.agree.closeConnection fd,
        fun k p hp => hbuilt (hclosed (htables ▸ hp)), by simp [hreading]⟩

/-- A step that is not attended leaves an entry of a closed descriptor, and so
does every line of a buffer after it. -/
theorem stray_step {w next : World} {env : Env} (hstep : step w (.command env) = some next)
    (hstray : (w.entered (.command env)).Stray) : next.srv.Stray := by
  cases step_move hstep with
  | handled _ fd line lines _ hline hquit heffect hreading =>
      rw [World.entered_command hline] at hstray
      exact hstray.of_sameFds (Tables.sameFds_effect heffect)
  | quitted _ fd line lines _ hline hquit hsent htables hreading =>
      rw [htables]
      rw [World.entered_command hline] at hstray
      exact hstray.closeConnection _
  | aborted _ fd line lines _ hline hquit hfailed htables hreading =>
      rw [htables]
      rw [World.entered_command hline] at hstray
      exact hstray.closeConnection _

/-- Handling a line for a client that is not there any more. -/
theorem Attentive.stray {trace : Run.Trace World Action} {w : World} {env : Env}
    (h : Attentive trace w) (ha : ¬ Attended w (.command env)) :
    (w.entered (.command env)).Stray := by
  simp only [Attended, not_forall] at ha
  obtain ⟨current, hcurrent, habsent⟩ := ha
  have hin := hcurrent
  unfold World.current at hin
  split at hin
  · rename_i fd line lines hline
    cases hin
    rw [World.entered_command hline]
    exact Tables.stray_index (fun hopen => habsent (h.reading fd _ hline hopen)) _
  · cases hin

/-- A run is attended so far, or the tables have disagreed after a buffer, or a
buffer is being worked off and there is an entry of a closed descriptor. -/
theorem attentive_or_stray {trace : Run.Trace World Action} {w : World}
    (hrun : Steps trace w) :
    (Run.Meets Attended trace ∧ Attentive trace w) ∨
      (∃ entry ∈ trace, entry.1.reading = none ∧ ¬ entry.1.srv.Agree) ∨ w.srv.Stray := by
  induction hrun with
  | nil hstart => exact Or.inl ⟨Run.meets_nil _, attentive_start hstart⟩
  | @cons trace w a next hrun hstep ih =>
      have hopen : w.srv.PollsOpen := hrun.invariant (fun w => w.srv.PollsOpen)
        (fun _ => pollsOpen_start) fun _ _ _ => pollsOpen_step
      rcases ih with ⟨hmeets, hattentive⟩ | ⟨entry, hmem, hentry⟩ | hstray
      · by_cases ha : Attended w a
        · exact Or.inl ⟨Run.meets_cons.mpr ⟨ha, hmeets⟩, hattentive.step hopen ha hstep⟩
        · refine Or.inr (Or.inr ?_)
          cases a with
          | accept fd ip port => exact (ha trivial).elim
          | receive fd results => exact (ha trivial).elim
          | command env => exact stray_step hstep (hattentive.stray ha)
      · exact Or.inr (Or.inl ⟨entry, List.mem_cons_of_mem _ hmem, hentry⟩)
      · by_cases hreading : w.reading = none
        · exact Or.inr (Or.inl ⟨(w, a), List.mem_cons_self, hreading, hstray.not_agree hopen⟩)
        · refine Or.inr (Or.inr ?_)
          cases a with
          | accept fd ip port => simp [step, hreading] at hstep
          | receive fd results => simp [step, hreading] at hstep
          | command env =>
              refine stray_step hstep ?_
              unfold World.entered
              dsimp only
              split
              · exact hstray.index _ _
              · exact hstray

/-- **The tables agree.**  A run that ends between two buffers has handled every
line for a connected client, if and only if after every buffer the clients are
those of the polled descriptors and every entry was made by an accept. -/
theorem tables_agree_iff {trace : Run.Trace World Action} {w : World} (hrun : Steps trace w)
    (hidle : w.reading = none) :
    (Run.Throughout (fun w => w.reading = none → w.srv.Agree) trace w ∧
      ∀ (fd : Fd) (p : ClientPtr), w.srv.clients[fd]? = some p → BuiltBy trace fd p) ↔
      Run.Meets Attended trace := by
  have hopen : w.srv.PollsOpen := hrun.invariant (fun w => w.srv.PollsOpen)
    (fun _ => pollsOpen_start) fun _ _ _ => pollsOpen_step
  constructor
  · intro hagree
    obtain ⟨⟨hlast, hall⟩, -⟩ := hagree
    rcases attentive_or_stray hrun with ⟨hmeets, -⟩ | ⟨entry, hmem, hreading, hnot⟩ | hstray
    · exact hmeets
    · exact (hnot (hall entry hmem hreading)).elim
    · exact (hstray.not_agree hopen (hlast hidle)).elim
  · intro hmeets
    have hattentive : Attentive trace w ∧ w.srv.PollsOpen := hrun.history_of_meets
      (fun trace w => Attentive trace w ∧ w.srv.PollsOpen)
      (fun _ hstart => ⟨attentive_start hstart, pollsOpen_start hstart⟩)
      (fun _ _ _ _ h ha hstep => ⟨h.1.step h.2 ha hstep, pollsOpen_step h.2 hstep⟩) hmeets
    have hall := hrun.throughout_of_meets
      (fun w => (∃ trace, Attentive trace w) ∧ w.srv.PollsOpen)
      (fun _ hstart => ⟨⟨[], attentive_start hstart⟩, pollsOpen_start hstart⟩)
      (fun _ _ _ h ha hstep => ⟨⟨_, h.1.choose_spec.step h.2 ha hstep⟩,
        pollsOpen_step h.2 hstep⟩) hmeets
    exact ⟨⟨fun _ => hall.1.1.choose_spec.agree,
      fun entry hmem _ => (hall.2 entry hmem).1.choose_spec.agree⟩, hattentive.1.built⟩

/-- A client quits and its descriptor is handed out again. -/
theorem tables_agree_iff_reused : ∃ trace w, Steps trace w ∧
    w.srv.nextPtr = 2 ∧ w.srv.pollFds = [3, 5] ∧ BuiltBy trace 5 1 := by
  obtain ⟨trace, w, hrun, hmeets, htest⟩ := Run.exists_steps_meeting step Attended start_pw
    (.accept 5 "10.0.0.1".toList 40000 :: packet 5
      ["PASS pw", "NICK a", "USER a a a n", "QUIT"] ++
      [.accept 5 "10.0.0.2".toList 40000])
    (fun w => w.reading = none ∧ w.srv.nextPtr = 2 ∧ w.srv.pollFds = [3, 5] ∧
      w.srv.clients[(5 : Fd)]? = some 1) (by decide)
  obtain ⟨hidle, hnext, hpoll, hclient⟩ := of_decide_eq_true htest
  exact ⟨trace, w, hrun, hnext, hpoll, ((tables_agree_iff hrun hidle).mpr hmeets).2 5 1 hclient⟩

/-- A line after a `QUIT` in the same buffer makes an entry for the closed
connection. -/
theorem line_after_quit_makes_entry :
    ¬ ∀ trace w, Steps trace w → w.reading = none → w.srv.Agree := by
  intro hall
  obtain ⟨trace, w, hrun, htest⟩ := Run.exists_steps_of_perform step start_pw
    (.accept 5 "10.0.0.1".toList 40000 :: packet 5
      ["PASS pw", "NICK a", "USER a a a n", "QUIT", "CAP LS"])
    (fun w => w.reading = none ∧ w.srv.clients[(5 : Fd)]? = some 1 ∧ w.srv.pollFds = [3])
    (by decide)
  obtain ⟨hidle, hclient, hpoll⟩ := of_decide_eq_true htest
  have hpolled := ((hall trace w hrun hidle).keys 5).mp (by simp [hclient])
  simp [hpoll] at hpolled

end Irc
