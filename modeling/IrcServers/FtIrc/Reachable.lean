import IrcServers.FtIrc.Changes

/-!
# Reachable states of the `42-Ft_irc` server

What one step of the loop does, as an inversion of `step`, and the facts that
hold in every state of every run: connected clients have different descriptors,
channels are named apart and led by members, and the lines still to be handled
are single lines (`Tidy`).
-/

namespace FtIrc

variable {w w' : World} {a : Action}

/-- The steps of `Server::listen()`, with the tests they pass. -/
inductive Stepped (w : World) : Action → World → Prop
  | gather (hidle : w.pending = none) : Stepped w .gather w.gather
  | accept {fd : Fd} {hostName : Str} (hphase : w.phase = .polled) (hlistener : fd ≠ w.listener)
      (hnew : fd ∉ w.srv.fdsOf w.srv.clients) (hvalid : 0 ≤ fd) :
      Stepped w (.accept fd hostName)
        { w with srv := w.srv.addClient fd hostName, phase := .serving }
  | read {fd : Fd} {message : Str} (hphase : w.phase ≠ .top) (hidle : w.pending = none)
      (hpolled : fd ∈ w.pollFds.tail) (hclient : fd ∈ w.srv.fdsOf w.srv.clients) :
      Stepped w (.read fd message) (w.read fd message)
  | readFails {fd : Fd} (hphase : w.phase ≠ .top) (hidle : w.pending = none) :
      Stepped w (.readFails fd) { w with phase := .serving }
  | line {env : Env} {fd : Fd} {line : Str} {lines : List Str} {s : Server}
      (hpending : w.pending = some (fd, line :: lines))
      (hdone : handleLine env w.srv line fd = .done s) :
      Stepped w (.line env) { w with srv := s, pending := remaining fd lines }

/-- A step is one of those that are described. -/
theorem stepped_of_step (h : step w a = some w') : Stepped w a w' := by
  unfold step at h
  split at h
  · split at h
    · cases h
      exact .gather ‹_›
    · cases h
  · split at h
    · rename_i hcond
      cases h
      exact .accept hcond.1 hcond.2.2.1 hcond.2.2.2 hcond.2.1
    · cases h
  · split at h
    · rename_i hcond
      cases h
      exact .read hcond.1 hcond.2.1 hcond.2.2.1 hcond.2.2.2.1
    · cases h
  · split at h
    · rename_i hcond
      cases h
      exact .readFails hcond.1 hcond.2.1
    · cases h
  · split at h
    · rename_i hpending
      split at h
      · rename_i hdone
        cases h
        exact .line hpending hdone
      · cases h
      · cases h
    · cases h

namespace Server

variable {s s' : Server} {fd : Fd} {p q client : ClientPtr} {k : Nat}

/-- A descriptor in use leads to its client. -/
theorem exists_getClient (h : fd ∈ s.fdsOf s.clients) : ∃ p, s.getClient fd = some p := by
  obtain ⟨p, hp, hfd⟩ := List.mem_map.mp h
  exact Option.isSome_iff_exists.mp (List.find?_isSome.mpr ⟨p, hp, by simpa using hfd⟩)

/-- The descriptors of clients depend on those in the memory only. -/
theorem fdsOf_congr (hfd : ∀ p, (s'.memory p).fd = (s.memory p).fd) (clients : List ClientPtr) :
    s'.fdsOf clients = s.fdsOf clients :=
  List.map_congr_left fun p _ => hfd p

/-- Those who remain connected keep their descriptors. -/
theorem fdsOf_evolves (h : s.Evolves s') (hnodup : s.clients.Nodup) :
    s'.fdsOf s'.clients = s.fdsOf s'.clients :=
  List.map_congr_left fun p hp => h.fds hnodup p hp

/-- Different connected clients have different descriptors. -/
theorem eq_of_fd (h : (s.fdsOf s.clients).Nodup) (hp : p ∈ s.clients) (hq : q ∈ s.clients)
    (hfd : (s.memory p).fd = (s.memory q).fd) : p = q :=
  List.inj_on_of_nodup_map h hp hq hfd

/-- The client on a connected client's descriptor is that client. -/
theorem getClient_fd (h : (s.fdsOf s.clients).Nodup) (hp : p ∈ s.clients) :
    s.getClient (s.memory p).fd = some p := by
  obtain ⟨q, hq⟩ := exists_getClient (List.mem_map_of_mem (f := fun p => (s.memory p).fd) hp)
  rw [hq, eq_of_fd h (mem_of_getClient hq) hp (fd_of_getClient hq)]

/-- Deleting a client takes it out of its place in the list. -/
theorem deleteClient_split {pre post : List ClientPtr} (h : (s.fdsOf s.clients).Nodup)
    (hsplit : s.clients = pre ++ client :: post) :
    (s.deleteClient (s.memory client).fd).clients = pre ++ post := by
  have hother : ∀ q ∈ pre, ¬ decide ((s.memory q).fd = (s.memory client).fd) = true := by
    intro q hq hfd
    unfold fdsOf at h
    rw [hsplit, List.map_append, List.map_cons, List.nodup_middle, ← List.map_append,
      List.nodup_cons] at h
    refine h.1 (of_decide_eq_true hfd ▸ ?_)
    exact List.mem_map_of_mem (f := fun p => (s.memory p).fd) (List.mem_append_left post hq)
  rw [deleteClient_clients, hsplit, List.eraseP_append_right _ hother, List.eraseP_cons]
  simp

/-- Once a client has been deleted, nobody is on its descriptor. -/
theorem getClient_deleteClient (h : (s.fdsOf s.clients).Nodup) (hclient : client ∈ s.clients) :
    (s.deleteClient (s.memory client).fd).getClient (s.memory client).fd = none := by
  have hfound := getClient_fd h hclient
  have hnodup : s.clients.Nodup := List.Nodup.of_map _ h
  refine List.find?_eq_none.mpr fun q hq hfd => ?_
  have hkept := (s.evolves_deleteClient (s.memory client).fd).fds hnodup q hq
  have hin : q ∈ s.clients := (s.evolves_deleteClient (s.memory client).fd).clients.subset hq
  have hself : q = client := eq_of_fd h hin hclient (hkept ▸ of_decide_eq_true hfd)
  rw [hself] at hq
  exact not_mem_deleteClient hnodup hfound hq

/-- The second search of `Server::removeClient` finds nobody. -/
theorem removeClient_connected (h : (s.fdsOf s.clients).Nodup) (hclient : client ∈ s.clients) :
    s.removeClient (s.memory client).fd =
      (s.deleteClient (s.memory client).fd).dropMembers (s.memory client).fd :=
  deleteClient_of_none (getClient_deleteClient h hclient)

/-- `Server::removeClient` takes the client out of its place in the list. -/
theorem removeClient_clients {pre post : List ClientPtr} (h : (s.fdsOf s.clients).Nodup)
    (hsplit : s.clients = pre ++ client :: post) :
    (s.removeClient (s.memory client).fd).clients = pre ++ post := by
  have hclient : client ∈ s.clients := hsplit ▸ List.mem_append_right pre List.mem_cons_self
  rw [removeClient_connected h hclient]
  exact deleteClient_split h hsplit

/-- `Server::removeClient` takes one client off the list. -/
theorem mem_removeClient (h : (s.fdsOf s.clients).Nodup) (hclient : client ∈ s.clients) :
    p ∈ (s.removeClient (s.memory client).fd).clients ↔ p ∈ s.clients ∧ p ≠ client := by
  obtain ⟨pre, post, hsplit⟩ := List.append_of_mem hclient
  have hnodup : (pre ++ client :: post).Nodup := hsplit ▸ List.Nodup.of_map _ h
  obtain ⟨hfresh, -⟩ := List.nodup_cons.mp (List.nodup_middle.mp hnodup)
  rw [removeClient_clients h hsplit, hsplit]
  constructor
  · intro hp
    refine ⟨?_, fun heq => hfresh (heq ▸ hp)⟩
    rcases List.mem_append.mp hp with hp | hp
    · exact List.mem_append_left _ hp
    · exact List.mem_append_right _ (List.mem_cons_of_mem _ hp)
  · intro hp
    rcases List.mem_append.mp hp.1 with hin | hin
    · exact List.mem_append_left _ hin
    · rcases List.mem_cons.mp hin with heq | hin
      · exact (hp.2 heq).elim
      · exact List.mem_append_right _ hin

/-- No removal takes another client off the list. -/
theorem parted_clients (h : (s.fdsOf s.clients).Nodup) (hclient : client ∈ s.clients) :
    p ∈ (s.parted (s.memory client).fd k).clients ↔ p ∈ s.clients ∧ p ≠ client := by
  unfold parted
  split
  · exact mem_removeClient (s := s.departed (s.memory client).fd) h hclient
  · exact mem_removeClient h hclient

/-- What is read for descriptors after a removal. -/
theorem parted_fd (h : (s.fdsOf s.clients).Nodup) (hclient : client ∈ s.clients)
    (p : ClientPtr) :
    ((s.parted (s.memory client).fd k).memory p).fd =
      if p = client then s.leftFd client else (s.memory p).fd := by
  have hremoved : ∀ t : Server, (t.fdsOf t.clients).Nodup → client ∈ t.clients →
      ((t.removeClient (t.memory client).fd).memory p).fd =
        if p = client then t.leftFd client else (t.memory p).fd := by
    intro t hnodup hin
    have hfound := getClient_fd hnodup hin
    rw [removeClient_connected hnodup hin]
    show ((t.deleteClient (t.memory client).fd).memory p).fd = _
    by_cases heq : p = client
    · rw [if_pos heq, heq, deleteClient_memory_self hfound]
    · rw [if_neg heq, deleteClient_memory fun hp => heq (Option.some.inj (hp.symm.trans hfound))]
  unfold parted
  split
  · exact hremoved (s.departed (s.memory client).fd) h hclient
  · exact hremoved s h hclient

/-- The client that a message removes is connected. -/
theorem removing_some {message : Str} {fd : Fd} (h : s.removing message fd = some (client, k)) :
    s.getClient fd = some client ∧ (k = 1 ∨ k = 2) := by
  unfold removing at h
  split at h
  · split at h
    · obtain ⟨found, hfound, heq⟩ := Option.map_eq_some_iff.mp h
      cases heq
      exact ⟨hfound, Or.inr rfl⟩
    · obtain ⟨found, hfound, heq⟩ := Option.bind_eq_some_iff.mp h
      split at heq
      · cases heq
      · cases heq
        exact ⟨hfound, Or.inl rfl⟩
    · cases h
  · cases h

/-- A new client changes nothing for the clients there are. -/
theorem addClient_memory (hp : p < s.nextPtr) (fd : Fd) (hostName : Str) :
    (s.addClient fd hostName).memory p = s.memory p :=
  Function.update_of_ne (Nat.ne_of_lt hp) _ _

end Server

/-- What holds in every reachable state. -/
structure Tidy (w : World) : Prop where
  fds : (w.srv.fdsOf w.srv.clients).Nodup
  valid : ∀ p ∈ w.srv.clients, 0 ≤ (w.srv.memory p).fd
  fresh : ∀ p ∈ w.srv.clients, p < w.srv.nextPtr
  listener : w.listener ∉ w.srv.fdsOf w.srv.clients
  named : w.srv.Named
  led : ∀ ch ∈ w.srv.channels, ch.Led
  lines : ∀ fd lines, w.pending = some (fd, lines) → ∀ line ∈ lines, OneLine line
  source : ∀ fd lines, w.pending = some (fd, lines) → 0 ≤ fd

/-- Connected clients are listed once. -/
theorem Tidy.clients (h : Tidy w) : w.srv.clients.Nodup := List.Nodup.of_map _ h.fds

/-- The client that a step removes, and how often the channels look for it. -/
def World.removes (w : World) : Action → Option (ClientPtr × Nat)
  | .read fd message =>
      if message = [] then (w.srv.getClient fd).map fun client => (client, 1) else none
  | .line _ =>
      match w.pending with
      | some (fd, line :: _) => w.srv.removing line fd
      | _ => none
  | _ => none

/-- A step removes a connected client, for which channels look once or twice. -/
theorem removes_some {w : World} {a : Action} {client : ClientPtr} {k : Nat}
    (h : w.removes a = some (client, k)) : client ∈ w.srv.clients ∧ (k = 1 ∨ k = 2) := by
  unfold World.removes at h
  split at h
  · split at h
    · obtain ⟨found, hfound, heq⟩ := Option.map_eq_some_iff.mp h
      cases heq
      exact ⟨Server.mem_of_getClient hfound, Or.inl rfl⟩
    · cases h
  · split at h
    · have hsome := Server.removing_some h
      exact ⟨Server.mem_of_getClient hsome.1, hsome.2⟩
    · cases h
  · cases h

/-- Whatever a message does to clients and channels is of this kind. -/
theorem Server.Handled.evolves {s s' : Server} {removal : Option (ClientPtr × Nat)}
    (h : s.Handled removal s') : s.Evolves s' := by
  cases removal with
  | none => exact h.toEvolves
  | some removal => exact h.1

/-- Only where a removed client was does another descriptor come to be read. -/
theorem Server.Handled.kept_fd {s s' : Server} {removal : Option (ClientPtr × Nat)} {p : ClientPtr}
    (h : s.Handled removal s') (hfds : (s.fdsOf s.clients).Nodup)
    (hin : ∀ client k, removal = some (client, k) → client ∈ s.clients)
    (hp : ∀ k, removal ≠ some (p, k)) : (s'.memory p).fd = (s.memory p).fd := by
  cases removal with
  | none => exact h.fd p
  | some removal =>
      obtain ⟨client, k⟩ := removal
      have hother : p ≠ client := fun heq => hp k (by rw [heq])
      rw [h.2.fd p, parted_fd hfds (hin client k rfl), if_neg hother]

/-- Whoever was connected is connected still, or has been deleted. -/
theorem Server.Handled.connected_or_left {s s' : Server} {removal : Option (ClientPtr × Nat)}
    {p : ClientPtr} (h : s.Handled removal s') (hfds : (s.fdsOf s.clients).Nodup)
    (hin : ∀ client k, removal = some (client, k) → client ∈ s.clients) (hp : p ∈ s.clients) :
    p ∈ s'.clients ∨ (s'.memory p).fd = s.leftFd p := by
  cases removal with
  | none => exact Or.inl (h.same ▸ hp)
  | some removal =>
      obtain ⟨client, k⟩ := removal
      have hclient := hin client k rfl
      by_cases heq : p = client
      · rw [h.2.fd p, parted_fd hfds hclient, if_pos heq, heq]
        exact Or.inr rfl
      · rw [h.2.clients]
        exact Or.inl ((parted_clients hfds hclient).mpr ⟨hp, heq⟩)

/-- **Steps and clients.**  Apart from an accept, a step removes the client that
`removes` names and no other. -/
theorem Stepped.handled (htidy : Tidy w) (h : Stepped w a w')
    (hold : ∀ fd host, a ≠ .accept fd host) :
    w.srv.Handled (w.removes a) w'.srv := by
  cases h with
  | gather hidle => exact .refl _
  | accept hphase hlistener hnew => exact (hold _ _ rfl).elim
  | @read fd message hphase hidle hpolled hclient =>
      unfold World.read World.removes
      by_cases hempty : message = []
      · obtain ⟨client, hc⟩ := Server.exists_getClient hclient
        simp only [hempty, if_true, hc, Option.map_some]
        rw [← Server.fd_of_getClient hc]
        exact ⟨Server.evolves_removeClient _ _, .refl _⟩
      · simp only [hempty, if_false]
        exact .refl _
  | readFails hphase hidle => exact .refl _
  | @line env fd line lines s hpending hdone =>
      have hline := htidy.lines fd _ hpending line List.mem_cons_self
      have hleaves := Server.handleLine_leaves env htidy.named hline fd
      rw [hdone, Outcome.leaves_done] at hleaves
      unfold World.removes
      rw [hpending]
      exact hleaves

/-- A step accepts a new client, or does what `removes` says with those there are. -/
theorem Stepped.accept_or_handled (htidy : Tidy w) (h : Stepped w a w') :
    (∃ fd hostName, a = .accept fd hostName ∧
      w' = { w with srv := w.srv.addClient fd hostName, phase := .serving }) ∨
    w.srv.Handled (w.removes a) w'.srv := by
  by_cases haccept : ∃ fd hostName, a = .accept fd hostName
  · obtain ⟨fd, hostName, rfl⟩ := haccept
    cases h with
    | accept => exact Or.inl ⟨fd, hostName, rfl, rfl⟩
  · exact Or.inr (h.handled htidy fun fd hostName heq => haccept ⟨fd, hostName, heq⟩)

/-- A read makes the lines of the message the lines to be handled. -/
theorem World.read_pending (w : World) (fd : Fd) (message : Str) :
    (w.read fd message).pending = remaining fd (linesOf message) := by
  unfold read
  split <;> rfl

/-- A read changes no variable of the loop but the phase. -/
theorem World.read_keeps (w : World) (fd : Fd) (message : Str) :
    (w.read fd message).pollFds = w.pollFds ∧ (w.read fd message).listener = w.listener ∧
      (w.read fd message).lastClientSize = w.lastClientSize ∧
      (w.read fd message).phase = .serving := by
  unfold read
  split <;> exact ⟨rfl, rfl, rfl, rfl⟩

/-- There are no clients at the start. -/
theorem tidy_start (h : Start w) : Tidy w := by
  obtain ⟨password, createdDate, listener, keepsFd, rfl⟩ := h
  constructor <;> simp [initial, Server.fdsOf]
  exact ⟨List.nodup_nil, by simp⟩

/-- The lines left over are lines that were there. -/
theorem mem_of_remaining {fd fd' : Fd} {lines lines' : List Str}
    (h : remaining fd lines = some (fd', lines')) : fd' = fd ∧ lines' = lines := by
  unfold remaining at h
  split at h
  · cases h
  · cases h
    exact ⟨rfl, rfl⟩

/-- An accept or the handling of a line keeps the tables tidy. -/
theorem Tidy.of_evolves (h : Tidy w) (hevolves : w.srv.Evolves w'.srv)
    (hlistener : w'.listener = w.listener)
    (hlines : ∀ fd lines, w'.pending = some (fd, lines) → ∀ line ∈ lines, OneLine line)
    (hsource : ∀ fd lines, w'.pending = some (fd, lines) → 0 ≤ fd) : Tidy w' where
  fds := by
    rw [Server.fdsOf_evolves hevolves h.clients]
    exact h.fds.sublist (hevolves.clients.map _)
  valid p hp := hevolves.fds h.clients p hp ▸ h.valid p (hevolves.clients.subset hp)
  fresh p hp := hevolves.nextPtr ▸ h.fresh p (hevolves.clients.subset hp)
  listener hin := by
    rw [Server.fdsOf_evolves hevolves h.clients, hlistener] at hin
    exact h.listener ((hevolves.clients.map _).subset hin)
  named := hevolves.named h.named
  led := hevolves.led h.led
  lines := hlines
  source := hsource

/-- A new client has a descriptor that nobody has. -/
theorem Tidy.accept (h : Tidy w) {fd : Fd} (hostName : Str) (hlistener : fd ≠ w.listener)
    (hnew : fd ∉ w.srv.fdsOf w.srv.clients) (hvalid : 0 ≤ fd) :
    Tidy { w with srv := w.srv.addClient fd hostName, phase := .serving } := by
  have hfds : (w.srv.addClient fd hostName).fdsOf (w.srv.addClient fd hostName).clients =
      w.srv.fdsOf w.srv.clients ++ [fd] := by
    have hold : (w.srv.addClient fd hostName).fdsOf w.srv.clients = w.srv.fdsOf w.srv.clients :=
      List.map_congr_left fun p hp =>
        congrArg Client.fd (Server.addClient_memory (h.fresh p hp) fd hostName)
    rw [← hold]
    simp [Server.addClient, Server.fdsOf, Client.new]
  refine ⟨?_, ?_, ?_, ?_, ⟨h.named.distinct, h.named.good⟩, h.led, h.lines, h.source⟩
  · rw [hfds, List.nodup_append_comm]
    exact List.nodup_cons.mpr ⟨hnew, h.fds⟩
  · intro p hp
    rcases List.mem_append.mp hp with hp | hp
    · rw [Server.addClient_memory (h.fresh p hp)]
      exact h.valid p hp
    · rw [List.mem_singleton.mp hp]
      simpa [Server.addClient, Client.new] using hvalid
  · intro p hp
    rcases List.mem_append.mp hp with hp | hp
    · exact Nat.lt_succ_of_lt (h.fresh p hp)
    · rw [List.mem_singleton.mp hp]
      exact Nat.lt_succ_self _
  · rw [hfds]
    intro hin
    rcases List.mem_append.mp hin with hin | hin
    · exact h.listener hin
    · exact hlistener (List.mem_singleton.mp hin).symm

/-- A step leaves clients and channels in order. -/
theorem Tidy.stepped (h : Tidy w) (hstep : Stepped w a w') : Tidy w' := by
  cases hstep with
  | gather hidle => exact h.of_evolves (Server.Keeps.refl _).toEvolves rfl h.lines h.source
  | accept hphase hlistener hnew hvalid => exact h.accept _ hlistener hnew hvalid
  | @read fd message hphase hidle hpolled hclient =>
      have hread : Stepped w (.read fd message) (w.read fd message) :=
        .read hphase hidle hpolled hclient
      have hsrv := (hread.handled h fun _ _ heq => by cases heq).evolves
      apply h.of_evolves hsrv (World.read_keeps w fd message).2.1
      · intro fd' lines hpending line hline
        rw [World.read_pending] at hpending
        rw [(mem_of_remaining hpending).2] at hline
        exact oneLine_of_mem_linesOf hline
      · intro fd' lines hpending
        rw [World.read_pending] at hpending
        obtain ⟨p, hp, hfd⟩ := List.mem_map.mp hclient
        rw [(mem_of_remaining hpending).1, ← hfd]
        exact h.valid p hp
  | readFails hphase hidle =>
      exact h.of_evolves (Server.Keeps.refl _).toEvolves rfl h.lines h.source
  | @line env fd line lines s hpending hdone =>
      have hsrv := (Stepped.handled h (.line hpending hdone) (fun _ _ heq => by cases heq)).evolves
      refine h.of_evolves hsrv rfl ?_ ?_
      · intro fd' lines' hremaining line' hline'
        rw [(mem_of_remaining hremaining).2] at hline'
        exact h.lines fd _ hpending line' (List.mem_cons_of_mem _ hline')
      · intro fd' lines' hremaining
        rw [(mem_of_remaining hremaining).1]
        exact h.source fd _ hpending

/-- **Reachable states are tidy.** -/
theorem tidy {trace : Run.Trace World Action} (run : Steps trace w) : Tidy w :=
  run.invariant Tidy (fun _ => tidy_start) fun _ _ _ h hstep => h.stepped (stepped_of_step hstep)

/-- Which descriptors outlive their clients does not change. -/
theorem Stepped.keepsFd (htidy : Tidy w) (h : Stepped w a w') : w'.srv.keepsFd = w.srv.keepsFd := by
  rcases h.accept_or_handled htidy with ⟨fd, hostName, rfl, rfl⟩ | hhandled
  · rfl
  · exact hhandled.evolves.keepsFd

/-- A connected client that the step does not remove stays connected. -/
theorem Stepped.stays (htidy : Tidy w) (hstep : Stepped w a w') {p : ClientPtr}
    (hp : p ∈ w.srv.clients) (hkept : ∀ removed ∈ w.removes a, removed.1 ≠ p) :
    p ∈ w'.srv.clients := by
  rcases hstep.accept_or_handled htidy with ⟨fd, hostName, rfl, rfl⟩ | hhandled
  · exact List.mem_append_left _ hp
  · cases hremoves : w.removes a with
    | none =>
        rw [hremoves] at hhandled
        rw [hhandled.same]
        exact hp
    | some removal =>
        rw [hremoves] at hhandled
        rw [hhandled.2.clients, Server.parted_clients htidy.fds (removes_some hremoves).1]
        exact ⟨hp, (hkept removal hremoves).symm⟩

/-- Each client that a channel refers to is connected, or is deleted and has its
descriptor overwritten, unless the memory keeps that. -/
structure Traced (w : World) : Prop where
  fresh : ∀ p, w.srv.holds p → p < w.srv.nextPtr
  fd : ∀ p, w.srv.holds p → w.srv.keepsFd p = false →
    p ∈ w.srv.clients ∨ (w.srv.memory p).fd = noFd

/-- A step overwrites the descriptor of a client that it deletes. -/
theorem Traced.stepped (h : Traced w) (htidy : Tidy w) (hstep : Stepped w a w') : Traced w' := by
  rcases hstep.accept_or_handled htidy with ⟨fd, hostName, rfl, rfl⟩ | hhandled
  · refine ⟨fun p hp => Nat.lt_succ_of_lt (h.fresh p hp), fun p hp hover => ?_⟩
    refine (h.fd p hp hover).imp (List.mem_append_left _) fun hfd => ?_
    rw [Server.addClient_memory (h.fresh p hp)]
    exact hfd
  · have hin : ∀ client k, w.removes a = some (client, k) → client ∈ w.srv.clients :=
      fun client k hremoves => (removes_some hremoves).1
    have hevolves := hhandled.evolves
    refine ⟨fun p hp => ?_, fun p hp hover => ?_⟩
    · rw [hevolves.nextPtr]
      exact (hevolves.holds p hp).elim (h.fresh p) (htidy.fresh p)
    · rw [hevolves.keepsFd] at hover
      by_cases hclient : p ∈ w.srv.clients
      · refine (hhandled.connected_or_left htidy.fds hin hclient).imp_right fun hfd => ?_
        rw [hfd, Server.leftFd, hover]
        rfl
      · -- `p` has left before, and this step removes another client or none
        have hold := (hevolves.holds p hp).resolve_right hclient
        have hfd := hhandled.kept_fd htidy.fds hin fun k hremoves => hclient (hin p k hremoves)
        exact Or.inr (hfd.trans ((h.fd p hold hover).resolve_left hclient))

/-- Nobody has been deleted at the start. -/
theorem traced_start (h : Start w) : Traced w := by
  obtain ⟨password, createdDate, listener, keepsFd, rfl⟩ := h
  constructor <;> exact fun p ⟨ch, hch, _⟩ => by cases hch

/-- **Deleted clients in channels.** -/
theorem traced {trace : Run.Trace World Action} (run : Steps trace w) : Traced w := by
  have hinv := run.invariant (fun w => Tidy w ∧ Traced w)
    (fun _ hstart => ⟨tidy_start hstart, traced_start hstart⟩)
    fun w a w' ⟨htidy, htraced⟩ hstep =>
      ⟨htidy.stepped (stepped_of_step hstep), htraced.stepped htidy (stepped_of_step hstep)⟩
  exact hinv.2

end FtIrc
