import IrcServers.Erasing
import IrcServers.FtIrc.Reachable

/-!
# The destructor of the `42-Ft_irc` server

`Server::~Server` has one loop for the clients and one for the channels.  Both
remove the entry they stand on and then raise their index, so both step over
every second entry.  An object that was deleted is read as it was.
-/

namespace FtIrc

/-- `Server::removeChannel`. -/
def Server.removeChannel (s : Server) (name : Str) : Server :=
  { s with channels := s.channels.eraseP fun ch => ch.name = name }

/-- The server in its destructor, with the index of the loop it is in, the
descriptors it has closed and the names it has given to `removeChannel`. -/
structure Teardown where
  srv : Server
  i : Nat
  closed : List Fd
  removed : List Str

namespace Teardown

/-- A round of the first loop.  `removeClient` closes the descriptor. -/
def clientRound (d : Teardown) : Option Teardown :=
  d.srv.clients[d.i]?.map fun client =>
    let fd := (d.srv.memory client).fd
    { d with srv := d.srv.removeClient fd, i := d.i + 1, closed := d.closed ++ [fd] }

/-- A round of the second loop. -/
def channelRound (d : Teardown) : Option Teardown :=
  d.srv.channels[d.i]?.map fun ch =>
    { d with srv := d.srv.removeChannel ch.name, i := d.i + 1, removed := d.removed ++ [ch.name] }

/-- The start of the destructor. -/
def enter (s : Server) : Teardown where
  srv := s
  i := 0
  closed := []
  removed := []

/-- `Server::~Server`: the two loops, and the closing of the listening socket. -/
def Destroys (s : Server) (listener : Fd) (t : Teardown) : Prop :=
  ∃ c d, While.Ends clientRound (enter s) c ∧ While.Ends channelRound { c with i := 0 } d ∧
    t = { d with closed := d.closed ++ [listener] }

/-- Nothing of the server `s` is left, and its sockets are closed. -/
structure Empties (t : Teardown) (s : Server) : Prop where
  clients : t.srv.clients = []
  channels : t.srv.channels = []
  closed : ∀ fd ∈ s.fdsOf s.clients, fd ∈ t.closed
  removed : ∀ name ∈ s.channels.map Channel.name, name ∈ t.removed

end Teardown

namespace Server

variable {s : Server} {fd : Fd} {name : Str}

/-- Deleting a client takes one descriptor off. -/
theorem fdsOf_deleteClient (h : s.clients.Nodup) :
    (s.deleteClient fd).fdsOf (s.deleteClient fd).clients = (s.fdsOf s.clients).erase fd := by
  rw [fdsOf_evolves (s.evolves_deleteClient fd) h, deleteClient_clients, fdsOf, fdsOf,
    List.erase_eq_eraseP', List.eraseP_map]
  rfl

/-- `Server::removeClient` takes one descriptor off. -/
theorem fdsOf_removeClient (h : (s.fdsOf s.clients).Nodup) :
    (s.removeClient fd).fdsOf (s.removeClient fd).clients = (s.fdsOf s.clients).erase fd := by
  have hnodup : s.clients.Nodup := List.Nodup.of_map _ h
  have hafter : ((s.deleteClient fd).dropMembers fd).clients.Nodup :=
    hnodup.sublist (s.evolves_deleteClient fd).clients
  rw [removeClient, fdsOf_deleteClient hafter]
  show ((s.deleteClient fd).fdsOf (s.deleteClient fd).clients).erase fd = _
  rw [fdsOf_deleteClient hnodup, List.erase_of_not_mem h.not_mem_erase]

/-- The removal of a client renames no channel. -/
theorem names_removeClient (s : Server) (fd : Fd) :
    (s.removeClient fd).channels.map Channel.name = s.channels.map Channel.name := by
  rw [channels_removeClient, List.map_map]
  exact List.map_congr_left fun ch _ => s.dropFrom_name fd ch

/-- `Server::removeChannel` takes one name off. -/
theorem names_removeChannel (s : Server) (name : Str) :
    (s.removeChannel name).channels.map Channel.name =
      (s.channels.map Channel.name).erase name := by
  have hname : (fun ch : Channel => decide (ch.name = name)) = (· == name) ∘ Channel.name :=
    funext fun ch => (beq_eq_decide ch.name name).symm
  rw [List.erase_eq_eraseP', List.eraseP_map, ← hname]
  rfl

end Server

namespace Teardown

variable {d : Teardown}

/-- What the first loop goes along: the descriptors of the clients. -/
def clientView (d : Teardown) : While.Erasing Fd where
  i := d.i
  list := d.srv.fdsOf d.srv.clients
  visited := d.closed

/-- What the second loop goes along: the names of the channels. -/
def channelView (d : Teardown) : While.Erasing Str where
  i := d.i
  list := d.srv.channels.map Channel.name
  visited := d.removed

/-- A round of the first loop is one of `Erasing`, on the clients. -/
theorem clientRound_view (h : (d.srv.fdsOf d.srv.clients).Nodup) :
    d.clientRound.map clientView = d.clientView.round := by
  have hfd : d.clientView.list[d.clientView.i]? =
      d.srv.clients[d.i]?.map fun p => (d.srv.memory p).fd := List.getElem?_map
  rw [While.Erasing.round_of_nodup h, hfd, clientRound, Option.map_map, Option.map_map]
  refine congrArg (Option.map · _) (funext fun client => ?_)
  simp only [Function.comp, clientView, Server.fdsOf_removeClient h]

/-- A round of the second loop is one on the channels. -/
theorem channelRound_view (h : (d.srv.channels.map Channel.name).Nodup) :
    d.channelRound.map channelView = d.channelView.round := by
  have hname : d.channelView.list[d.channelView.i]? = d.srv.channels[d.i]?.map Channel.name :=
    List.getElem?_map
  rw [While.Erasing.round_of_nodup h, hname, channelRound, Option.map_map, Option.map_map]
  refine congrArg (Option.map · _) (funext fun ch => ?_)
  simp only [Function.comp, channelView, Server.names_removeChannel]

/-- What the rounds of the first loop keep of the server `s`. -/
structure ChannelsKept (s : Server) (d : Teardown) : Prop where
  nodup : (d.srv.fdsOf d.srv.clients).Nodup
  names : d.srv.channels.map Channel.name = s.channels.map Channel.name
  removed : d.removed = []

/-- What the rounds of the second loop keep of its start. -/
structure ClientsKept (c d : Teardown) : Prop where
  nodup : (d.srv.channels.map Channel.name).Nodup
  clients : d.srv.clients = c.srv.clients
  memory : d.srv.memory = c.srv.memory
  closed : d.closed = c.closed

/-- The first loop leaves the channels there. -/
theorem ChannelsKept.round {s : Server} {next : Teardown} (h : ChannelsKept s d)
    (hround : d.clientRound = some next) : ChannelsKept s next := by
  obtain ⟨client, -, rfl⟩ := Option.map_eq_some_iff.mp hround
  refine ⟨?_, (d.srv.names_removeClient _).trans h.names, h.removed⟩
  exact (Server.fdsOf_removeClient h.nodup).symm ▸ h.nodup.erase _

/-- The second loop leaves the clients there. -/
theorem ClientsKept.round {c next : Teardown} (h : ClientsKept c d)
    (hround : d.channelRound = some next) : ClientsKept c next := by
  obtain ⟨ch, -, rfl⟩ := Option.map_eq_some_iff.mp hround
  refine ⟨?_, h.clients, h.memory, h.closed⟩
  exact (d.srv.names_removeChannel _).symm ▸ h.nodup.erase _

/-- The first loop removes every other client and no channel. -/
theorem exists_ends_clients {s : Server} (h : (s.fdsOf s.clients).Nodup) :
    ∃ c, While.Ends clientRound (enter s) c ∧ ChannelsKept s c ∧
      c.srv.fdsOf c.srv.clients = While.everyOther (s.fdsOf s.clients).tail ∧
      c.closed = While.everyOther (s.fdsOf s.clients) :=
  While.exists_ends_of_view clientView (ChannelsKept s)
    (fun _ hd => clientRound_view hd.nodup) (fun _ _ hd hround => hd.round hround)
    (show ChannelsKept s (enter s) from ⟨h, rfl, rfl⟩) rfl rfl

/-- The second loop removes every other channel and no client. -/
theorem exists_ends_channels (h : (d.srv.channels.map Channel.name).Nodup) (hi : d.i = 0)
    (hremoved : d.removed = []) :
    ∃ t, While.Ends channelRound d t ∧ ClientsKept d t ∧
      t.srv.channels.map Channel.name =
        While.everyOther (d.srv.channels.map Channel.name).tail ∧
      t.removed = While.everyOther (d.srv.channels.map Channel.name) :=
  While.exists_ends_of_view channelView (ClientsKept d)
    (fun _ ht => channelRound_view ht.nodup) (fun _ _ ht hround => ht.round hround)
    ⟨h, rfl, rfl, rfl⟩ hi hremoved

/-- The destructor ends in one way only. -/
theorem Destroys.unique {s : Server} {listener : Fd} {t t' : Teardown}
    (h : Destroys s listener t) (h' : Destroys s listener t') : t = t' := by
  obtain ⟨c, d, hclients, hchannels, rfl⟩ := h
  obtain ⟨c', d', hclients', hchannels', rfl⟩ := h'
  obtain rfl := hclients.unique hclients'
  obtain rfl := hchannels.unique hchannels'
  rfl

/-- What the destructor of the server `s` leaves and what it has done. -/
structure Leaves (s : Server) (listener : Fd) (t : Teardown) : Prop where
  clients : t.srv.fdsOf t.srv.clients = While.everyOther (s.fdsOf s.clients).tail
  closed : t.closed = While.everyOther (s.fdsOf s.clients) ++ [listener]
  channels : t.srv.channels.map Channel.name =
    While.everyOther (s.channels.map Channel.name).tail
  removed : t.removed = While.everyOther (s.channels.map Channel.name)

/-- **The destructor.**  It ends, with every second client and every second
channel still there. -/
theorem exists_destroys {s : Server} (hfds : (s.fdsOf s.clients).Nodup)
    (hnames : (s.channels.map Channel.name).Nodup) (listener : Fd) :
    ∃ t, Destroys s listener t ∧ Leaves s listener t := by
  obtain ⟨c, hc, hkept, hclients, hclosed⟩ := exists_ends_clients hfds
  obtain ⟨d, hd, hkept', hchannels, hremoved⟩ :=
    exists_ends_channels (d := { c with i := 0 }) (hkept.names.symm ▸ hnames) rfl hkept.removed
  have hcnames : ({ c with i := 0 } : Teardown).srv.channels.map Channel.name =
      s.channels.map Channel.name := hkept.names
  rw [hcnames] at hchannels hremoved
  refine ⟨_, ⟨c, d, hc, hd, rfl⟩, ?_, ?_, hchannels, hremoved⟩
  · show d.srv.fdsOf d.srv.clients = _
    unfold Server.fdsOf at hclients ⊢
    rw [hkept'.clients, hkept'.memory, ← hclients]
  · show d.closed ++ [listener] = _
    rw [hkept'.closed, ← hclosed]

/-- Nothing is left just when there was at most one client and at most one
channel. -/
theorem Leaves.empties_iff {s : Server} {listener : Fd} {t : Teardown} (h : Leaves s listener t) :
    t.Empties s ↔ s.clients.length ≤ 1 ∧ s.channels.length ≤ 1 := by
  have hfds : (s.fdsOf s.clients).length = s.clients.length := List.length_map _
  have hnames : (s.channels.map Channel.name).length = s.channels.length := List.length_map _
  rw [← hfds, ← hnames]
  constructor
  · intro hempty
    have hclients := h.clients
    have hchannels := h.channels
    rw [hempty.clients] at hclients
    rw [hempty.channels] at hchannels
    exact ⟨While.everyOther_tail_eq_nil.mp hclients.symm,
      While.everyOther_tail_eq_nil.mp hchannels.symm⟩
  · intro ⟨hfew, hfew'⟩
    refine ⟨?_, ?_, fun fd hfd => ?_, fun name hname => ?_⟩
    · exact List.map_eq_nil_iff.mp (h.clients.trans (While.everyOther_tail_eq_nil.mpr hfew))
    · exact List.map_eq_nil_iff.mp (h.channels.trans (While.everyOther_tail_eq_nil.mpr hfew'))
    · rw [h.closed, While.everyOther_of_length_le hfew]
      exact List.mem_append_left _ hfd
    · rw [h.removed, While.everyOther_of_length_le hfew']
      exact hname

end Teardown

variable {w : World} {trace : Run.Trace World Action}

/-- **The destructor.**  From every reachable state it ends; it calls
`removeClient` for every client and `removeChannel` for every channel, and
leaves neither, if and only if there is at most one client and at most one
channel. -/
theorem destructor_empties_iff (run : Steps trace w) :
    (∃ t, Teardown.Destroys w.srv w.listener t) ∧
      ∀ t, Teardown.Destroys w.srv w.listener t →
        (t.Empties w.srv ↔ w.srv.clients.length ≤ 1 ∧ w.srv.channels.length ≤ 1) := by
  have htidy := tidy run
  obtain ⟨t, hdestroys, hleaves⟩ :=
    Teardown.exists_destroys htidy.fds htidy.named.distinct w.listener
  refine ⟨⟨t, hdestroys⟩, fun t' h' => ?_⟩
  rw [h'.unique hdestroys]
  exact hleaves.empties_iff

/-- A client that has created a channel and left it is removed, and so is the
channel. -/
theorem destructor_empties_iff_channel : ∃ trace w t, Steps trace w ∧
    w.srv.fdsOf w.srv.clients = [5] ∧ w.srv.channels.map Channel.name = ["#c".toList] ∧
    Teardown.Destroys w.srv w.listener t ∧ t.Empties w.srv := by
  obtain ⟨trace, w, run, htest⟩ := Run.exists_steps_of_perform step start_pw
    ([.gather, .accept 5 "h".toList, .gather] ++
      packet 5 ["PASS pw", "NICK a", "USER a a a :n", "JOIN #c", "PART #c :x"])
    (fun w => w.srv.fdsOf w.srv.clients = [5] ∧
      w.srv.channels.map Channel.name = ["#c".toList]) (by decide +kernel)
  obtain ⟨hfds, hnames⟩ := of_decide_eq_true htest
  obtain ⟨⟨t, hdestroys⟩, hiff⟩ := destructor_empties_iff run
  refine ⟨trace, w, t, run, hfds, hnames, hdestroys, (hiff t hdestroys).mpr ⟨?_, ?_⟩⟩
  · rw [← List.length_map (fun p => (w.srv.memory p).fd)]
    exact Nat.le_of_eq (congrArg List.length hfds)
  · rw [← List.length_map Channel.name]
    exact Nat.le_of_eq (congrArg List.length hnames)

/-- Of two clients and two channels the destructor leaves one each: the client
on the descriptor 6, which is not closed, and the channel `#d`. -/
theorem destructor_skips_second : ∃ trace w t, Steps trace w ∧ w.pending = none ∧
    w.srv.fdsOf w.srv.clients = [5, 6] ∧
    w.srv.channels.map Channel.name = ["#c".toList, "#d".toList] ∧
    Teardown.Destroys w.srv w.listener t ∧ ¬ t.Empties w.srv ∧
    t.srv.fdsOf t.srv.clients = [6] ∧ t.srv.channels.map Channel.name = ["#d".toList] ∧
    t.closed = [5, 3] ∧ t.removed = ["#c".toList] := by
  obtain ⟨trace, w, run, htest⟩ := Run.exists_steps_of_perform step start_pw
    ([.gather, .accept 5 "h".toList, .gather, .accept 6 "i".toList, .gather] ++
      packet 5 ["PASS pw", "NICK a", "USER a a a :n", "JOIN #c", "PART #c :x", "JOIN #d",
        "PART #d :x"])
    (fun w => w.pending = none ∧ w.listener = 3 ∧ w.srv.fdsOf w.srv.clients = [5, 6] ∧
      w.srv.channels.map Channel.name = ["#c".toList, "#d".toList]) (by decide +kernel)
  obtain ⟨hidle, hlistener, hfds, hnames⟩ := of_decide_eq_true htest
  obtain ⟨t, hdestroys, hleaves⟩ :=
    Teardown.exists_destroys (tidy run).fds (tidy run).named.distinct w.listener
  have hclients : t.srv.fdsOf t.srv.clients = [6] := by rw [hleaves.clients, hfds]; rfl
  refine ⟨trace, w, t, run, hidle, hfds, hnames, hdestroys, fun hempty => ?_, hclients, ?_, ?_, ?_⟩
  · rw [hempty.clients] at hclients
    cases hclients
  · rw [hleaves.channels, hnames]
    rfl
  · rw [hleaves.closed, hfds, hlistener]
    rfl
  · rw [hleaves.removed, hnames]
    rfl

end FtIrc
