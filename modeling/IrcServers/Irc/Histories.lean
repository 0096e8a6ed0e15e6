import IrcServers.Irc.ChannelTable
import IrcServers.Rooms

/-!
# Channels and their histories

A channel is a room: `JOIN` enters it and opens it if need be, `PART` and `KICK`
leave it, and `TOPIC` writes it.  Nothing else changes a channel, whatever becomes
of the connections of its members.  So who is on a channel, with which key it is
closed and which topic it has can be read off the lines that have been handled, and
off nothing else.
-/

namespace Irc

/-- What a channel has besides its members. -/
structure Board where
  key : Str
  topic : Str
deriving DecidableEq

/-- `TOPIC` on the board. -/
def Board.setTopic (topic : Str) (b : Board) : Board := { b with topic := topic }

/-- Members and board of a channel. -/
def Channel.brief (ch : Channel) : List ClientPtr × Board := (ch.curClients, ⟨ch.key, ch.topic⟩)

/-- The channels as rooms. -/
abbrev ChannelRooms := Rooms.State Str ClientPtr Board

/-- Who gives the key is let in while there is room. -/
def admits (r : Rooms.Room ClientPtr Board) (brought : Board) : Bool :=
  r.data.key = brought.key && r.members.length < 10

/-- The tests of `joinChannel`. -/
def JoinAccepted (t : Tables) (client : ClientPtr) (name key : Str) : Prop :=
  2 ≤ name.length ∧ name.head? = some '#' ∧ ∀ ch ∈ t.channels[name]?,
    client ∉ ch.curClients ∧ ch.key = key ∧ ch.curClients.length < ch.userLimit

instance (t : Tables) (client : ClientPtr) (name key : Str) :
    Decidable (JoinAccepted t client name key) :=
  inferInstanceAs (Decidable (_ ∧ _ ∧ _))

/-- The tests of `Topic::topic` for a new topic. -/
def TopicAccepted (t : Tables) (client : ClientPtr) (name : Str) : Prop :=
  ∃ ch ∈ t.channels[name]?, ch.opNick = (t.memory client).nickname

instance (t : Tables) (client : ClientPtr) (name : Str) :
    Decidable (TopicAccepted t client name) :=
  inferInstanceAs (Decidable (∃ ch ∈ t.channels[name]?, _))

/-- What a `JOIN` does to the rooms. -/
def joinEvents (t : Tables) (client : ClientPtr) :
    List Str → List (Rooms.Event Str ClientPtr Board)
  | _ :: name :: rest =>
      if JoinAccepted t client name (rest.head?.getD []) then
        [.enter name client ⟨rest.head?.getD [], []⟩]
      else []
  | _ => []

/-- What a `TOPIC` does to the rooms. -/
def topicEvents (t : Tables) (client : ClientPtr) :
    List Str → List (Rooms.Event Str ClientPtr Board)
  | _ :: name :: first :: words =>
      if TopicAccepted t client name then
        [.write name (Board.setTopic (joinWords (first :: words)))]
      else []
  | _ => []

/-- What a line does to the rooms. -/
def lineEvents (t : Tables) (client : ClientPtr) (parts : List Str) :
    List (Rooms.Event Str ClientPtr Board) :=
  if RunsRegistered t client parts .join then joinEvents t client parts
  else if RunsRegistered t client parts .topic then topicEvents t client parts
  else (departing t client parts).map fun d => .leave d.1 d.2

/-- What a step does to the rooms. -/
def roomEvents (w : World) : Action → List (Rooms.Event Str ClientPtr Board)
  | .command env =>
      match w.current with
      | some (fd, line) =>
          lineEvents (w.srv.index fd env.leftover).1 (w.srv.index fd env.leftover).2
            (commandParts line)
      | none => []
  | _ => []

/-- The joins, departures and topics of a run. -/
def history (trace : Run.Trace World Action) : List (Rooms.Event Str ClientPtr Board) :=
  Run.eventsOf roomEvents trace

/-- The channels are the open rooms. -/
def Tables.ShowsRooms (t : Tables) (rooms : ChannelRooms) : Prop :=
  ∀ name : Str, (t.channels[name]?).map Channel.brief =
    (rooms name).map fun r => (r.members, r.data)

namespace Tables

variable {t t' : Tables} {rooms : ChannelRooms} {name : Str} {p x : ClientPtr} {ch : Channel}

/-- The rooms are shown by the channels only. -/
theorem ShowsRooms.congr (h : t.ShowsRooms rooms) (hsame : t'.channels = t.channels) :
    t'.ShowsRooms rooms := by
  intro name
  rw [hsame]
  exact h name

/-- A channel that does not exist is a closed room. -/
theorem ShowsRooms.closed (h : t.ShowsRooms rooms) (hch : t.channels[name]? = none) :
    rooms name = none := by
  have hname := h name
  rw [hch, Option.map_none] at hname
  exact Option.map_eq_none_iff.mp hname.symm

/-- A channel is an open room with its members, key and topic. -/
theorem ShowsRooms.opened (h : t.ShowsRooms rooms) (hch : t.channels[name]? = some ch) :
    ∃ r, rooms name = some r ∧ r.members = ch.curClients ∧ r.data = ⟨ch.key, ch.topic⟩ := by
  have hname := h name
  rw [hch, Option.map_some] at hname
  obtain ⟨r, hr, hbrief⟩ := Option.map_eq_some_iff.mp hname.symm
  obtain ⟨hmembers, hdata⟩ := Prod.mk.inj hbrief
  exact ⟨r, hr, hmembers, hdata⟩

/-- Writing one channel writes one room. -/
theorem ShowsRooms.setChannel (h : t.ShowsRooms rooms) {next : Channel}
    {r : Rooms.Room ClientPtr Board} (hbrief : next.brief = (r.members, r.data)) :
    (t.setChannel name next).ShowsRooms (Function.update rooms name (some r)) := by
  intro k
  rw [setChannel_getElem?]
  by_cases hk : name = k
  · subst hk
    simp [hbrief]
  · rw [if_neg hk, Function.update_of_ne (Ne.symm hk)]
    exact h k

/-- What a departure leaves of a channel. -/
theorem brief_leave (h : t.ChannelsEntered) (name k : Str) (x : ClientPtr) :
    ((t.leave name x).channels[k]?).map Channel.brief =
      if name = k then
        (t.channels[name]?).bind fun ch =>
          if ch.curClients.erase x = [] then none
          else some (ch.curClients.erase x, ⟨ch.key, ch.topic⟩)
      else (t.channels[k]?).map Channel.brief := by
  by_cases hk : name = k
  · subst hk
    rw [if_pos rfl]
    have hdeparts := departs_leave t name x
    generalize t.leave name x = t' at hdeparts ⊢
    cases hdeparts with
    | absent hch => simp [hch]
    | stranger ch hch hmem =>
        rw [hch, Option.bind_some, List.erase_of_not_mem hmem, if_neg (h name ch hch).nonempty]
        rfl
    | emptied ch hch hmem herase =>
        rw [hch, Option.bind_some, if_pos herase]
        simp [(h name ch hch).keyed]
    | succeeded ch front rest hch hmem herase hop =>
        rw [hch, Option.bind_some, herase, if_neg (List.cons_ne_nil front rest),
          setChannel_getElem?, if_pos rfl]
        rfl
    | left ch front rest hch hmem herase hop =>
        rw [hch, Option.bind_some, herase, if_neg (List.cons_ne_nil front rest),
          setChannel_getElem?, if_pos rfl]
        rfl
  · rw [if_neg hk, leave_getElem?_of_ne h.keyed hk]

/-- A departure from a channel leaves its room. -/
theorem ShowsRooms.leave (h : t.ShowsRooms rooms) (hentered : t.ChannelsEntered) (name : Str)
    (x : ClientPtr) :
    (t.leave name x).ShowsRooms
      (Function.update rooms name ((rooms name).bind fun r => r.leave x)) := by
  intro k
  rw [brief_leave hentered]
  by_cases hk : name = k
  · subst hk
    rw [if_pos rfl, Function.update_self]
    cases hch : t.channels[name]? with
    | none => simp [h.closed hch]
    | some ch =>
        obtain ⟨r, hr, hmembers, hdata⟩ := h.opened hch
        rw [hr, Option.bind_some, Option.bind_some, Rooms.Room.leave, ← hmembers, ← hdata]
        split <;> rfl
  · rw [if_neg hk, Function.update_of_ne (Ne.symm hk)]
    exact h k

/-- Departures of one client from several channels. -/
theorem ShowsRooms.leaveAll (h : t.ShowsRooms rooms) (hentered : t.ChannelsEntered)
    (names : List Str) (x : ClientPtr) :
    ∃ rooms', Run.perform (Rooms.step admits) (names.map fun name => .leave name x) rooms =
        some rooms' ∧ (t.leaveAll names x).ShowsRooms rooms' := by
  induction names generalizing t rooms with
  | nil => exact ⟨rooms, rfl, h⟩
  | cons name names ih =>
      obtain ⟨rooms', hperform, hshows⟩ := ih (h.leave hentered name x) (hentered.leave name x)
      exact ⟨rooms', hperform, hshows⟩

end Tables

section Lines

variable {env : Env} {s s' : Server} {p : ClientPtr} {line word : Str} {args : List Str}
  {rooms : ChannelRooms}

/-- A `JOIN` that fails a test changes no table. -/
theorem join_refused {name : Str} {rest : List Str}
    (h : ¬ JoinAccepted s.toTables p name (rest.head?.getD [])) :
    (s.join p (word :: name :: rest)).toTables = s.toTables := by
  have hpass : ((word :: name :: rest)[2]?).getD [] = rest.head?.getD [] := by
    cases rest <;> rfl
  unfold Server.join
  dsimp only
  split
  · unfold Server.joinChannel
    simp only [hpass]
    split
    · rfl
    · rename_i hname
      simp only [not_or, Nat.not_lt, ne_eq, not_not] at hname
      cases hch : s.channels[name]? with
      | none => exact (h ⟨hname.1, hname.2, by simp [hch]⟩).elim
      | some ch =>
          dsimp only
          split
          · rfl
          split
          · rfl
          split
          · rfl
          · rename_i hoff hkey hroom
            refine (h ⟨hname.1, hname.2, fun c hc => ?_⟩).elim
            obtain rfl := Option.some.inj (hch.symm.trans hc)
            exact ⟨by simpa [Channel.isUserOnChannel] using hoff, not_not.mp hkey,
              Nat.lt_of_not_le hroom⟩
  · rfl

/-- A `JOIN` that passes the tests opens the channel or adds the client to it. -/
theorem join_accepted (word : Str) {name : Str} {rest : List Str}
    (h : JoinAccepted s.toTables p name (rest.head?.getD [])) :
    ∃ next, (s.join p (word :: name :: rest)).toTables = s.setChannel name next ∧
      next.brief = match s.channels[name]? with
        | none => ([p], ⟨rest.head?.getD [], []⟩)
        | some ch => (ch.curClients ++ [p], ⟨ch.key, ch.topic⟩) := by
  have hpass : ((word :: name :: rest)[2]?).getD [] = rest.head?.getD [] := by
    cases rest <;> rfl
  obtain ⟨hlong, hhash, hopen⟩ := h
  have hname : name ≠ [] := by
    rintro rfl
    cases hhash
  have htests : ¬ (name.length < 2 ∨ name.head? ≠ some '#') := by
    rintro (hshort | hplain)
    · omega
    · exact hplain hhash
  unfold Server.join
  simp only [ne_eq, hname, not_false_eq_true, if_true, Server.joinChannel, hpass]
  rw [if_neg htests]
  cases hch : s.channels[name]? with
  | none =>
      simp only [Server.sendChannelUserList_toTables, Server.broadcastMessage_toTables,
        Server.withTables_toTables]
      exact ⟨_, rfl, rfl⟩
  | some ch =>
      obtain ⟨hnew, hkey, hroom⟩ := hopen ch hch
      have hoff : ¬ ch.isUserOnChannel p = true := by
        simpa [Channel.isUserOnChannel] using hnew
      dsimp only
      rw [if_neg hoff, if_neg (not_not.mpr hkey), if_neg (Nat.not_le_of_lt hroom)]
      simp only [Server.sendChannelUserList_toTables, Server.broadcastMessage_toTables,
        Server.withTables_toTables]
      refine ⟨_, rfl, ?_⟩
      split <;> rfl

/-- `JOIN` enters a room or does nothing to the channels. -/
theorem join_shows (h : s.toTables.ShowsRooms rooms) (hentered : s.toTables.ChannelsEntered) :
    ∃ rooms', Run.perform (Rooms.step admits) (joinEvents s.toTables p (word :: args)) rooms =
        some rooms' ∧ (s.join p (word :: args)).toTables.ShowsRooms rooms' := by
  cases args with
  | nil => exact ⟨rooms, rfl, h⟩
  | cons name rest =>
      by_cases hok : JoinAccepted s.toTables p name (rest.head?.getD [])
      · obtain ⟨next, htables, hbrief⟩ := join_accepted word hok
        rw [htables, joinEvents, if_pos hok]
        cases hch : s.channels[name]? with
        | none =>
            rw [hch] at hbrief
            refine ⟨_, ?_, h.setChannel (r := .opened p ⟨rest.head?.getD [], []⟩) hbrief⟩
            simp [Run.perform, Rooms.step, h.closed hch]
        | some ch =>
            rw [hch] at hbrief
            obtain ⟨r, hr, hmembers, hdata⟩ := h.opened hch
            obtain ⟨hnew, hkey, hroom⟩ := hok.2.2 ch hch
            have hlimit := (hentered name ch hch).limit
            have hadmits : admits r ⟨rest.head?.getD [], []⟩ = true := by
              simp only [admits, hdata, hmembers, hkey, Bool.and_eq_true, decide_eq_true_eq]
              exact ⟨trivial, hlimit ▸ hroom⟩
            have hnew' : p ∉ r.members := hmembers ▸ hnew
            refine ⟨_, ?_, h.setChannel (r := r.enter p hnew') ?_⟩
            · simp [Run.perform, Rooms.step, hr, hnew', hadmits]
            · simp [hbrief, Rooms.Room.enter, hmembers, hdata]
      · rw [join_refused hok, joinEvents, if_neg hok]
        exact ⟨rooms, rfl, h⟩

/-- `TOPIC` writes a room or does nothing to the channels. -/
theorem topic_shows (h : s.toTables.ShowsRooms rooms) :
    ∃ rooms', Run.perform (Rooms.step admits) (topicEvents s.toTables p (word :: args)) rooms =
        some rooms' ∧ (s.topic p (word :: args)).toTables.ShowsRooms rooms' := by
  match args with
  | [] => exact ⟨rooms, rfl, h⟩
  | [name] =>
      refine ⟨rooms, rfl, ?_⟩
      unfold Server.topic
      dsimp only
      split
      · exact h
      · split <;> exact h
  | name :: first :: words =>
      unfold Server.topic
      dsimp only
      cases hch : s.channels[name]? with
      | none =>
          rw [topicEvents, if_neg (by simp [TopicAccepted, hch])]
          exact ⟨rooms, rfl, h⟩
      | some ch =>
          dsimp only
          by_cases hop : ch.opNick = s.nickOf p
          · obtain ⟨r, hr, hmembers, hdata⟩ := h.opened hch
            have haccepted : TopicAccepted s.toTables p name := ⟨ch, hch, hop⟩
            rw [topicEvents, if_pos haccepted, if_neg (not_not.mpr hop)]
            refine ⟨_, rfl, ?_⟩
            rw [hr, Option.map_some]
            simp only [Server.broadcastMessage_toTables, Server.withTables_toTables]
            refine h.setChannel ?_
            simp [Channel.brief, Rooms.Room.write, Board.setTopic, hmembers, hdata]
          · have hrefused : ¬ TopicAccepted s.toTables p name := by
              intro hok
              obtain ⟨c, hc, hopc⟩ := hok
              obtain rfl := Option.some.inj (hch.symm.trans hc)
              exact hop hopc
            rw [topicEvents, if_neg hrefused, if_pos hop]
            exact ⟨rooms, rfl, h⟩

/-- **One line.**  What a line does to the channels it does to the rooms. -/
theorem line_shows (h : s.toTables.ShowsRooms rooms) (hentered : s.toTables.ChannelsEntered)
    (hquit : ¬ RunsRegistered s.toTables p (commandParts line) .quit)
    (hdone : Server.commandParser env line p s = .done s') :
    ∃ rooms', Run.perform (Rooms.step admits)
        (lineEvents s.toTables p (commandParts line)) rooms = some rooms' ∧
      s'.toTables.ShowsRooms rooms' := by
  by_cases hjoin : RunsRegistered s.toTables p (commandParts line) .join
  · obtain ⟨word, args, hparts, -⟩ := id hjoin
    rw [hjoin.commandParser_eq (by decide) hparts] at hdone
    cases hdone
    rw [lineEvents, if_pos hjoin, hparts]
    exact join_shows h hentered
  by_cases htopic : RunsRegistered s.toTables p (commandParts line) .topic
  · obtain ⟨word, args, hparts, -⟩ := id htopic
    rw [htopic.commandParser_eq (by decide) hparts] at hdone
    cases hdone
    rw [lineEvents, if_neg hjoin, if_pos htopic, hparts]
    exact topic_shows h
  rw [lineEvents, if_neg hjoin, if_neg htopic]
  by_cases hstay : departing s.toTables p (commandParts line) = []
  · rw [hstay]
    refine ⟨rooms, rfl, h.congr ?_⟩
    have heffect := commandParser_effect hquit hdone
    generalize s'.toTables = t' at heffect ⊢
    cases heffect with
    | quiet => rfl
    | authenticated hpass => rfl
    | renamed nick hnick => rfl
    | registered username clientIp realname huser => rfl
    | joined name ch next hruns hch hnew hroom hnext => exact (hjoin hruns).elim
    | created name key hruns hlen hhash hch => exact (hjoin hruns).elim
    | parted names hruns hnames =>
        rw [hstay] at hnames
        rw [List.map_eq_nil_iff.mp hnames.symm]
        rfl
    | topicSet name topic ch hruns hch hop => exact (htopic hruns).elim
    | kicked name target ch hruns hch hop hlive hmem htarget => simp [hstay] at htarget
  · obtain ⟨names, x, hnames, htables⟩ := commandParser_departing env hstay
    rw [hdone, Outcome.leaves_done] at htables
    rw [hnames, htables, List.map_map]
    exact h.leaveAll hentered names x

end Lines

section Runs

variable {w next : World} {a : Action} {trace : Run.Trace World Action} {rooms : ChannelRooms}

/-- The handler of a line that is no `QUIT` returns. -/
theorem handled_done {env : Env} {fd : Fd} {line : Str} {lines : List Str}
    (hstep : step w (.command env) = some next) (hline : w.reading = some (fd, line :: lines))
    (hquit : ¬ RunsRegistered (w.srv.index fd env.leftover).1 (w.srv.index fd env.leftover).2
      (commandParts line) .quit) :
    Server.commandParser env line (w.srv.index fd env.leftover).2
      (w.srv.withTables (w.srv.index fd env.leftover).1) = .done next.srv := by
  simp only [step, hline] at hstep
  exact World.command_done hquit hstep

/-- **One step.**  What a step does to the channels it does to the rooms. -/
theorem shows_step (h : w.srv.ShowsRooms rooms) (hentered : w.srv.ChannelsEntered)
    (hstep : step w a = some next) :
    ∃ rooms', Run.perform (Rooms.step admits) (roomEvents w a) rooms = some rooms' ∧
      next.srv.ShowsRooms rooms' := by
  have hquiet : roomEvents w a = [] → next.srv.channels = w.srv.channels →
      ∃ rooms', Run.perform (Rooms.step admits) (roomEvents w a) rooms = some rooms' ∧
        next.srv.ShowsRooms rooms' := by
    intro hnone hsame
    rw [hnone]
    exact ⟨rooms, rfl, h.congr hsame⟩
  have hleaving : ∀ {env : Env} {fd : Fd} {line : Str} {lines : List Str},
      w.reading = some (fd, line :: lines) →
      RunsRegistered (w.srv.index fd env.leftover).1 (w.srv.index fd env.leftover).2
        (commandParts line) .quit → roomEvents w (.command env) = [] := by
    intro env fd line lines hline hquit
    simp only [roomEvents, World.current, hline, lineEvents, departing]
    rw [if_neg (hquit.unique (by decide)), if_neg (hquit.unique (by decide)),
      if_neg (hquit.unique (by decide)), if_neg (hquit.unique (by decide))]
    rfl
  cases step_move hstep with
  | accepted fd ip port _ hidle hfresh htables hreading =>
      refine hquiet rfl ?_
      rw [htables, Tables.acceptConnection_eq]
      exact Tables.index_channels _ _ _
  | received fd results text _ hidle hpolled htext htables hreading =>
      exact hquiet rfl (by rw [htables])
  | hungUp fd results _ hidle hpolled hend htables hreading =>
      exact hquiet rfl (by rw [htables, Tables.closeConnection_channels])
  | quitted env fd line lines _ hline hquit hsent htables hreading =>
      exact hquiet (hleaving hline hquit) (by rw [htables]; simp)
  | aborted env fd line lines _ hline hquit hfailed htables hreading =>
      exact hquiet (hleaving hline hquit) (by rw [htables]; simp)
  | handled env fd line lines _ hline hquit heffect hreading =>
      have hsame := Tables.index_channels w.srv.toTables fd env.leftover
      have hevents : roomEvents w (.command env) = lineEvents (w.srv.index fd env.leftover).1
          (w.srv.index fd env.leftover).2 (commandParts line) := by
        simp only [roomEvents, World.current, hline]
      rw [hevents]
      exact line_shows (s := w.srv.withTables (w.srv.index fd env.leftover).1) (h.congr hsame)
        ((Tables.EachChannel.congr hsame).mpr hentered) hquit (handled_done hstep hline hquit)

/-- **The channels are rooms.**  Every run of the server is one of the rooms. -/
theorem rooms_of_run (run : Steps trace w) :
    ∃ rooms, Run.perform (Rooms.step admits) (history trace) (fun _ => none) = some rooms ∧
      w.srv.ShowsRooms rooms := by
  obtain ⟨first, hstart, run⟩ := run.first
  obtain ⟨rooms, hperform, -, hshows⟩ := run.refines
    (fun w rooms => w.srv.ChannelsEntered ∧ w.srv.ShowsRooms rooms) roomEvents
    (fun w a next rooms hw hstep => by
      obtain ⟨rooms', hperform, hshows⟩ := shows_step hw.2 hw.1 hstep
      exact ⟨rooms', hperform, channelsEntered_step hw.1 hstep, hshows⟩)
    (t := fun _ => none) ⟨channelsEntered_start hstart, fun name => by
      obtain ⟨password, host, serverSocket, botSocket, _, rfl⟩ := hstart
      simp [initial]⟩
  exact ⟨rooms, hperform, hshows⟩

/-- What a line can do to the rooms. -/
theorem mem_lineEvents {t : Tables} {p : ClientPtr} {parts : List Str}
    {event : Rooms.Event Str ClientPtr Board} (h : event ∈ lineEvents t p parts) :
    (∃ name key, event = .enter name p ⟨key, []⟩) ∨ (∃ name x, event = .leave name x) ∨
      ∃ name topic, event = .write name (Board.setTopic topic) := by
  unfold lineEvents at h
  split at h
  · unfold joinEvents at h
    split at h
    · split at h
      · exact Or.inl ⟨_, _, List.mem_singleton.mp h⟩
      · cases h
    · cases h
  split at h
  · unfold topicEvents at h
    split at h
    · split at h
      · exact Or.inr (Or.inr ⟨_, _, List.mem_singleton.mp h⟩)
      · cases h
    · cases h
  · obtain ⟨d, -, hd⟩ := List.mem_map.mp h
    exact Or.inr (Or.inl ⟨_, _, hd.symm⟩)

/-- The history of a run is made of what its lines do. -/
theorem mem_history {event : Rooms.Event Str ClientPtr Board} (h : event ∈ history trace) :
    (∃ name p key, event = .enter name p ⟨key, []⟩) ∨ (∃ name x, event = .leave name x) ∨
      ∃ name topic, event = .write name (Board.setTopic topic) := by
  induction trace with
  | nil => cases h
  | cons entry trace ih =>
      obtain ⟨w, a⟩ := entry
      rcases List.mem_append.mp h with h | h
      · exact ih h
      · unfold roomEvents at h
        split at h
        · split at h
          · rcases mem_lineEvents h with ⟨name, key, henter⟩ | hrest
            · exact Or.inl ⟨name, _, key, henter⟩
            · exact Or.inr hrest
          · cases h
        · cases h

/-- Only the topic of a board is ever written. -/
theorem write_setTopic {name : Str} {f : Board → Board} (h : .write name f ∈ history trace) :
    ∃ topic, f = Board.setTopic topic := by
  rcases mem_history h with ⟨_, _, _, hevent⟩ | ⟨_, _, hevent⟩ | ⟨_, topic, hevent⟩
  · cases hevent
  · cases hevent
  · cases hevent
    exact ⟨topic, rfl⟩

/-- A channel is created without a topic. -/
theorem enter_blank {name : Str} {p : ClientPtr} {brought : Board}
    (h : .enter name p brought ∈ history trace) : brought = ⟨brought.key, []⟩ := by
  rcases mem_history h with ⟨_, _, _, hevent⟩ | ⟨_, _, hevent⟩ | ⟨_, _, hevent⟩
  · cases hevent
    rfl
  · cases hevent
  · cases hevent

/-- Writes of topics leave the key alone. -/
theorem written_key {name : Str} {events : List (Rooms.Event Str ClientPtr Board)} (b : Board)
    (h : ∀ k f, .write k f ∈ events → ∃ topic, f = Board.setTopic topic) :
    (Rooms.written name events b).key = b.key := by
  induction events generalizing b with
  | nil => rfl
  | cons event events ih =>
      have hrest := fun b => ih b fun k f hf => h k f (List.mem_cons_of_mem _ hf)
      cases event with
      | enter k p brought => exact hrest b
      | leave k p => exact hrest b
      | write k f =>
          obtain ⟨topic, rfl⟩ := h k f List.mem_cons_self
          rw [Rooms.written, hrest]
          split <;> rfl

/-- **Key and topic.**  In every run a channel was created by a `JOIN` with its key,
when nobody was on it, and without a topic; it has not been empty since, and its topic
is the last one set since. -/
theorem channel_since_created (run : Steps trace w) {name : Str} {ch : Channel}
    (hch : w.srv.channels[name]? = some ch) :
    ∃ before creator after, history trace = before ++ .enter name creator ⟨ch.key, []⟩ :: after ∧
      Rooms.standing name before = [] ∧
      (∀ first, first <+: after →
        Rooms.standing name (before ++ .enter name creator ⟨ch.key, []⟩ :: first) ≠ []) ∧
      ch.topic = (Rooms.written name after ⟨ch.key, []⟩).topic := by
  obtain ⟨rooms, hperform, hshows⟩ := rooms_of_run run
  obtain ⟨r, hr, hmembers, hdata⟩ := hshows.opened hch
  obtain ⟨before, creator, brought, after, hhistory, hempty, hfull, hwritten⟩ :=
    Rooms.exists_opening hperform rfl hr
  have hcreated : .enter name creator brought ∈ history trace := by
    rw [hhistory]
    exact List.mem_append_right _ List.mem_cons_self
  have hkey : (Rooms.written name after brought).key = brought.key := by
    refine written_key brought fun k f hf => ?_
    have hlater : .write k f ∈ history trace := by
      rw [hhistory]
      exact List.mem_append_right _ (List.mem_cons_of_mem _ hf)
    exact write_setTopic hlater
  rw [← hwritten, hdata] at hkey
  have hbrought : brought = ⟨ch.key, []⟩ := by
    rw [enter_blank hcreated]
    exact congrArg (fun key => (⟨key, []⟩ : Board)) hkey.symm
  subst hbrought
  exact ⟨before, creator, after, hhistory, hempty, hfull, by rw [← hwritten, hdata]⟩

/-- A channel that was given up is created again with another key. -/
theorem channel_since_created_again : ∃ trace w ch, Steps trace w ∧
    w.srv.channels["#c".toList]? = some ch ∧ ch.key = "new".toList ∧
      ∃ before creator after, history trace =
          before ++ .enter "#c".toList creator ⟨"new".toList, []⟩ :: after ∧
        Rooms.standing "#c".toList before = [] ∧
        ch.topic = (Rooms.written "#c".toList after ⟨"new".toList, []⟩).topic := by
  obtain ⟨trace, w, run, htest⟩ := Run.exists_steps_of_record step start_pw
    (.accept 5 "10.0.0.1".toList 40000 :: packet 5
      ["PASS pw", "NICK a", "USER a a a n", "JOIN #c old", "TOPIC #c first", "PART #c",
        "JOIN #c new", "TOPIC #c second"])
    (fun _ w => (w.srv.channels["#c".toList]?).map Channel.key = some "new".toList)
    (by decide +kernel)
  obtain ⟨ch, hch, hkey⟩ := Option.map_eq_some_iff.mp (of_decide_eq_true htest)
  obtain ⟨before, creator, after, hhistory, hempty, -, htopic⟩ := channel_since_created run hch
  rw [hkey] at hhistory htopic
  exact ⟨trace, w, ch, run, hch, hkey, before, creator, after, hhistory, hempty, htopic⟩

end Runs

end Irc
