import IrcServers.Irc.Histories
import IrcServers.Irc.ChannelMessages
import IrcServers.Irc.Membership

/-!
# Who is sent anything

A handler sends to the client it works for, to clients that it finds in the table of
connections, and to the members of channels.  Only the last can be gone; as long as no
connection is closed whose client is on a channel, the server writes to no descriptor
but those of its connections and the bot's.  The kernel may hand out a closed descriptor
again, so otherwise a stranger could be sent what was meant for a member.
-/

namespace Irc

open Outcome

namespace Server

/-- Whatever `s'` has sent since `s` went to connections of `s` or to the bot. -/
def SentWithin (s s' : Server) : Prop :=
  ∃ more, s'.sent = s.sent ++ more ∧
    ∀ m ∈ more, (s.clients[m.1]?).isSome = true ∨ m.1 = s.botSocket

/-- What a handler that started in `s` has made of the server so far: clients are where
they were, members are connected, and what has been sent since went to connections of
`s` or to the bot. -/
structure Serves (s s' : Server) : Prop where
  found : ∀ q, s.Live q → (s.clients[(s'.memory q).clientSocketFd]?).isSome = true
  clients : s'.clients = s.clients
  bot : s'.botSocket = s.botSocket
  members : s'.EachChannel fun _ ch => ∀ q ∈ ch.curClients, s.Live q
  sent : s.SentWithin s'

variable {s s' : Server} {p q : ClientPtr} {ch : Channel} {name : Str} {parts : List Str}

/-- A state serves its own members. -/
theorem Serves.refl (hregistry : s.Registry) (hmembers : s.MembersLive) : s.Serves s where
  found := by
    rintro q ⟨fd, hfd⟩
    rw [hregistry.socket hfd, hfd]
    rfl
  clients := rfl
  bot := rfl
  members := fun name ch hch q hq => hmembers q ⟨name, ch, hch, hq⟩
  sent := ⟨[], by simp, by simp⟩

/-- Clients stay connected. -/
theorem Serves.live (h : s.Serves s') (hq : s'.Live q) : s.Live q := by
  obtain ⟨fd, hfd⟩ := hq
  exact ⟨fd, h.clients ▸ hfd⟩

/-- Messages to clients, or to the bot, may be sent. -/
theorem Serves.sendAll (h : s.Serves s') {messages : List (Fd × Str)}
    (hmessages : ∀ m ∈ messages, (s.clients[m.1]?).isSome = true ∨ m.1 = s.botSocket) :
    s.Serves (s'.sendAll messages) where
  found := h.found
  clients := h.clients
  bot := h.bot
  members := h.members
  sent := by
    obtain ⟨more, hmore, hall⟩ := h.sent
    refine ⟨more ++ messages, by simp [Server.sendAll, hmore], fun m hm => ?_⟩
    rcases List.mem_append.mp hm with hm | hm
    · exact hall m hm
    · exact hmessages m hm

/-- A message to a connected client. -/
theorem Serves.sendMessage (h : s.Serves s') (hq : s.Live q) (text : Str) :
    s.Serves (s'.sendMessage q text) := by
  unfold Server.sendMessage
  refine h.sendAll fun m hm => Or.inl ?_
  rw [List.mem_singleton.mp hm]
  exact h.found q hq

/-- A connected client may be answered. -/
theorem Serves.sendReply (h : s.Serves s') (hq : s.Live q) (reply : Str) :
    s.Serves (s'.sendReply q reply) := h.sendMessage hq _

/-- A message to the members of a channel. -/
theorem Serves.broadcastMessage (h : s.Serves s') (hch : ∀ q ∈ ch.curClients, s.Live q)
    (text : Str) : s.Serves (s'.broadcastMessage ch text) := by
  refine h.sendAll fun m hm => Or.inl ?_
  obtain ⟨q, hq, rfl⟩ := List.mem_map.mp hm
  exact h.found q (hch q hq)

/-- The list of members goes to members, who are connected. -/
theorem Serves.sendChannelUserList (h : s.Serves s') (hch : ∀ q ∈ ch.curClients, s.Live q)
    (q : ClientPtr) : s.Serves (s'.sendChannelUserList ch q) :=
  (h.broadcastMessage hch _).broadcastMessage hch _

/-- A message of the bot goes to its own socket. -/
theorem Serves.botSendMsg (h : s.Serves s') (nick message : Str) :
    s.Serves (s'.botSendMsg nick message) := by
  unfold Server.botSendMsg
  refine h.sendAll fun m hm => Or.inr ?_
  rw [List.mem_singleton.mp hm]
  exact h.bot

/-- A use of a channel that is gone sends nothing. -/
theorem Serves.useFreed (h : s.Serves s') (name : Str) : s.Serves (s'.useFreed name) :=
  ⟨h.found, h.clients, h.bot, h.members, h.sent⟩

/-- A change of the channels that adds connected clients only. -/
theorem Serves.setChannel (h : s.Serves s') (name : Str) {ch : Channel}
    (hch : ∀ q ∈ ch.curClients, s.Live q) :
    s.Serves (s'.withTables (s'.setChannel name ch)) :=
  ⟨h.found, h.clients, h.bot, Tables.EachChannel.setChannel h.members hch, h.sent⟩

/-- A change of what is known of a client, but not of its descriptor. -/
theorem Serves.setClient (h : s.Serves s') (x : ClientPtr) {f : Client → Client}
    (hf : ∀ c, (f c).clientSocketFd = c.clientSocketFd) :
    s.Serves (s'.withTables (s'.setClient x f)) where
  found q hq := by
    have hsame : ((s'.setClient x f).memory q).clientSocketFd =
        (s'.memory q).clientSocketFd := by
      by_cases hqx : q = x
      · rw [hqx, Tables.setClient_memory_self, hf]
      · rw [Tables.setClient_memory_ne _ _ hqx]
    exact hsame.symm ▸ h.found q hq
  clients := h.clients
  bot := h.bot
  members := h.members
  sent := h.sent

/-- The nickname table sends nothing. -/
theorem Serves.registerNick (h : s.Serves s') (nick : Str) (fd : Fd) :
    s.Serves (s'.withTables (s'.registerNick nick fd)) :=
  ⟨h.found, h.clients, h.bot, h.members, h.sent⟩

/-- A client that is found by its nickname is connected. -/
theorem Serves.live_of_getClient (h : s.Serves s') {nick : Str} {x : ClientPtr}
    (hx : s'.getClient nick = some x) : s.Live x := by
  obtain ⟨fd, hfd, -⟩ := Tables.firstNamed_of_getClient hx
  exact h.live ⟨fd, hfd⟩

/-- The farewell to a listed nickname goes to a client that was found. -/
theorem Serves.partRemoved (h : s.Serves s') (name nick : Str) :
    s.Serves (s'.partRemoved name nick) := by
  unfold Server.partRemoved
  split
  · rename_i x hx
    exact h.sendReply (h.live_of_getClient hx) _
  · exact h

/-- The end of a channel. -/
theorem Serves.removeChannel (h : s.Serves s') (name : Str) :
    s.Serves (s'.removeChannel name) := by
  have htold : ∀ (nicks : List Str) (s' : Server), s.Serves s' →
      s.Serves (nicks.foldl (fun s nick => s.partRemoved name nick) s') := by
    intro nicks
    induction nicks with
    | nil => exact fun s' h => h
    | cons nick nicks ih => exact fun s' h => ih _ (h.partRemoved name nick)
  unfold Server.removeChannel
  split
  · rename_i ch hch
    have hall := htold (s'.getChannelClients ch) s' h
    refine ⟨hall.found, hall.clients, hall.bot, fun k c hk q hq => ?_, hall.sent⟩
    rw [withTables_toTables] at hk
    dsimp only at hk
    rw [Std.ExtTreeMap.getElem?_erase] at hk
    split at hk
    · cases hk
    · exact hall.members k c hk q hq
  · exact h

/-- A departure. -/
theorem Serves.removeClientFromChannel (h : s.Serves s') (name : Str) (x : ClientPtr) :
    s.Serves (s'.removeClientFromChannel name x) := by
  unfold Server.removeClientFromChannel
  cases hch : s'.channels[name]? with
  | none => exact h.useFreed name
  | some ch =>
      have hlive := h.members name ch hch
      have hleft : ∀ q ∈ ch.curClients.erase x, s.Live q :=
        fun q hq => hlive q (List.mem_of_mem_erase hq)
      have hset : s.Serves (s'.withTables (s'.setChannel name
          { ch with curClients := ch.curClients.erase x })) := h.setChannel name hleft
      dsimp only
      split
      · split
        · exact (hset.removeChannel _).useFreed _
        · rename_i front rest herase
          have hrest : ∀ q ∈ front :: rest, s.Live q := fun q hq => hleft q (herase.symm ▸ hq)
          split
          · have hfront := hrest front List.mem_cons_self
            refine Serves.sendChannelUserList (Serves.sendReply ?_ hfront _) hleft _
            refine hset.setChannel name ?_
            exact hleft
          · exact hset.sendChannelUserList hleft _
      · exact h

section Handlers

variable (h : s.Serves s) (hp : s.Live p)
include h hp

/-- `CAP` answers its own client. -/
theorem cap_serves : s.Serves (s.cap p parts) := by
  unfold cap
  split
  · split
    · exact h.sendMessage hp _
    · exact h.sendReply hp _
  · exact h.sendReply hp _

/-- `PASS` answers its own client. -/
theorem pass_serves : s.Serves (s.pass p parts) := by
  unfold pass
  split
  · split
    · exact h.sendReply hp _
    · split
      · refine (h.setClient p ?_).sendMessage hp _
        exact fun _ => rfl
      · exact h.sendMessage hp _
  · exact h.sendReply hp _

/-- `NICK` answers its own client. -/
theorem nick_serves : s.Serves (s.nick p parts) := by
  unfold nick
  split
  · exact h.sendMessage hp _
  · split
    · split
      · exact h.sendReply hp _
      · refine (h.registerNick _ _).setClient p ?_
        exact fun _ => rfl
    · exact h.sendReply hp _

/-- `USER` answers its own client. -/
theorem user_serves : s.Serves (s.user p parts) := by
  unfold user
  split
  · exact h.sendMessage hp _
  · split
    · split
      · exact h.sendReply hp _
      · refine (((h.setClient p ?_).sendReply hp _).setClient p ?_).botSendMsg _ _
        · exact fun _ => rfl
        · exact fun _ => rfl
    · exact h.sendReply hp _

/-- `JOIN` tells the members of the channel, the new one among them. -/
theorem join_serves : s.Serves (s.join p parts) := by
  have hjoined : ∀ ch : Channel, (∀ q ∈ ch.curClients, s.Live q) → ∀ name,
      s.Serves (((s.withTables (s.setChannel name ch)).broadcastMessage ch
        (rplJoin (s.prefixOf p) ch.name)).sendChannelUserList ch p) := fun ch hch name =>
    ((h.setChannel name hch).broadcastMessage hch _).sendChannelUserList hch p
  have hadded : ∀ clients : List ClientPtr, (∀ q ∈ clients, s.Live q) →
      ∀ q ∈ clients ++ [p], s.Live q := by
    intro clients hclients q hq
    rcases List.mem_append.mp hq with hq | hq
    · exact hclients q hq
    · rw [List.mem_singleton.mp hq]
      exact hp
  unfold join
  split
  · split
    · unfold joinChannel
      dsimp only
      split
      · exact h.sendReply hp _
      · split
        · rename_i ch hch
          split
          · exact h.sendReply hp _
          split
          · exact h.sendReply hp _
          split
          · exact h.sendReply hp _
          · refine hjoined _ (fun q hq => hadded ch.curClients (h.members _ ch hch) q ?_) _
            split at hq <;> exact hq
        · exact hjoined _ (hadded [] (by simp)) _
    · exact h
  · exact h.sendReply hp _

/-- `PRIVMSG` tells a client or the members of a channel. -/
theorem privmsg_serves (env : Env) : (s.privmsg env p parts).Leaves s.Serves := by
  unfold privmsg
  split
  · rename_i command target word words
    obtain ⟨chatter, hchatter, htext⟩ : s.BotWrote (s.privmsgText env.now p (word :: words)).1 := by
      unfold privmsgText
      dsimp only
      split
      · exact s.processMessage_botWrote _ _
      · exact .refl s
    have hbot : s.Serves (s.privmsgText env.now p (word :: words)).1 := by
      rw [htext]
      exact h.sendAll fun m hm => Or.inr (hchatter m hm)
    dsimp only
    split
    · split
      · exact leaves_done.mpr (hbot.sendMessage hp _)
      · rename_i x hx
        exact leaves_done.mpr (hbot.sendMessage (hbot.live_of_getClient hx) _)
    · split
      · exact leaves_done.mpr hbot
      · split
        · refine .each (fun nick _ s' hs' => ?_) hbot
          unfold relayToMember
          split
          · exact leaves_fault
          · rename_i x hx
            exact .ite (fun _ => leaves_done.mpr (hs'.sendMessage (hs'.live_of_getClient hx) _))
              (fun _ => leaves_done.mpr hs')
        · exact leaves_done.mpr hbot
  · exact leaves_done.mpr (h.sendMessage hp _)
  · exact leaves_done.mpr (h.sendReply hp _)

/-- `LIST` answers its own client. -/
theorem list_serves : s.Serves (s.list p) := by
  have hlines : ∀ (entries : List (Str × Channel)) (s' : Server), s.Serves s' →
      s.Serves (entries.foldl (fun s entry => s.listChannel p entry.2) s') := by
    intro entries
    induction entries with
    | nil => exact fun s' h => h
    | cons entry entries ih =>
        intro s' h
        have hline : s.Serves (s'.listChannel p entry.2) := by
          unfold listChannel
          split
          · exact h
          · exact h.sendReply hp _
        exact ih _ hline
  exact (hlines _ _ (h.sendReply hp _)).sendReply hp _

omit h in
/-- One round of the loop of `PART`. -/
theorem Serves.partChannel (h : s.Serves s') (message name : Str) :
    s.Serves (s'.partChannel p message name) := by
  unfold Server.partChannel
  split
  · exact h.sendReply hp _
  · rename_i ch hch
    split
    · have htold := (h.sendReply hp (rplPart (s'.prefixOf p) ch.name message)).broadcastMessage
        (h.members name ch hch) (rplPart (s'.prefixOf p) ch.name message)
      have hleft := htold.removeClientFromChannel name p
      dsimp only
      split
      · rename_i ch' hch'
        exact hleft.sendChannelUserList (hleft.members name ch' hch') p
      · exact hleft
    · exact h.sendReply hp _

/-- `PART` tells those who stay and the client that leaves. -/
theorem part_serves : s.Serves (s.part p parts) := by
  unfold part
  split
  · rename_i channels words
    have hrounds : ∀ (names : List Str) (s' : Server), s.Serves s' →
        s.Serves (names.foldl (partChannel p (dropColon (joinWords words))) s') := by
      intro names
      induction names with
      | nil => exact fun s' h => h
      | cons name names ih => exact fun s' h => ih _ (h.partChannel hp _ name)
    exact hrounds _ s h
  · exact h.sendReply hp _

/-- `TOPIC` tells the members or the one who asks. -/
theorem topic_serves : s.Serves (s.topic p parts) := by
  unfold topic
  split
  · split
    · exact h.sendReply hp _
    · rename_i ch hch
      split
      · split <;> exact h.sendReply hp _
      · split
        · exact h.sendReply hp _
        · have hlive := h.members _ ch hch
          refine (h.setChannel _ ?_).broadcastMessage ?_ _
          · exact hlive
          · exact hlive
  · exact h.sendReply hp _

omit h hp in
/-- The end of `KICK`. -/
theorem Serves.kickMember (h : s.Serves s') {x : ClientPtr} (hx : s.Live x)
    (name reason : Str) : (s'.kickMember p x name reason).Leaves s.Serves := by
  have hleft := h.removeClientFromChannel name x
  unfold Server.kickMember
  refine .require fun ch hch => leaves_done.mpr ?_
  have hlive := hleft.members name ch hch
  exact (((hleft.broadcastMessage hlive _).sendMessage hx _).sendMessage hx _).sendChannelUserList
    hlive p

/-- `KICK` tells the members who stay, the one that goes and the one that sends it. -/
theorem kick_serves : (s.kick p parts).Leaves s.Serves := by
  unfold kick
  split
  · rename_i name nick words
    split
    · exact leaves_done.mpr (h.sendReply hp _)
    · split
      · exact leaves_done.mpr (h.sendReply hp _)
      · split
        · exact leaves_done.mpr (h.sendMessage hp _)
        · rename_i x hx
          split
          · exact leaves_done.mpr (h.sendReply hp _)
          · exact h.kickMember (h.live_of_getClient hx) name _
  · exact leaves_done.mpr (h.sendReply hp _)

omit hp in
/-- `Quit::quit` sends to the entries of its copy of the table of connections. -/
theorem quit_serves (hregistry : s.Registry) (env : Env) :
    (s.quit env p parts).Leaves s.SentWithin := by
  unfold quit
  refine Leaves.andThen_of_imp (R := s.Serves) ?_ (fun s' hs' => hs'.sent)
    fun s' hs' => leaves_done.mpr hs'.sent
  refine .each (fun other hother s' hs' => ?_) h
  obtain ⟨⟨fd, q⟩, hentry, rfl⟩ := List.mem_map.mp hother
  have hfd := Tables.mem_entries_iff.mp hentry
  unfold quitTell
  refine .ite (fun _ => ?_) fun _ => leaves_done.mpr hs'
  refine .ite (fun _ => leaves_thrown.mpr hs') fun _ => leaves_done.mpr ?_
  refine hs'.sendAll fun m hm => Or.inl ?_
  rw [List.mem_singleton.mp hm, hregistry.socket hfd, hfd]
  rfl

/-- A line of a connected client is answered to connections and to the bot only. -/
theorem commandParser_serves (hregistry : s.Registry) (env : Env) (line : Str) :
    (commandParser env line p s).Leaves s.SentWithin := by
  have hdone : ∀ s', s.Serves s' → (Outcome.done s' : Result).Leaves s.SentWithin :=
    fun s' hs' => leaves_done.mpr hs'.sent
  have hregistered : ∀ parts verb,
      (s.handleRegistered env p parts verb).Leaves s.SentWithin := by
    intro parts verb
    unfold handleRegistered
    split
    · exact hdone _ (join_serves h hp)
    · exact (privmsg_serves h hp env).imp fun s' hs' => hs'.sent
    · exact hdone _ (list_serves h hp)
    · exact hdone _ (part_serves h hp)
    · exact hdone _ (topic_serves h hp)
    · exact (kick_serves h hp).imp fun s' hs' => hs'.sent
    · exact quit_serves h hregistry env
    · exact hdone _ (h.sendMessage hp _)
  unfold commandParser
  refine .ite (fun _ => hdone _ h) fun _ => ?_
  unfold handleCommand
  split
  · exact hdone _ (h.sendMessage hp _)
  · split
    · exact hdone _ (cap_serves h hp)
    · exact hdone _ (pass_serves h hp)
    · exact hdone _ (nick_serves h hp)
    · exact hdone _ (user_serves h hp)
    · exact .ite (fun _ => hregistered _ _) fun _ => hdone _ (h.sendMessage hp _)

end Handlers

end Server

/-- **Recipients.**  In a run in which lines are handled for connected clients, and every
connection that is closed belongs to a client on no channel, each step writes only to
descriptors that are connected before it, and to the socket of the bot. -/
theorem sent_to_connected {trace : Run.Trace World Action} {w next : World} {a : Action}
    (run : Steps trace w) (hattended : Run.Meets Attended trace)
    (hcloses : Run.Meets ClosesOffChannels trace) (ha : Attended w a)
    (hstep : step w a = some next) :
    ∃ more, next.srv.sent = w.srv.sent ++ more ∧
      ∀ m ∈ more, (w.srv.clients[m.1]?).isSome = true ∨ m.1 = w.srv.botSocket := by
  have hmeets : Run.Meets (fun w a => Attended w a ∧ ClosesOffChannels w a) trace :=
    fun entry hmem => ⟨hattended entry hmem, hcloses entry hmem⟩
  obtain ⟨horderly, hmembers⟩ := run.invariant_of_meets
    (fun w => Orderly w ∧ w.srv.MembersLive)
    (fun w hstart => ⟨orderly_start hstart, membersLive_start hstart⟩)
    (fun w a next h ha hstep => ⟨orderly_step h.1 ha.1 hstep,
      (membersLive_step h.1.registry.addresses h.2 hstep).mpr ha.2⟩) hmeets
  have hserves := Server.Serves.refl horderly.registry hmembers
  have hquiet : next.srv.sent = w.srv.sent → w.srv.SentWithin next.srv :=
    fun h => ⟨[], by simp [h], by simp⟩
  cases a with
  | accept fd ip port =>
      simp only [step] at hstep
      split at hstep
      · cases hstep
        exact hquiet rfl
      · cases hstep
  | receive fd results =>
      simp only [step, World.receive] at hstep
      split at hstep
      · split at hstep <;> cases hstep <;> exact hquiet rfl
      · cases hstep
  | command env =>
      simp only [step] at hstep
      split at hstep
      · rename_i fd line lines hreading
        obtain ⟨p, hp⟩ := Option.isSome_iff_exists.mp
          (ha (fd, line) (by simp [World.current, hreading]))
        have hanswered := Server.commandParser_serves hserves ⟨fd, hp⟩ horderly.registry env line
        simp only [World.command, Tables.index_of_some hp,
          show w.srv.withTables w.srv.toTables = w.srv from rfl] at hstep
        split at hstep
        · rename_i s' houtcome
          cases hstep
          exact hanswered s' (by rw [houtcome]; rfl)
        · rename_i e s' houtcome
          cases hstep
          have hsent : w.srv.SentWithin s' := hanswered s' (by rw [houtcome]; rfl)
          exact hsent
        · cases hstep
      · cases hstep

/-- The operator of a channel is kicked off it, and the member left is sent the names. -/
theorem sent_to_connected_kick : ∃ trace w next, Steps trace w ∧
    step w (.command Env.calm) = some next ∧
    ∃ more, next.srv.sent = w.srv.sent ++ more ∧
      ∀ m ∈ more, (w.srv.clients[m.1]?).isSome = true ∨ m.1 = w.srv.botSocket := by
  obtain ⟨trace, w, run, hmeets, htest⟩ := Run.exists_steps_meeting step
    (fun w a => Attended w a ∧ ClosesOffChannels w a) start_pw
    ([.accept 5 "10.0.0.1".toList 40000, .accept 6 "10.0.0.2".toList 40000] ++
      packet 5 ["PASS pw", "NICK a", "USER a a a n", "JOIN #c"] ++
      packet 6 ["PASS pw", "NICK b", "USER b b b n", "JOIN #c"] ++
      [.receive 5 [.data ("KICK #c a".toList ++ crlf)]])
    (fun w => Attended w (.command Env.calm) ∧ (step w (.command Env.calm)).isSome)
    (by decide +kernel)
  obtain ⟨ha, hsome⟩ := of_decide_eq_true htest
  obtain ⟨next, hstep⟩ := Option.isSome_iff_exists.mp hsome
  exact ⟨trace, w, next, run, hstep, sent_to_connected run (fun entry hmem => (hmeets entry hmem).1)
    (fun entry hmem => (hmeets entry hmem).2) ha hstep⟩

end Irc
