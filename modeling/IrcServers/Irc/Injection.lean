import IrcServers.Irc.OneLine
import IrcServers.Irc.PollTable

/-!
# No line is forged

Every handler keeps the texts on one line, so every step of the poll loop does,
whatever bytes a client sends and however they are cut into commands.  The two
hypotheses on a run concern texts that come from elsewhere: the name the server
is started with, and the addresses that `inet_ntop` writes.
-/

namespace Irc

namespace Server

variable {bot : Fd} {s : Server} {p : ClientPtr} {ch : Channel}

section Handlers

variable {parts : List Str}

/-- The answers of `CAP` are single lines. -/
theorem LineSafe.cap (h : s.LineSafe bot) (p : ClientPtr) (parts : List Str) :
    (s.cap p parts).LineSafe bot := by
  unfold Server.cap
  split
  · split
    · exact h.send ⟨capList, rfl, Or.inr (Or.inl rfl)⟩
    · exact h.sendReply p (.reply (by simp [h.nickOf]))
  · exact h.sendReply p (.reply (by simp [h.nickOf]))

/-- The answers of `PASS` are single lines. -/
theorem LineSafe.pass (h : s.LineSafe bot) (p : ClientPtr) (parts : List Str) :
    (s.pass p parts).LineSafe bot := by
  unfold Server.pass
  split
  · split
    · exact h.sendReply p (.reply (by simp [h.nickOf]))
    · split
      · have hp := h.tables.memory p
        have hauth : { s.memory p with isAuth := true }.LineSafe :=
          ⟨hp.nickname, hp.username, hp.realname, hp.clientIp⟩
        exact (h.withTables (h.tables.setClient hauth) rfl).sendMessage p
          (OneLine.framed (by decide))
      · exact h.sendMessage p (OneLine.framed (by decide))
  · exact h.sendReply p (.reply (by simp [h.nickOf]))

/-- A nickname that is one word makes single lines. -/
theorem LineSafe.nick (h : s.LineSafe bot) (p : ClientPtr)
    (hparts : ∀ word ∈ parts, OneLine word) : (s.nick p parts).LineSafe bot := by
  unfold Server.nick
  split
  · exact h.sendMessage p (OneLine.framed (by decide))
  · split
    · rename_i nick _
      have hnick : OneLine nick := hparts nick (by simp)
      split
      · exact h.sendReply p (.reply (by simp [h.nickOf, hnick]))
      · have hp := h.tables.memory p
        have hnamed : { s.memory p with nickname := nick, hasNick := true }.LineSafe :=
          ⟨hnick, hp.username, hp.realname, hp.clientIp⟩
        exact h.withTables ((h.tables.registerNick hnick _).setClient hnamed) rfl
    · exact h.sendReply p (.reply (by simp [h.nickOf]))

/-- The greeting is a single line. -/
theorem LineSafe.welcome (h : s.LineSafe bot) (p : ClientPtr) :
    (s.sendReply p (rplWelcome s.host (s.nickOf p) (s.prefixOf p))).LineSafe bot :=
  h.sendReply p (.reply (by simp [h.tables.host, h.nickOf, h.prefixOf]))

/-- User and real names made of words do too. -/
theorem LineSafe.user (h : s.LineSafe bot) (p : ClientPtr)
    (hparts : ∀ word ∈ parts, OneLine word) : (s.user p parts).LineSafe bot := by
  unfold Server.user
  split
  · exact h.sendMessage p (OneLine.framed (by decide))
  · split
    · rename_i username clientIp name more
      split
      · exact h.sendReply p (.reply (by simp [h.nickOf]))
      · have hreal : OneLine (dropColon (appendWords name more)) :=
          oneLine_dropColon (oneLine_appendWords (hparts name (by simp)) fun word hmem =>
            hparts word (by simp [hmem]))
        have hnamed : { s.memory p with
            username := username, clientIp := clientIp,
            realname := dropColon (appendWords name more) }.LineSafe :=
          ⟨(h.tables.memory p).nickname, hparts username (by simp), hreal,
            hparts clientIp (by simp)⟩
        have hset := h.withTables (h.tables.setClient (p := p) (f := fun c =>
          { c with
              username := username, clientIp := clientIp,
              realname := dropColon (appendWords name more) }) hnamed) rfl
        have htold := hset.welcome p
        have hp := htold.tables.memory p
        have hloged := htold.withTables (htold.tables.setClient (p := p)
          (f := fun c => { c with loged := true })
          ⟨hp.nickname, hp.username, hp.realname, hp.clientIp⟩) rfl
        exact hloged.botSendMsg (hloged.nickOf p) (by decide)
    · exact h.sendReply p (.reply (by simp [h.nickOf]))

/-- A channel that a client has just joined is announced. -/
theorem LineSafe.announceJoin (h : s.LineSafe bot) {name : Str} (hname : OneLine name)
    (hch : ch.LineSafe) (p : ClientPtr) :
    LineSafe bot (((s.withTables (s.setChannel name ch)).broadcastMessage ch
      (rplJoin (s.prefixOf p) ch.name)).sendChannelUserList ch p) := by
  have hset := h.withTables (h.tables.setChannel hname hch) rfl
  exact (hset.broadcastMessage ch (.reply (by simp [h.prefixOf, hch.name]))).sendChannelUserList
    hch p

/-- The names and keys that `JOIN` stores are words of the line. -/
theorem LineSafe.join (h : s.LineSafe bot) (p : ClientPtr)
    (hparts : ∀ word ∈ parts, OneLine word) : (s.join p parts).LineSafe bot := by
  unfold Server.join
  split
  · rename_i name _
    have hname : OneLine name := hparts name (by simp)
    split
    · unfold Server.joinChannel
      dsimp only
      split
      · exact h.sendReply p (.reply (by simp [h.nickOf, hname]))
      · split
        · rename_i ch hch
          obtain ⟨_, hsafe⟩ := h.tables.channels name ch hch
          split
          · exact h.sendReply p (.reply (by simp [h.nickOf, hname]))
          split
          · exact h.sendReply p (.reply (by simp [h.nickOf, hname]))
          split
          · exact h.sendReply p (.reply (by simp [h.nickOf, hname]))
          · refine h.announceJoin hname ?_ p
            split
            · exact ⟨hsafe.name, hsafe.key, hsafe.topic, h.nickOf p⟩
            · exact ⟨hsafe.name, hsafe.key, hsafe.topic, hsafe.opNick⟩
        · exact h.announceJoin hname
            ⟨hname, oneLine_getD hparts 2, oneLine_nil, h.nickOf p⟩ p
    · exact h
  · exact h.sendReply p (.reply (by simp [h.nickOf]))

/-- The text of `PRIVMSG` is put together from words, masked or not. -/
theorem LineSafe.privmsgText (h : s.LineSafe bot) (p : ClientPtr)
    (hparts : ∀ word ∈ parts, OneLine word) (now : Str) :
    (s.privmsgText now p parts).1.LineSafe bot ∧ OneLine (s.privmsgText now p parts).2 := by
  have hmessage : OneLine (dropColon (mergePrivmsg parts " ".toList)) :=
    oneLine_dropColon (oneLine_mergePrivmsg hparts (by decide))
  unfold Server.privmsgText
  dsimp only
  split
  · refine h.processMessage ?_ now
    rw [oneLine_append, oneLine_append]
    exact ⟨⟨h.nickOf p, by decide⟩, hmessage⟩
  · exact ⟨h, hmessage⟩

/-- The line relayed to a client is one line. -/
theorem LineSafe.relayLine (h : s.LineSafe bot) (p : ClientPtr) {target message : Str}
    (htarget : OneLine target) (hmessage : OneLine message) :
    Framed (s.relayLine p target message) :=
  OneLine.framed (by simp [Server.relayLine, h.nickOf, htarget, hmessage])

/-- What is relayed to a member is one line. -/
theorem LineSafe.relayToMember (h : s.LineSafe bot) (p : ClientPtr) {target message : Str}
    (htarget : OneLine target) (hmessage : OneLine message) (nick : Str) :
    (Server.relayToMember p target message nick s).Leaves (Server.LineSafe bot) := by
  unfold Server.relayToMember
  split
  · exact Outcome.leaves_fault
  · rename_i q _
    refine Outcome.Leaves.ite (fun _ => ?_) (fun _ => Outcome.leaves_done.mpr h)
    exact Outcome.leaves_done.mpr (h.sendMessage q (h.relayLine p htarget hmessage))

/-- So is whatever `PRIVMSG` sends. -/
theorem LineSafe.privmsg (h : s.LineSafe bot) (env : Env) (p : ClientPtr)
    (hparts : ∀ word ∈ parts, OneLine word) :
    (s.privmsg env p parts).Leaves (Server.LineSafe bot) := by
  unfold Server.privmsg
  split
  · rename_i command target word words
    have htarget : OneLine target := hparts target (by simp)
    have hwords : ∀ x ∈ word :: words, OneLine x := fun x hmem =>
      hparts x (List.mem_cons_of_mem _ (List.mem_cons_of_mem _ hmem))
    obtain ⟨htold, hmessage⟩ := h.privmsgText p hwords env.now
    refine Outcome.Leaves.ite (fun _ => ?_) (fun _ => ?_)
    · split
      · exact Outcome.leaves_done.mpr
          (htold.sendMessage p (.reply (by simp [htold.prefixOf, htarget])))
      · rename_i q _
        exact Outcome.leaves_done.mpr
          (htold.sendMessage q (htold.relayLine p htarget hmessage))
    · split
      · exact Outcome.leaves_done.mpr htold
      · refine Outcome.Leaves.ite (fun _ => ?_) (fun _ => Outcome.leaves_done.mpr htold)
        exact Outcome.Leaves.each
          (fun nick _ s' hs' => LineSafe.relayToMember hs' p htarget hmessage nick) htold
  · exact Outcome.leaves_done.mpr (h.sendMessage p (.reply (by simp [h.prefixOf])))
  · exact Outcome.leaves_done.mpr (h.sendReply p (.reply (by simp [h.nickOf])))

/-- A line of the reply to `LIST` shows a name and a topic, which are single lines. -/
theorem LineSafe.listChannel (h : s.LineSafe bot) (p : ClientPtr) (hch : ch.LineSafe) :
    (s.listChannel p ch).LineSafe bot := by
  unfold Server.listChannel
  split
  · exact h
  · have hcount := oneLine_toString ch.curClients.length
    refine h.sendReply p (.reply ?_)
    simp only [oneLine_append, h.nickOf, hch.name, hch.topic, hcount]
    decide

/-- So the reply consists of single lines. -/
theorem LineSafe.list (h : s.LineSafe bot) (p : ClientPtr) : (s.list p).LineSafe bot := by
  have hstart : (s.sendReply p (rplListStart (s.nickOf p) s.host)).LineSafe bot :=
    h.sendReply p (.reply (by simp [h.nickOf, h.tables.host]))
  have hlines := LineSafe.foldl (P := fun entry => entry.2.LineSafe)
    (f := fun s entry => s.listChannel p entry.2)
    (fun s entry hs hentry => LineSafe.listChannel hs p hentry) s.channels.toList
    (fun entry hmem =>
      (h.tables.channels _ _ (Std.ExtTreeMap.mem_toList_iff_getElem?_eq_some.mp hmem)).2) hstart
  exact hlines.sendReply p (.reply (by simp [hlines.nickOf]))

/-- The messages about one departure are single lines. -/
theorem LineSafe.partChannel (h : s.LineSafe bot) (p : ClientPtr) {message name : Str}
    (hmessage : OneLine message) (hname : OneLine name) :
    (s.partChannel p message name).LineSafe bot := by
  unfold Server.partChannel
  split
  · exact h.sendReply p (.reply (by simp [h.nickOf, hname]))
  · rename_i ch hch
    split
    · have hsafe := (h.tables.channels name ch hch).2
      have hfarewell : Framed (rplPart (s.prefixOf p) ch.name message) :=
        .reply (by simp [h.prefixOf, hsafe.name, hmessage])
      have hleft := ((h.sendReply p hfarewell).broadcastMessage ch
        hfarewell).removeClientFromChannel name p
      dsimp only
      split
      · rename_i ch' hch'
        exact hleft.sendChannelUserList (hleft.tables.channels name ch' hch').2 p
      · exact hleft
    · exact h.sendReply p (.reply (by simp [h.nickOf, hname]))

/-- The channels of `PART` are pieces of a word. -/
theorem LineSafe.part (h : s.LineSafe bot) (p : ClientPtr)
    (hparts : ∀ word ∈ parts, OneLine word) : (s.part p parts).LineSafe bot := by
  unfold Server.part
  split
  · rename_i channels words
    have hchannels : OneLine channels := hparts channels (by simp)
    have hmessage : OneLine (dropColon (joinWords words)) :=
      oneLine_dropColon (oneLine_joinWords fun word hmem => hparts word (by simp [hmem]))
    exact LineSafe.foldl (P := OneLine)
      (fun s name hs hname => LineSafe.partChannel hs p hmessage hname)
      _ (fun name hmem => hchannels.of_subset (Text.infix_of_mem_cut hmem).subset) h
  · exact h.sendReply p (.reply (by simp [h.nickOf]))

/-- A topic is put together from words. -/
theorem LineSafe.topic (h : s.LineSafe bot) (p : ClientPtr)
    (hparts : ∀ word ∈ parts, OneLine word) : (s.topic p parts).LineSafe bot := by
  unfold Server.topic
  split
  · rename_i name words
    have hname : OneLine name := hparts name (by simp)
    split
    · exact h.sendReply p (.reply (by simp [h.nickOf, hname]))
    · rename_i ch hch
      have hsafe := (h.tables.channels name ch hch).2
      split
      · split
        · exact h.sendReply p (.reply (by simp [h.nickOf, hname]))
        · exact h.sendReply p (.reply (by simp [h.nickOf, hname, hsafe.topic]))
      · split
        · exact h.sendReply p (.reply (by simp [h.nickOf, hname]))
        · have htopic : OneLine (joinWords words) :=
            oneLine_joinWords fun word hmem => hparts word (by simp [hmem])
          have hnext : { ch with topic := joinWords words }.LineSafe :=
            ⟨hsafe.name, hsafe.key, htopic, hsafe.opNick⟩
          have hset := h.withTables (h.tables.setChannel hname hnext) rfl
          exact hset.broadcastMessage _ (.reply (by simp [hset.nickOf, hname, htopic]))
  · exact h.sendReply p (.reply (by simp [h.nickOf]))

/-- The note to a client that has been kicked. -/
theorem LineSafe.tellKicked (h : s.LineSafe bot) (p target : ClientPtr) {name reason : Str}
    (hname : OneLine name) (hreason : OneLine reason) :
    (s.sendMessage target ("You have been kicked from the channel ".toList ++ name ++
      " by ".toList ++ s.nickOf p ++ " Reason: ".toList ++ reason)).LineSafe bot :=
  h.sendMessage target (OneLine.framed (by simp [h.nickOf, hname, hreason]))

/-- The messages at the end of `KICK` are single lines. -/
theorem LineSafe.kickMember (h : s.LineSafe bot) (p target : ClientPtr) {name reason : Str}
    (hname : OneLine name) (hreason : OneLine reason) :
    (s.kickMember p target name reason).Leaves (Server.LineSafe bot) := by
  have hleft := h.removeClientFromChannel name target
  have htext : Framed (rplKick ((s.removeClientFromChannel name target).prefixOf p) name
      ((s.removeClientFromChannel name target).nickOf target) reason) :=
    .reply (by simp [hleft.prefixOf, hleft.nickOf, hname, hreason])
  unfold Server.kickMember
  refine Outcome.Leaves.require fun ch hch => Outcome.leaves_done.mpr ?_
  have htold := (hleft.broadcastMessage ch htext).sendMessage target htext
  exact (htold.tellKicked p target hname hreason).sendChannelUserList
    (hleft.tables.channels name ch hch).2 p

/-- The reason of `KICK` is put together from words. -/
theorem LineSafe.kick (h : s.LineSafe bot) (p : ClientPtr)
    (hparts : ∀ word ∈ parts, OneLine word) :
    (s.kick p parts).Leaves (Server.LineSafe bot) := by
  unfold Server.kick
  split
  · rename_i name nickname words
    have hname : OneLine name := hparts name (by simp)
    have hnickname : OneLine nickname := hparts nickname (by simp)
    split
    · exact Outcome.leaves_done.mpr (h.sendReply p (.reply (by simp [h.nickOf, hname])))
    · split
      · exact Outcome.leaves_done.mpr (h.sendReply p (.reply (by simp [h.nickOf, hname])))
      · split
        · exact Outcome.leaves_done.mpr (h.sendMessage p (.reply (by simp [h.nickOf, hnickname])))
        · split
          · exact Outcome.leaves_done.mpr
              (h.sendReply p (.reply (by simp [h.nickOf, hname, hnickname])))
          · exact h.kickMember p _ hname
              (oneLine_kickReason fun word hmem => hparts word (by simp [hmem]))
  · exact Outcome.leaves_done.mpr (h.sendReply p (.reply (by simp [h.nickOf])))

/-- So is the farewell of `QUIT`. -/
theorem LineSafe.quit (h : s.LineSafe bot) (env : Env) (p : ClientPtr)
    (hparts : ∀ word ∈ parts, OneLine word) :
    (s.quit env p parts).Leaves (Server.LineSafe bot) := by
  have hfarewell : OneLine (" :".toList ++ s.prefixOf p ++ " QUIT :Quit: ".toList ++
      msgMerge parts) := by
    simp [h.prefixOf, oneLine_msgMerge hparts]
  have hround : ∀ (other : Client) (s' : Server), s'.LineSafe bot →
      (quitTell env (s.memory p) (rplQuit (s.prefixOf p) (msgMerge parts)) other s').Leaves
        (Server.LineSafe bot) := by
    intro other s' hs'
    unfold quitTell
    refine Outcome.Leaves.ite (fun _ => ?_) (fun _ => Outcome.leaves_done.mpr hs')
    refine Outcome.Leaves.ite (fun _ => Outcome.leaves_thrown.mpr hs') (fun _ => ?_)
    exact Outcome.leaves_done.mpr (hs'.send ⟨_, rfl, Or.inl hfarewell.framed⟩)
  refine (Outcome.Leaves.each (fun other _ => hround other) h).andThen ?_
  intro s' hs'
  exact Outcome.leaves_done.mpr (hs'.withTables (hs'.tables.closeConnection _)
    (Tables.closeConnection_botSocket _ _))

end Handlers

/-- All commands behind the login test keep texts and messages single lines. -/
theorem LineSafe.handleRegistered (h : s.LineSafe bot) (env : Env) (p : ClientPtr)
    (hparts : ∀ word ∈ parts, OneLine word) (verb : Verb) :
    (s.handleRegistered env p parts verb).Leaves (Server.LineSafe bot) := by
  cases verb with
  | join => exact Outcome.leaves_done.mpr (h.join p hparts)
  | privmsg => exact h.privmsg env p hparts
  | list => exact Outcome.leaves_done.mpr (h.list p)
  | part => exact Outcome.leaves_done.mpr (h.part p hparts)
  | topic => exact Outcome.leaves_done.mpr (h.topic p hparts)
  | kick => exact h.kick p hparts
  | quit => exact h.quit env p hparts
  | cap | pass | nick | user | unknown =>
      exact Outcome.leaves_done.mpr (h.sendMessage p (OneLine.framed (by decide)))

/-- **A command line keeps the texts on one line**, whatever bytes it has. -/
theorem LineSafe.commandParser (h : s.LineSafe bot) (env : Env) (line : Str) (p : ClientPtr) :
    (Server.commandParser env line p s).Leaves (Server.LineSafe bot) := by
  have hparts : ∀ word ∈ commandParts line, OneLine word := fun _ => oneLine_of_mem_commandParts
  unfold Server.commandParser
  refine Outcome.Leaves.ite (fun _ => Outcome.leaves_done.mpr h) (fun _ => ?_)
  generalize commandParts line = parts at hparts
  unfold Server.handleCommand
  split
  · exact Outcome.leaves_done.mpr (h.sendMessage p
      (OneLine.framed (by simp [h.nickOf, (h.tables.memory p).clientIp])))
  · split
    · exact Outcome.leaves_done.mpr (h.cap p _)
    · exact Outcome.leaves_done.mpr (h.pass p _)
    · exact Outcome.leaves_done.mpr (h.nick p hparts)
    · exact Outcome.leaves_done.mpr (h.user p hparts)
    · exact Outcome.Leaves.ite (fun _ => h.handleRegistered env p hparts _)
        (fun _ => Outcome.leaves_done.mpr (h.sendMessage p (OneLine.framed (by decide))))

end Server

/-- The address an accept reports is on one line, as `inet_ntop` writes it. -/
def NumericAddress (_ : World) : Action → Prop
  | .accept _ ip _ => OneLine ip
  | _ => True

instance (w : World) : ∀ a, Decidable (NumericAddress w a)
  | .command _ => isTrue trivial
  | .accept _ ip _ => inferInstanceAs (Decidable (OneLine ip))
  | .receive _ _ => isTrue trivial

/-- A step keeps all stored texts and all sent messages single lines. -/
theorem lineSafe_step {bot : Fd} {w next : World} {a : Action} (h : w.srv.LineSafe bot)
    (ha : NumericAddress w a) (hstep : step w a = some next) : next.srv.LineSafe bot := by
  cases a with
  | accept fd ip port =>
      simp only [step] at hstep
      split at hstep
      · cases hstep
        exact h.withTables (h.tables.acceptConnection ha fd port) (by
          rw [Tables.acceptConnection_eq]
          exact Tables.index_botSocket _ _ _)
      · cases hstep
  | receive fd results =>
      simp only [step] at hstep
      split at hstep
      · cases hstep
        unfold World.receive
        split
        · exact h
        · exact h.withTables (h.tables.closeConnection fd) (Tables.closeConnection_botSocket _ _)
        · exact h.withTables (h.tables.closeConnection fd) (Tables.closeConnection_botSocket _ _)
      · cases hstep
  | command env =>
      simp only [step] at hstep
      split at hstep
      · rename_i fd line lines hline
        have hindexed := h.withTables (h.tables.index fd env.leftover)
          (Tables.index_botSocket _ _ _)
        have hhandled := hindexed.commandParser env line (w.srv.index fd env.leftover).2
        simp only [World.command] at hstep
        split at hstep
        · rename_i s hdone
          cases hstep
          exact hhandled s (by rw [hdone]; rfl)
        · rename_i e s hthrown
          cases hstep
          have hs := hhandled s (by rw [hthrown]; rfl)
          exact hs.withTables (hs.tables.closeConnection fd)
            (Tables.closeConnection_botSocket _ _)
        · cases hstep
      · cases hstep

/-- The server keeps the name it was started with. -/
theorem step_host {w next : World} {a : Action} (hstep : step w a = some next) :
    next.srv.host = w.srv.host := by
  have hindex : ∀ fd junk, (w.srv.index fd junk).1.host = w.srv.host := by
    intro fd junk
    unfold Tables.index
    split <;> rfl
  rcases (step_move hstep).closes_or with ⟨f, _, htables⟩ |
    ⟨_, ⟨fd, ip, port, _, htables⟩ | htables | ⟨env, fd, line, lines, _, _, heffect⟩⟩
  · have hentered : (w.entered a).host = w.srv.host := by
      unfold World.entered
      split
      · split
        · exact hindex _ _
        · rfl
      · rfl
    rw [htables, ← hentered]
    unfold Tables.closeConnection
    split <;> rfl
  · rw [htables, Tables.acceptConnection_eq]
    exact hindex _ _
  · rw [htables]
  · rw [heffect.frame]
    exact hindex _ _

/-- Nothing is stored or sent at the start. -/
theorem lineSafe_start {w : World} (h : Start w) (hhost : OneLine w.srv.host) :
    w.srv.LineSafe w.srv.botSocket := by
  obtain ⟨password, host, serverSocket, botSocket, _, rfl⟩ := h
  refine ⟨rfl, ⟨hhost, ?_, ?_, ?_⟩, ?_⟩
  · intro p
    constructor <;> exact oneLine_nil
  · intro name ch hch
    simp [initial] at hch
  · simp [initial]
  · simp [initial]

/-- The bot's end of its connection is open, and the server does not poll it. -/
structure Tables.BotApart (t : Tables) : Prop where
  isOpen : t.botSocket ∈ t.openFds
  unpolled : t.botSocket ∉ t.pollFds

/-- The bot stays apart from the clients when one of them goes. -/
theorem Tables.BotApart.closeConnection {t : Tables} {f : Fd} (h : t.BotApart)
    (hf : f ∈ t.pollFds) : (t.closeConnection f).BotApart := by
  have hne : t.botSocket ≠ f := by
    intro heq
    exact h.unpolled (heq ▸ hf)
  refine ⟨?_, ?_⟩ <;> rw [closeConnection_botSocket] <;> unfold Tables.closeConnection <;> split
  · exact List.mem_filter.mpr ⟨h.isOpen, by simpa using hne⟩
  · exact h.isOpen
  · exact fun hmem => h.unpolled (List.mem_filter.mp hmem).1
  · exact h.unpolled

/-- In an attended run the server closes polled descriptors only. -/
theorem Attentive.closing_polled {trace : Run.Trace World Action} {w next : World} {a : Action}
    {f : Fd} (h : Attentive trace w) (ha : Attended w a) (hstep : Irc.step w a = some next)
    (hclosing : w.closing a = some f) : f ∈ w.srv.pollFds := by
  have hpolled : ∀ fd, (w.srv.clients[fd]?).isSome = true → fd ∈ w.srv.pollFds := fun fd hfd =>
    ((h.agree.keys fd).mp hfd).1
  cases a with
  | accept fd ip port => cases hclosing
  | receive fd results =>
      obtain rfl : fd = f := by
        simp only [World.closing] at hclosing
        split at hclosing
        · cases hclosing
        · exact Option.some.inj hclosing
      exact (receive_guard hstep).2.1
  | command env =>
      simp only [World.closing] at hclosing
      split at hclosing
      · cases hclosing
      · rename_i fd line hcurrent
        have hissuer : (w.srv.clients[fd]?).isSome = true := ha (fd, line) hcurrent
        obtain ⟨p, hp⟩ := Option.isSome_iff_exists.mp hissuer
        rw [Tables.index_of_some hp] at hclosing
        dsimp only at hclosing
        rw [h.registry.socket hp] at hclosing
        have hf : fd = f := by
          split at hclosing
          · split at hclosing <;> exact Option.some.inj hclosing
          · cases hclosing
        exact hf ▸ hpolled fd hissuer

/-- It stays apart from them in every step of an attended run. -/
theorem Attentive.botApart_step {trace : Run.Trace World Action} {w next : World} {a : Action}
    (h : Attentive trace w) (hbot : w.srv.BotApart) (ha : Attended w a)
    (hstep : Irc.step w a = some next) : next.srv.BotApart := by
  have hturn := step_turn ha hstep
  generalize next.srv.toTables = t' at hturn ⊢
  cases hturn with
  | accepted fd ip port _ hfresh =>
      have hsame : (w.srv.acceptConnection fd ip port).botSocket = w.srv.botSocket := by
        rw [Tables.acceptConnection_eq]
        exact Tables.index_botSocket _ _ _
      have hne : w.srv.botSocket ≠ fd := fun heq => hfresh (heq ▸ hbot.isOpen)
      refine ⟨?_, ?_⟩ <;> rw [hsame, Tables.acceptConnection_eq]
      · exact List.mem_cons_of_mem _ hbot.isOpen
      · simpa [hne] using hbot.unpolled
  | received fd results _ => exact hbot
  | closed f hclosing => exact hbot.closeConnection (h.closing_polled ha hstep hclosing)
  | handled env fd p line lines _ _ hline hp heffect =>
      rw [heffect.frame]
      exact ⟨hbot.isOpen, hbot.unpolled⟩

/-- In an attended run the bot's end of its connection is not a client's. -/
theorem botSocket_not_client {trace : Run.Trace World Action} {w : World}
    (hrun : Steps trace w) (hattended : Run.Meets Attended trace) :
    w.srv.clients[w.srv.botSocket]? = none := by
  have h := hrun.history_of_meets
    (fun trace w => Attentive trace w ∧ w.srv.PollsOpen ∧ w.srv.BotApart)
    (fun w hstart => ⟨attentive_start hstart, pollsOpen_start hstart, by
      obtain ⟨password, host, serverSocket, botSocket, hne, rfl⟩ := hstart
      exact ⟨by simp [initial], by simpa [initial] using hne.symm⟩⟩)
    (fun _ _ _ _ h ha hstep => ⟨h.1.step h.2.1 ha hstep, pollsOpen_step h.2.1 hstep,
      h.1.botApart_step h.2.2 ha hstep⟩) hattended
  cases hbot : w.srv.clients[w.srv.botSocket]? with
  | none => rfl
  | some p => exact (h.2.2.unpolled ((h.1.agree.keys _).mp (by simp [hbot])).1).elim

end Irc
