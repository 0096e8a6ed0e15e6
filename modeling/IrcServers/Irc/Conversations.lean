import IrcServers.Irc.ChannelMessages
import IrcServers.Irc.Identities
import IrcServers.Irc.Injection
import IrcServers.Irc.Membership
import IrcServers.Hub

/-!
# What is said on a channel

A channel is a hub.  A member looks a message up by the nicknames of the others, and
members come, go and take other nicknames meanwhile; still, whoever is on the channel
for a while is sent what the others say to it in that time, and whoever is not is sent
nothing of it.  It holds as long as no member loses its connection and nobody takes the
empty nickname.  The bot is no party: what is said to a channel is not sent to whoever
has its nickname.
-/

namespace Irc

open Outcome

/-- The members of a channel. -/
def World.members (w : World) (name : Str) : List ClientPtr :=
  ((w.srv.channels[name]?).map Channel.curClients).getD []

/-- Those on a channel who have not the nickname of the bot, by their descriptors. -/
def World.audience (w : World) (name : Str) : List Fd :=
  ((w.members name).filter fun q => w.srv.nickOf q ≠ botNick).map fun q =>
    (w.srv.memory q).clientSocketFd

/-- The words that a registered client writes to a channel with a `PRIVMSG`. -/
def wordsTo (t : Tables) (p : ClientPtr) (name : Str) (parts : List Str) : Option (List Str) :=
  match parts with
  | _ :: target :: first :: rest =>
      if RunsRegistered t p parts .privmsg ∧ target = name ∧ name.head? = some '#' then
        some (first :: rest)
      else none
  | _ => none

/-- The client that writes to a channel in a step, and its words. -/
def World.writing (w : World) (name : Str) : Action → Option (Env × ClientPtr × List Str)
  | .command env =>
      match w.current with
      | some (fd, line) =>
          (w.srv.clients[fd]?).bind fun p =>
            (wordsTo w.srv.toTables p name (commandParts line)).map fun words => (env, p, words)
      | none => none
  | _ => none

/-- Members may speak on a channel, and the bot. -/
def Server.MaySpeak (s : Server) (p : ClientPtr) (name : Str) : Prop :=
  ∃ ch ∈ s.channels[name]?, p ∈ ch.curClients ∨ s.nickOf p = botNick

instance (s : Server) (p : ClientPtr) (name : Str) : Decidable (s.MaySpeak p name) :=
  inferInstanceAs (Decidable (∃ ch ∈ s.channels[name]?, _))

/-- What is said on a channel in a step, and on which descriptor. -/
def spoken (name : Str) (w : World) (a : Action) : List (Fd × Str) :=
  match w.writing name a with
  | some (env, p, words) =>
      if w.srv.MaySpeak p name then
        [w.srv.messageTo p (Server.relayed env w.srv p name words)]
      else []
  | none => []

/-- What a step that writes to a channel sends, apart from what the bot writes to its
own socket. -/
def copies (name : Str) (w : World) (a : Action) : List (Fd × Str) :=
  match w.writing name a, step w a with
  | some _, some next =>
      (next.srv.sent.drop w.srv.sent.length).filter fun m => m.1 ≠ w.srv.botSocket
  | _, _ => []

/-- No line by which a client would take the empty nickname. -/
def World.NickGiven (w : World) : Action → Prop
  | .command _ => ∀ current ∈ w.current, ∀ p ∈ w.srv.clients[current.1]?,
      ¬ NickAccepted w.srv.toTables p (commandParts current.2) []
  | _ => True

instance (w : World) : ∀ a, Decidable (w.NickGiven a)
  | .command _ => inferInstanceAs (Decidable (∀ current ∈ w.current, _))
  | .accept _ _ _ => isTrue trivial
  | .receive _ _ => isTrue trivial

/-- Lines are handled for connected clients, connections are closed off the channels,
and nicknames are not empty. -/
def Decent (w : World) (a : Action) : Prop :=
  Attended w a ∧ ClosesOffChannels w a ∧ w.NickGiven a

instance (w : World) (a : Action) : Decidable (Decent w a) :=
  inferInstanceAs (Decidable (_ ∧ _ ∧ _))

section Nicknames

variable {t t' : Tables} {p : ClientPtr} {parts : List Str}

/-- Nobody that is connected has taken the empty nickname. -/
def Tables.NicksGiven (t : Tables) : Prop :=
  ∀ (fd : Fd) (p : ClientPtr), t.clients[fd]? = some p → (t.memory p).hasNick = true →
    (t.memory p).nickname ≠ []

/-- A line gives the empty nickname only if it is a `NICK` for it. -/
theorem Effect.nicksGiven (heffect : Effect p parts t t') (h : t.NicksGiven)
    (hgiven : ¬ NickAccepted t p parts []) : t'.NicksGiven := by
  have hset : ∀ (s : Tables) (g : Client → Client), s.clients = t.clients →
      s.memory = t.memory → (g (t.memory p)).nickname ≠ [] ∨
        (g (t.memory p)).hasNick = (t.memory p).hasNick ∧
          (g (t.memory p)).nickname = (t.memory p).nickname →
      (s.setClient p g).NicksGiven := by
    intro s g hclients hmemory hg fd q hq hnick
    rw [Tables.setClient_clients, hclients] at hq
    by_cases hqp : q = p
    · subst hqp
      rw [Tables.setClient_memory_self, hmemory] at hnick ⊢
      rcases hg with hg | ⟨hsame, hname⟩
      · exact hg
      · rw [hname]
        exact h fd q hq (hsame ▸ hnick)
    · rw [Tables.setClient_memory_ne s g hqp, hmemory] at hnick ⊢
      exact h fd q hq hnick
  cases heffect with
  | quiet => exact h
  | authenticated hpass => exact hset t _ rfl rfl (Or.inr ⟨rfl, rfl⟩)
  | renamed nick hnick =>
      have hne : nick ≠ [] := fun heq => hgiven (heq ▸ hnick)
      exact hset (t.registerNick nick _) _ rfl rfl (Or.inl hne)
  | registered username clientIp realname huser => exact hset t _ rfl rfl (Or.inr ⟨rfl, rfl⟩)
  | parted names hruns hnames =>
      rw [Tables.leaveAll_frame]
      exact h
  | kicked name target ch hruns hch hop hlive hmem htarget =>
      rw [Tables.leave_frame]
      exact h
  | joined | created | topicSet => exact h

/-- A step that gives no empty nickname leaves every named client with a nickname. -/
theorem nicksGiven_step {w next : World} {a : Action} (hregistry : w.srv.Registry)
    (h : w.srv.NicksGiven) (hattended : Attended w a) (hgiven : w.NickGiven a)
    (hstep : step w a = some next) : next.srv.NicksGiven := by
  have hturn := step_turn hattended hstep
  generalize next.srv.toTables = t' at hturn ⊢
  cases hturn with
  | accepted fd ip port ha hfresh =>
      intro k p hk hnick
      rcases Tables.accepted_entry hregistry.addresses (hregistry.absent hfresh) hk with
        ⟨-, -, hmemory⟩ | ⟨hk, hmemory⟩
      · rw [hmemory] at hnick
        cases hnick
      · rw [hmemory] at hnick ⊢
        exact h k p hk hnick
  | received fd results ha => exact h
  | closed f hclosing =>
      intro k p hk hnick
      rw [Tables.closeConnection_memory] at hnick ⊢
      rw [Tables.closeConnection_clients] at hk
      split at hk
      · cases hk
      · exact h k p hk hnick
  | handled env fd p line lines _ ha hline hp heffect =>
      subst ha
      exact heffect.nicksGiven h (hgiven (fd, line) (by simp [World.current, hline]) p hp)

end Nicknames

/-- What the conversations rest on. -/
structure Cordial (w : World) : Prop where
  orderly : Orderly w
  blank : w.srv.BlankUnnamed
  given : w.srv.NicksGiven
  members : w.srv.MembersLive
  bot : w.srv.clients[w.srv.botSocket]? = none

/-- What the conversations rest on holds in every state of a decent run. -/
theorem cordial {trace : Run.Trace World Action} {w : World} (run : Steps trace w)
    (hdecent : Run.Meets Decent trace) : Cordial w := by
  obtain ⟨⟨horderly, hblank⟩, hgiven, hmembers⟩ := run.invariant_of_meets
    (fun w => (Orderly w ∧ w.srv.BlankUnnamed) ∧ w.srv.NicksGiven ∧ w.srv.MembersLive)
    (fun w hstart => by
      have hlive := membersLive_start hstart
      have horderly := orderly_start hstart
      obtain ⟨password, host, serverSocket, botSocket, _, rfl⟩ := hstart
      exact ⟨⟨horderly, fun fd p hp => by simp [initial] at hp⟩,
        fun fd p hp => by simp [initial] at hp, hlive⟩)
    (fun w a next h ha hstep => ⟨⟨orderly_step h.1.1 ha.1 hstep,
      blankUnnamed_step h.1.1.registry h.1.2 ha.1 hstep⟩,
      nicksGiven_step h.1.1.registry h.2.1 ha.1 ha.2.2 hstep,
      (membersLive_step h.1.1.registry.addresses h.2.2 hstep).mpr ha.2.1⟩) hdecent
  exact ⟨horderly, hblank, hgiven, hmembers,
    botSocket_not_client run fun entry hmem => (hdecent entry hmem).1⟩

section Members

variable {w : World} {p q : ClientPtr} {name : Str} {ch : Channel}

/-- Members are connected. -/
theorem Cordial.live (h : Cordial w) (hch : w.srv.channels[name]? = some ch)
    (hq : q ∈ ch.curClients) : w.srv.Live q := h.members q ⟨name, ch, hch, hq⟩

/-- A member is found under its nickname. -/
theorem Cordial.recipient_member (h : Cordial w) (hch : w.srv.channels[name]? = some ch)
    (hq : q ∈ ch.curClients) : w.srv.recipient (w.srv.nickOf q) = some q := by
  have hlive := h.live hch hq
  have hnick := (h.orderly.rosters name ch hch).named q hq hlive
  cases hget : w.srv.getClient (w.srv.nickOf q) with
  | none => exact (Tables.getClient_eq_none.mp hget q hlive rfl).elim
  | some x =>
      obtain ⟨fd, hx, hname, -⟩ := Tables.firstNamed_of_getClient hget
      obtain ⟨fd', hfd'⟩ := hlive
      have hxnick : (w.srv.memory x).hasNick = true := by
        by_contra hnot
        exact h.given fd' q hfd' hnick (hname.symm.trans (h.blank fd x hx (by simpa using hnot)))
      obtain rfl : x = q := h.orderly.registry.nick_inj ⟨fd, hx⟩ ⟨fd', hfd'⟩ hxnick hnick hname
      rw [Server.recipient_eq, hget, Option.some_or]

/-- The members of a channel are those in its list. -/
theorem World.members_of_channel (hch : w.srv.channels[name]? = some ch) :
    w.members name = ch.curClients := by
  rw [members, hch, Option.map_some, Option.getD_some]

/-- A channel that does not exist has no members. -/
theorem World.members_of_none (hch : w.srv.channels[name]? = none) : w.members name = [] := by
  rw [members, hch, Option.map_none, Option.getD_none]

/-- Those who hear a channel have different descriptors. -/
theorem Cordial.audience_nodup (h : Cordial w) (name : Str) : (w.audience name).Nodup := by
  cases hch : w.srv.channels[name]? with
  | none =>
      rw [World.audience, World.members_of_none hch]
      exact List.nodup_nil
  | some ch =>
      rw [World.audience, World.members_of_channel hch]
      refine List.Nodup.map_on ?_ ((h.orderly.rosters name ch hch).nodup.filter _)
      intro x hx y hy hsame
      exact Server.eq_of_socket h.orderly.registry (h.live hch (List.mem_filter.mp hx).1)
        (h.live hch (List.mem_filter.mp hy).1) hsame

/-- The loop over the nicknames writes to all who hear the channel, but the speaker. -/
theorem Cordial.relayTargets_map (h : Cordial w) (hch : w.srv.channels[name]? = some ch)
    (text : Str) :
    (w.srv.relayTargets p (w.srv.getChannelClients ch)).map (fun x => w.srv.messageTo x text) =
      ((w.audience name).filter fun fd => fd ≠ (w.srv.memory p).clientSocketFd).map fun fd =>
        (fd, (w.srv.messageTo p text).2) := by
  have hfound : (w.srv.getChannelClients ch).filterMap w.srv.recipient = ch.curClients := by
    rw [Tables.getChannelClients, List.filterMap_map]
    calc ch.curClients.filterMap (w.srv.recipient ∘ fun q => (w.srv.memory q).nickname)
        = ch.curClients.filterMap some :=
          List.filterMap_congr fun q hq => h.recipient_member hch hq
      _ = ch.curClients := List.filterMap_some
  rw [Server.relayTargets, hfound, World.audience, World.members_of_channel hch, List.filter_map,
    List.filter_filter, List.map_map]
  refine congrArg₂ List.map rfl (List.filter_congr fun x _ => ?_)
  simp

end Members

namespace Server

variable {s : Server} {p : ClientPtr} {name : Str} {env : Env} {line : Str} {words : List Str}

/-- While the text is looked at, only the bot writes. -/
theorem privmsgText_botWrote (s : Server) (now : Str) (p : ClientPtr) (words : List Str) :
    s.BotWrote (s.privmsgText now p words).1 := by
  unfold privmsgText
  dsimp only
  split
  · exact s.processMessage_botWrote _ _
  · exact .refl s

/-- Words to a channel come from a `PRIVMSG` of a registered client. -/
theorem wordsTo_eq_some (h : wordsTo s.toTables p name (commandParts line) = some words) :
    ∃ word first rest, commandParts line = word :: name :: first :: rest ∧
      words = first :: rest ∧ RunsRegistered s.toTables p (commandParts line) .privmsg ∧
        name.head? = some '#' := by
  unfold wordsTo at h
  split at h
  · rename_i word target first rest hparts
    split at h
    · rename_i hok
      obtain ⟨hruns, rfl, hhash⟩ := hok
      cases h
      exact ⟨word, first, rest, hparts, rfl, hparts ▸ hruns, hhash⟩
    · cases h
  · cases h

/-- The dispatch of a `PRIVMSG` to a channel, the bot's included. -/
theorem commandParser_wordsTo (env : Env)
    (h : wordsTo s.toTables p name (commandParts line) = some words) :
    commandParser env line p s = match s.channels[name]? with
      | some ch =>
          if p ∈ ch.curClients ∨ s.nickOf p = botNick then
            each (relayToMember p name (s.privmsgText env.now p words).2)
              (s.getChannelClients ch) (s.privmsgText env.now p words).1
          else .done (s.privmsgText env.now p words).1
      | none => .done (s.privmsgText env.now p words).1 := by
  obtain ⟨word, first, rest, hparts, rfl, hruns, hhash⟩ := wordsTo_eq_some h
  have htables := s.privmsgText_toTables env.now p (first :: rest)
  rw [hruns.commandParser_eq (by decide) hparts]
  change s.privmsg env p (word :: name :: first :: rest) = _
  unfold privmsg
  dsimp only
  rw [if_neg (fun hdirect => hdirect.2 hhash), htables]
  cases hch : s.channels[name]? with
  | none => rfl
  | some ch =>
      have hspeaks : (ch.isUserOnChannel p = true ∨
          botNick = (s.privmsgText env.now p (first :: rest)).1.nickOf p) ↔
            p ∈ ch.curClients ∨ s.nickOf p = botNick := by
        have hbot : botNick = (s.memory p).nickname ↔ (s.memory p).nickname = botNick := eq_comm
        rw [nickOf, htables, hbot]
        simp [Channel.isUserOnChannel, nickOf]
      dsimp only
      simp only [hspeaks]

end Server

section Steps

variable {w next : World} {name : Str} {a : Action} {env : Env} {p : ClientPtr} {words : List Str}

/-- A step that writes to a channel handles a line of a connected client. -/
theorem World.writing_eq_some (h : w.writing name a = some (env, p, words)) :
    ∃ fd line lines, a = .command env ∧ w.reading = some (fd, line :: lines) ∧
      w.srv.clients[fd]? = some p ∧
        wordsTo w.srv.toTables p name (commandParts line) = some words := by
  cases a with
  | command env' =>
      simp only [writing, current] at h
      split at h
      · rename_i fd line hcurrent
        obtain ⟨p', hp, hwords⟩ := Option.bind_eq_some_iff.mp h
        obtain ⟨words', hwords', heq⟩ := Option.map_eq_some_iff.mp hwords
        cases heq
        split at hcurrent
        · rename_i fd' line' lines hreading
          cases hcurrent
          exact ⟨fd, line, lines, rfl, hreading, hp, hwords'⟩
        · cases hcurrent
      · cases h
  | accept fd ip port => cases h
  | receive fd results => cases h

/-- **One step.**  A step that writes to a channel sends what is said to all who hear
the channel but the speaker, and nothing else but what the bot writes to itself. -/
theorem Cordial.writes (h : Cordial w) (hwriting : w.writing name a = some (env, p, words))
    (hstep : step w a = some next) :
    ∃ chatter : List (Fd × Str), (∀ m ∈ chatter, m.1 = w.srv.botSocket) ∧
      next.srv.sent = w.srv.sent ++ chatter ++ (spoken name w a).flatMap fun m =>
        ((w.audience name).filter fun fd => fd ≠ m.1).map fun fd => (fd, m.2) := by
  obtain ⟨fd, line, lines, rfl, hline, hp, hwords⟩ := World.writing_eq_some hwriting
  obtain ⟨chatter, hchatter, htext⟩ := w.srv.privmsgText_botWrote env.now p words
  have hquiet : ¬ w.srv.MaySpeak p name →
      Server.commandParser env line p w.srv = .done (w.srv.sendAll chatter) →
      next.srv.sent = w.srv.sent ++ chatter ++ (spoken name w (.command env)).flatMap fun m =>
        ((w.audience name).filter fun fd => fd ≠ m.1).map fun fd => (fd, m.2) := by
    intro hmute hdone
    simp only [step, hline, World.command_of_done hp hdone, Option.some.injEq] at hstep
    rw [← hstep, spoken, hwriting]
    simp [hmute, Server.sendAll]
  refine ⟨chatter, hchatter, ?_⟩
  have hdispatch := Server.commandParser_wordsTo env hwords
  cases hch : w.srv.channels[name]? with
  | none =>
      rw [hch, htext] at hdispatch
      exact hquiet (by simp [Server.MaySpeak, hch]) hdispatch
  | some ch =>
      rw [hch] at hdispatch
      dsimp only at hdispatch
      have hspeaks : w.srv.MaySpeak p name ↔ p ∈ ch.curClients ∨ w.srv.nickOf p = botNick := by
        simp [Server.MaySpeak, hch]
      by_cases hspeak : p ∈ ch.curClients ∨ w.srv.nickOf p = botNick
      · have hfound : ∀ nick ∈ w.srv.getChannelClients ch,
            (w.srv.recipient nick).isSome = true := by
          intro nick hnick
          obtain ⟨q, hq, rfl⟩ := List.mem_map.mp hnick
          exact Option.isSome_iff_exists.mpr ⟨q, h.recipient_member hch hq⟩
        rw [if_pos hspeak, Server.relay_done hfound
          (w.srv.privmsgText_toTables env.now p words)] at hdispatch
        simp only [step, hline, World.command_of_done hp hdispatch, Option.some.injEq] at hstep
        rw [← hstep, spoken, hwriting]
        simp only [Server.sendAll, htext, h.relayTargets_map hch]
        rw [if_pos (hspeaks.mpr hspeak), List.flatMap_singleton]
        rfl
      · rw [if_neg hspeak, htext] at hdispatch
        exact hquiet (mt hspeaks.mp hspeak) hdispatch

/-- What a step sends of a channel is what is said there, to the others. -/
theorem Cordial.copies_eq (h : Cordial w) (hstep : step w a = some next) (name : Str) :
    copies name w a = (spoken name w a).flatMap fun m =>
      ((w.audience name).filter fun fd => fd ≠ m.1).map fun fd => (fd, m.2) := by
  cases hwriting : w.writing name a with
  | none => simp [copies, spoken, hwriting]
  | some written =>
      obtain ⟨env, p, words⟩ := written
      obtain ⟨chatter, hchatter, hsent⟩ := h.writes hwriting hstep
      have hown : chatter.filter (fun m => m.1 ≠ w.srv.botSocket) = [] :=
        List.filter_eq_nil_iff.mpr fun m hm => by simp [hchatter m hm]
      rw [copies, hwriting, hstep]
      dsimp only
      rw [hsent, List.append_assoc, List.drop_left, List.filter_append, hown, List.nil_append]
      refine List.filter_eq_self.mpr fun m hm => ?_
      obtain ⟨said, -, hm⟩ := List.mem_flatMap.mp hm
      obtain ⟨fd, hfd, rfl⟩ := List.mem_map.mp hm
      -- nobody who hears the channel is at the bot's socket
      obtain ⟨q, hq, rfl⟩ := List.mem_map.mp (List.mem_filter.mp hfd).1
      have hq := (List.mem_filter.mp hq).1
      cases hch : w.srv.channels[name]? with
      | none =>
          rw [World.members_of_none hch] at hq
          cases hq
      | some ch =>
          rw [World.members_of_channel hch] at hq
          obtain ⟨k, hk⟩ := h.live hch hq
          rw [decide_eq_true_eq, h.orderly.registry.socket hk]
          rintro rfl
          rw [h.bot] at hk
          cases hk

end Steps

section Runs

variable {past trace : Run.Trace World Action} {first w : World}

/-- The server passes on what is said on a channel. -/
theorem passes (name : Str) : Hub.Passes (Run.guarded step Decent)
    (Run.Reachable (Run.guarded step Decent) Start)
    (Hub.stepEvents (Run.guarded step Decent) (fun w => w.audience name) (spoken name))
    (fun w => {fd | fd ∈ w.audience name}) (copies name) := by
  have hcordial : ∀ w, Run.Reachable (Run.guarded step Decent) Start w → Cordial w := by
    rintro w ⟨trace, run⟩
    exact cordial run.of_guarded.1 run.of_guarded.2
  refine .of_parties ?_ (fun w hw => (hcordial w hw).audience_nodup name) ?_
  · rintro w a next ⟨trace, run⟩ hstep
    exact ⟨_, run.cons hstep⟩
  · intro w a next hw hstep
    exact (hcordial w hw).copies_eq (Run.guarded_eq_some.mp hstep).2 name

/-- **Channels.**  Take a run in which lines are handled for connected clients, every
connection that is closed belongs to a client on no channel, and nobody takes the empty
nickname.  While a client is on a channel it is sent all that the others say there, each
message once, in order, and nothing else of what is written to the channel; while it is
not, it is sent nothing of it. -/
theorem channel_heard (run : Steps past first) (more : Run.Steps step (· = first) trace w)
    (hdecent : Run.Meets Decent (trace ++ past)) (name : Str) (fd : Fd) :
    (Run.Throughout (fun w => fd ∈ w.audience name) trace w →
      Hub.handedTo (Run.eventsOf (copies name) trace) fd =
        ((Run.eventsOf (spoken name) trace).filter fun m => m.1 ≠ fd).map Prod.snd) ∧
    (Run.Throughout (fun w => fd ∉ w.audience name) trace w →
      Hub.handedTo (Run.eventsOf (copies name) trace) fd = []) := by
  have hpast : Run.Meets Decent past := fun entry hmem =>
    hdecent entry (List.mem_append_right _ hmem)
  have hmore : Run.Meets Decent trace := fun entry hmem =>
    hdecent entry (List.mem_append_left _ hmem)
  have hfirst : Run.Reachable (Run.guarded step Decent) Start first := ⟨past, run.to_guarded hpast⟩
  exact ⟨(passes name).handed_throughout hfirst (more.to_guarded hmore),
    (passes name).handed_never hfirst (more.to_guarded hmore)⟩

/-- Three clients are on a channel; one of them changes its nickname, and another one
leaves, between what is said. -/
theorem channel_heard_three : ∃ past first trace w, Steps past first ∧
    Run.Steps step (· = first) trace w ∧
    Hub.handedTo (Run.eventsOf (copies "#c".toList) trace) 6 =
      [":a PRIVMSG #c :one\r\n".toList, ":d PRIVMSG #c :three\r\n".toList] := by
  obtain ⟨past, first, run, hpast, htest⟩ := Run.exists_steps_meeting step Decent start_pw
    ([.accept 5 "10.0.0.1".toList 40000, .accept 6 "10.0.0.2".toList 40000,
        .accept 7 "10.0.0.3".toList 40000] ++
      packet 5 ["PASS pw", "NICK a", "USER a a a n", "JOIN #c"] ++
      packet 6 ["PASS pw", "NICK b", "USER b b b n", "JOIN #c"] ++
      packet 7 ["PASS pw", "NICK c", "USER c c c n", "JOIN #c"])
    (fun first => (Run.record step (packet 5 ["PRIVMSG #c one", "PART #c"] ++
        packet 6 ["PRIVMSG #c two"] ++ packet 7 ["NICK d", "PRIVMSG #c three"])
        ([], first)).any fun recorded =>
      (∀ entry ∈ recorded.1, Decent entry.1 entry.2) ∧
      (6 ∈ recorded.2.audience "#c".toList ∧
        ∀ entry ∈ recorded.1, 6 ∈ entry.1.audience "#c".toList) ∧
      Run.eventsOf (spoken "#c".toList) recorded.1 =
        [(5, ":a PRIVMSG #c :one\r\n".toList), (6, ":b PRIVMSG #c :two\r\n".toList),
          (7, ":d PRIVMSG #c :three\r\n".toList)]) (by decide +kernel)
  obtain ⟨⟨trace, w⟩, hrecorded, htest⟩ := (Option.any_eq_true _ _).mp htest
  obtain ⟨hmore, hon, hspoken⟩ := of_decide_eq_true htest
  have hnil : Run.Steps step (· = first) [] first := .nil rfl
  have more := hnil.record hrecorded
  have hall := (channel_heard run more (fun entry hmem => (List.mem_append.mp hmem).elim
    (hmore entry) (hpast entry)) "#c".toList 6).1 hon
  rw [hspoken] at hall
  exact ⟨past, first, trace, w, run, more, hall⟩

end Runs

end Irc
