import IrcServers.Irc.Histories
import IrcServers.Irc.FreedChannels
import IrcServers.Irc.ChannelMessages
import IrcServers.Irc.Injection
import IrcServers.Irc.Membership

/-!
# What a line cannot do

Two limits on what a client can do to the server and to the others.  Before it has
registered its lines are answered to itself, and nobody else notices them: neither
what the server knows of others nor what others are sent depends on them.  And as
long as the server has closed no connection of a client that was on a channel, one
kind of line makes it fail, the `KICK` of a channel's only member: the only lookup
whose result is used without a test is that of a channel's members, and only `KICK`
goes on with a channel that may be gone.
-/

namespace Irc

open Outcome

/-- The line is a `KICK`, of a client who may give it, of the only member of a
channel. -/
def KicksOnlyMember (t : Tables) (p : ClientPtr) (parts : List Str) : Prop :=
  RunsRegistered t p parts .kick ∧ t.Empties (departing t p parts)

instance (t : Tables) (p : ClientPtr) (parts : List Str) :
    Decidable (KicksOnlyMember t p parts) :=
  inferInstanceAs (Decidable (_ ∧ _))

namespace Server

variable {s : Server} {p : ClientPtr}

/-- Everything sent since goes to the client's own descriptor or the bot's. -/
def TellsOnly (s : Server) (p : ClientPtr) (s' : Server) : Prop :=
  ∃ more, s'.sent = s.sent ++ more ∧
    ∀ message ∈ more, message.1 = (s.memory p).clientSocketFd ∨ message.1 = s.botSocket

/-- What a line of a client that is not registered can do to the server. -/
structure Contained (s : Server) (p : ClientPtr) (s' : Server) : Prop where
  tells : s.TellsOnly p s'
  channels : s'.channels = s.channels
  clients : s'.clients = s.clients
  others : ∀ q, q ≠ p → s'.memory q = s.memory q

/-- Nobody is told anything when nothing is sent. -/
theorem TellsOnly.refl (s : Server) (p : ClientPtr) : s.TellsOnly p s := ⟨[], by simp, by simp⟩

/-- The tables have no part in it. -/
theorem TellsOnly.withTables {s' : Server} (h : s.TellsOnly p s') (t : Tables) :
    s.TellsOnly p (s'.withTables t) := h

/-- The client itself, or the bot, may be told something. -/
theorem TellsOnly.send {s' : Server} (h : s.TellsOnly p s') {fd : Fd}
    (hfd : fd = (s.memory p).clientSocketFd ∨ fd = s.botSocket) (bytes : Str) :
    s.TellsOnly p (s'.send fd bytes) := by
  obtain ⟨more, hmore, hall⟩ := h
  refine ⟨more ++ [(fd, bytes)], ?_, ?_⟩
  · rw [← List.append_assoc, ← hmore]
    rfl
  · intro m hm
    rcases List.mem_append.mp hm with hm | hm
    · exact hall m hm
    · rw [List.mem_singleton.mp hm]
      exact hfd

/-- An answer to the client itself. -/
theorem TellsOnly.sendMessage {s' : Server} (h : s.TellsOnly p s')
    (hsocket : (s'.memory p).clientSocketFd = (s.memory p).clientSocketFd) (message : Str) :
    s.TellsOnly p (s'.sendMessage p message) := h.send (Or.inl hsocket) _

/-- A client that keeps its socket may be answered. -/
theorem TellsOnly.sendReply {s' : Server} (h : s.TellsOnly p s')
    (hsocket : (s'.memory p).clientSocketFd = (s.memory p).clientSocketFd) (reply : Str) :
    s.TellsOnly p (s'.sendReply p reply) := h.sendMessage hsocket _

/-- A line the bot writes. -/
theorem TellsOnly.botSendMsg {s' : Server} (h : s.TellsOnly p s')
    (hbot : s'.botSocket = s.botSocket) (nick message : Str) :
    s.TellsOnly p (s'.botSendMsg nick message) := h.send (Or.inr hbot) _

/-- `CAP` answers its own client. -/
theorem cap_tellsOnly (s : Server) (p : ClientPtr) (parts : List Str) :
    s.TellsOnly p (s.cap p parts) := by
  unfold cap
  split
  · split
    · exact (TellsOnly.refl s p).sendMessage rfl _
    · exact (TellsOnly.refl s p).sendReply rfl _
  · exact (TellsOnly.refl s p).sendReply rfl _

/-- `PASS` answers its own client. -/
theorem pass_tellsOnly (s : Server) (p : ClientPtr) (parts : List Str) :
    s.TellsOnly p (s.pass p parts) := by
  unfold pass
  split
  · split
    · exact (TellsOnly.refl s p).sendReply rfl _
    · split
      · exact ((TellsOnly.refl s p).withTables _).sendMessage (by simp) _
      · exact (TellsOnly.refl s p).sendMessage rfl _
  · exact (TellsOnly.refl s p).sendReply rfl _

/-- `NICK` answers its own client. -/
theorem nick_tellsOnly (s : Server) (p : ClientPtr) (parts : List Str) :
    s.TellsOnly p (s.nick p parts) := by
  unfold nick
  split
  · exact (TellsOnly.refl s p).sendMessage rfl _
  · split
    · split
      · exact (TellsOnly.refl s p).sendReply rfl _
      · exact (TellsOnly.refl s p).withTables _
    · exact (TellsOnly.refl s p).sendReply rfl _

/-- `USER` answers its own client. -/
theorem user_tellsOnly (s : Server) (p : ClientPtr) (parts : List Str) :
    s.TellsOnly p (s.user p parts) := by
  unfold user
  split
  · exact (TellsOnly.refl s p).sendMessage rfl _
  · split
    · split
      · exact (TellsOnly.refl s p).sendReply rfl _
      · exact ((((TellsOnly.refl s p).withTables _).sendReply (by simp) _).withTables _).botSendMsg
          rfl _ _
    · exact (TellsOnly.refl s p).sendReply rfl _

/-- A line of a client that is not registered is answered, to that client. -/
theorem commandParser_tellsOnly (env : Env) (line : Str) (hreg : (s.memory p).registered = false) :
    ∃ s', commandParser env line p s = .done s' ∧ s.TellsOnly p s' := by
  unfold commandParser
  split
  · exact ⟨s, rfl, .refl s p⟩
  · unfold handleCommand
    split
    · exact ⟨_, rfl, (TellsOnly.refl s p).sendMessage rfl _⟩
    · rename_i word args _
      cases verbOf word with
      | cap => exact ⟨_, rfl, cap_tellsOnly s p _⟩
      | pass => exact ⟨_, rfl, pass_tellsOnly s p _⟩
      | nick => exact ⟨_, rfl, nick_tellsOnly s p _⟩
      | user => exact ⟨_, rfl, user_tellsOnly s p _⟩
      | join | privmsg | list | part | topic | kick | quit | unknown =>
          dsimp only
          rw [if_neg (by simp [hreg])]
          exact ⟨_, rfl, (TellsOnly.refl s p).sendMessage rfl _⟩

/-- **One line of a client that is not registered.** -/
theorem commandParser_contained (env : Env) (line : Str) (hreg : (s.memory p).registered = false) :
    ∃ s', commandParser env line p s = .done s' ∧ s.Contained p s' := by
  obtain ⟨s', hdone, htells⟩ := commandParser_tellsOnly env line hreg
  have hnot : ∀ verb, ¬ RunsRegistered s.toTables p (commandParts line) verb := by
    intro verb hruns
    obtain ⟨_, _, _, _, _, hyes⟩ := hruns
    rw [hreg] at hyes
    cases hyes
  have heffect := commandParser_effect (hnot .quit) hdone
  have hquiet : s'.channels = s.channels ∧ s'.clients = s.clients ∧
      ∀ q, q ≠ p → s'.memory q = s.memory q := by
    generalize s'.toTables = t' at heffect ⊢
    cases heffect with
    | quiet => exact ⟨rfl, rfl, fun _ _ => rfl⟩
    | authenticated hpass => exact ⟨rfl, rfl, fun _ hq => Tables.setClient_memory_ne _ _ hq⟩
    | renamed nick hnick => exact ⟨rfl, rfl, fun _ hq => Tables.setClient_memory_ne _ _ hq⟩
    | registered username clientIp realname huser =>
        exact ⟨rfl, rfl, fun _ hq => Tables.setClient_memory_ne _ _ hq⟩
    | joined name ch next hruns => exact (hnot .join hruns).elim
    | created name key hruns => exact (hnot .join hruns).elim
    | parted names hruns => exact (hnot .part hruns).elim
    | topicSet name topic ch hruns => exact (hnot .topic hruns).elim
    | kicked name target ch hruns => exact (hnot .kick hruns).elim
  exact ⟨s', hdone, htells, hquiet.1, hquiet.2.1, hquiet.2.2⟩

/-- The only fault: a member of a channel that is written to is not found. -/
theorem privmsg_fault {env : Env} {parts : List Str} {f : Fault}
    (h : s.privmsg env p parts = .fault f) :
    ∃ (target : Str) (ch : Channel) (q : ClientPtr), s.channels[target]? = some ch ∧
      q ∈ ch.curClients ∧ s.recipient (s.nickOf q) = none := by
  unfold privmsg at h
  split at h
  · rename_i command target word words
    have htables := s.privmsgText_toTables env.now p (word :: words)
    dsimp only at h
    split at h
    · split at h <;> cases h
    · split at h
      · cases h
      · rename_i ch hch
        rw [htables] at hch
        split at h
        · rw [htables] at h
          by_contra hnone
          have hall : ∀ nick ∈ s.getChannelClients ch, (s.recipient nick).isSome = true := by
            intro nick hnick
            obtain ⟨q, hq, rfl⟩ := List.mem_map.mp hnick
            by_contra hmissing
            exact hnone ⟨target, ch, q, hch, hq, Option.not_isSome_iff_eq_none.mp hmissing⟩
          rw [relay_done hall htables] at h
          cases h
        · cases h
  · cases h
  · cases h

/-- A line faults only when a member of some channel is not found by nickname, or when
it removes the only member of a channel by `KICK`. -/
theorem commandParser_fault {env : Env} {line : Str} {f : Fault} (hentered : s.ChannelsEntered)
    (h : commandParser env line p s = .fault f) :
    (∃ (target : Str) (ch : Channel) (q : ClientPtr), s.channels[target]? = some ch ∧
      q ∈ ch.curClients ∧ s.recipient (s.nickOf q) = none) ∨
    KicksOnlyMember s.toTables p (commandParts line) := by
  unfold commandParser at h
  split at h
  · cases h
  · unfold handleCommand at h
    split at h
    · cases h
    · rename_i word args hparts
      cases hverb : verbOf word with
      | cap | pass | nick | user => simp [hverb] at h
      | privmsg =>
          rw [hverb] at h
          dsimp only at h
          split at h
          · exact Or.inl (privmsg_fault h)
          · cases h
      | quit =>
          rw [hverb] at h
          dsimp only at h
          split at h
          · change s.quit env p (word :: args) = .fault f at h
            rcases quit_cases env s p (word :: args) with ⟨s', hdone, -⟩ | ⟨e, s', hthrown, -⟩
            · rw [hdone] at h
              cases h
            · rw [hthrown] at h
              cases h
          · cases h
      | kick =>
          rw [hverb] at h
          dsimp only at h
          split at h
          · rename_i hreg
            change s.kick p (word :: args) = .fault f at h
            have hruns : RunsRegistered s.toTables p (word :: args) .kick :=
              ⟨word, args, rfl, hverb, by decide, hreg⟩
            rcases kick_cases hentered hruns with ⟨⟨s', hdone, -⟩, -⟩ | ⟨-, hempties⟩
            · rw [hdone] at h
              cases h
            · exact Or.inr (hparts ▸ ⟨hruns, hempties⟩)
          · cases h
      | join | list | part | topic | unknown =>
          rw [hverb] at h
          dsimp only at h
          split at h <;> cases h

/-- Such a `KICK` is where the server goes on with a deleted channel. -/
theorem commandParser_of_kicksOnlyMember (hentered : s.ChannelsEntered) (env : Env) {line : Str}
    (h : KicksOnlyMember s.toTables p (commandParts line)) :
    commandParser env line p s = .fault .freedChannel := by
  obtain ⟨hruns, hempties⟩ := h
  obtain ⟨word, args, hparts, -⟩ := id hruns
  rw [hruns.commandParser_eq (by decide) hparts]
  rw [hparts] at hruns hempties
  exact ((kick_cases hentered hruns).resolve_left fun h => h.2 hempties).1

/-- A connected client is found by its nickname, or another one is. -/
theorem recipient_of_live {q : ClientPtr} (hq : s.Live q) : s.recipient (s.nickOf q) ≠ none := by
  rw [recipient_eq]
  cases hget : s.getClient (s.nickOf q) with
  | none => exact (Tables.getClient_eq_none.mp hget q hq rfl).elim
  | some x => simp

end Server

section Runs

variable {trace : Run.Trace World Action} {w : World}

end Runs

end Irc
