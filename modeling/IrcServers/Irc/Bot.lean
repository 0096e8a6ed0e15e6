import IrcServers.Irc.Channels

/-!
# The bot of the `_irc_` server

`PRIVMSG` passes every text through `Bot::processMessage`, which censors it
and may write lines to the bot's own socket.  These lines come back to the
server later as commands of the bot's connection.
-/

namespace Irc

/-- The inner loop of `censorMessage` for one word: the text before the search
position is never looked at again, so the loop continues on the rest. -/
def censorWord (word : Str) : Nat → Str → Str
  | 0, message => message
  | n + 1, message =>
      match Text.find word message with
      | none => message
      | some pos =>
          message.take pos ++ List.replicate word.length '*' ++
            censorWord word n (message.drop (pos + word.length))

/-- `censorMessage`. -/
def censorMessage (message : Str) (blacklist : List Str) : Str :=
  blacklist.foldl (fun censored word => censorWord word censored.length censored) message

/-- The `blacklist` of `Bot::processMessage`. -/
def blacklist : List Str :=
  ["uglyasf".toList, "screw".toList, "dumb".toList, "stupid".toList, "idiot".toList,
    "amk".toList]

/-- `Bot::sendMsg`: a line on the bot's own socket. -/
def Server.botSendMsg (s : Server) (nick message : Str) : Server :=
  s.send s.botSocket ("PRIVMSG ".toList ++ nick ++ " :".toList ++ message ++ crlf)

/-- The sender and the text that `Bot::processMessage` reads out of a message.
Without a `!` both are the whole message. -/
def unpackMessage (message : Str) : Str × Str :=
  match Text.find "!".toList message with
  | some pos => (message.take pos, message.drop (pos + 1))
  | none => (message, message)

/-- `Bot::processMessage`; `now` is the text of `asctime`. -/
def Server.processMessage (s : Server) (now message : Str) : Server × Str :=
  if message = [] then (s, [])
  else
    let senderNick := (unpackMessage message).1
    let msg := (unpackMessage message).2
    let s := if Text.contains "Bot".toList msg then
        s.botSendMsg senderNick ("Hello ".toList ++ senderNick ++ "!".toList) else s
    let s := if Text.contains "time".toList msg || Text.contains "date".toList msg then
        s.botSendMsg senderNick now else s
    let censoredMsg := censorMessage msg blacklist
    if censoredMsg ≠ msg then
      (s.botSendMsg senderNick "Please be more respectful!".toList, censoredMsg)
    else (s, msg)

/-- `s'` is `s` after some writes to the bot's own socket. -/
def Server.BotWrote (s s' : Server) : Prop :=
  ∃ chatter : List (Fd × Str),
    (∀ entry ∈ chatter, entry.1 = s.botSocket) ∧ s' = s.sendAll chatter

/-- The bot has written nothing when nothing is sent. -/
theorem Server.BotWrote.refl (s : Server) : s.BotWrote s :=
  ⟨[], by simp, by simp [sendAll]⟩

/-- `s'` is `s` after some messages of the bot to `nick`. -/
def Server.BotTold (s : Server) (nick : Str) (s' : Server) : Prop :=
  ∃ messages : List Str, s' = s.sendAll (messages.map fun message =>
    (s.botSocket, "PRIVMSG ".toList ++ nick ++ " :".toList ++ message ++ crlf))

/-- Nobody has been told anything then. -/
theorem Server.BotTold.refl (s : Server) (nick : Str) : s.BotTold nick s :=
  ⟨[], by simp [sendAll]⟩

/-- One more message of the bot. -/
theorem Server.BotTold.botSendMsg {s s' : Server} {nick : Str} (h : s.BotTold nick s')
    (message : Str) : s.BotTold nick (s'.botSendMsg nick message) := by
  obtain ⟨messages, rfl⟩ := h
  exact ⟨messages ++ [message], by simp [Server.botSendMsg, send, sendAll]⟩

/-- A message of the bot that depends on a test. -/
theorem Server.BotTold.ite {s s' : Server} {nick : Str} (h : s.BotTold nick s') (c : Bool)
    (message : Str) : s.BotTold nick (if c then s'.botSendMsg nick message else s') := by
  cases c with
  | true => exact h.botSendMsg message
  | false => exact h

/-- What the bot tells somebody goes to its own socket. -/
theorem Server.BotTold.botWrote {s s' : Server} {nick : Str} (h : s.BotTold nick s') :
    s.BotWrote s' := by
  obtain ⟨messages, rfl⟩ := h
  refine ⟨_, ?_, rfl⟩
  intro entry hmem
  obtain ⟨message, -, rfl⟩ := List.mem_map.mp hmem
  rfl

/-- `processMessage` answers the sender it reads out of the message. -/
theorem Server.processMessage_botTold (s : Server) (now message : Str) :
    s.BotTold (unpackMessage message).1 (s.processMessage now message).1 := by
  unfold processMessage
  split
  · exact .refl s _
  · dsimp only
    have hboth := ((Server.BotTold.refl s (unpackMessage message).1).ite
      (Text.contains "Bot".toList (unpackMessage message).2)
      ("Hello ".toList ++ (unpackMessage message).1 ++ "!".toList)).ite
      (Text.contains "time".toList (unpackMessage message).2 ||
        Text.contains "date".toList (unpackMessage message).2) now
    split
    · exact hboth.botSendMsg _
    · exact hboth

/-- `processMessage` returns the censored text. -/
theorem Server.processMessage_text (s : Server) (now : Str) {message : Str}
    (h : message ≠ []) :
    (s.processMessage now message).2 = censorMessage (unpackMessage message).2 blacklist := by
  unfold processMessage
  rw [if_neg h]
  dsimp only
  split
  · rfl
  · rename_i hsame
    exact (not_ne_iff.mp hsame).symm

/-- What `processMessage` sends goes to the bot's own socket. -/
theorem Server.processMessage_botWrote (s : Server) (now message : Str) :
    s.BotWrote (s.processMessage now message).1 :=
  (s.processMessage_botTold now message).botWrote

/-- The bot leaves the tables as they are. -/
@[simp] theorem Server.processMessage_toTables (s : Server) (now message : Str) :
    (s.processMessage now message).1.toTables = s.toTables := by
  obtain ⟨chatter, _, heq⟩ := s.processMessage_botWrote now message
  rw [heq, sendAll_toTables]

end Irc
