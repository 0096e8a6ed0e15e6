import IrcServers.Irc.Moves

/-!
# Newlines in the state and in what is sent

`commandParser` erases the newlines of a line before it cuts it into words, so
no word that reaches a handler has one.  From this every text the server
stores is free of newlines, and every message is one line followed by CRLF
pairs: most macros end with one and `sendMessage` adds another.  The two
exceptions are texts of the server's own: the answer to `CAP LS`, and the time
the bot reports, which ends with the newline of `asctime` and goes to the bot.
-/

namespace Irc

/-- The text has no newline character. -/
def OneLine (text : Str) : Prop := '\n' ∉ text

instance (text : Str) : Decidable (OneLine text) := inferInstanceAs (Decidable (_ ∉ _))

@[simp] theorem oneLine_nil : OneLine [] := by simp [OneLine]

@[simp] theorem oneLine_append {a b : Str} : OneLine (a ++ b) ↔ OneLine a ∧ OneLine b := by
  simp [OneLine]

@[simp] theorem oneLine_cons {c : Char} {a : Str} : OneLine (c :: a) ↔ c ≠ '\n' ∧ OneLine a := by
  simp [OneLine, eq_comm]

/-- A part of a text has no newline that the text does not have. -/
theorem OneLine.of_subset {a b : Str} (h : OneLine b) (hsub : a ⊆ b) : OneLine a :=
  fun hmem => h (hsub hmem)

/-- Newlines occur only in the CRLF pairs the text ends with, if it ends with
any. -/
def Framed (text : Str) : Prop :=
  ∃ (body : Str) (n : Nat), OneLine body ∧ text = body ++ (List.replicate n crlf).flatten

/-- A single line is framed. -/
theorem OneLine.framed {text : Str} (h : OneLine text) : Framed text :=
  ⟨text, 0, h, by simp⟩

/-- So is one with its CRLF. -/
theorem Framed.append_crlf {text : Str} (h : Framed text) : Framed (text ++ crlf) := by
  obtain ⟨body, n, hbody, rfl⟩ := h
  refine ⟨body, n + 1, hbody, ?_⟩
  rw [List.replicate_succ', List.flatten_append, List.append_assoc]
  simp

/-- A single line in front leaves a text framed. -/
theorem Framed.prepend {start text : Str} (hstart : OneLine start) (h : Framed text) :
    Framed (start ++ text) := by
  obtain ⟨body, n, hbody, rfl⟩ := h
  exact ⟨start ++ body, n, oneLine_append.mpr ⟨hstart, hbody⟩, by simp⟩

/-- One line and its CRLF. -/
theorem Framed.reply {text : Str} (h : OneLine text) : Framed (text ++ crlf) :=
  h.framed.append_crlf

section Words

/-- Adding words to a text with a step that keeps it on one line. -/
theorem oneLine_foldl {β : Type*} {f : Str → β → Str} {P : β → Prop}
    (hf : ∀ text x, OneLine text → P x → OneLine (f text x)) {xs : List β}
    (hxs : ∀ x ∈ xs, P x) {text : Str} (h : OneLine text) : OneLine (xs.foldl f text) := by
  induction xs generalizing text with
  | nil => exact h
  | cons x xs ih =>
      exact ih (fun y hy => hxs y (List.mem_cons_of_mem _ hy))
        (hf text x h (hxs x List.mem_cons_self))

variable {text : Str} {words : List Str}

/-- Appending words to a line gives a line. -/
theorem oneLine_appendWords (h : OneLine text) (hwords : ∀ word ∈ words, OneLine word) :
    OneLine (appendWords text words) :=
  oneLine_foldl (P := OneLine) (fun text word htext hword => by simp [htext, hword]) hwords h

/-- So does joining them with blanks. -/
theorem oneLine_joinWords (hwords : ∀ word ∈ words, OneLine word) :
    OneLine (joinWords words) := by
  refine oneLine_foldl (P := fun entry => OneLine entry.1) ?_ ?_ oneLine_nil
  · intro text entry htext hentry
    split <;> simp [htext, hentry]
  · intro entry hmem
    exact hwords _ (List.fst_mem_of_mem_zipIdx hmem)

/-- So does joining them with any single-line delimiter. -/
theorem oneLine_mergePrivmsg {delim : Str} (hwords : ∀ word ∈ words, OneLine word)
    (hdelim : OneLine delim) : OneLine (mergePrivmsg words delim) := by
  refine oneLine_foldl (P := fun entry => OneLine entry.1) ?_ ?_ oneLine_nil
  · intro text entry htext hentry
    split <;> simp [htext, hentry, hdelim]
  · intro entry hmem
    exact hwords _ (List.fst_mem_of_mem_zipIdx hmem)

/-- Taking a colon off leaves a line. -/
theorem oneLine_dropColon (h : OneLine text) : OneLine (dropColon text) := by
  unfold dropColon
  split
  · exact h.of_subset (List.drop_subset 1 text)
  · exact h

/-- The farewell of `QUIT` is put together from words. -/
theorem oneLine_msgMerge (hwords : ∀ word ∈ words, OneLine word) : OneLine (msgMerge words) := by
  match words with
  | [] | [_] => exact oneLine_nil
  | _ :: first :: more =>
      exact oneLine_appendWords (hwords first (by simp)) fun word hmem =>
        hwords word (by simp [hmem])

/-- So is the reason of `KICK`. -/
theorem oneLine_kickReason (hwords : ∀ word ∈ words, OneLine word) :
    OneLine (Server.kickReason words) := by
  cases words with
  | nil => decide
  | cons first more =>
      exact oneLine_appendWords (hwords first (by simp)) fun word hmem =>
        hwords word (by simp [hmem])

/-- A word, or nothing in its place, is a line. -/
theorem oneLine_getD (hwords : ∀ word ∈ words, OneLine word) (i : Nat) :
    OneLine ((words[i]?).getD []) := by
  cases h : words[i]? with
  | none => exact oneLine_nil
  | some word => exact hwords word (List.mem_of_getElem? h)

/-- A number is written on one line. -/
theorem oneLine_toString (n : Nat) : OneLine (toString n).toList := by
  rw [Nat.toString_eq_ofList_toDigits, String.toList_ofList]
  intro hmem
  have hdigit := Nat.isDigit_of_mem_toDigits (by decide) (by decide) hmem
  exact absurd hdigit (by decide)

/-- The censor replaces words by asterisks. -/
theorem oneLine_censorWord {word : Str} (n : Nat) (h : OneLine text) :
    OneLine (censorWord word n text) := by
  induction n generalizing text with
  | zero => exact h
  | succ n ih =>
      unfold censorWord
      split
      · exact h
      · have hstars : OneLine (List.replicate word.length '*') := by
          simp [OneLine, List.mem_replicate]
        rw [oneLine_append, oneLine_append]
        exact ⟨⟨h.of_subset (List.take_subset _ _), hstars⟩,
          ih (h.of_subset (List.drop_subset _ _))⟩

/-- Masking does not break a line. -/
theorem oneLine_censorMessage (h : OneLine text) (words : List Str) :
    OneLine (censorMessage text words) :=
  oneLine_foldl (P := fun _ => True) (fun censored word hcensored _ =>
    oneLine_censorWord censored.length hcensored) (by simp) h

/-- Only a newline becomes a newline in upper case. -/
theorem eq_newline_of_toUpper {c : Char} (h : c.toUpper = '\n') : c = '\n' := by
  unfold Char.toUpper at h
  split at h
  · rename_i hlower
    have hval := congrArg Char.val h
    simp only [UInt32.le_iff_toNat_le, ← UInt32.toNat_inj, UInt32.toNat_add] at hval hlower
    simp at hval hlower
    omega
  · exact h

/-- The words of a line are free of newlines. -/
theorem oneLine_of_mem_commandParts {word : Str} (h : word ∈ commandParts text) :
    OneLine word := by
  have hpieces : ∀ piece ∈ Text.cut " ".toList (text.filter (· ≠ '\n')), OneLine piece := by
    intro piece hmem hnewline
    have hline := (Text.infix_of_mem_cut hmem).subset hnewline
    simp at hline
  unfold commandParts at h
  split at h
  · cases h
  · rename_i first args hcut
    rw [hcut] at hpieces
    rcases List.mem_cons.mp h with rfl | h
    · intro hnewline
      obtain ⟨c, hc, hupper⟩ := List.mem_map.mp hnewline
      exact hpieces first List.mem_cons_self (eq_newline_of_toUpper hupper ▸ hc)
    · exact hpieces word (List.mem_cons_of_mem _ h)

end Words

/-- The text fields of a client are free of newlines. -/
structure Client.LineSafe (c : Client) : Prop where
  nickname : OneLine c.nickname
  username : OneLine c.username
  realname : OneLine c.realname
  clientIp : OneLine c.clientIp

/-- A prefix is made of the texts of a client. -/
theorem Client.LineSafe.getPrefix {c : Client} (h : c.LineSafe) : OneLine c.getPrefix := by
  unfold Client.getPrefix
  by_cases hname : c.username = [] <;> by_cases hip : c.clientIp = [] <;>
    simp [hname, hip, h.nickname, h.username, h.clientIp]

/-- The text fields of a channel are free of newlines. -/
structure Channel.LineSafe (ch : Channel) : Prop where
  name : OneLine ch.name
  key : OneLine ch.key
  topic : OneLine ch.topic
  opNick : OneLine ch.opNick

/-- No text in the tables has a newline. -/
structure Tables.LineSafe (t : Tables) : Prop where
  host : OneLine t.host
  memory : ∀ p, (t.memory p).LineSafe
  channels : ∀ (name : Str) (ch : Channel), t.channels[name]? = some ch →
    OneLine name ∧ ch.LineSafe
  nickList : ∀ entry ∈ t.nickList, OneLine entry.2

namespace Tables

variable {t : Tables} {p : ClientPtr} {name : Str} {ch : Channel}

/-- A client with single-line texts may be written. -/
theorem LineSafe.setClient (h : t.LineSafe) {f : Client → Client}
    (hf : (f (t.memory p)).LineSafe) : (t.setClient p f).LineSafe := by
  refine ⟨h.host, ?_, h.channels, h.nickList⟩
  intro q
  by_cases hq : q = p
  · subst hq
    rwa [setClient_memory_self]
  · rw [setClient_memory_ne t f hq]
    exact h.memory q

/-- A channel with single-line texts may be stored under a single-line name. -/
theorem LineSafe.setChannel (h : t.LineSafe) (hname : OneLine name) (hch : ch.LineSafe) :
    (t.setChannel name ch).LineSafe := by
  refine ⟨h.host, h.memory, ?_, h.nickList⟩
  intro k c hk
  rw [setChannel_getElem?] at hk
  split at hk
  · rename_i heq
    cases hk
    exact heq ▸ ⟨hname, hch⟩
  · exact h.channels k c hk

/-- A single-line nickname may be listed. -/
theorem LineSafe.registerNick (h : t.LineSafe) {nick : Str} (hnick : OneLine nick) (fd : Fd) :
    (t.registerNick nick fd).LineSafe := by
  refine ⟨h.host, h.memory, h.channels, ?_⟩
  intro entry hmem
  rcases List.mem_append.mp hmem with hmem | hmem
  · exact h.nickList entry hmem
  · rwa [List.mem_singleton.mp hmem]

/-- The client that a lookup adds has empty texts. -/
theorem LineSafe.index (h : t.LineSafe) (fd : Fd) (junk : Leftover) :
    (t.index fd junk).1.LineSafe := by
  unfold Tables.index
  split
  · exact h
  · refine ⟨h.host, ?_, h.channels, h.nickList⟩
    intro q
    by_cases hq : q = t.nextPtr
    · subst hq
      have hfields : (Client.default junk).LineSafe := by constructor <;> exact oneLine_nil
      simpa using hfields
    · simpa [hq] using h.memory q

/-- Closing a connection stores no text. -/
theorem LineSafe.closeConnection (h : t.LineSafe) (fd : Fd) :
    (t.closeConnection fd).LineSafe := by
  unfold Tables.closeConnection
  split
  · exact ⟨h.host, h.memory, h.channels, fun entry hmem =>
      h.nickList entry (List.mem_of_mem_eraseP hmem)⟩
  · exact h

/-- A new client has the address of its connection, and no other text. -/
theorem LineSafe.acceptConnection (h : t.LineSafe) {ip : Str} (hip : OneLine ip) (fd : Fd)
    (port : Nat) : (t.acceptConnection fd ip port).LineSafe := by
  rw [acceptConnection_eq]
  have hclient : (Client.connected fd ip port).LineSafe :=
    ⟨oneLine_nil, oneLine_nil, oneLine_nil, hip⟩
  let indexed := t.index fd ⟨fd, port, false, false, false⟩
  have hentered : (indexed.1.setClient indexed.2 fun _ => Client.connected fd ip port).LineSafe :=
    (h.index fd _).setClient hclient
  exact ⟨hentered.host, hentered.memory, hentered.channels, hentered.nickList⟩

/-- Erasing a channel stores no text. -/
theorem LineSafe.eraseChannel (h : t.LineSafe) (name : Str) :
    { t with channels := t.channels.erase name }.LineSafe := by
  refine ⟨h.host, h.memory, ?_, h.nickList⟩
  intro k c hk
  rw [Std.ExtTreeMap.getElem?_erase] at hk
  split at hk
  · cases hk
  · exact h.channels k c hk

end Tables

/-- The answer to `CAP LS`. -/
def capList : Str :=
  "/PASS\n/NICK\n/USER\n/JOIN\n/PRIVMSG\n/LIST\n/PART\n/TOPIC\n/KICK\n/QUIT".toList

/-- What may be handed to `send`: a text and its CRLF, where the text has no
other newlines than those of CRLF pairs at its end, the answer to `CAP LS`, or
a line of the bot with the time, written to the bot's own socket. -/
def Sendable (botSocket : Fd) (entry : Fd × Str) : Prop :=
  ∃ text, entry.2 = text ++ crlf ∧
    (Framed text ∨ text = capList ∨ entry.1 = botSocket ∧
      ∃ nick now, OneLine nick ∧ text = "PRIVMSG ".toList ++ nick ++ " :".toList ++ now)

/-- A server with the bot's socket `botSocket` whose texts and messages are
free of newlines as described. -/
structure Server.LineSafe (botSocket : Fd) (s : Server) : Prop where
  bot : s.botSocket = botSocket
  tables : s.toTables.LineSafe
  sent : ∀ entry ∈ s.sent, Sendable botSocket entry

namespace Server

variable {bot : Fd} {s : Server} {p : ClientPtr} {ch : Channel} {text : Str}

/-- Sendable messages may be sent. -/
theorem LineSafe.sendAll (h : s.LineSafe bot) {messages : List (Fd × Str)}
    (hmessages : ∀ entry ∈ messages, Sendable bot entry) : (s.sendAll messages).LineSafe bot := by
  refine ⟨h.bot, h.tables, ?_⟩
  intro entry hmem
  rcases List.mem_append.mp hmem with hmem | hmem
  · exact h.sent entry hmem
  · exact hmessages entry hmem

/-- A sendable message may be sent. -/
theorem LineSafe.send (h : s.LineSafe bot) {fd : Fd} (hsend : Sendable bot (fd, text)) :
    (s.send fd text).LineSafe bot := by
  have hmessages : ∀ entry ∈ [(fd, text)], Sendable bot entry := by
    intro entry hmem
    rw [List.mem_singleton.mp hmem]
    exact hsend
  exact h.sendAll hmessages

/-- Tables with single-line texts may be put in place. -/
theorem LineSafe.withTables (h : s.LineSafe bot) {t : Tables} (ht : t.LineSafe)
    (hbot : t.botSocket = s.botSocket) : (s.withTables t).LineSafe bot :=
  ⟨hbot.trans h.bot, ht, h.sent⟩

/-- Nicknames are single lines. -/
theorem LineSafe.nickOf (h : s.LineSafe bot) (p : ClientPtr) : OneLine (s.nickOf p) :=
  (h.tables.memory p).nickname

/-- So are prefixes. -/
theorem LineSafe.prefixOf (h : s.LineSafe bot) (p : ClientPtr) : OneLine (s.prefixOf p) :=
  (h.tables.memory p).getPrefix

/-- A framed text becomes sendable with its CRLF. -/
theorem LineSafe.sendMessage (h : s.LineSafe bot) (p : ClientPtr) (htext : Framed text) :
    (s.sendMessage p text).LineSafe bot :=
  h.send ⟨text, rfl, Or.inl htext⟩

/-- So does the text of a reply. -/
theorem LineSafe.sendReply (h : s.LineSafe bot) (p : ClientPtr) (htext : Framed text) :
    (s.sendReply p text).LineSafe bot :=
  h.sendMessage p (htext.prepend (oneLine_append.mpr ⟨h.prefixOf p, by decide⟩))

/-- A framed text may be sent to all members. -/
theorem LineSafe.broadcastMessage (h : s.LineSafe bot) (ch : Channel) (htext : Framed text) :
    (s.broadcastMessage ch text).LineSafe bot := by
  refine h.sendAll ?_
  intro entry hmem
  obtain ⟨p, _, rfl⟩ := List.mem_map.mp hmem
  exact ⟨text, rfl, Or.inl htext⟩

/-- A use of a channel that is gone sends nothing. -/
theorem LineSafe.useFreed (h : s.LineSafe bot) (name : Str) : (s.useFreed name).LineSafe bot :=
  ⟨h.bot, h.tables, h.sent⟩

/-- The list of nicknames a channel shows. -/
theorem LineSafe.nickListText (h : s.LineSafe bot) (ch : Channel) :
    OneLine (s.nickListText ch) := by
  refine OneLine.of_subset (b := (s.getChannelClients ch).flatMap fun nick =>
    (if ch.opNick = nick then "@".toList else []) ++ nick ++ " ".toList) ?_
    (List.dropLast_subset _)
  intro hmem
  obtain ⟨nick, hnick, hchar⟩ := List.mem_flatMap.mp hmem
  obtain ⟨q, _, rfl⟩ := List.mem_map.mp hnick
  have hline : OneLine ((if ch.opNick = (s.memory q).nickname then "@".toList else []) ++
      (s.memory q).nickname ++ " ".toList) := by
    have hq := (h.tables.memory q).nickname
    split <;> simp [hq]
  exact hline hchar

/-- The list of members is made of nicknames. -/
theorem LineSafe.sendChannelUserList (h : s.LineSafe bot) (hch : ch.LineSafe) (p : ClientPtr) :
    (s.sendChannelUserList ch p).LineSafe bot := by
  have hnames : Framed (rplNamReply (s.nickOf p) ch.name (s.nickListText ch)) :=
    .reply (by simp [h.nickOf, hch.name, h.nickListText])
  have hend : Framed (rplEndOfNames (s.nickOf p) ch.name) := by
    have hstart : OneLine ("366 ".toList ++ s.nickOf p ++ " ".toList ++ ch.name) := by
      simp [h.nickOf, hch.name]
    have hlast : Framed " :End of /NAMES list.\r\n".toList :=
      ⟨" :End of /NAMES list.".toList, 1, by decide, by decide⟩
    exact .prepend hstart hlast
  exact (h.broadcastMessage ch hnames).broadcastMessage ch hend

/-- The farewell to a listed nickname is a line. -/
theorem LineSafe.partRemoved (h : s.LineSafe bot) {name : Str} (hname : OneLine name)
    (nick : Str) : (s.partRemoved name nick).LineSafe bot := by
  unfold Server.partRemoved
  split
  · rename_i q hq
    exact h.sendReply q (.reply (by simp [hname, (h.tables.memory q).nickname]))
  · exact h

/-- A loop keeps texts and messages single lines if its body does. -/
theorem LineSafe.foldl {β : Type*} {f : Server → β → Server} {P : β → Prop}
    (hf : ∀ (s : Server) (x : β), s.LineSafe bot → P x → (f s x).LineSafe bot) (xs : List β)
    (hxs : ∀ x ∈ xs, P x) (h : s.LineSafe bot) : (xs.foldl f s).LineSafe bot := by
  induction xs generalizing s with
  | nil => exact h
  | cons x xs ih =>
      exact ih (fun y hy => hxs y (List.mem_cons_of_mem _ hy)) (hf s x h (hxs x List.mem_cons_self))

/-- The farewells of a removed channel are lines. -/
theorem LineSafe.removeChannel (h : s.LineSafe bot) {name : Str} (hname : OneLine name) :
    (s.removeChannel name).LineSafe bot := by
  unfold Server.removeChannel
  split
  · rename_i ch hch
    have htold := LineSafe.foldl (P := fun _ => True)
      (fun s nick hs _ => LineSafe.partRemoved hs hname nick) (s.getChannelClients ch) (by simp) h
    exact htold.withTables (htold.tables.eraseChannel name) rfl
  · exact h

/-- So is what is told when a member is removed. -/
theorem LineSafe.removeClientFromChannel (h : s.LineSafe bot) (name : Str) (p : ClientPtr) :
    (s.removeClientFromChannel name p).LineSafe bot := by
  unfold Server.removeClientFromChannel
  cases hch : s.channels[name]? with
  | none => exact h.useFreed name
  | some ch =>
      obtain ⟨hname, hsafe⟩ := h.tables.channels name ch hch
      dsimp only
      split
      · have hleft : { ch with curClients := ch.curClients.erase p }.LineSafe :=
          ⟨hsafe.name, hsafe.key, hsafe.topic, hsafe.opNick⟩
        have hset := h.withTables (h.tables.setChannel hname hleft) rfl
        split
        · exact (hset.removeChannel hsafe.name).useFreed name
        · rename_i front rest herase
          split
          · have hled : ({ ch with curClients := ch.curClients.erase p }.makeOp front
                (s.memory front).nickname).LineSafe :=
              ⟨hsafe.name, hsafe.key, hsafe.topic, (h.tables.memory front).nickname⟩
            have hwritten := hset.withTables (hset.tables.setChannel hname hled) rfl
            have htext : OneLine ("You are now the operator of ".toList ++ ch.name) := by
              simp [hsafe.name]
            exact (hwritten.sendReply front htext.framed).sendChannelUserList hled p
          · exact hset.sendChannelUserList hleft p
      · exact h

/-- A line of the bot. -/
theorem LineSafe.botSendMsg (h : s.LineSafe bot) {nick message : Str} (hnick : OneLine nick)
    (hmessage : OneLine message) : (s.botSendMsg nick message).LineSafe bot :=
  h.send ⟨_, rfl, Or.inl (OneLine.framed (by simp [hnick, hmessage]))⟩

/-- The line of the bot with the time. -/
theorem LineSafe.botSendTime (h : s.LineSafe bot) {nick : Str} (hnick : OneLine nick)
    (now : Str) : (s.botSendMsg nick now).LineSafe bot :=
  h.send ⟨_, rfl, Or.inr (Or.inr ⟨h.bot, nick, now, hnick, rfl⟩)⟩

/-- The bot warns with single lines, and returns one. -/
theorem LineSafe.processMessage (h : s.LineSafe bot) {message : Str} (hmessage : OneLine message)
    (now : Str) : (s.processMessage now message).1.LineSafe bot ∧
      OneLine (s.processMessage now message).2 := by
  have hunpacked : OneLine (unpackMessage message).1 ∧ OneLine (unpackMessage message).2 := by
    unfold unpackMessage
    split
    · exact ⟨hmessage.of_subset (List.take_subset _ _), hmessage.of_subset (List.drop_subset _ _)⟩
    · exact ⟨hmessage, hmessage⟩
  obtain ⟨hsender, hmsg⟩ := hunpacked
  unfold Server.processMessage
  split
  · exact ⟨h, oneLine_nil⟩
  · dsimp only
    generalize (unpackMessage message).1 = sender at hsender
    generalize (unpackMessage message).2 = msg at hmsg
    have hhello : (if Text.contains "Bot".toList msg then
        s.botSendMsg sender ("Hello ".toList ++ sender ++ "!".toList) else s).LineSafe bot := by
      split
      · exact h.botSendMsg hsender (by simp [hsender])
      · exact h
    generalize (if Text.contains "Bot".toList msg then
        s.botSendMsg sender ("Hello ".toList ++ sender ++ "!".toList) else s) = greeted at hhello ⊢
    have htime : (if Text.contains "time".toList msg || Text.contains "date".toList msg then
        greeted.botSendMsg sender now else greeted).LineSafe bot := by
      split
      · exact hhello.botSendTime hsender now
      · exact hhello
    split
    · exact ⟨htime.botSendMsg hsender (by decide), oneLine_censorMessage hmsg blacklist⟩
    · exact ⟨htime, hmsg⟩

end Server

end Irc
