import IrcServers.Irc.ChannelTable

/-!
# Refused commands

A handler refuses with an error reply, whose number begins with 4, or with one of
two fixed texts, and every handler but `PART` returns at once when it refuses.  So
a line that is refused changes no table.  What an accepted line sends is told from
a refusal by its first or its last word; this takes that a nickname has no space,
which holds because nicknames are words of a line.
-/

namespace Irc

/-- The error replies of `Utils.hpp` that some handler sends.  The one that
`handleCommand` has for a line without words is never sent: every line has a first
word. -/
inductive ErrorReply : Str → Prop
  | noSuchNick (source nick : Str) : ErrorReply (errNoSuchNick source nick)
  | noSuchChannel (source channel : Str) : ErrorReply (errNoSuchChannel source channel)
  | invalidCapCmd (source : Str) : ErrorReply (errInvalidCapCmd source)
  | noTextToSend (source : Str) : ErrorReply (errNoTextToSend source)
  | noNicknameGiven (source : Str) : ErrorReply (errNoNicknameGiven source)
  | nicknameInUse (source nick : Str) : ErrorReply (errNicknameInUse source nick)
  | userNotInChannel (source nick channel : Str) :
      ErrorReply (errUserNotInChannel source nick channel)
  | notOnChannel (source channel : Str) : ErrorReply (errNotOnChannel source channel)
  | userOnChannel (source channel : Str) : ErrorReply (errUserOnChannel source channel)
  | needMoreParams (source command : Str) : ErrorReply (errNeedMoreParams source command)
  | alreadyRegistered (source : Str) : ErrorReply (errAlreadyRegistered source)
  | channelIsFull (source channel : Str) : ErrorReply (errChannelIsFull source channel)
  | badChannelKey (source channel : Str) : ErrorReply (errBadChannelKey source channel)
  | chanOPrivsNeeded (source channel : Str) : ErrorReply (errChanOPrivsNeeded source channel)

/-- The bytes of a refusal to the client: one of the two fixed texts, or an error
reply with or without the prefix of the client before it. -/
def Refusal (c : Client) (bytes : Str) : Prop :=
  bytes = "Access denied!".toList ++ crlf ∨ bytes = "You must login firstly".toList ++ crlf ∨
    ∃ reply, ErrorReply reply ∧
      (bytes = reply ++ crlf ∨ bytes = c.getPrefix ++ " ".toList ++ reply ++ crlf)

/-- The line runs `PART`. -/
def AsksPart (parts : List Str) : Prop := ∃ word args, parts = word :: args ∧ verbOf word = .part

/-- What an error reply begins with. -/
def errorStarts : List Str :=
  ["401 ", "403 ", "410 ", "412 ", "431 ", "433 ", "441 ", "442 ", "443 ", "461 ", "462 ",
    "471 ", "475 ", ": 482 "].map String.toList

/-- The last word of an error reply. -/
def errorEnds : List Str :=
  ["nick", "channel", "subcommand", "send", "given", "use", "parameters", "register", "(+l)",
    "(+k)", "operator"].map String.toList

/-- A refusal starts and ends with one of the known texts. -/
theorem ErrorReply.shape {reply : Str} (h : ErrorReply reply) :
    ∃ start ∈ errorStarts, ∃ middle, ∃ last ∈ errorEnds,
      reply = start ++ middle ++ " ".toList ++ last ++ crlf := by
  unfold errorStarts errorEnds
  cases h with
  | noSuchNick source nick =>
      refine ⟨"401 ".toList, by simp, source ++ " ".toList ++ nick ++ " :No such".toList,
        "nick".toList, by simp, ?_⟩
      delta errNoSuchNick
      simp
  | noSuchChannel source channel =>
      refine ⟨"403 ".toList, by simp, source ++ " ".toList ++ channel ++ " :No such".toList,
        "channel".toList, by simp, ?_⟩
      delta errNoSuchChannel
      simp
  | invalidCapCmd source =>
      refine ⟨"410 ".toList, by simp, source ++ " :Invalid CAP".toList,
        "subcommand".toList, by simp, ?_⟩
      delta errInvalidCapCmd
      simp
  | noTextToSend source =>
      refine ⟨"412 ".toList, by simp, source ++ " :No text to".toList,
        "send".toList, by simp, ?_⟩
      delta errNoTextToSend
      simp
  | noNicknameGiven source =>
      refine ⟨"431 ".toList, by simp, source ++ " :No nickname".toList,
        "given".toList, by simp, ?_⟩
      delta errNoNicknameGiven
      simp
  | nicknameInUse source nick =>
      refine ⟨"433 ".toList, by simp,
        source ++ " ".toList ++ nick ++ " :Nickname is already in".toList,
        "use".toList, by simp, ?_⟩
      delta errNicknameInUse
      simp
  | userNotInChannel source nick channel =>
      refine ⟨"441 ".toList, by simp,
        source ++ " ".toList ++ nick ++ " ".toList ++ channel ++ " :They aren't on that".toList,
        "channel".toList, by simp, ?_⟩
      delta errUserNotInChannel
      simp
  | notOnChannel source channel =>
      refine ⟨"442 ".toList, by simp,
        source ++ " ".toList ++ channel ++ " :You're not on that".toList,
        "channel".toList, by simp, ?_⟩
      delta errNotOnChannel
      simp
  | userOnChannel source channel =>
      refine ⟨"443 ".toList, by simp, source ++ " ".toList ++ channel ++ " :is already on".toList,
        "channel".toList, by simp, ?_⟩
      delta errUserOnChannel
      simp
  | needMoreParams source command =>
      refine ⟨"461 ".toList, by simp, source ++ " ".toList ++ command ++ " :Not enough".toList,
        "parameters".toList, by simp, ?_⟩
      delta errNeedMoreParams
      simp
  | alreadyRegistered source =>
      refine ⟨"462 ".toList, by simp, source ++ " :You may not".toList,
        "register".toList, by simp, ?_⟩
      delta errAlreadyRegistered
      simp
  | channelIsFull source channel =>
      refine ⟨"471 ".toList, by simp,
        source ++ " ".toList ++ channel ++ " :Cannot join channel".toList,
        "(+l)".toList, by simp, ?_⟩
      delta errChannelIsFull
      simp
  | badChannelKey source channel =>
      refine ⟨"475 ".toList, by simp,
        source ++ " ".toList ++ channel ++ " :Cannot join channel".toList,
        "(+k)".toList, by simp, ?_⟩
      delta errBadChannelKey
      simp
  | chanOPrivsNeeded source channel =>
      refine ⟨": 482 ".toList, by simp,
        source ++ " ".toList ++ channel ++ " :You're not the channel".toList,
        "operator".toList, by simp, ?_⟩
      delta errChanOPrivsNeeded
      simp

/-- What a refusal begins with, when it does not begin with a prefix. -/
def refusalStarts : List Str :=
  "Access ".toList :: "You must ".toList :: errorStarts

/-- What follows the last space of a refusal. -/
def refusalEnds : List Str :=
  ("denied!".toList ++ crlf) :: ("firstly".toList ++ crlf) ::
    errorEnds.map fun last => last ++ crlf ++ crlf

variable {c d : Client} {bytes : Str}

/-- How a refusal begins. -/
theorem Refusal.start (h : Refusal c bytes) :
    (∃ start ∈ refusalStarts, start <+: bytes) ∨ c.nickname ++ "!".toList <+: bytes := by
  rcases h with rfl | rfl | ⟨reply, hreply, hbytes⟩
  · exact Or.inl ⟨"Access ".toList, by decide, by decide⟩
  · exact Or.inl ⟨"You must ".toList, by decide, by decide⟩
  · rcases hbytes with rfl | rfl
    · obtain ⟨start, hstart, middle, last, _, rfl⟩ := hreply.shape
      refine Or.inl ⟨start, List.mem_cons_of_mem _ (List.mem_cons_of_mem _ hstart), ?_⟩
      simp only [List.append_assoc]
      exact List.prefix_append _ _
    · refine Or.inr ?_
      unfold Client.getPrefix
      dsimp only
      simp only [List.append_assoc]
      rw [← List.append_assoc]
      exact List.prefix_append _ _

/-- How a refusal ends. -/
theorem Refusal.finish (h : Refusal c bytes) :
    ∃ front, ∃ last ∈ refusalEnds, bytes = front ++ " ".toList ++ last := by
  rcases h with rfl | rfl | ⟨reply, hreply, hbytes⟩
  · exact ⟨"Access".toList, "denied!".toList ++ crlf, by decide, by decide⟩
  · exact ⟨"You must login".toList, "firstly".toList ++ crlf, by decide, by decide⟩
  · obtain ⟨start, _, middle, last, hlast, rfl⟩ := hreply.shape
    have hmem : last ++ crlf ++ crlf ∈ refusalEnds :=
      List.mem_cons_of_mem _ (List.mem_cons_of_mem _ (List.mem_map_of_mem hlast))
    rcases hbytes with rfl | rfl
    · exact ⟨start ++ middle, _, hmem, by simp⟩
    · exact ⟨c.getPrefix ++ " ".toList ++ start ++ middle, _, hmem, by simp⟩

section Criteria

variable {front last : Str}

/-- A text with another beginning is no refusal. -/
theorem not_refusal_of_start (start : Str) (hnick : ' ' ∉ c.nickname) (hspace : ' ' ∈ start)
    (hbang : '!' ∉ start)
    (hapart : ∀ other ∈ refusalStarts, ¬ other <+: start ∧ ¬ start <+: other) (rest : Str) :
    ¬ Refusal c (start ++ rest) := by
  intro h
  have hstart : start <+: start ++ rest := List.prefix_append _ _
  rcases h.start with ⟨other, hmem, hother⟩ | hprefix
  · rcases List.prefix_or_prefix_of_prefix hother hstart with hle | hle
    · exact (hapart other hmem).1 hle
    · exact (hapart other hmem).2 hle
  · rcases List.prefix_or_prefix_of_prefix hprefix hstart with hle | hle
    · exact hbang (hle.subset (by simp))
    · rcases List.mem_append.mp (hle.subset hspace) with hmem | hmem
      · exact hnick hmem
      · exact absurd hmem (by decide)

/-- A nickname with a `!` after it is not moved by a colon. -/
theorem colon_append_ne (nick rest rest' : Str) :
    ':' :: (nick ++ '!' :: rest) ≠ nick ++ '!' :: rest' := by
  induction nick with
  | nil => simp
  | cons first nick ih =>
      intro h
      obtain ⟨rfl, htail⟩ := List.cons.inj h
      exact ih htail

/-- A text with the prefix of the client after a colon is no refusal. -/
theorem not_refusal_of_source (hnick : ' ' ∉ c.nickname) (hsame : d.nickname = c.nickname)
    (rest : Str) : ¬ Refusal c (":".toList ++ d.getPrefix ++ rest) := by
  have hsource : ∃ tail, ":".toList ++ d.getPrefix ++ rest =
      ':' :: (c.nickname ++ '!' :: tail) := by
    unfold Client.getPrefix
    rw [hsame]
    exact ⟨_, by simp; rfl⟩
  obtain ⟨tail, htail⟩ := hsource
  rw [htail]
  intro h
  rcases h.start with ⟨other, hmem, ⟨more, hmore⟩⟩ | hprefix
  · have hkinds : ∀ other ∈ refusalStarts,
        other.headD ':' ≠ ':' ∨ other = ':' :: ' ' :: other.drop 2 := by decide
    rcases hkinds other hmem with hhead | hcolon
    · cases other with
      | nil => exact hhead rfl
      | cons first other =>
          obtain ⟨hfirst, -⟩ := List.cons.inj hmore
          exact hhead hfirst
    · -- the nickname, or the `!` after it, would begin with a space
      rw [hcolon] at hmore
      cases hnickname : c.nickname with
      | nil => simp [hnickname] at hmore
      | cons first nick =>
          rw [hnickname] at hmore hnick
          obtain ⟨hfirst, -⟩ := List.cons.inj (List.cons.inj hmore).2
          exact hnick (hfirst ▸ List.mem_cons_self)
  · obtain ⟨more, hmore⟩ := hprefix
    exact colon_append_ne c.nickname tail more (by simpa using hmore.symm)

/-- What follows the last space of a text. -/
theorem last_eq {front' last' : Str}
    (h : front ++ " ".toList ++ last = front' ++ " ".toList ++ last')
    (hlast : ' ' ∉ last) (hlast' : ' ' ∉ last') : last = last' := by
  have hback : ∀ {front last : Str}, ' ' ∉ last →
      ((front ++ " ".toList ++ last).reverse.takeWhile (· ≠ ' ')).reverse = last := by
    intro front last hlast
    have hwhile : (last.reverse ++ ' ' :: front.reverse).takeWhile (· ≠ ' ') = last.reverse := by
      rw [List.takeWhile_append_of_pos]
      · simp
      · intro x hx
        simpa using fun heq : x = ' ' => hlast (heq ▸ List.mem_reverse.mp hx)
    have hreverse : (front ++ " ".toList ++ last).reverse =
        last.reverse ++ ' ' :: front.reverse := by simp
    rw [hreverse, hwhile, List.reverse_reverse]
  rw [← hback hlast, h, hback hlast']

/-- A text with another last word is no refusal. -/
theorem not_refusal_of_finish (front last : Str) (hspace : ' ' ∉ last)
    (hlast : last ∉ refusalEnds) : ¬ Refusal c (front ++ " ".toList ++ last) := by
  intro h
  obtain ⟨front', last', hmem, heq⟩ := h.finish
  have hwords : ∀ last ∈ refusalEnds, ' ' ∉ last := by decide
  exact hlast (last_eq heq hspace (hwords last' hmem) ▸ hmem)

/-- A prefix has no blank if its parts have none. -/
theorem space_not_mem_getPrefix (hnick : ' ' ∉ d.nickname) (huser : ' ' ∉ d.username)
    (hip : ' ' ∉ d.clientIp) : ' ' ∉ d.getPrefix := by
  have hor : ∀ {text : Str}, ' ' ∉ text → ' ' ∉ if text = [] then "*".toList else text := by
    intro text htext
    split
    · decide
    · exact htext
  unfold Client.getPrefix
  simp only [List.mem_append, hnick, hor huser, hor hip]
  decide

/-- The welcome ends with the prefix of the client, which has an `@`. -/
theorem not_refusal_of_welcome (hspace : ' ' ∉ d.getPrefix) (host nick : Str) :
    ¬ Refusal c (d.getPrefix ++ " ".toList ++ rplWelcome host nick d.getPrefix ++ crlf) := by
  have hends : ∀ last ∈ refusalEnds, '@' ∉ last := by decide
  have hat : '@' ∈ d.getPrefix := by simp [Client.getPrefix]
  have hfinish := not_refusal_of_finish (c := c)
    (d.getPrefix ++ " :".toList ++ host ++ " 001 ".toList ++ nick ++
      " :Welcome to the Internet Relay Network".toList) (d.getPrefix ++ crlf ++ crlf)
    (by simpa [crlf] using hspace) (fun hmem => hends _ hmem (by simp [hat]))
  unfold rplWelcome
  simpa using hfinish

/-- The word to a new operator ends with the name of the channel. -/
theorem not_refusal_of_operator {name : Str} (hspace : ' ' ∉ name)
    (hhash : name.head? = some '#') (source : Str) :
    ¬ Refusal c (source ++ " ".toList ++ ("You are now the operator of ".toList ++ name) ++
      crlf) := by
  have hends : ∀ last ∈ refusalEnds, last.head? ≠ some '#' := by decide
  have hfinish := not_refusal_of_finish (c := c) (source ++ " You are now the operator of".toList)
    (name ++ crlf) (by simpa [crlf] using hspace) (fun hmem => hends _ hmem (by simp [hhash]))
  simpa using hfinish

end Criteria

/-- The words after the command have no space. -/
theorem space_not_mem_of_mem_tail {line part : Str} (h : part ∈ (commandParts line).tail) :
    ' ' ∉ part := by
  have hpieces : ∀ piece ∈ Text.cut " ".toList (line.filter (· ≠ '\n')), ' ' ∉ piece :=
    fun piece hmem => Text.find_singleton_eq_none.mp (Text.find_of_mem_cut (by decide) hmem)
  unfold commandParts at h
  split at h
  · cases h
  · rename_i first args hcut
    exact hpieces part (hcut ▸ List.mem_cons_of_mem _ h)

namespace Server

/-- From `s` to `s'` something has been sent, but no refusal to the client. -/
def Grants (s : Server) (c : Client) (s' : Server) : Prop :=
  ∃ messages, s'.sent = s.sent ++ messages ∧ ∀ m ∈ messages, ¬ Refusal c m.2

/-- From `s` to `s'` the client at `p` has been sent a refusal. -/
def Refuses (s : Server) (p : ClientPtr) (s' : Server) : Prop :=
  ∃ messages, s'.sent = s.sent ++ messages ∧
    ∃ m ∈ messages, m.1 = (s.memory p).clientSocketFd ∧ Refusal (s.memory p) m.2

variable {s s' : Server} {p q x : ClientPtr} {ch : Channel} {text reply name : Str}

/-- Nothing is refused when nothing is sent. -/
theorem Grants.refl (s : Server) (c : Client) : s.Grants c s := ⟨[], by simp, by simp⟩

/-- Messages that refuse nothing may be sent. -/
theorem Grants.sendAll (h : s.Grants c s') {messages : List (Fd × Str)}
    (hmessages : ∀ m ∈ messages, ¬ Refusal c m.2) : s.Grants c (s'.sendAll messages) := by
  obtain ⟨before, hsent, hbefore⟩ := h
  refine ⟨before ++ messages, by simp [Server.sendAll, hsent], fun m hm => ?_⟩
  rcases List.mem_append.mp hm with hm | hm
  · exact hbefore m hm
  · exact hmessages m hm

/-- The tables have no part in it. -/
theorem Grants.withTables (h : s.Grants c s') (t : Tables) : s.Grants c (s'.withTables t) := h

/-- Nor has the count of uses. -/
theorem Grants.useFreed (h : s.Grants c s') (name : Str) : s.Grants c (s'.useFreed name) := h

/-- A message that refuses nothing may be sent. -/
theorem Grants.send (h : s.Grants c s') {fd : Fd} (hbytes : ¬ Refusal c bytes) :
    s.Grants c (s'.send fd bytes) :=
  Grants.sendAll h (by simpa using hbytes)

/-- So may one with its CRLF. -/
theorem Grants.sendMessage (h : s.Grants c s') (hbytes : ¬ Refusal c (text ++ crlf)) :
    s.Grants c (s'.sendMessage q text) := h.send hbytes

/-- So may one to all members. -/
theorem Grants.broadcastMessage (h : s.Grants c s') (hbytes : ¬ Refusal c (text ++ crlf)) :
    s.Grants c (s'.broadcastMessage ch text) := by
  refine h.sendAll fun m hm => ?_
  obtain ⟨q, -, rfl⟩ := List.mem_map.mp hm
  exact hbytes

/-- A list of members is no refusal. -/
theorem Grants.sendChannelUserList (h : s.Grants c s') (hnick : ' ' ∉ c.nickname) (ch : Channel)
    (q : ClientPtr) : s.Grants c (s'.sendChannelUserList ch q) := by
  refine (h.broadcastMessage ?_).broadcastMessage ?_
  · have hstart := not_refusal_of_start ": 353 ".toList hnick (by decide) (by decide) (by decide)
    unfold rplNamReply
    simp only [List.append_assoc]
    exact hstart _
  · have hstart := not_refusal_of_start "366 ".toList hnick (by decide) (by decide) (by decide)
    unfold rplEndOfNames
    simp only [List.append_assoc]
    exact hstart _

/-- The farewell of a channel that is deleted ends with a word of its own. -/
theorem Grants.partRemoved (h : s.Grants c s') (name nick : Str) :
    s.Grants c (s'.partRemoved name nick) := by
  unfold Server.partRemoved
  split
  · rename_i q hq
    refine h.sendMessage ?_
    have hfinish := not_refusal_of_finish (c := c)
      ((s'.memory q).getPrefix ++ " :".toList ++ (s'.memory q).nickname ++ " PART ".toList ++
        name ++ " :The channel has been".toList) ("removed".toList ++ crlf ++ crlf)
      (by decide) (by decide)
    unfold rplPart
    simpa using hfinish
  · exact h

/-- The farewells of a removed channel refuse nothing. -/
theorem Grants.removeChannel (h : s.Grants c s') (name : Str) :
    s.Grants c (s'.removeChannel name) := by
  have htold : ∀ (nicks : List Str) (s' : Server), s.Grants c s' →
      s.Grants c (nicks.foldl (fun s nick => s.partRemoved name nick) s') := by
    intro nicks
    induction nicks with
    | nil => exact fun s' h => h
    | cons nick nicks ih => exact fun s' h => ih _ (h.partRemoved name nick)
  unfold Server.removeChannel
  split
  · exact (htold _ s' h).withTables _
  · exact h

/-- What a departure sends. -/
theorem Grants.removeClientFromChannel (h : s.Grants c s') (hnick : ' ' ∉ c.nickname)
    (hch : s'.channels[name]? = some ch) (hspace : ' ' ∉ ch.name)
    (hhash : ch.name.head? = some '#') (x : ClientPtr) :
    s.Grants c (s'.removeClientFromChannel name x) := by
  unfold Server.removeClientFromChannel
  rw [hch]
  dsimp only
  split
  · split
    · exact ((h.withTables _).removeChannel _).useFreed _
    · rename_i front rest herase
      split
      · refine Grants.sendChannelUserList (Grants.sendMessage ((h.withTables _).withTables _) ?_)
          hnick _ _
        exact not_refusal_of_operator hspace hhash _
      · exact (h.withTables _).sendChannelUserList hnick _ _
  · exact h

section Handlers

variable {parts : List Str}

/-- `PASS` changes a table only when it accepts the password. -/
theorem pass_grants (hnick : ' ' ∉ (s.memory p).nickname) :
    (s.pass p parts).toTables = s.toTables ∨ s.Grants (s.memory p) (s.pass p parts) := by
  unfold pass
  split
  · split
    · exact Or.inl rfl
    · split
      · refine Or.inr ((Grants.refl s _).withTables _ |>.sendMessage ?_)
        exact not_refusal_of_start "Password ".toList hnick (by decide) (by decide) (by decide)
          ("accepted".toList ++ crlf)
      · exact Or.inl rfl
  · exact Or.inl rfl

/-- `NICK` sends nothing when it accepts the nickname. -/
theorem nick_grants (c : Client) :
    (s.nick p parts).toTables = s.toTables ∨ s.Grants c (s.nick p parts) := by
  unfold nick
  split
  · exact Or.inl rfl
  · split
    · split
      · exact Or.inl rfl
      · exact Or.inr ((Grants.refl s c).withTables _)
    · exact Or.inl rfl

/-- The welcome ends with the new prefix. -/
theorem user_grants (hnick : ' ' ∉ (s.memory p).nickname)
    (hparts : ∀ part ∈ parts.tail, ' ' ∉ part) :
    (s.user p parts).toTables = s.toTables ∨ s.Grants (s.memory p) (s.user p parts) := by
  unfold user
  split
  · exact Or.inl rfl
  · split
    · rename_i word username clientIp name more
      split
      · exact Or.inl rfl
      · refine Or.inr ?_
        dsimp only
        refine Grants.send (Grants.withTables (Grants.sendMessage ((Grants.refl s _).withTables _)
          ?_) _) ?_
        · have hsolid : ' ' ∉ { s.memory p with
              username := username, clientIp := clientIp,
              realname := dropColon (appendWords name more) }.getPrefix :=
            space_not_mem_getPrefix hnick (hparts username (by simp)) (hparts clientIp (by simp))
          simp only [nickOf, prefixOf, withTables_toTables, Tables.setClient_memory_self]
          exact not_refusal_of_welcome hsolid _ _
        · have hstart := not_refusal_of_start "PRIVMSG ".toList hnick (by decide) (by decide)
            (by decide)
          simp only [List.append_assoc]
          exact hstart _
    · exact Or.inl rfl

/-- What a client that joins is sent. -/
theorem join_grants (hnick : ' ' ∉ (s.memory p).nickname) :
    (s.join p parts).toTables = s.toTables ∨ s.Grants (s.memory p) (s.join p parts) := by
  have hannounce : ∀ ch name, s.Grants (s.memory p)
      (((s.withTables (s.setChannel name ch)).broadcastMessage ch
        (rplJoin (s.prefixOf p) ch.name)).sendChannelUserList ch p) := by
    intro ch name
    refine ((Grants.refl s _).withTables _ |>.broadcastMessage ?_).sendChannelUserList hnick ch p
    unfold rplJoin
    simp only [List.append_assoc]
    rw [← List.append_assoc]
    exact not_refusal_of_source hnick rfl _
  unfold join
  split
  · split
    · unfold joinChannel
      dsimp only
      split
      · exact Or.inl rfl
      · split
        · split
          · exact Or.inl rfl
          · split
            · exact Or.inl rfl
            · split
              · exact Or.inl rfl
              · exact Or.inr (hannounce _ _)
        · exact Or.inr (hannounce _ _)
    · exact Or.inl rfl
  · exact Or.inl rfl

/-- `TOPIC` tells the members of the new topic. -/
theorem topic_grants (hnick : ' ' ∉ (s.memory p).nickname) :
    (s.topic p parts).toTables = s.toTables ∨ s.Grants (s.memory p) (s.topic p parts) := by
  unfold topic
  split
  · split
    · exact Or.inl rfl
    · split
      · split <;> exact Or.inl rfl
      · split
        · exact Or.inl rfl
        · refine Or.inr ((Grants.refl s _).withTables _ |>.broadcastMessage ?_)
          unfold rplTopic
          simp only [List.append_assoc]
          exact not_refusal_of_start "332 ".toList hnick (by decide) (by decide) (by decide) _
  · exact Or.inl rfl

/-- What the end of `KICK` sends. -/
theorem kickMember_grants (hnick : ' ' ∉ (s.memory p).nickname) (hch : s.channels[name]? = some ch)
    (hspace : ' ' ∉ ch.name) (hhash : ch.name.head? = some '#') (target : ClientPtr)
    (reason : Str) :
    (s.kickMember p target name reason).Leaves fun s' => s.Grants (s.memory p) s' := by
  have hremoved :=
    (Grants.refl s (s.memory p)).removeClientFromChannel hnick hch hspace hhash target
  have htables := removeClientFromChannel_toTables s name target
  have hsource : ∀ rest, ¬ Refusal (s.memory p)
      (":".toList ++ ((s.removeClientFromChannel name target).memory p).getPrefix ++ rest) := by
    intro rest
    rw [htables, Tables.leave_memory]
    exact not_refusal_of_source hnick rfl rest
  have htext : ¬ Refusal (s.memory p)
      (rplKick ((s.removeClientFromChannel name target).prefixOf p) name
        ((s.removeClientFromChannel name target).nickOf target) reason ++ crlf) := by
    unfold rplKick
    simp only [List.append_assoc]
    rw [← List.append_assoc]
    exact hsource _
  have hreason : ∀ rest, ¬ Refusal (s.memory p)
      ("You have been kicked from the channel ".toList ++ rest) :=
    not_refusal_of_start "You have been kicked from the channel ".toList hnick (by decide)
      (by decide) (by decide)
  unfold kickMember
  refine Outcome.Leaves.require fun ch _ => Outcome.leaves_done.mpr ?_
  refine (Grants.sendMessage ((hremoved.broadcastMessage htext).sendMessage htext)
    ?_).sendChannelUserList hnick ch p
  simp only [List.append_assoc]
  exact hreason _

/-- `KICK` removes a member only when nothing speaks against it. -/
theorem kick_grants (hnick : ' ' ∉ (s.memory p).nickname) (hparts : ∀ part ∈ parts.tail, ' ' ∉ part)
    (hentered : s.ChannelsEntered) :
    (s.kick p parts).Leaves fun s' =>
      s'.toTables = s.toTables ∨ s.Grants (s.memory p) s' := by
  unfold kick
  split
  · rename_i word channelName nickname words
    split
    · exact Outcome.leaves_done.mpr (Or.inl rfl)
    · rename_i ch hch
      split
      · exact Outcome.leaves_done.mpr (Or.inl rfl)
      · split
        · exact Outcome.leaves_done.mpr (Or.inl rfl)
        · split
          · exact Outcome.leaves_done.mpr (Or.inl rfl)
          · have hch' := hentered channelName ch hch
            refine (kickMember_grants hnick hch ?_ (hch'.keyed ▸ hch'.hash) _ _).imp
              fun _ => Or.inr
            rw [hch'.keyed]
            exact hparts channelName (by simp)
  · exact Outcome.leaves_done.mpr (Or.inl rfl)

/-- The farewell of `QUIT` is no refusal. -/
theorem quit_grants (env : Env) (hnick : ' ' ∉ (s.memory p).nickname) (parts : List Str) :
    (s.quit env p parts).Leaves fun s' => s.Grants (s.memory p) s' := by
  have hfarewell : ¬ Refusal (s.memory p) (rplQuit (s.memory p).getPrefix (msgMerge parts)) := by
    unfold rplQuit
    simp only [List.append_assoc]
    exact not_refusal_of_start " :".toList hnick (by decide) (by decide) (by decide) _
  unfold quit
  refine Outcome.Leaves.andThen ?_ fun s' h => Outcome.leaves_done.mpr (h.withTables _)
  refine Outcome.Leaves.each (fun other _ s' h => ?_) (Grants.refl s _)
  unfold quitTell
  refine Outcome.Leaves.ite (fun _ => Outcome.Leaves.ite (fun _ => ?_) (fun _ => ?_)) (fun _ => ?_)
  · exact Outcome.leaves_thrown.mpr h
  · exact Outcome.leaves_done.mpr (h.send hfarewell)
  · exact Outcome.leaves_done.mpr h

/-- Every command but `PART` leaves the tables as they are, or refuses nothing. -/
theorem handleRegistered_grants (env : Env) (hnick : ' ' ∉ (s.memory p).nickname)
    (hparts : ∀ part ∈ parts.tail, ' ' ∉ part) (hentered : s.ChannelsEntered) {verb : Verb}
    (hpart : verb ≠ .part) : (s.handleRegistered env p parts verb).Leaves fun s' =>
      s'.toTables = s.toTables ∨ s.Grants (s.memory p) s' := by
  cases verb with
  | join => exact Outcome.leaves_done.mpr (join_grants hnick)
  | privmsg => exact (privmsg_leaves env s p parts).imp fun _ h => Or.inl h
  | list => exact Outcome.leaves_done.mpr (Or.inl (list_toTables s p))
  | part => exact (hpart rfl).elim
  | topic => exact Outcome.leaves_done.mpr (topic_grants hnick)
  | kick => exact kick_grants hnick hparts hentered
  | quit => exact (quit_grants env hnick parts).imp fun _ h => Or.inr h
  | cap | pass | nick | user | unknown => exact Outcome.leaves_done.mpr (Or.inl rfl)

end Handlers

/-- A line but `PART` leaves the tables as they were, or is not refused. -/
theorem commandParser_grants (env : Env) {line : Str} (hnick : ' ' ∉ (s.memory p).nickname)
    (hentered : s.ChannelsEntered) (hpart : ¬ AsksPart (commandParts line)) :
    (commandParser env line p s).Leaves fun s' =>
      s'.toTables = s.toTables ∨ s.Grants (s.memory p) s' := by
  have hparts : ∀ part ∈ (commandParts line).tail, ' ' ∉ part :=
    fun _ => space_not_mem_of_mem_tail
  unfold commandParser handleCommand
  split
  · exact Outcome.leaves_done.mpr (Or.inl rfl)
  · split
    · exact Outcome.leaves_done.mpr (Or.inl rfl)
    · rename_i word args hwords
      rw [hwords] at hpart hparts
      split
      · exact Outcome.leaves_done.mpr (Or.inl (cap_toTables s p _))
      · exact Outcome.leaves_done.mpr (pass_grants hnick)
      · exact Outcome.leaves_done.mpr (nick_grants _)
      · exact Outcome.leaves_done.mpr (user_grants hnick hparts)
      · refine Outcome.Leaves.ite (fun _ => ?_) (fun _ => Outcome.leaves_done.mpr (Or.inl rfl))
        exact handleRegistered_grants env hnick hparts hentered fun hverb =>
          hpart ⟨word, args, rfl, hverb⟩

end Server

namespace Tables

variable {t : Tables}

/-- No nickname has a space. -/
def NicksSolid (t : Tables) : Prop := ∀ p, ' ' ∉ (t.memory p).nickname

/-- The client that a lookup adds has no nickname yet. -/
theorem NicksSolid.index (h : t.NicksSolid) (fd : Fd) (junk : Leftover) :
    (t.index fd junk).1.NicksSolid := by
  unfold Tables.index
  split
  · exact h
  · intro p
    dsimp only
    rw [Function.update_apply]
    split
    · simp [Client.default]
    · exact h p

/-- A nickname without a blank may be written. -/
theorem NicksSolid.setClient (h : t.NicksSolid) {p : ClientPtr} {f : Client → Client}
    (hf : ' ' ∉ (f (t.memory p)).nickname) : (t.setClient p f).NicksSolid := by
  intro q
  by_cases hq : q = p
  · rw [hq, setClient_memory_self]
    exact hf
  · rw [setClient_memory_ne t f hq]
    exact h q

end Tables

/-- Nicknames are words of a line. -/
theorem Effect.nicksSolid {p : ClientPtr} {line : Str} {t t' : Tables}
    (heffect : Effect p (commandParts line) t t') (h : t.NicksSolid) : t'.NicksSolid := by
  cases heffect with
  | quiet => exact h
  | authenticated hpass => exact h.setClient (h p)
  | renamed nick hnick =>
      obtain ⟨word, rest, hparts, -⟩ := hnick
      have hmem : nick ∈ (commandParts line).tail := by simp [hparts]
      have hsolid : ' ' ∉ nick := space_not_mem_of_mem_tail hmem
      exact Tables.NicksSolid.setClient (p := p)
        (f := fun c => { c with nickname := nick, hasNick := true }) h hsolid
  | registered username clientIp realname huser => exact h.setClient (h p)
  | joined name ch next hruns hch hnew hroom hnext => exact h
  | created name key hruns hlen hhash hch => exact h
  | parted names hruns hnames =>
      intro q
      rw [Tables.leaveAll_frame]
      exact h q
  | topicSet name topic ch hruns hch hop => exact h
  | kicked name target ch hruns hch hop hlive hmem htarget =>
      intro q
      rw [Tables.leave_memory]
      exact h q

/-- Nicknames are words of a line, so they have no blank. -/
theorem nicksSolid_step {w next : World} {a : Action} (h : w.srv.NicksSolid)
    (hstep : step w a = some next) : next.srv.NicksSolid := by
  rcases (step_move hstep).closes_or with ⟨f, _, htables⟩ |
    ⟨_, ⟨fd, ip, port, _, htables⟩ | htables | ⟨env, fd, line, lines, _, _, heffect⟩⟩
  · have hentered : (w.entered a).NicksSolid := by
      unfold World.entered
      split
      · split
        · exact h.index _ _
        · exact h
      · exact h
    intro p
    rw [htables, Tables.closeConnection_memory]
    exact hentered p
  · have hset := (h.index fd ⟨fd, port, false, false, false⟩).setClient
      (p := (w.srv.index fd ⟨fd, port, false, false, false⟩).2)
      (f := fun _ => Client.connected fd ip port) List.not_mem_nil
    rw [htables, Tables.acceptConnection_eq]
    exact hset
  · rw [htables]
    exact h
  · exact heffect.nicksSolid (h.index fd env.leftover)

/-- In every reachable state no nickname has a space. -/
theorem nicksSolid {trace : Run.Trace World Action} {w : World} (run : Steps trace w) :
    w.srv.NicksSolid := by
  refine run.invariant (fun w => w.srv.NicksSolid) (fun w hstart => ?_)
    fun _ _ _ => nicksSolid_step
  obtain ⟨password, host, serverSocket, botSocket, _, rfl⟩ := hstart
  intro p
  simp [initial, Client.connected]

/-- Who has been sent no refusal has not been sent one. -/
theorem Server.Grants.not_refuses {s s' : Server} {p : ClientPtr}
    (h : s.Grants (s.memory p) s') : ¬ s.Refuses p s' := by
  obtain ⟨messages, hsent, hnone⟩ := h
  rintro ⟨messages', hsent', m, hm, -, hrefusal⟩
  obtain rfl : messages = messages' := List.append_cancel_left (hsent.symm.trans hsent')
  exact hnone m hm hrefusal

/-- **Refused commands.**  In every reachable state, a line of a connected client
that is no `PART` changes no table if the client is sent a refusal. -/
theorem refused_changes_nothing {trace : Run.Trace World Action} {w next : World}
    (run : Steps trace w) {env : Env} {fd : Fd} {p : ClientPtr} {line : Str} {lines : List Str}
    (hp : w.srv.clients[fd]? = some p) (hpart : ¬ AsksPart (commandParts line))
    (hnext : w.command env fd line lines = some next) (hrefused : w.srv.Refuses p next.srv) :
    next.srv.toTables = w.srv.toTables := by
  have hnick := nicksSolid run p
  have hentered := channelsEntered run
  have hleaves := Server.commandParser_grants env hnick hentered hpart
  unfold World.command at hnext
  rw [Tables.index_of_some hp] at hnext
  dsimp only at hnext
  rw [show w.srv.withTables w.srv.toTables = w.srv from rfl] at hnext
  cases houtcome : Server.commandParser env line p w.srv with
  | done s' =>
      rw [houtcome] at hnext hleaves
      cases hnext
      exact (Outcome.leaves_done.mp hleaves).resolve_right fun h => h.not_refuses hrefused
  | thrown e s' =>
      -- only `QUIT` throws, and it refuses nothing
      have hquit : RunsRegistered w.srv.toTables p (commandParts line) .quit := by
        by_contra hquit
        exact commandParser_not_thrown hquit e s' houtcome
      have hgrants := Server.quit_grants env hnick (commandParts line)
      rw [commandParser_quit hquit] at houtcome
      rw [houtcome] at hgrants
      rw [commandParser_quit hquit, houtcome] at hnext
      cases hnext
      exact ((Outcome.leaves_thrown.mp hgrants).not_refuses hrefused).elim
  | fault f =>
      rw [houtcome] at hnext
      cases hnext

/-- A client joins a channel without its key. -/
theorem refused_changes_nothing_key : ∃ trace w next, Steps trace w ∧
    w.command Env.calm 6 "JOIN #c".toList [] = some next ∧
    next.srv.sent = w.srv.sent ++
      [((6 : Fd), "b!b@b 475 b #c :Cannot join channel (+k)\r\n\r\n".toList)] ∧
    next.srv.toTables = w.srv.toTables := by
  obtain ⟨trace, w, run, htest⟩ := Run.exists_steps_of_perform step start_pw
    ([.accept 5 "10.0.0.1".toList 40000, .accept 6 "10.0.0.2".toList 40000] ++
      packet 5 ["PASS pw", "NICK a", "USER a a a n", "JOIN #c key"] ++
      packet 6 ["PASS pw", "NICK b", "USER b b b n"])
    (fun w => w.srv.clients[(6 : Fd)]? = some 1 ∧
      (w.srv.memory 1).getPrefix = "b!b@b".toList ∧ (w.srv.memory 1).clientSocketFd = 6 ∧
      (w.command Env.calm 6 "JOIN #c".toList []).any fun next => next.srv.sent = w.srv.sent ++
        [((6 : Fd), "b!b@b 475 b #c :Cannot join channel (+k)\r\n\r\n".toList)])
    (by decide +kernel)
  obtain ⟨hp, hsource, hfd, hany⟩ := of_decide_eq_true htest
  obtain ⟨next, hnext, hsent⟩ := (Option.any_eq_true _ _).mp hany
  have hsent' := of_decide_eq_true hsent
  have hpart : ¬ AsksPart (commandParts "JOIN #c".toList) := by
    rintro ⟨word, args, hparts, hverb⟩
    have hwords : commandParts "JOIN #c".toList = ["JOIN".toList, "#c".toList] := by decide
    rw [hwords] at hparts
    cases hparts
    exact absurd hverb (by decide)
  refine ⟨trace, w, next, run, hnext, hsent', refused_changes_nothing run hp hpart hnext ?_⟩
  refine ⟨_, hsent', _, List.mem_singleton_self _, hfd.symm, Or.inr (Or.inr ?_)⟩
  exact ⟨_, .badChannelKey "b".toList "#c".toList, Or.inr (by rw [hsource]; decide)⟩

end Irc
