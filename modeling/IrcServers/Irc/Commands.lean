import IrcServers.Irc.Bot

/-!
# Command handlers of the `_irc_` server

One function for each file under `commands/`, and the dispatch of
`CommandParser`.  A handler gets the address of the issuing client, as in the
source, and the words of the line; a check of `commandParts.size()` becomes a
pattern on the list of words.

Only three handlers can fail to return: `PRIVMSG` to a channel uses the result
of a lookup without a null check, `KICK` goes on with a channel that the removal
of its last member has deleted, and `QUIT` sends through `Server::sendMessage`,
which throws when `send` reports an error.
-/

namespace Irc

/-- What the environment decides while one line is handled: the contents of
uninitialised members, the text of `asctime`, and the descriptors on which
`send` fails. -/
structure Env where
  leftover : Leftover
  now : Str
  sendFails : Fd → Bool

/-- `class ServerException`, as thrown by `Server::sendMessage`. -/
inductive ServerException where
  | sending

/-- A point where the source has no defined behaviour: a client that is looked
up and not found, and a channel whose members and name are read after it was
deleted. -/
inductive Fault where
  | nullClient | freedChannel

abbrev Result := Outcome Server ServerException Fault

/-- The loop `text += " " + word` over the remaining words. -/
def appendWords (text : Str) (words : List Str) : Str :=
  words.foldl (fun text word => text ++ (" ".toList ++ word)) text

/-- The loop that adds a space after every word but the last, as in `TOPIC`
and `PART`. -/
def joinWords (words : List Str) : Str :=
  words.zipIdx.foldl (fun text entry =>
    text ++ entry.1 ++ (if entry.2 ≠ words.length - 1 then " ".toList else [])) []

/-- `if (text[0] == ':') text.erase(0, 1)`. -/
def dropColon (text : Str) : Str :=
  if text.head? = some ':' then text.drop 1 else text

/-- `merge_privmsg`. -/
def mergePrivmsg (parts : List Str) (delim : Str) : Str :=
  parts.zipIdx.foldl (fun result entry =>
    (if entry.2 > 0 then result ++ delim else result) ++ entry.1) []

/-- `msgmerge`, or no message when `QUIT` stands alone. -/
def msgMerge : List Str → Str
  | _ :: first :: more => appendWords first more
  | _ => []

namespace Server

/-- `client->getNickname()`. -/
def nickOf (s : Server) (client : ClientPtr) : Str := (s.memory client).nickname

/-- `client->getPrefix()`. -/
def prefixOf (s : Server) (client : ClientPtr) : Str := (s.memory client).getPrefix

/-- `Cap::cap`. -/
def cap (s : Server) (client : ClientPtr) : List Str → Server
  | _ :: cap :: _ =>
      if cap = "LS".toList ∨ cap = "ls".toList then
        s.sendMessage client
          "/PASS\n/NICK\n/USER\n/JOIN\n/PRIVMSG\n/LIST\n/PART\n/TOPIC\n/KICK\n/QUIT".toList
      else s.sendReply client (errInvalidCapCmd (s.nickOf client))
  | _ => s.sendReply client (errNeedMoreParams (s.nickOf client) "CAP".toList)

/-- `Pass::pass`. -/
def pass (s : Server) (client : ClientPtr) : List Str → Server
  | _ :: pass :: _ =>
      if (s.memory client).isAuth then
        s.sendReply client (errAlreadyRegistered (s.nickOf client))
      else if pass = s.password then
        (s.withTables (s.setClient client fun c => { c with isAuth := true })).sendMessage
          client "Password accepted".toList
      else s.sendMessage client "Access denied!".toList
  | _ => s.sendReply client (errNeedMoreParams (s.nickOf client) "PASS".toList)

/-- `Nick::nick`. -/
def nick (s : Server) (client : ClientPtr) (parts : List Str) : Server :=
  if (s.memory client).isAuth = false then
    s.sendMessage client ": You must log in before this".toList
  else
    match parts with
    | _ :: nick :: _ =>
        if s.isNickTaken nick then
          s.sendReply client (errNicknameInUse (s.nickOf client) nick)
        else
          s.withTables ((s.registerNick nick (s.memory client).clientSocketFd).setClient
            client fun c => { c with nickname := nick, hasNick := true })
    | _ => s.sendReply client (errNoNicknameGiven (s.nickOf client))

/-- `User::user`. -/
def user (s : Server) (client : ClientPtr) (parts : List Str) : Server :=
  if (s.memory client).hasNick = false then
    s.sendMessage client ": You must set a nickname before this".toList
  else
    match parts with
    | _ :: username :: clientIp :: name :: more =>
        if (s.memory client).username ≠ [] then
          s.sendReply client (errAlreadyRegistered (s.nickOf client))
        else
          let realname := dropColon (appendWords name more)
          let s := s.withTables (s.setClient client fun c =>
            { c with username := username, clientIp := clientIp, realname := realname })
          let s := s.sendReply client
            (rplWelcome s.host (s.nickOf client) (s.prefixOf client))
          let s := s.withTables (s.setClient client fun c => { c with loged := true })
          s.botSendMsg (s.nickOf client) "Welcome Our IRC Server !!".toList
    | _ => s.sendReply client (errNeedMoreParams (s.nickOf client) "USER".toList)

/-- `joinChannel`. -/
def joinChannel (s : Server) (client : ClientPtr) (channelName : Str)
    (parts : List Str) : Server :=
  let channelPass := (parts[2]?).getD []
  if channelName.length < 2 ∨ channelName.head? ≠ some '#' then
    s.sendReply client (errNoSuchChannel (s.nickOf client) channelName)
  else
    match s.channels[channelName]? with
    | some ch =>
        if ch.isUserOnChannel client then
          s.sendReply client (errUserOnChannel (s.nickOf client) channelName)
        else if ch.key ≠ channelPass then
          s.sendReply client (errBadChannelKey (s.nickOf client) channelName)
        else if ch.userLimit ≤ ch.curClients.length then
          s.sendReply client (errChannelIsFull (s.nickOf client) channelName)
        else
          let joined := ch.addClient client
          let joined := if joined.userLimit = 1 then joined.setOp (s.nickOf client)
            else joined
          let s := s.withTables (s.setChannel channelName joined)
          let s := s.broadcastMessage joined (rplJoin (s.prefixOf client) joined.name)
          s.sendChannelUserList joined client
    | none =>
        let created := ((Channel.new channelName).addClient client).makeOp client
          (s.nickOf client)
        let created := { created with key := channelPass }
        let s := s.withTables (s.setChannel created.name created)
        let s := s.broadcastMessage created (rplJoin (s.prefixOf client) created.name)
        s.sendChannelUserList created client

/-- `Join::join`. -/
def join (s : Server) (client : ClientPtr) (parts : List Str) : Server :=
  match parts with
  | _ :: channel :: _ => if channel ≠ [] then s.joinChannel client channel parts else s
  | _ => s.sendReply client (errNeedMoreParams (s.nickOf client) "JOIN".toList)

/-- The line `Privmsg::privmsg` relays. -/
def relayLine (s : Server) (client : ClientPtr) (target message : Str) : Str :=
  ":".toList ++ s.nickOf client ++ " PRIVMSG ".toList ++ target ++ " :".toList ++ message

/-- One round of the channel loop of `Privmsg::privmsg`: the member's nickname
is looked up twice, and the result is used without a null check. -/
def relayToMember (client : ClientPtr) (target message memberNick : Str) (s : Server) :
    Result :=
  match s.getClient (s.clientFind memberNick) with
  | none => .fault .nullClient
  | some targetClient =>
      if (s.memory targetClient).clientSocketFd ≠ (s.memory client).clientSocketFd ∧
          s.nickOf targetClient ≠ botNick then
        .done (s.sendMessage targetClient (s.relayLine client target message))
      else .done s

/-- The text of a `PRIVMSG` after the bot has seen it, with what the bot
sent on the occasion. -/
def privmsgText (s : Server) (now : Str) (client : ClientPtr) (words : List Str) :
    Server × Str :=
  let message := dropColon (mergePrivmsg words " ".toList)
  if s.nickOf client ≠ botNick then
    s.processMessage now (s.nickOf client ++ "!".toList ++ message)
  else (s, message)

/-- `Privmsg::privmsg`. -/
def privmsg (env : Env) (s : Server) (client : ClientPtr) : List Str → Result
  | command :: target :: word :: words =>
      let message := (s.privmsgText env.now client (word :: words)).2
      let s := (s.privmsgText env.now client (word :: words)).1
      if (command = "PRIVMSG".toList ∨ command = "/PRIVMSG".toList) ∧
          target.head? ≠ some '#' then
        match s.getClient (s.clientFind target) with
        | none => .done (s.sendMessage client (errNoSuchNick (s.prefixOf client) target))
        | some targetClient =>
            .done (s.sendMessage targetClient (s.relayLine client target message))
      else
        match s.channels[target]? with
        | none => .done s
        | some ch =>
            if ch.isUserOnChannel client ∨ botNick = s.nickOf client then
              Outcome.each (relayToMember client target message) (s.getChannelClients ch) s
            else .done s
  | [_, _] => .done (s.sendMessage client (errNoTextToSend (s.prefixOf client)))
  | _ => .done (s.sendReply client (errNeedMoreParams (s.nickOf client) "PRIVMSG".toList))

/-- One line of the `LIST` reply. -/
def listChannel (client : ClientPtr) (s : Server) (ch : Channel) : Server :=
  if ch.curClients.length = 0 then s
  else s.sendReply client (rplList (s.nickOf client) ch.name
    (toString ch.curClients.length).toList ch.topic)

/-- `List::list`. -/
def list (s : Server) (client : ClientPtr) : Server :=
  let s := s.sendReply client (rplListStart (s.nickOf client) s.host)
  let s := s.channels.toList.foldl (fun s entry => s.listChannel client entry.2) s
  s.sendReply client (rplListEnd (s.nickOf client))

/-- One round of the loop of `Part::part`. -/
def partChannel (client : ClientPtr) (message : Str) (s : Server) (channelName : Str) :
    Server :=
  match s.channels[channelName]? with
  | none => s.sendReply client (errNoSuchChannel (s.nickOf client) channelName)
  | some ch =>
      if ch.isUserOnChannel client then
        let farewell := rplPart (s.prefixOf client) ch.name message
        let s := s.sendReply client farewell
        let s := s.broadcastMessage ch farewell
        let s := s.removeClientFromChannel channelName client
        match s.channels[channelName]? with
        | some ch => s.sendChannelUserList ch client
        | none => s
      else s.sendReply client (errNotOnChannel (s.nickOf client) channelName)

/-- `Part::part`. -/
def part (s : Server) (client : ClientPtr) : List Str → Server
  | _ :: channels :: words =>
      let message := dropColon (joinWords words)
      (Text.cut ",".toList channels).foldl (partChannel client message) s
  | _ => s.sendReply client (errNeedMoreParams (s.nickOf client) "PART".toList)

/-- `Topic::topic`. -/
def topic (s : Server) (client : ClientPtr) : List Str → Server
  | _ :: channelName :: words =>
      match s.channels[channelName]? with
      | none => s.sendReply client (errNoSuchChannel (s.nickOf client) channelName)
      | some ch =>
          match words with
          | [] =>
              if ch.topic = [] then
                s.sendReply client (rplNoTopic (s.nickOf client) channelName)
              else s.sendReply client (rplTopic (s.nickOf client) channelName ch.topic)
          | _ =>
              if ch.opNick ≠ s.nickOf client then
                s.sendReply client (errChanOPrivsNeeded (s.nickOf client) channelName)
              else
                let newTopic := joinWords words
                let set := { ch with topic := newTopic }
                let s := s.withTables (s.setChannel channelName set)
                s.broadcastMessage set (rplTopic (s.nickOf client) channelName newTopic)
  | _ => s.sendReply client (errNeedMoreParams (s.nickOf client) "TOPIC".toList)

/-- The `reason` of `Kick::kick`. -/
def kickReason : List Str → Str
  | [] => "No reason specified".toList
  | first :: more => appendWords first more

/-- The end of `Kick::kick`.  The `Channel*` was looked up before the removal;
if the object went with its last member, `broadcastMessage` reads the members of
a deleted channel and `sendChannelUserList` copies its name. -/
def kickMember (s : Server) (client target : ClientPtr) (channelName reason : Str) : Result :=
  let s := s.removeClientFromChannel channelName target
  Outcome.require s.channels[channelName]? .freedChannel fun ch =>
    let text := rplKick (s.prefixOf client) channelName (s.nickOf target) reason
    let s := s.broadcastMessage ch text
    let s := s.sendMessage target text
    let s := s.sendMessage target ("You have been kicked from the channel ".toList ++
      channelName ++ " by ".toList ++ s.nickOf client ++ " Reason: ".toList ++ reason)
    .done (s.sendChannelUserList ch client)

/-- `Kick::kick`. -/
def kick (s : Server) (client : ClientPtr) : List Str → Result
  | _ :: channelName :: targetNickname :: words =>
      match s.channels[channelName]? with
      | none => .done (s.sendReply client (errNoSuchChannel (s.nickOf client) channelName))
      | some ch =>
          if ch.opNick ≠ s.nickOf client then
            .done (s.sendReply client (errChanOPrivsNeeded (s.nickOf client) channelName))
          else
            match s.getClient targetNickname with
            | none =>
                .done (s.sendMessage client (errNoSuchNick (s.nickOf client) targetNickname))
            | some target =>
                if ch.isUserOnChannel target = false then
                  .done (s.sendReply client
                    (errUserNotInChannel (s.nickOf client) targetNickname channelName))
                else s.kickMember client target channelName (kickReason words)
  | _ => .done (s.sendReply client (errNeedMoreParams (s.nickOf client) "KICK".toList))

/-- One round of the loop of `Quit::quit`, for one client of the copied map. -/
def quitTell (env : Env) (quitter : Client) (text : Str) (other : Client) (s : Server) :
    Result :=
  if quitter.clientSocketFd ≠ other.clientSocketFd ∧
      quitter.clientSocketFd ≠ s.botSocket then
    if env.sendFails other.clientSocketFd then .thrown .sending s
    else .done (s.send other.clientSocketFd text)
  else .done s

/-- `Quit::quit`. -/
def quit (env : Env) (s : Server) (client : ClientPtr) (parts : List Str) : Result :=
  let quitter := s.memory client
  let text := rplQuit quitter.getPrefix (msgMerge parts)
  (Outcome.each (quitTell env quitter text) (s.entries.map fun entry => s.memory entry.2)
    s).andThen fun s => .done (s.withTables (s.closeConnection quitter.clientSocketFd))

end Server

/-- The commands `CommandParser::handleCommand` tells apart. -/
inductive Verb where
  | cap | pass | nick | user | join | privmsg | list | part | topic | kick | quit | unknown
deriving DecidableEq

/-- The comparisons of the command word, in source order. -/
def verbOf (word : Str) : Verb :=
  if word = "/CAP".toList ∨ word = "CAP".toList then .cap
  else if word = "/PASS".toList ∨ word = "PASS".toList then .pass
  else if word = "/NICK".toList ∨ word = "NICK".toList then .nick
  else if word = "/USER".toList ∨ word = "USER".toList then .user
  else if word = "/JOIN".toList ∨ word = "JOIN".toList then .join
  else if word = "/PRIVMSG".toList ∨ word = "PRIVMSG".toList then .privmsg
  else if word = "/LIST".toList ∨ word = "LIST".toList then .list
  else if word = "/PART".toList ∨ word = "PART".toList then .part
  else if word = "/TOPIC".toList ∨ word = "TOPIC".toList then .topic
  else if word = "/KICK".toList ∨ word = "KICK".toList then .kick
  else if word = "/QUIT".toList ∨ word = "QUIT".toList then .quit
  else .unknown

/-- The test before the commands that need a registered client. -/
def Client.registered (c : Client) : Bool := c.isAuth && c.loged

/-- The commands behind that test. -/
def Server.handleRegistered (env : Env) (s : Server) (client : ClientPtr)
    (parts : List Str) : Verb → Result
  | .join => .done (s.join client parts)
  | .privmsg => s.privmsg env client parts
  | .list => .done (s.list client)
  | .part => .done (s.part client parts)
  | .topic => .done (s.topic client parts)
  | .kick => s.kick client parts
  | .quit => s.quit env client parts
  | _ => .done (s.sendMessage client "Unknown command or permision denied!".toList)

/-- `CommandParser::handleCommand`. -/
def Server.handleCommand (env : Env) (s : Server) (client : ClientPtr) :
    List Str → Result
  | [] =>
      .done (s.sendMessage client (":".toList ++ (s.memory client).clientIp ++
        " 461 ".toList ++ s.nickOf client ++ " Command :Not enough parameters".toList))
  | word :: args =>
      match verbOf word with
      | .cap => .done (s.cap client (word :: args))
      | .pass => .done (s.pass client (word :: args))
      | .nick => .done (s.nick client (word :: args))
      | .user => .done (s.user client (word :: args))
      | verb =>
          if (s.memory client).registered then
            s.handleRegistered env client (word :: args) verb
          else .done (s.sendMessage client "You must login firstly".toList)

/-- The words `CommandParser::commandParser` makes of a line: newlines are
erased, the rest is cut at spaces, and the first word is put in upper case. -/
def commandParts (command : Str) : List Str :=
  match Text.cut " ".toList (command.filter (· ≠ '\n')) with
  | [] => []
  | word :: args => word.map Char.toUpper :: args

/-- `CommandParser::commandParser`. -/
def Server.commandParser (env : Env) (command : Str) (client : ClientPtr) (s : Server) :
    Result :=
  if command = [] then .done s
  else s.handleCommand env client (commandParts command)

end Irc
