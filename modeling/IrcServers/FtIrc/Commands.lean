import IrcServers.FtIrc.Parsing

/-!
# Command handlers of the `42-Ft_irc` server

`Command.cpp` and `Mode.cpp`.  A handler gets the whole message and the
descriptor it came from, and looks its client up again; a lookup that is used
without a null check goes through `Outcome.require`.  The empty handlers of a
catch list are `Outcome.catching`.

`Command::Execute` is recursive: it calls itself for every line of a message
with several lines, and `MODE` with the letter `b` calls it with a `WHO`
message for every member of the channel.  The model counts the depth of the
recursion; three levels are enough as long as channel names contain no line
break.
-/

namespace FtIrc

open Utils

/-- The client's name as it stands before most relayed messages. -/
def Client.source (c : Client) : Str :=
  ":".toList ++ c.nickName ++ "!".toList ++ c.userName ++ "@".toList

namespace Server

variable (env : Env)

/-- The same message to several clients. -/
def broadcast (s : Server) (clients : List ClientPtr) (message : Str) : Server :=
  s.sendAll ((s.fdsOf clients).map fun fd => (fd, message))

/-- A handler's block that ends with a `ServerException`. -/
def raise (s : Server) (e : Exception) : Result := .thrown e s

/-- Go on with the channel that an operation of `Channel` returns, or throw. -/
def update (s : Server) (changed : Except Exception Channel) (next : Channel → Server → Result) :
    Result :=
  match changed with
  | .ok ch => next ch (s.putChannel ch)
  | .error e => s.raise e

/-- The farewell of a `QUIT` to one member.  The message is cut at its colons
again for every member that is told. -/
def quitTell (fd : Fd) (target : Fd) (told : Server × Str) :
    Outcome (Server × Str) Exception Fault :=
  if target ≠ fd then
    Outcome.require (split told.2 colon)[1]? .outOfRange fun message =>
      Outcome.require (told.1.getClient fd) .nullClient fun client =>
        .done (told.1.send target (":".toList ++ (told.1.memory client).nickName ++
          " QUIT :".toList ++ message ++ crlf), message)
  else .done told

/-- One channel of `Command::execQuit`.  No other round of the loop changes the
channel, so its value before the loop is its value here. -/
def quitChannel (fd : Fd) (ch : Channel) (told : Server × Str) :
    Outcome (Server × Str) Exception Fault :=
  if (ch.getClient told.1.memory fd).isSome then
    (Outcome.each (quitTell fd) (told.1.fdsOf ch.clients) told).andThen fun told =>
      .done (told.1.putChannel (ch.removeClient told.1.memory (told.1.getClient fd)), told.2)
  else .done told

/-- Forget the message that the loop of `Command::execQuit` carries. -/
def forgetMessage : Outcome (Server × Str) Exception Fault → Result
  | .done told => .done told.1
  | .thrown e told => .thrown e told.1
  | .fault f => .fault f

/-- `Command::execQuit`. -/
def execQuit (s : Server) (message : Str) (fd : Fd) : Result :=
  (forgetMessage (Outcome.each (quitChannel fd) s.channels (s, message))).andThen
    fun s => .done (s.removeClient fd)

/-- The `JOIN` lines to the members of a channel; operators are told the host
name. -/
def joinTell (s : Server) (ch : Channel) (sender : Client) (name : Str) : Server :=
  s.sendAll (ch.clients.map fun p =>
    let target := (s.memory p).fd
    (target, sender.source ++
      (if (ch.getOperator s.memory target).isSome then sender.hostName else "unknown".toList) ++
      " JOIN ".toList ++ name ++ crlf))

/-- The `catch` list of `Command::execJoin`. -/
def caughtByJoin (e : Exception) : Bool :=
  e ∈ [.ban, .channelFull, .inviteOnly, .wrongPassword]

/-- `Command::execJoin`. -/
def execJoin (s : Server) (message : Str) (fd : Fd) : Result :=
  Outcome.catching caughtByJoin <|
    let info := Parser.parse message
    match s.getChannel info.function with
    | some ch =>
        if ch.password ≠ [] ∧ ch.password ≠ info.value then
          s.throwClient fd .wrongPassword (cannotJoin ch.name (Exception.joinMode .wrongPassword))
        else
          Outcome.require (s.getClient fd) .nullClient fun client =>
            match ch.refuses s.memory client with
            | some e =>
                s.throwClient (s.memory client).fd e (cannotJoin ch.name e.joinMode)
            | none =>
                let joined := ch.pushClient client
                .done ((s.putChannel joined).joinTell joined (s.memory client) info.function)
    | none =>
        Outcome.require (s.getClient fd) .nullClient fun client =>
          let created := (Channel.new info.function).pushClient client
          let sender := s.memory client
          .done ((s.addChannel created).send fd
            (sender.source ++ sender.hostName ++ " JOIN ".toList ++ info.function ++ crlf))

/-- Relay a text to a client or to the other members of a channel, as `PRIVMSG`
and `NOTICE` do; `PRIVMSG` alone sends to the sender itself. -/
def relay (s : Server) (fd : Fd) (target text : Str) (toSelf : Bool) : Server :=
  match s.getClientByNickName target with
  | some client =>
      let targetFd := (s.memory client).fd
      if toSelf ∨ targetFd ≠ fd then s.send targetFd text else s
  | none =>
      match s.getChannel target with
      | some ch =>
          s.sendAll (((s.fdsOf ch.clients).filter (· ≠ fd)).map fun targetFd => (targetFd, text))
      | none => s

/-- `Command::execPrivMsg`. -/
def execPrivMsg (s : Server) (message : Str) (fd : Fd) : Result :=
  Outcome.require (s.getClient fd) .nullClient fun client =>
    Outcome.require (Parser.privateMessage message) .outOfRange fun info =>
      .done (s.relay fd info.target (":".toList ++ (s.memory client).nickName ++
        " PRIVMSG ".toList ++ info.target ++ " :".toList ++ info.message ++ crlf) true)

/-- `Command::execNotice`. -/
def execNotice (s : Server) (message : Str) (fd : Fd) : Result :=
  Outcome.require (Parser.privateMessage message) .outOfRange fun info =>
    Outcome.require (s.getClient fd) .nullClient fun client =>
      .done (s.relay fd info.target ((s.memory client).source ++ "0 NOTICE ".toList ++
        info.target ++ " :".toList ++ info.message ++ crlf) false)

/-- `Command::execPart`. -/
def execPart (s : Server) (message : Str) (fd : Fd) : Result :=
  Outcome.require (s.getClient fd) .nullClient fun client =>
    let info := Parser.parse message
    match s.getChannel info.function with
    | some ch =>
        .done ((s.broadcast ch.clients (":".toList ++ (s.memory client).nickName ++
          " PART ".toList ++ info.function ++ crlf)).putChannel
            (ch.removeClient s.memory (some client)))
    | none => .done s

/-- The nicknames of `Command::execWho`, operators marked. -/
def clientNames (s : Server) (ch : Channel) : Str :=
  ch.clients.zipIdx.foldl (fun names entry =>
    names ++
      (if (ch.getOperator s.memory (s.memory entry.1).fd).isSome then "@".toList else []) ++
      (s.memory entry.1).nickName ++
      (if entry.2 ≠ ch.clients.length - 1 then " ".toList else [])) []

/-- `Command::execWho`. -/
def execWho (s : Server) (message : Str) (fd : Fd) : Result :=
  let info := Parser.parse message
  match s.getChannel info.function with
  | some ch =>
      Outcome.require (ch.getClient s.memory fd) .nullMember fun member =>
        let client := s.memory member
        let isOperator := (ch.getOperator s.memory fd).isSome
        let reply := fun (code : String) (text : Str) =>
          (client.fd, ":".toList ++ s.name ++ code.toList ++ client.nickName ++ text ++ crlf)
        .done (s.sendAll
          (reply " 353 " (" = ".toList ++ ch.name ++ " : ".toList ++ s.clientNames ch) ::
            reply " 366 " (" ".toList ++ ch.name ++ " :End of /NAMES list".toList) ::
            reply " 324 " (" ".toList ++ ch.name ++ ch.getModes ++ " ".toList) ::
            (ch.clients.map fun p =>
              let other := s.memory p
              reply " 352 " (" ".toList ++ ch.name ++ " ".toList ++ other.userName ++
                " ".toList ++
                (if isOperator ∨ p = member then other.hostName else "unknown".toList) ++
                " ".toList ++ s.name ++ " ".toList ++ other.nickName ++ " H :0 ".toList ++
                other.realName)) ++
            [reply " 315 " (" ".toList ++ ch.name ++ " :End of /WHO list".toList)]))
  | none => .done (s.send fd (":".toList ++ s.name ++ " 366 * :End of WHO list".toList ++ crlf))

/-- `Command::execNick`.  The handler of `NicknameInUseException` marks the
client; nothing else is caught. -/
def execNick (s : Server) (message : Str) (fd : Fd) : Result :=
  Outcome.require (s.getClient fd) .nullClient fun client =>
    let info := Parser.parse message
    let sender := (s.memory client).nickName
    if (s.getClientByNickName info.function).isSome then
      match s.throwClient fd .nicknameInUse (errNicknameInUse info.function) with
      | .thrown _ s => .done (s.setClient client fun c => { c with alreadyRegistered := true })
      | other => other
    else
      let s := s.setClient client fun c => { c with nickName := info.function }
      let s :=
        if sender ≠ "*".toList then
          s.sendAll (((s.fdsOf s.clients).filter (· ≠ fd)).map fun targetFd =>
            (targetFd, ":".toList ++ sender ++ " NICK ".toList ++ info.function ++ crlf))
        else s
      if (s.memory client).alreadyRegistered then
        (s.setClient client fun c =>
          { c with nickName := info.function, alreadyRegistered := false }).login client
      else .done s

/-- `Command::execPass`. -/
def execPass (s : Server) (message : Str) (fd : Fd) : Result :=
  Outcome.require (s.getClient fd) .nullClient fun client =>
    .done (s.setClient client fun c => { c with password := (Parser.parse message).function })

/-- `Command::execUser`. -/
def execUser (s : Server) (message : Str) (fd : Fd) : Result :=
  Outcome.require (Parser.userParse message) .outOfRange fun user =>
    Outcome.require (s.getClient fd) .nullClient fun client =>
      match (s.setClient client fun c =>
          { c with userName := user.1, realName := user.2 }).login client with
      | .thrown .passwordMismatch s => .done (s.removeClient fd)
      | other => other

/-- The `catch` list of `Mode::execOperator`. -/
def caughtByOperator (e : Exception) : Bool := e ∈ [.alreadyOperator, .notAlreadyOperator]

/-- `Mode::execOperator`.  Storing a null client is a fault of its own; when
`removeOperator` has returned, its client is not null. -/
def execOperator (s : Server) (ch : Channel) (info : ModeInfo) : Result :=
  Outcome.catching caughtByOperator <|
    let tell := fun (client : ClientPtr) (flag : String) (s : Server) =>
      s.broadcast ch.clients ((s.memory client).source ++ " MODE ".toList ++ ch.name ++
        flag.toList ++ info.parameters ++ crlf)
    if info.status then
      Outcome.require (ch.getClientByNickName s.memory info.parameters) .nullPush fun client =>
        s.update (ch.addOperator client) fun _ s => .done (tell client " +o " s)
    else
      s.update (ch.removeOperator (ch.getClientByNickName s.memory info.parameters)) fun _ s =>
        Outcome.require (ch.getClientByNickName s.memory info.parameters) .nullMember
          fun client => .done (tell client " -o " s)

/-- The `catch` list of `Mode::execBan`. -/
def caughtByBan (e : Exception) : Bool := e ∈ [.notAlreadyBan, .alreadyBan]

/-- The list of bans, for a `+b` without a parameter. -/
def listBans (s : Server) (ch : Channel) (fd : Fd) : Result :=
  Outcome.require (s.getClient fd) .nullClient fun client =>
    let reply := fun (code : String) (text : Str) =>
      (fd, ":".toList ++ s.name ++ code.toList ++ (s.memory client).nickName ++ " ".toList ++
        ch.name ++ text ++ crlf)
    .done (s.sendAll
      ((ch.bans.map fun p => reply " 367 " (" ".toList ++ (s.memory p).hostName)) ++
        [reply " 368 " " :End of Channel Ban List".toList]))

/-- Ban one member of the channel. -/
def banClient (name : Str) (client : ClientPtr) (s : Server) : Result :=
  match s.getChannel name with
  | none => .done s
  | some ch =>
      s.update (ch.addBan s.memory client) fun _ s =>
        .done (s.send (s.memory client).fd (":".toList ++ s.name ++ " KICK ".toList ++
          ch.name ++ " ".toList ++ (s.memory client).nickName ++ " :You are banned".toList ++
          crlf))

/-- Tell one member of the channel about a ban, and execute a `WHO` for it. -/
def banTell (who : Server → Str → Fd → Result) (name flag parameters : Str)
    (client : ClientPtr) (s : Server) : Result :=
  let target := (s.memory client).fd
  who (s.send target ((s.memory client).source ++ " MODE ".toList ++ name ++ flag ++
    parameters ++ crlf)) ("WHO ".toList ++ name) target

/-- The removal at the end of `-b`.  `removeBan` dereferences its argument as
soon as there is a ban to compare it with. -/
def pardon (s : Server) (ch : Channel) (hostName : Str) : Result :=
  match ch.getBan s.memory hostName with
  | some client => s.update (ch.removeBan s.memory client) fun _ s => .done s
  | none => if ch.bans = [] then s.raise .notAlreadyBan else .fault .nullBan

/-- The parameters of a ban, completed to a mask. -/
def banMask (parameters : Str) : Str :=
  if Text.contains atSign parameters then parameters else "*!*@".toList ++ parameters

/-- `Mode::execBan`. -/
def execBan (who : Server → Str → Fd → Result) (s : Server) (ch : Channel) (info : ModeInfo)
    (fd : Fd) : Result :=
  Outcome.catching caughtByBan <|
    if info.status ∧ info.parameters = [] then s.listBans ch fd
    else
      let parameters := banMask info.parameters
      if info.status then
        Outcome.require (split parameters atSign)[1]? .outOfRange fun hostName =>
          (Outcome.each (banClient ch.name) (ch.getClients s.memory hostName) s).andThen fun s =>
            Outcome.each (banTell who ch.name " +b ".toList parameters)
              (((s.getChannel ch.name).map Channel.clients).getD []) s
      else
        (Outcome.each (banTell who ch.name " -b ".toList parameters) ch.clients s).andThen
          fun s => Outcome.require (split parameters atSign)[1]? .outOfRange fun hostName =>
            s.pardon ch (trim hostName)

/-- A `MODE` line to every member, in its own name. -/
def modeTell (s : Server) (ch : Channel) (text : Str) : Server :=
  s.sendAll (ch.clients.map fun p =>
    ((s.memory p).fd, (s.memory p).source ++ " MODE ".toList ++ ch.name ++ text ++ crlf))

/-- `Mode::execLimit`.  The limit is set once for every member, and a `-l` line
tells the limit before that member's round. -/
def execLimit (s : Server) (ch : Channel) (info : ModeInfo) : Server :=
  if info.status then
    let s := s.modeTell ch (" +l ".toList ++ info.parameters)
    if ch.clients = [] then s
    else s.putChannel (ch.setLimit (toInt env.junkInt info.parameters))
  else
    let s := s.sendAll (ch.clients.zipIdx.map fun entry =>
      let limit := if entry.2 = 0 then ch.getLimit else nonLimited
      ((s.memory entry.1).fd, (s.memory entry.1).source ++ " MODE ".toList ++ ch.name ++
        " -l ".toList ++ Utils.toString limit ++ crlf))
    if ch.clients = [] then s else s.putChannel { ch with limit := nonLimited }

/-- `Mode::execInviteOnly`. -/
def execInviteOnly (s : Server) (ch : Channel) (info : ModeInfo) : Server :=
  (s.putChannel { ch with inviteOnly := info.status }).modeTell ch
    ((if info.status then " +i ".toList else " -i ".toList) ++ info.parameters)

/-- `Mode::execKey`. -/
def execKey (s : Server) (ch : Channel) (info : ModeInfo) : Server :=
  (s.putChannel { ch with password := info.parameters }).modeTell ch
    ((if info.status then " +k ".toList else " -k ".toList) ++ info.parameters)

/-- `Mode::execTopic`. -/
def execModeTopic (s : Server) (ch : Channel) (info : ModeInfo) : Server :=
  (s.putChannel { ch with topic := info.parameters }).broadcast ch.clients
    (":".toList ++ s.name ++ " TOPIC ".toList ++ ch.name ++
      (if info.status then " :".toList ++ info.parameters else " :No topic is set".toList) ++ crlf)

/-- The dispatch of `Mode::Execute` on the letter of the mode. -/
def execModeKey (who : Server → Str → Fd → Result) (s : Server) (ch : Channel)
    (info : ModeInfo) (fd : Fd) : Result :=
  let key := toLower info.key
  if key = "o".toList then s.execOperator ch info
  else if key = "b".toList then s.execBan who ch info fd
  else if key = "l".toList then .done (s.execLimit env ch info)
  else if key = "i".toList then .done (s.execInviteOnly ch info)
  else if key = "k".toList then .done (s.execKey ch info)
  else if key = "t".toList then .done (s.execModeTopic ch info)
  else .done s

/-- Throw a `NotOperatorException` in the name of the client on `fd`. -/
def throwNotOperator (s : Server) (fd : Fd) (channelName : Str) : Result :=
  Outcome.require (s.getClient fd) .nullClient fun client =>
    s.throwClient fd .notOperator (notOperatorText (s.memory client).nickName channelName)

/-- `Mode::Execute`. -/
def modeExecute (who : Server → Str → Fd → Result) (s : Server) (message : Str) (fd : Fd) :
    Result :=
  if Text.contains space message = false ∨ (split message space).length < 3 then .done s
  else
    Outcome.require (Parser.modeParse env message) .outOfRange fun info =>
      Outcome.require (s.getChannel info.channel) .nullChannel fun ch =>
        if (ch.getOperator s.memory fd).isNone then s.throwNotOperator fd ch.name
        else s.execModeKey env who ch info fd

/-- `Command::execMode`. -/
def execMode (who : Server → Str → Fd → Result) (s : Server) (message : Str) (fd : Fd) : Result :=
  (s.modeExecute env who message fd).catching fun e => e = .notOperator

/-- The `catch` list of `Command::execKick` and `Command::execInvite`. -/
def caughtByKick (e : Exception) : Bool := e ∈ [.notOperator, .noSuchNickOrChannel]

/-- What `Command::execKick` reads from the message: with a colon in it, the
words before the first colon and a reason. -/
def kickParse (message : Str) : Option (ParseInfo × Str) :=
  if Text.contains colon message then
    match split message colon with
    | command :: reason :: _ => some (Parser.parse (trim command), trim reason)
    | _ => none
  else some (Parser.parse message, [])

/-- `Command::execKick`. -/
def execKick (s : Server) (message : Str) (fd : Fd) : Result :=
  Outcome.require (kickParse message) .outOfRange fun parsed =>
    let info := parsed.1
    let reason := parsed.2
    Outcome.catching caughtByKick <|
      Outcome.require (s.getChannel info.function) .nullChannel fun ch =>
        if (ch.getOperator s.memory fd).isNone then s.throwNotOperator fd info.function
        else
          match ch.getClientByNickName s.memory info.value with
          | none =>
              s.throwClient fd .noSuchNickOrChannel
                (noSuchNickOrChannelText info.value ch.name)
          | some client =>
              .done ((s.broadcast ch.clients (":".toList ++ s.name ++ " KICK ".toList ++
                ch.name ++ " ".toList ++ info.value ++
                (if reason ≠ [] then " :".toList ++ reason else []) ++ crlf)).putChannel
                  (ch.removeClient s.memory (some client)))

/-- `Command::execInvite`. -/
def execInvite (s : Server) (message : Str) (fd : Fd) : Result :=
  Outcome.catching caughtByKick <|
    let info := Parser.parse message
    match s.getChannel info.value with
    | none => s.throwClient fd .noSuchNickOrChannel (noSuchNickOrChannelText info.value [])
    | some ch =>
        if (ch.getOperator s.memory fd).isNone then s.throwNotOperator fd info.value
        else
          match s.getClientByNickName info.function with
          | none =>
              s.throwClient fd .noSuchNickOrChannel
                (noSuchNickOrChannelText info.function ch.name)
          | some target =>
              s.update (ch.addInvite target) fun ch s =>
                .done (s.broadcast ch.clients (":".toList ++ s.name ++ " INVITE ".toList ++
                  ch.name ++ " ".toList ++ info.value ++ crlf))

/-- `Command::execTopic`. -/
def execTopic (s : Server) (message : Str) (fd : Fd) : Result :=
  Outcome.catching (fun e => e = .notOperator) <|
    let info := Parser.parse message
    Outcome.require (s.getChannel info.function) .nullChannel fun ch =>
      if (ch.getOperator s.memory fd).isNone then s.throwNotOperator fd info.function
      else if info.value = [] then
        Outcome.require (s.getClient fd) .nullClient fun client =>
          .done (s.send fd (":".toList ++ s.name ++ " 332 ".toList ++
            (s.memory client).nickName ++ " ".toList ++ ch.name ++ " :".toList ++ ch.topic ++
            crlf))
      else
        Outcome.require (split message colon)[1]? .outOfRange fun value =>
          .done ((s.putChannel { ch with topic := value }).broadcast ch.clients
            (":".toList ++ s.name ++ " TOPIC ".toList ++ ch.name ++ " :".toList ++ value ++ crlf))

/-- The `311` line of `Command::execWhois` about `p`, for a client `c` that asks
from `fd`; operators of the channel and the client itself see the host name. -/
def whoisLine (s : Server) (fd : Fd) (c : Client) (ch : Channel) (p : ClientPtr) : Fd × Str :=
  let other := s.memory p
  (c.fd, ":".toList ++ s.name ++ " 311 ".toList ++ c.nickName ++ " ".toList ++
    other.nickName ++ " ".toList ++ other.userName ++ " ".toList ++
    (if (ch.getOperator s.memory fd).isSome ∨ other.fd = fd then other.hostName
      else "unknown".toList) ++ " * :".toList ++ other.realName ++ crlf)

/-- The line that ends a `WHOIS` reply. -/
def whoisEnd (s : Server) (c : Client) (name : Str) : Fd × Str :=
  (c.fd, ":".toList ++ s.name ++ " 318 ".toList ++ c.nickName ++ " ".toList ++ name ++
    " :End of /WHOIS list".toList ++ crlf)

/-- `Command::execWhois`. -/
def execWhois (s : Server) (message : Str) (fd : Fd) : Result :=
  let name := (Parser.parse message).function
  match s.getClientByNickName name with
  | none =>
      Outcome.require (s.getClient fd) .nullClient fun client =>
        let c := s.memory client
        match s.getChannel name with
        | some ch => .done (s.sendAll (ch.clients.map (s.whoisLine fd c ch) ++ [s.whoisEnd c name]))
        | none =>
            .done (s.send fd (":".toList ++ s.name ++ " 401 ".toList ++ c.nickName ++
              " ".toList ++ name ++ " :No such nick/channel".toList ++ crlf))
  | some target =>
      match s.channels.find? fun ch =>
          (ch.getClient s.memory (s.memory target).fd).isSome with
      | some ch =>
          Outcome.require (s.getClient fd) .nullClient fun client =>
            let c := s.memory client
            .done (s.sendAll [s.whoisLine fd c ch target, s.whoisEnd c name])
      | none => .done s

end Server

/-- `Command::getCommand`, in upper case. -/
def commandOf (message : Str) : Str :=
  toUpper (if Text.contains space message then (split message space).headD [] else message)

/-- The commands behind the login test of `Command::Execute`. -/
def Server.dispatchLogin (env : Env) (who : Server → Str → Fd → Result) (s : Server)
    (client : ClientPtr) (message : Str) (fd : Fd) : Verb → Result
  | .privmsg => s.execPrivMsg message fd
  | .join => s.execJoin message fd
  | .part => s.execPart message fd
  | .who => s.execWho message fd
  | .notice => s.execNotice message fd
  | .mode => s.execMode env who message fd
  | .kick => s.execKick message fd
  | .invite => s.execInvite message fd
  | .topic => s.execTopic message fd
  | .whois => s.execWhois message fd
  | _ => s.throwClient fd .unknownCommand
      (errUnknownCommand (trim (commandOf message)) (s.memory client).nickName)

/-- The dispatch of `Command::Execute`. -/
def Server.dispatch (env : Env) (who : Server → Str → Fd → Result) (s : Server) (message : Str)
    (fd : Fd) : Result :=
  match verbOf (commandOf message) with
  | .quit => s.execQuit message fd
  | .user => s.execUser message fd
  | .nick => s.execNick message fd
  | .pass => s.execPass message fd
  | verb =>
      Outcome.require (s.getClient fd) .nullClient fun client =>
        if (s.memory client).login then s.dispatchLogin env who client message fd verb
        else .done s

/-- The `catch` list of `Command::Execute`. -/
def caughtByExecute (e : Exception) : Bool :=
  e ∈ [.unknownCommand, .onlyChannel, .onlyNickName, .onlyNickAndChannelName, .onlyMessage,
    .onlyNickAndMessage, .onlyChannelAndMessage, .onlyMode, .moreThanTwoWords,
    .onlyChannelOrNickName, .firstParamIsChannel, .serverUnknownCommand]

/-- `Command::Execute` for a message that is not cut into several lines. -/
def Server.handle (env : Env) (who : Server → Str → Fd → Result) (s : Server) (message : Str)
    (fd : Fd) : Result :=
  Outcome.catching caughtByExecute <|
    (Checker.check s message fd).andThen fun s => s.dispatch env who message fd

/-- The messages `Command::Execute` handles for a message: the lines up to the
first empty one, or the whole message when it has a single line. -/
def linesOf (message : Str) : List Str :=
  let words := split message crlf
  if words.length = 1 then [message] else words.takeWhile (· ≠ [])

/-- `Command::Execute`, to a bounded depth of its recursion. -/
def executeTo (env : Env) : Nat → Server → Str → Fd → Result
  | 0, _, _, _ => .fault .tooDeep
  | depth + 1, s, message, fd =>
      if (split message crlf).length = 1 then s.handle env (executeTo env depth) message fd
      else Outcome.catching caughtByExecute <|
        Outcome.each (fun line s => executeTo env depth s line fd) (linesOf message) s

/-- `Command::Execute`. -/
def execute (env : Env) : Server → Str → Fd → Result := executeTo env 3

end FtIrc
