import IrcServers.FtIrc.State

/-!
# Channels of the `42-Ft_irc` server

`Channel.cpp`.  The getters that compare a descriptor, a nickname or a host
name dereference the stored pointers, of deleted clients too, so they take the
memory.
-/

namespace FtIrc

namespace Channel

variable (memory : ClientPtr → Client)

/-- `Channel::getClient(int)`. -/
def getClient (ch : Channel) (fd : Fd) : Option ClientPtr :=
  ch.clients.find? fun p => (memory p).fd = fd

/-- `Channel::getClient(std::string)`. -/
def getClientByNickName (ch : Channel) (nickname : Str) : Option ClientPtr :=
  ch.clients.find? fun p => (memory p).nickName = nickname

/-- `Channel::getClients(std::string)`. -/
def getClients (ch : Channel) (hostName : Str) : List ClientPtr :=
  ch.clients.filter fun p => (memory p).hostName = hostName

/-- `Channel::getOperator(int)`. -/
def getOperator (ch : Channel) (fd : Fd) : Option ClientPtr :=
  ch.operators.find? fun p => (memory p).fd = fd

/-- `Channel::getOperator(std::string)`. -/
def getOperatorByNickName (ch : Channel) (nickname : Str) : Option ClientPtr :=
  ch.operators.find? fun p => (memory p).nickName = nickname

/-- `Channel::getBan(std::string)`. -/
def getBan (ch : Channel) (hostName : Str) : Option ClientPtr :=
  ch.bans.find? fun p => (memory p).hostName = hostName

/-- `Channel::getInvite(std::string)`. -/
def getInvite (ch : Channel) (nickname : Str) : Option ClientPtr :=
  ch.invites.find? fun p => (memory p).nickName = nickname

/-- The part of `Channel::addClient` after its checks. -/
def pushClient (ch : Channel) (client : ClientPtr) : Channel :=
  { ch with
    operators := if ch.clients.length = 0 then ch.operators ++ [client] else ch.operators
    clients := ch.clients ++ [client] }

/-- The check of `Channel::addClient` that fails, if one does. -/
def refuses (ch : Channel) (client : ClientPtr) : Option Exception :=
  if (ch.getBan memory (memory client).hostName).isSome then some .ban
  else if ch.limit ≠ 0 ∧ ch.clients.length = ch.limit then some .channelFull
  else if ch.inviteOnly ∧ (ch.getInvite memory (memory client).nickName).isNone then
    some .inviteOnly
  else none

/-- `Channel::removeClient`; a null pointer matches no entry.  The exception of
`removeOperator` is caught. -/
def removeClient (ch : Channel) : Option ClientPtr → Channel
  | none => ch
  | some client =>
      if client ∈ ch.clients then
        { ch with
          operators :=
            if (ch.getOperatorByNickName memory (memory client).nickName).isSome then
              ch.operators.erase client
            else ch.operators
          clients := ch.clients.erase client }
      else ch

/-- `Channel::addOperator`. -/
def addOperator (ch : Channel) (client : ClientPtr) : Except Exception Channel :=
  if client ∈ ch.operators then .error .alreadyOperator
  else .ok { ch with operators := ch.operators ++ [client] }

/-- `Channel::removeOperator`; a null pointer matches no entry. -/
def removeOperator (ch : Channel) : Option ClientPtr → Except Exception Channel
  | none => .error .notAlreadyOperator
  | some client =>
      if client ∈ ch.operators then .ok { ch with operators := ch.operators.erase client }
      else .error .notAlreadyOperator

/-- `Channel::addBan`. -/
def addBan (ch : Channel) (client : ClientPtr) : Except Exception Channel :=
  if ch.bans.any fun p => (memory p).hostName = (memory client).hostName then
    .error .alreadyBan
  else .ok ({ ch with bans := ch.bans ++ [client] }.removeClient memory (some client))

/-- `Channel::removeBan` for a client that is not null. -/
def removeBan (ch : Channel) (client : ClientPtr) : Except Exception Channel :=
  if ch.bans.any fun p => (memory p).hostName = (memory client).hostName then
    .ok { ch with bans :=
      ch.bans.eraseP fun p => (memory p).hostName = (memory client).hostName }
  else .error .notAlreadyBan

/-- `Channel::addInvite`. -/
def addInvite (ch : Channel) (client : ClientPtr) : Except Exception Channel :=
  if client ∈ ch.invites then .error .alreadyInvite
  else .ok { ch with invites := ch.invites ++ [client] }

/-- `Channel::setLimit`: the `int` is stored as a `size_t`. -/
def setLimit (ch : Channel) (limit : Int) : Channel :=
  { ch with limit := (limit % 2 ^ 64).toNat }

/-- `Channel::getLimit`: the `size_t` as an `int`. -/
def getLimit (ch : Channel) : Int :=
  ((ch.limit : Int) + 2 ^ 31) % 2 ^ 32 - 2 ^ 31

/-- `Channel::getModes`. -/
def getModes (ch : Channel) : Str :=
  (if ch.password ≠ [] then " +k ".toList ++ ch.password else []) ++
    (if ch.limit ≠ 0 then " +l ".toList ++ (toString ch.getLimit).toList else []) ++
    (if ch.inviteOnly then " +i".toList else [])

end Channel

/-- The letter of the mode in a refusal to join. -/
def Exception.joinMode : Exception → Char
  | .ban => 'b'
  | .channelFull => 'l'
  | .inviteOnly => 'i'
  | _ => 'k'

namespace Server

/-- What is read for the descriptor of a client once it has been deleted. -/
def leftFd (s : Server) (client : ClientPtr) : Fd :=
  if s.keepsFd client then (s.memory client).fd else noFd

/-- The loop of `Server::close`, with which `Server::removeClient` begins too:
the first client with the descriptor is deleted and erased. -/
def deleteClient (s : Server) (fd : Fd) : Server :=
  match s.getClient fd with
  | some client =>
      { s.setClient client fun c => { c with fd := s.leftFd client } with
        clients := s.clients.eraseP fun p => (s.memory p).fd = fd }
  | none => s

/-- The loop of `Server::removeClient` over the channels: each removes the first
of its members at whose address the descriptor is read. -/
def dropMembers (s : Server) (fd : Fd) : Server :=
  { s with
    channels := s.channels.map fun ch => ch.removeClient s.memory (ch.getClient s.memory fd) }

/-- `Server::removeClient`.  The client is deleted before the channels look for
it, and `Server::close` looks for the descriptor once more. -/
def removeClient (s : Server) (fd : Fd) : Server :=
  ((s.deleteClient fd).dropMembers fd).deleteClient fd

/-- `Server::listen(int, std::string)`: a new client. -/
def addClient (s : Server) (fd : Fd) (hostName : Str) : Server :=
  { s with
    clients := s.clients ++ [s.nextPtr]
    memory := Function.update s.memory s.nextPtr (Client.new fd hostName)
    nextPtr := s.nextPtr + 1 }

/-- `Client::login`.  The four messages greet the client with the values of
`user`, which are its own. -/
def login (s : Server) (client : ClientPtr) : Result :=
  let c := s.memory client
  if s.password = c.password then
    if c.alreadyRegistered then .done s
    else
      let greet := fun (code : String) (text : Str) =>
        (c.fd, ":".toList ++ s.name ++ code.toList ++ c.nickName ++ text ++ crlf)
      .done ((s.sendAll
        [greet " 001 " (" Welcome to the Internet Relay Network :".toList ++ c.nickName ++
            "!".toList ++ c.userName ++ "@".toList ++ c.hostName),
          greet " 002 " (" Your host is ".toList ++ s.name ++ ", running version ".toList ++
            s.version),
          greet " 003 " (" This server was created ".toList ++ s.createdDate),
          greet " 004 " (" ".toList ++ s.name ++ " ".toList ++ s.version ++
            " Available user modes:  Available channel modes: biklot".toList)]).setClient
        client fun c => { c with login := true })
  else s.throwClient c.fd .passwordMismatch (passwordIncorrect c.nickName)

end Server

end FtIrc
