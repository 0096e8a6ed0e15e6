import IrcServers.Irc.Replies

/-!
# Channels and lookups of the `_irc_` server

`Channel.cpp` and the lookup and removal functions of `Server.cpp`.  A
`Channel*` is represented by the key it is stored under; its object is the
map's value.  `removeClientFromChannel` tests the members of a channel it has
just had deleted; that use sends nothing, and it is only recorded.
-/

namespace Irc

/-- `Channel::isUserOnChannel`. -/
def Channel.isUserOnChannel (ch : Channel) (client : ClientPtr) : Bool :=
  client ∈ ch.curClients

/-- `Channel::addClient`. -/
def Channel.addClient (ch : Channel) (client : ClientPtr) : Channel :=
  { ch with curClients := ch.curClients ++ [client] }

namespace Tables

/-- `Server::getClient`: the first client in map order with that nickname. -/
def getClient (t : Tables) (nickname : Str) : Option ClientPtr :=
  (t.entries.find? fun entry => (t.memory entry.2).nickname = nickname).map Prod.snd

/-- `Client::clientFind`: the target itself when some client has that
nickname, and the empty string otherwise. -/
def clientFind (t : Tables) (target : Str) : Str :=
  if t.entries.any fun entry => (t.memory entry.2).nickname = target then target else []

/-- `Server::isNickTaken`. -/
def isNickTaken (t : Tables) (nick : Str) : Bool :=
  t.nickList.any fun entry => entry.2 = nick

/-- `Server::registerNick`. -/
def registerNick (t : Tables) (nick : Str) (id : Fd) : Tables :=
  { t with nickList := t.nickList ++ [(id, nick)] }

/-- `Channel::getChannelClients`. -/
def getChannelClients (t : Tables) (ch : Channel) : List Str :=
  ch.curClients.map fun p => (t.memory p).nickname

/-- `Server::closeConnection`.  Closing a descriptor the process does not have
open fails, and the exception is caught before any table is touched. -/
def closeConnection (t : Tables) (clientSocket : Fd) : Tables :=
  if clientSocket ∈ t.openFds then
    { t with
      openFds := t.openFds.filter (· ≠ clientSocket)
      pollFds := t.pollFds.filter (· ≠ clientSocket)
      clients := t.clients.erase clientSocket
      nickList := t.nickList.eraseP (fun entry => entry.1 = clientSocket) }
  else t

/-- `_clients[clientSocket]`: the entry's address, allocating a
default-constructed client when there is none. -/
def index (t : Tables) (clientSocket : Fd) (junk : Leftover) : Tables × ClientPtr :=
  match t.clients[clientSocket]? with
  | some p => (t, p)
  | none =>
      ({ t with
          clients := t.clients.insert clientSocket t.nextPtr
          memory := Function.update t.memory t.nextPtr (Client.default junk)
          nextPtr := t.nextPtr + 1 }, t.nextPtr)

/-- `Server::addNewClient`: the indexed client is overwritten as a whole. -/
def addNewClient (t : Tables) (ip : Str) (port : Nat) (clientSocket : Fd) : Tables :=
  let indexed := t.index clientSocket ⟨clientSocket, port, false, false, false⟩
  indexed.1.setClient indexed.2 fun _ => Client.connected clientSocket ip port

/-- The successful path of `Server::acceptConnection`. -/
def acceptConnection (t : Tables) (clientSocket : Fd) (ip : Str) (port : Nat) : Tables :=
  { t with openFds := clientSocket :: t.openFds,
           pollFds := t.pollFds ++ [clientSocket] }.addNewClient ip port clientSocket

end Tables

namespace Server

/-- `Channel::broadcastMessage(message)`. -/
def broadcastMessage (s : Server) (ch : Channel) (message : Str) : Server :=
  s.sendAll (ch.curClients.map fun p => s.messageTo p message)

@[simp] theorem broadcastMessage_toTables (s : Server) (ch : Channel) (message : Str) :
    (s.broadcastMessage ch message).toTables = s.toTables := rfl

/-- The `nickList` text of `Channel::sendChannelUserList`: every nickname
followed by a space, `@` before the operator's, and the last space removed. -/
def nickListText (s : Server) (ch : Channel) : Str :=
  ((s.getChannelClients ch).flatMap fun nick =>
    (if ch.opNick = nick then "@".toList else []) ++ nick ++ " ".toList).dropLast

/-- `Channel::sendChannelUserList`. -/
def sendChannelUserList (s : Server) (ch : Channel) (client : ClientPtr) : Server :=
  let nick := (s.memory client).nickname
  (s.broadcastMessage ch (rplNamReply nick ch.name (s.nickListText ch))).broadcastMessage ch
    (rplEndOfNames nick ch.name)

@[simp] theorem sendChannelUserList_toTables (s : Server) (ch : Channel)
    (client : ClientPtr) : (s.sendChannelUserList ch client).toTables = s.toTables := rfl

/-- Record a use of a channel object after its deletion. -/
def useFreed (s : Server) (name : Str) : Server :=
  { s with freedUses := s.freedUses ++ [name] }

@[simp] theorem useFreed_toTables (s : Server) (name : Str) :
    (s.useFreed name).toTables = s.toTables := rfl

/-- The farewell `Server::removeChannel` sends to one listed nickname. -/
def partRemoved (s : Server) (channelName : Str) (nick : Str) : Server :=
  match s.getClient nick with
  | some client =>
      s.sendReply client (rplPart (s.memory client).nickname channelName
        "The channel has been removed".toList)
  | none => s

@[simp] theorem partRemoved_toTables (s : Server) (channelName nick : Str) :
    (s.partRemoved channelName nick).toTables = s.toTables := by
  unfold partRemoved
  split <;> simp

/-- `Server::removeChannel`. -/
def removeChannel (s : Server) (channelName : Str) : Server :=
  match s.channels[channelName]? with
  | some ch =>
      let told := (s.getChannelClients ch).foldl (fun s nick => s.partRemoved channelName nick) s
      told.withTables { told.toTables with channels := told.channels.erase channelName }
  | none => s

/-- `Channel::removeClientFromChannel`.  When the last member has left, the
final `_curClients.empty()` is evaluated on the channel that `removeChannel`
has just deleted. -/
def removeClientFromChannel (s : Server) (channelName : Str) (client : ClientPtr) : Server :=
  match s.channels[channelName]? with
  | none => s.useFreed channelName
  | some ch =>
      if ch.isUserOnChannel client then
        let left := { ch with curClients := ch.curClients.erase client }
        let s := s.withTables (s.setChannel channelName left)
        match left.curClients with
        | [] => (s.removeChannel ch.name).useFreed channelName
        | front :: _ =>
            if left.opNick = (s.memory client).nickname then
              let led := left.makeOp front (s.memory front).nickname
              let s := s.withTables (s.setChannel channelName led)
              let s := s.sendReply front ("You are now the operator of ".toList ++ led.name)
              s.sendChannelUserList led client
            else s.sendChannelUserList left client
      else s

end Server

end Irc
