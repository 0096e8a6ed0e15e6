import Mathlib.Algebra.Group.Int.Defs
import Mathlib.Logic.Function.Basic
import IrcServers.Text
import IrcServers.Outcome

/-!
# State of the `42-Ft_irc` server

The vectors of `Server` and `Channel` hold `Client*` values, so addresses are
explicit, and `memory` gives what is found at an address.  Channels go on
reading clients that are deleted.  The descriptor, with which the object begins,
is overwritten then, or found as it was: `keepsFd` says which, and is left open.
By convention the other members of a deleted client are found as they were, and
its address is given to no other client, so that a stale pointer can be told
from a pointer to a connected client.  A `Channel*` is represented by the
channel itself: channels are never deleted while the server runs, and no two of
them have the same name.

Whatever is handed to `send` is appended to `sent`; the log lines of `Logger`
are left out.
-/

namespace FtIrc

/-- A `std::string`, byte by byte. -/
abbrev Str := List Char

/-- A file descriptor. -/
abbrev Fd := Int

/-- The address of a `Client` object. -/
abbrev ClientPtr := Nat

def crlf : Str := "\r\n".toList

/-- `class Client`.  The member `_serverName` is never read. -/
structure Client where
  fd : Fd
  login : Bool
  alreadyRegistered : Bool
  userName : Str
  hostName : Str
  realName : Str
  nickName : Str
  password : Str
deriving DecidableEq

/-- `Client::Client(fd, hostName)`. -/
def Client.new (fd : Fd) (hostName : Str) : Client where
  fd := fd
  login := false
  alreadyRegistered := false
  userName := "*".toList
  hostName := hostName
  realName := "*".toList
  nickName := "*".toList
  password := "*".toList

/-- `class Channel`. -/
structure Channel where
  name : Str
  clients : List ClientPtr
  operators : List ClientPtr
  bans : List ClientPtr
  invites : List ClientPtr
  limit : Nat
  inviteOnly : Bool
  password : Str
  topic : Str
deriving DecidableEq

/-- `NON_LIMITED`. -/
def nonLimited : Nat := 0

/-- `Channel::Channel(name)`. -/
def Channel.new (name : Str) : Channel where
  name := name
  clients := []
  operators := []
  bans := []
  invites := []
  limit := nonLimited
  inviteOnly := false
  password := []
  topic := []

/-- What is read where a descriptor has been overwritten: no descriptor. -/
def noFd : Fd := -1

/-- `class Server`, with the memory behind its pointers and what it has sent.
`keepsFd` tells at which addresses the descriptor of a client is still read after
the client has been deleted. -/
structure Server where
  name : Str
  version : Str
  createdDate : Str
  password : Str
  clients : List ClientPtr
  channels : List Channel
  memory : ClientPtr → Client
  keepsFd : ClientPtr → Bool
  nextPtr : ClientPtr
  sent : List (Fd × Str)

/-- The classes of `ClientException.hpp` and `ServerException.hpp` that the
handlers throw or that the handlers' catch lists name. -/
inductive Exception where
  | passwordMismatch | notOperator | noSuchNickOrChannel | ban | channelFull | inviteOnly
  | wrongPassword | unknownCommand | nicknameInUse
  | alreadyOperator | notAlreadyOperator | alreadyBan | notAlreadyBan | alreadyInvite
  | onlyChannel | onlyNickName | onlyNickAndChannelName | onlyMessage | onlyNickAndMessage
  | onlyChannelAndMessage | onlyMode | moreThanTwoWords | onlyChannelOrNickName
  | firstParamIsChannel | serverUnknownCommand
deriving DecidableEq

/-- A point where the source has no defined behaviour: an index outside a
vector of words, and the uses of a null result, by the lookup it came from.
`nullPush` is the storing of a null client in a channel list, `tooDeep` a
recursion of `Command::Execute` the model does not follow. -/
inductive Fault where
  | outOfRange | nullClient | nullChannel | nullMember | nullBan | nullPush | tooDeep
deriving DecidableEq

abbrev Result := Outcome Server Exception Fault

/-- Indeterminate values the handling of a line may read: the character after
the end of an empty word, and an `int` that `>>` has not assigned. -/
structure Env where
  junkChar : Char
  junkInt : Int

namespace Server

/-- `Message::send`. -/
def send (s : Server) (fd : Fd) (message : Str) : Server :=
  { s with sent := s.sent ++ [(fd, message)] }

/-- Several calls of `Message::send` in a row. -/
def sendAll (s : Server) (messages : List (Fd × Str)) : Server :=
  { s with sent := s.sent ++ messages }

/-- Change the `Client` at address `p`. -/
def setClient (s : Server) (p : ClientPtr) (f : Client → Client) : Server :=
  { s with memory := Function.update s.memory p (f (s.memory p)) }

/-- `Server::getClient(int)`. -/
def getClient (s : Server) (fd : Fd) : Option ClientPtr :=
  s.clients.find? fun p => (s.memory p).fd = fd

/-- `Server::getClientByNickName`, and the same loop in
`Server::getClient(std::string)`. -/
def getClientByNickName (s : Server) (nickname : Str) : Option ClientPtr :=
  s.clients.find? fun p => (s.memory p).nickName = nickname

/-- `Server::getChannel(std::string)`. -/
def getChannel (s : Server) (name : Str) : Option Channel :=
  s.channels.find? fun ch => ch.name = name

/-- Write a channel object back. -/
def putChannel (s : Server) (ch : Channel) : Server :=
  { s with channels := s.channels.map fun old => if old.name = ch.name then ch else old }

/-- `Server::addChannel`. -/
def addChannel (s : Server) (ch : Channel) : Server :=
  { s with channels := s.channels ++ [ch] }

/-- The members of a vector of clients, each with its descriptor. -/
def fdsOf (s : Server) (clients : List ClientPtr) : List Fd :=
  clients.map fun p => (s.memory p).fd

end Server

/-- The numeric reply of a `ClientException`. -/
def Exception.errorCode : Exception → Nat
  | .passwordMismatch => 464
  | .notOperator => 482
  | .noSuchNickOrChannel => 401
  | .ban => 474
  | .channelFull => 471
  | .inviteOnly => 473
  | .wrongPassword => 475
  | .unknownCommand => 421
  | .nicknameInUse => 433
  | _ => 0

/-- Throw a `ClientException`: its constructor sends the numeric reply. -/
def Server.throwClient (s : Server) (fd : Fd) (e : Exception) (message : Str) : Result :=
  .thrown e (s.send fd (":".toList ++ s.name ++ " ".toList ++
    (toString e.errorCode).toList ++ " ".toList ++ message ++ crlf))

/-- `PASSWORD_INCORRECT`. -/
def passwordIncorrect (nickName : Str) : Str := nickName ++ " :Password incorrect".toList

/-- `NOT_OPERATOR`. -/
def notOperatorText (nickName channelName : Str) : Str :=
  nickName ++ " ".toList ++ channelName ++ " :You're not channel operator".toList

/-- `NO_SUCH_NICK_OR_CHANNEL`. -/
def noSuchNickOrChannelText (nickName channelName : Str) : Str :=
  nickName ++ " ".toList ++ channelName ++ " :No such nick/channel".toList

/-- `BAN_CHANNEL`, `CHANNEL_FULL`, `ERR_INVITE_ONLY_CHAN` and `WRONG_PASSWORD`,
which differ in the letter of the mode. -/
def cannotJoin (channelName : Str) (mode : Char) : Str :=
  channelName ++ " :Cannot join channel (+".toList ++ [mode] ++ ")".toList

/-- `ERR_UNKNOWN_COMMAND`. -/
def errUnknownCommand (command nickName : Str) : Str :=
  nickName ++ " ".toList ++ command ++ " :Unknown command".toList

/-- `ERR_NICKNAME_IN_USE`. -/
def errNicknameInUse (nickName : Str) : Str :=
  "* ".toList ++ nickName ++ " :Nickname is already in use".toList

end FtIrc
