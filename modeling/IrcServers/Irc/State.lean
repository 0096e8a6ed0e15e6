import Mathlib.Logic.Function.Basic
import IrcServers.Text
import IrcServers.Outcome

/-!
# State of the `_irc_` server

The tables of `Server`, `Client`, `Channel` and `PollManager`.  A
`std::map<int, Client>` owns its clients: inserting a key allocates a node, the
address of the `Client` in it is what channels store, and erasing the key
destroys the object.  Addresses are therefore explicit here.  `memory` gives
the `Client` at an address; a destroyed object keeps the values it last had,
and its address is not used again, so a pointer to it can be told from a
pointer to a live client.

Fields the handlers send but never read back are kept apart from the tables:
`sent` lists what was handed to `send`, `freedUses` the uses of a `Channel`
after it was deleted.
-/

namespace Irc

/-- A `std::string`, byte by byte. -/
abbrev Str := List Char

/-- A file descriptor. -/
abbrev Fd := Int

/-- The address of a `Client` object. -/
abbrev ClientPtr := Nat

def crlf : Str := "\r\n".toList

/-- `class Client`.  The member `_servername` is never read or written. -/
structure Client where
  clientSocketFd : Fd
  clientIp : Str
  clientPort : Nat
  nickname : Str
  username : Str
  realname : Str
  isAuth : Bool
  hasNick : Bool
  loged : Bool

/-- What the members that `Client::Client()` leaves uninitialised hold. -/
structure Leftover where
  clientSocketFd : Fd
  clientPort : Nat
  isAuth : Bool
  hasNick : Bool
  loged : Bool

/-- `Client::Client()`. -/
def Client.default (junk : Leftover) : Client where
  clientSocketFd := junk.clientSocketFd
  clientIp := []
  clientPort := junk.clientPort
  nickname := []
  username := []
  realname := []
  isAuth := junk.isAuth
  hasNick := junk.hasNick
  loged := junk.loged

/-- `Client::Client(int, const std::string&, int)`. -/
def Client.connected (socket : Fd) (ip : Str) (port : Nat) : Client where
  clientSocketFd := socket
  clientIp := ip
  clientPort := port
  nickname := []
  username := []
  realname := []
  isAuth := false
  hasNick := false
  loged := false

/-- `Client::getPrefix`. -/
def Client.getPrefix (c : Client) : Str :=
  let username := if c.username = [] then "*".toList else c.username
  let hostname := if c.clientIp = [] then "*".toList else c.clientIp
  c.nickname ++ "!".toList ++ username ++ "@".toList ++ hostname

/-- `class Channel`.  `madeOp` is not in the source: it records, for this
channel object, the clients that became its operator by creating it or by
succession, whereas `opNick` holds only the nickname they had at that moment. -/
structure Channel where
  name : Str
  key : Str
  userLimit : Nat
  topic : Str
  opNick : Str
  curClients : List ClientPtr
  madeOp : List ClientPtr

/-- `Channel::Channel(name)`. -/
def Channel.new (name : Str) : Channel where
  name := name
  key := []
  userLimit := 10
  topic := []
  opNick := []
  curClients := []
  madeOp := []

/-- `Channel::setOp`. -/
def Channel.setOp (ch : Channel) (nick : Str) : Channel := { ch with opNick := nick }

/-- `setOp` for the creator of a channel and for a successor. -/
def Channel.makeOp (ch : Channel) (client : ClientPtr) (nick : Str) : Channel :=
  { ch.setOp nick with madeOp := client :: ch.madeOp }

/-- `Bot::nick`. -/
def botNick : Str := "BotNICK".toList

/-- Everything the server decides by: its maps and lists, the memory behind
the pointers, and the descriptors the kernel holds open for the process. -/
structure Tables where
  serverSocket : Fd
  botSocket : Fd
  password : Str
  host : Str
  clients : Std.ExtTreeMap Fd ClientPtr
  channels : Std.ExtTreeMap Str Channel
  nickList : List (Fd × Str)
  pollFds : List Fd
  memory : ClientPtr → Client
  nextPtr : ClientPtr
  openFds : List Fd

/-- The server: its tables, what it has sent, and the uses of deleted
channels. -/
structure Server extends Tables where
  sent : List (Fd × Str)
  freedUses : List Str

namespace Tables

/-- `p` is the address of an entry of `_clients`. -/
def Live (t : Tables) (p : ClientPtr) : Prop := ∃ fd : Fd, t.clients[fd]? = some p

/-- The entries of `_clients` in map order. -/
def entries (t : Tables) : List (Fd × ClientPtr) := t.clients.toList

/-- The listing of the map holds what the map does. -/
theorem mem_entries_iff {t : Tables} {fd : Fd} {p : ClientPtr} :
    (fd, p) ∈ t.entries ↔ t.clients[fd]? = some p :=
  Std.ExtTreeMap.mem_toList_iff_getElem?_eq_some

/-- A connected client is one that the listing of the map holds. -/
theorem live_iff_mem_entries {t : Tables} {p : ClientPtr} :
    t.Live p ↔ ∃ entry ∈ t.entries, entry.2 = p := by
  constructor
  · intro hlive
    obtain ⟨fd, hfd⟩ := hlive
    exact ⟨(fd, p), mem_entries_iff.mpr hfd, rfl⟩
  · intro hin
    obtain ⟨⟨fd, q⟩, hmem, rfl⟩ := hin
    exact ⟨fd, mem_entries_iff.mp hmem⟩

instance (t : Tables) (p : ClientPtr) : Decidable (t.Live p) :=
  decidable_of_iff _ live_iff_mem_entries.symm

/-- Change the `Client` at address `p`. -/
def setClient (t : Tables) (p : ClientPtr) (f : Client → Client) : Tables :=
  { t with memory := Function.update t.memory p (f (t.memory p)) }

/-- Write a channel object back into the map. -/
def setChannel (t : Tables) (name : Str) (ch : Channel) : Tables :=
  { t with channels := t.channels.insert name ch }

/-- `p` is held by the `_curClients` of the channel stored under `name`. -/
def Member (t : Tables) (name : Str) (p : ClientPtr) : Prop :=
  ∃ ch : Channel, t.channels[name]? = some ch ∧ p ∈ ch.curClients

/-- `p` is held by the `_curClients` of some channel. -/
def OnChannel (t : Tables) (p : ClientPtr) : Prop := ∃ name, t.Member name p

/-- A property of some channel can be tested on the map's entries. -/
theorem exists_channel_iff {t : Tables} {P : Channel → Prop} :
    (∃ entry ∈ t.channels.toList, P entry.2) ↔
      ∃ (name : Str) (ch : Channel), t.channels[name]? = some ch ∧ P ch := by
  constructor
  · intro hin
    obtain ⟨⟨name, ch⟩, hmem, hP⟩ := hin
    exact ⟨name, ch, Std.ExtTreeMap.mem_toList_iff_getElem?_eq_some.mp hmem, hP⟩
  · intro hexists
    obtain ⟨name, ch, hch, hP⟩ := hexists
    exact ⟨(name, ch), Std.ExtTreeMap.mem_toList_iff_getElem?_eq_some.mpr hch, hP⟩

instance (t : Tables) (p : ClientPtr) : Decidable (t.OnChannel p) :=
  decidable_of_iff _ (exists_channel_iff (P := fun ch => p ∈ ch.curClients))

@[simp] theorem setClient_clients (t : Tables) (p : ClientPtr) (f : Client → Client) :
    (t.setClient p f).clients = t.clients := rfl

@[simp] theorem setClient_channels (t : Tables) (p : ClientPtr) (f : Client → Client) :
    (t.setClient p f).channels = t.channels := rfl

@[simp] theorem setClient_memory_self (t : Tables) (p : ClientPtr) (f : Client → Client) :
    (t.setClient p f).memory p = f (t.memory p) := by
  simp [setClient]

/-- Writing to a client leaves the other ones as they are. -/
theorem setClient_memory_ne (t : Tables) {p q : ClientPtr} (f : Client → Client)
    (h : q ≠ p) : (t.setClient p f).memory q = t.memory q := by
  simp [setClient, h]

@[simp] theorem setChannel_clients (t : Tables) (name : Str) (ch : Channel) :
    (t.setChannel name ch).clients = t.clients := rfl

@[simp] theorem setChannel_memory (t : Tables) (name : Str) (ch : Channel) :
    (t.setChannel name ch).memory = t.memory := rfl

/-- The written channel is found under its name, every other one as before. -/
theorem setChannel_getElem? (t : Tables) (name other : Str) (ch : Channel) :
    (t.setChannel name ch).channels[other]? =
      if name = other then some ch else t.channels[other]? := by
  simp [setChannel, Std.ExtTreeMap.getElem?_insert]

end Tables

namespace Server

/-- Hand bytes to `send`. -/
def send (s : Server) (fd : Fd) (bytes : Str) : Server :=
  { s with sent := s.sent ++ [(fd, bytes)] }

/-- Hand several messages to `send`, one after the other. -/
def sendAll (s : Server) (messages : List (Fd × Str)) : Server :=
  { s with sent := s.sent ++ messages }

/-- Change the tables only. -/
def withTables (s : Server) (t : Tables) : Server := { s with toTables := t }

@[simp] theorem send_toTables (s : Server) (fd : Fd) (bytes : Str) :
    (s.send fd bytes).toTables = s.toTables := rfl

@[simp] theorem sendAll_toTables (s : Server) (messages : List (Fd × Str)) :
    (s.sendAll messages).toTables = s.toTables := rfl

@[simp] theorem withTables_toTables (s : Server) (t : Tables) :
    (s.withTables t).toTables = t := rfl

/-- The message as `Client::sendMessage` puts it on the client's socket. -/
def messageTo (s : Server) (client : ClientPtr) (message : Str) : Fd × Str :=
  ((s.memory client).clientSocketFd, message ++ crlf)

/-- `Client::sendMessage`. -/
def sendMessage (s : Server) (client : ClientPtr) (message : Str) : Server :=
  s.send (s.messageTo client message).1 (s.messageTo client message).2

/-- `Client::sendReply`. -/
def sendReply (s : Server) (client : ClientPtr) (reply : Str) : Server :=
  s.sendMessage client ((s.memory client).getPrefix ++ " ".toList ++ reply)

@[simp] theorem sendMessage_toTables (s : Server) (p : ClientPtr) (message : Str) :
    (s.sendMessage p message).toTables = s.toTables := rfl

@[simp] theorem sendReply_toTables (s : Server) (p : ClientPtr) (reply : Str) :
    (s.sendReply p reply).toTables = s.toTables := rfl

end Server

end Irc
