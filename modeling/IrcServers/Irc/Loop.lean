import IrcServers.Irc.Commands
import IrcServers.Run

/-!
# The poll loop of the `_irc_` server

`Server::run` as a labelled machine.  The actions are those of one descriptor
becoming ready: a connection is accepted, or a client's descriptor is read.
Reading collects the results of `recv`, cuts the buffer into command lines and
handles them one after the other; since a line may close the connection whose
buffer is being worked off, every line is a step of its own.  The lines still
to be handled are a local variable of `handleClientMessage`, here the field
`reading` of the machine state.

The order in which ready descriptors are served, the results of `recv` and
`send`, and the contents of uninitialised members are chosen by the action.
-/

namespace Irc

/-- One result of `recv` on a non-blocking socket. -/
inductive Recv where
  | data (bytes : Str)
  | closed
  | again
  | error

/-- `recv` fills at most `BUFFER_SIZE - 1` bytes, and at least one. -/
def Recv.fits : Recv → Bool
  | .data bytes => bytes ≠ [] && bytes.length < 1024
  | _ => true

/-- How `Server::receiveMessage` ends. -/
inductive Received where
  | message (text : Str)
  | closed
  | failed

/-- The loop of `Server::receiveMessage`.  The buffer is appended as a C
string, so a chunk counts only up to its first zero byte. -/
def receiveLoop : List Recv → Str → Received
  | [], message => .message message
  | .data bytes :: more, message =>
      let message := message ++ bytes.takeWhile (· ≠ '\x00')
      if Text.contains crlf message then .message message else receiveLoop more message
  | .closed :: _, _ => .closed
  | .again :: _, message => .message message
  | .error :: _, _ => .failed

/-- `Server::receiveMessage`, apart from the closing of the connection. -/
def receiveMessage (results : List Recv) : Received := receiveLoop results []

/-- The commands `Server::handleClientMessage` cuts from a message: a message
that starts with `/` is cut at line feeds, any other at CRLF pairs.  What
follows the last terminator is dropped. -/
def commandsOf (message : Str) : List Str :=
  if message.head? = some '/' then (Text.cut "\n".toList message).dropLast
  else (Text.cut crlf message).dropLast

/-- The server and what `handleClientMessage` still has to do. -/
structure World where
  srv : Server
  reading : Option (Fd × List Str)

/-- What happens next in the poll loop. -/
inductive Action where
  | accept (fd : Fd) (ip : Str) (port : Nat)
  | receive (fd : Fd) (results : List Recv)
  | command (env : Env)

/-- The rest of a buffer, or nothing when it is worked off. -/
def remaining (fd : Fd) (lines : List Str) : Option (Fd × List Str) :=
  if lines = [] then none else some (fd, lines)

/-- `handleClientMessage` up to its loop over the commands. -/
def World.receive (w : World) (fd : Fd) (results : List Recv) : World :=
  match receiveMessage results with
  | .message text => { w with reading := remaining fd (commandsOf text) }
  | .closed | .failed => { w with srv := w.srv.withTables (w.srv.closeConnection fd) }

/-- One round of that loop.  An exception ends the loop and closes the
connection. -/
def World.command (w : World) (env : Env) (fd : Fd) (line : Str) (lines : List Str) :
    Option World :=
  let indexed := w.srv.index fd env.leftover
  match Server.commandParser env line indexed.2 (w.srv.withTables indexed.1) with
  | .done s => some { srv := s, reading := remaining fd lines }
  | .thrown _ s => some { srv := s.withTables (s.closeConnection fd), reading := none }
  | .fault _ => none

/-- One step of `Server::run`.  The kernel hands out descriptors that are not
open, and only polled descriptors are read. -/
def step (w : World) : Action → Option World
  | .accept fd ip port =>
      if w.reading = none ∧ w.srv.serverSocket ∈ w.srv.pollFds ∧ fd ∉ w.srv.openFds then
        some { w with srv := w.srv.withTables (w.srv.acceptConnection fd ip port) }
      else none
  | .receive fd results =>
      if w.reading = none ∧ fd ∈ w.srv.pollFds ∧ fd ≠ w.srv.serverSocket ∧
          results.all Recv.fits then
        some (w.receive fd results)
      else none
  | .command env =>
      match w.reading with
      | some (fd, line :: lines) => w.command env fd line lines
      | _ => none

/-- The server as `initialize` and the start of `run` leave it: nobody is
connected, and the descriptors of the process are the standard ones, the
listening socket and the bot's socket. -/
def initial (password host : Str) (serverSocket botSocket : Fd) : World where
  srv :=
    { serverSocket := serverSocket
      botSocket := botSocket
      password := password
      host := host
      clients := ∅
      channels := ∅
      nickList := []
      pollFds := [serverSocket]
      memory := fun _ => Client.connected 0 [] 0
      nextPtr := 0
      openFds := [0, 1, 2, serverSocket, botSocket]
      sent := []
      freedUses := [] }
  reading := none

/-- A start of the server, with any password and any two sockets. -/
def Start (w : World) : Prop :=
  ∃ password host serverSocket botSocket,
    serverSocket ≠ botSocket ∧ w = initial password host serverSocket botSocket

/-- The start of a server with password `pw`, a listening socket 3 and a bot
socket 4. -/
theorem start_pw : Start (initial "pw".toList [] 3 4) :=
  ⟨_, _, 3, 4, by decide, rfl⟩

/-- Runs of the server. -/
abbrev Steps (trace : Run.Trace World Action) (w : World) : Prop :=
  Run.Steps step Start trace w

/-- The line a step handles, with the descriptor it came from. -/
def World.current (w : World) : Option (Fd × Str) :=
  match w.reading with
  | some (fd, line :: _) => some (fd, line)
  | _ => none

/-- Every `send` succeeds, and uninitialised members hold zeros. -/
def Env.calm : Env where
  leftover := ⟨0, 0, false, false, false⟩
  now := []
  sendFails := fun _ => false

/-- The actions by which lines that arrive in one packet are worked off. -/
def packet (fd : Fd) (lines : List String) : List Action :=
  .receive fd [.data (lines.flatMap fun line => line.toList ++ crlf)] ::
    lines.map fun _ => .command Env.calm

end Irc
