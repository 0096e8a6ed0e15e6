import IrcServers.FtIrc.Commands
import IrcServers.Run

/-!
# The poll loop of the `42-Ft_irc` server

`Server::listen()` as a labelled machine.  A round of the loop adds the new
clients to `pollFds` and calls `poll` (action `gather`), accepts at most one
connection, and then reads descriptors; every line of a message is a step of
its own, since a line may remove the client it came from.  The order in which
descriptors are read, what `recv` returns and the contents of indeterminate
values are chosen by the action.

An exception that leaves `Command::Execute` also leaves the loop, and so does a
fault: there is no next state.
-/

namespace FtIrc

/-- Where the loop stands: at its top, just after `poll`, or past the accept. -/
inductive Phase where
  | top | polled | serving
deriving DecidableEq

/-- The server with the local variables of `Server::listen()`, and the lines of
the message that is being handled. -/
structure World where
  srv : Server
  listener : Fd
  pollFds : List Fd
  lastClientSize : Nat
  phase : Phase
  pending : Option (Fd × List Str)

/-- What happens next.  A read of zero bytes is a hang-up; a failing read only
throws and catches a `ReadException`. -/
inductive Action where
  | gather
  | accept (fd : Fd) (hostName : Str)
  | read (fd : Fd) (message : Str)
  | readFails (fd : Fd)
  | line (env : Env)

/-- The lines still to be handled, if any. -/
def remaining (fd : Fd) (lines : List Str) : Option (Fd × List Str) :=
  if lines = [] then none else some (fd, lines)

/-- The top of the loop: the clients from index `lastClientSize` on are added. -/
def World.gather (w : World) : World :=
  { w with
    pollFds := w.pollFds ++ w.srv.fdsOf (w.srv.clients.drop w.lastClientSize)
    lastClientSize := w.srv.clients.length
    phase := .polled }

/-- `Server::read` and the start of `Command::Execute`. -/
def World.read (w : World) (fd : Fd) (message : Str) : World :=
  let w := { w with phase := .serving, pending := remaining fd (linesOf message) }
  if message = [] then { w with srv := w.srv.removeClient fd } else w

/-- One line of the message, handled as `Command::Execute` handles it. -/
def handleLine (env : Env) : Server → Str → Fd → Result := executeTo env 2

/-- One step of `Server::listen()`.  The kernel hands out descriptors that are
not in use, and data or a hang-up come from the connection of a client. -/
def step (w : World) : Action → Option World
  | .gather => if w.pending = none then some w.gather else none
  | .accept fd hostName =>
      if w.phase = .polled ∧ 0 ≤ fd ∧ fd ≠ w.listener ∧ fd ∉ w.srv.fdsOf w.srv.clients then
        some { w with srv := w.srv.addClient fd hostName, phase := .serving }
      else none
  | .read fd message =>
      if w.phase ≠ .top ∧ w.pending = none ∧ fd ∈ w.pollFds.tail ∧
          fd ∈ w.srv.fdsOf w.srv.clients ∧ message.length ≤ 512 then
        some (w.read fd message)
      else none
  | .readFails fd =>
      if w.phase ≠ .top ∧ w.pending = none ∧ fd ∈ w.pollFds.tail then
        some { w with phase := .serving }
      else none
  | .line env =>
      match w.pending with
      | some (fd, line :: lines) =>
          match handleLine env w.srv line fd with
          | .done s => some { w with srv := s, pending := remaining fd lines }
          | .thrown _ _ | .fault _ => none
      | _ => none

/-- `DEFAULT_NAME`. -/
def defaultName : Str := "irc.ft_messenger.net".toList

/-- `DEFAULT_VERSION`. -/
def defaultVersion : Str := "ft_messenger-v1.0.0".toList

/-- The server as its constructor and the start of `listen()` leave it, over a
memory that keeps the descriptors of the deleted clients given by `keepsFd`. -/
def initial (password createdDate : Str) (listener : Fd) (keepsFd : ClientPtr → Bool) : World where
  srv :=
    { name := defaultName
      version := defaultVersion
      createdDate := createdDate
      password := password
      clients := []
      channels := []
      memory := fun _ => Client.new 0 []
      keepsFd := keepsFd
      nextPtr := 0
      sent := [] }
  listener := listener
  pollFds := [listener]
  lastClientSize := 0
  phase := .top
  pending := none

/-- A start of the server. -/
def Start (w : World) : Prop :=
  ∃ password createdDate listener keepsFd, w = initial password createdDate listener keepsFd

/-- The memory of usual allocators: what is deleted is overwritten. -/
def overwritten : ClientPtr → Bool := fun _ => false

/-- A memory in which deleted clients keep their last values. -/
def kept : ClientPtr → Bool := fun _ => true

/-- The start of a server with password `pw` and listening socket 3. -/
theorem start_pw : Start (initial "pw".toList [] 3 overwritten) := ⟨_, _, 3, _, rfl⟩

/-- The same over a memory that keeps what is deleted. -/
theorem start_pw_kept : Start (initial "pw".toList [] 3 kept) := ⟨_, _, 3, _, rfl⟩

/-- Runs of the server. -/
abbrev Steps (trace : Run.Trace World Action) (w : World) : Prop :=
  Run.Steps step Start trace w

/-- Indeterminate values that hold zeros. -/
def Env.calm : Env where
  junkChar := '\x00'
  junkInt := 0

/-- The actions by which a message with several lines is handled. -/
def packet (fd : Fd) (lines : List String) : List Action :=
  .read fd (lines.flatMap fun line => line.toList ++ crlf) :: lines.map fun _ => .line Env.calm

end FtIrc
