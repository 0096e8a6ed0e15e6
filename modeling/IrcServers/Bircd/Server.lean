import Mathlib.Data.Finset.Card
import Mathlib.Data.Finset.Range
import Mathlib.Logic.Function.Basic
import IrcServers.Run

/-!
# The `bircd` server

`main_loop` as a labelled machine.  A round is `init_fd`, `do_select` and
`check_fd`; the results of `select`, `accept` and `recv` are chosen by the action,
and each turn of the loop in `check_fd` is a step of its own, with the variable `i`
in the field `checking`.

The buffers come from `malloc` and are not cleared.  `buf_write` is never written
at all, yet `init_fd` asks for its length to decide whether a descriptor is to be
watched for writing, so what it holds from the start is part of the start.

A program that ends, by `exit` or by a step that the language leaves undefined,
has no next step.
-/

namespace Bircd

/-- A string, byte by byte. -/
abbrev Str := List Char

/-- A file descriptor; a call that fails returns none. -/
abbrev Fd := Nat

/-- `BUF_SIZE`. -/
def bufSize : Nat := 4096

/-- `FD_SETSIZE`: an `fd_set` has a bit for each smaller descriptor. -/
def fdSetSize : Nat := 1024

/-- `FD_FREE`, `FD_SERV` and `FD_CLIENT`. -/
inductive FdType where
  | free | serv | client
deriving DecidableEq

/-- The functions that `fct_read` can point to. -/
inductive ReadFct where
  | srvAccept | clientRead
deriving DecidableEq

/-- The function that `fct_write` can point to. -/
inductive WriteFct where
  | clientWrite
deriving DecidableEq

/-- `struct s_fd`. -/
structure FdSlot where
  type : FdType
  fctRead : Option ReadFct
  fctWrite : Option WriteFct
  bufRead : Str
  bufWrite : Str

/-- How the program ends: `exit` in `X`, a call through a null pointer, or a bit
behind the end of an `fd_set`. -/
inductive Ending where
  | exited | nullCall | pastFdSet
deriving DecidableEq

/-- `struct s_env`, apart from the port, with the variable `i` of `check_fd` and
what has been handed to `send`. -/
structure Env where
  fds : Fd → FdSlot
  maxfd : Nat
  max : Fd
  r : Int
  fdRead : Finset Fd
  fdWrite : Finset Fd
  checking : Nat
  sent : List (Fd × Str)
  ending : Option Ending

/-- What the kernel answers to the call a read handler makes: a connection, or
data, of which there is none when the peer has hung up. -/
inductive Answer where
  | accepted (cs : Option Fd)
  | received (data : Option Str)
deriving DecidableEq

/-- What happens next: `select` fails or reports descriptors, and `check_fd` makes a
turn, in which at most one call is answered. -/
inductive Action where
  | select (ready : Option (Finset Fd × Finset Fd))
  | check (answer : Option Answer)

/-- `strlen`. -/
def strlen (buffer : Str) : Nat := (buffer.takeWhile (· ≠ '\x00')).length

/-- `clean_fd`. -/
def FdSlot.cleanFd (slot : FdSlot) : FdSlot :=
  { slot with type := .free, fctRead := none, fctWrite := none }

namespace Env

/-- Change the slot of a descriptor. -/
def setSlot (e : Env) (fd : Fd) (f : FdSlot → FdSlot) : Env :=
  { e with fds := Function.update e.fds fd (f (e.fds fd)) }

/-- The program ends. -/
def halt (e : Env) (ending : Ending) : Env := { e with ending := some ending }

/-- The descriptors `init_fd` puts into `fd_read`. -/
def watched (e : Env) : Finset Fd := (Finset.range e.maxfd).filter fun i => (e.fds i).type ≠ .free

/-- The descriptors `init_fd` puts into `fd_write`. -/
def written (e : Env) : Finset Fd := e.watched.filter fun i => 0 < strlen (e.fds i).bufWrite

/-- `init_fd`. -/
def initFd (e : Env) : Env :=
  if ∀ i ∈ e.watched, i < fdSetSize then
    { e with
      max := (List.range e.maxfd).foldl
        (fun max i => if (e.fds i).type ≠ .free then Nat.max max i else max) 0
      fdRead := e.watched
      fdWrite := e.written }
  else e.halt .pastFdSet

/-- `do_select`.  What is ready is counted in both sets; a `select` that fails
leaves the sets alone. -/
def doSelect (e : Env) : Option (Finset Fd × Finset Fd) → Env
  | none => { e with r := -1 }
  | some (readable, writable) =>
      { e with r := readable.card + writable.card, fdRead := readable, fdWrite := writable }

/-- `srv_accept`. -/
def srvAccept (e : Env) : Option Fd → Env
  | none => e.halt .exited
  | some cs =>
      e.setSlot cs fun slot =>
        { slot.cleanFd with
          type := .client, fctRead := some .clientRead, fctWrite := some .clientWrite }

/-- The descriptors the loop of `client_read` sends to. -/
def others (e : Env) (cs : Fd) : List Fd :=
  (List.range e.maxfd).filter fun i => (e.fds i).type = .client ∧ i ≠ cs

/-- `client_read`. -/
def clientRead (e : Env) (cs : Fd) : Option Str → Env
  | none | some [] => e.setSlot cs FdSlot.cleanFd
  | some data =>
      let e := e.setSlot cs fun slot =>
        { slot with bufRead := data ++ slot.bufRead.drop data.length }
      { e with
        sent := e.sent ++ (e.others cs).map fun i =>
          (i, (e.fds cs).bufRead.take data.length) }

/-- The call of `fct_read`.  `accept` returns a descriptor that is not in use and
below the limit, `recv` at most `BUF_SIZE` bytes. -/
def callRead (e : Env) (i : Fd) (answer : Option Answer) : Option Env :=
  match (e.fds i).fctRead, answer with
  | some .srvAccept, some (.accepted cs) =>
      if ∀ fd ∈ cs, fd < e.maxfd ∧ (e.fds fd).type = .free then some (e.srvAccept cs) else none
  | some .clientRead, some (.received data) =>
      if ∀ bytes ∈ data, bytes.length ≤ bufSize then some (e.clientRead i data) else none
  | none, none => some (e.halt .nullCall)
  | _, _ => none

/-- The call of `fct_write`; `client_write` is empty. -/
def callWrite (e : Env) (i : Fd) : Env :=
  match (e.fds i).fctWrite with
  | some .clientWrite => e
  | none => e.halt .nullCall

/-- The test of the loop in `check_fd`. -/
def Checks (e : Env) : Prop := e.checking < e.maxfd ∧ 0 < e.r

instance (e : Env) : Decidable e.Checks := inferInstanceAs (Decidable (_ ∧ _))

/-- A descriptor that is ready in one of the sets. -/
def Ready (e : Env) (i : Fd) : Prop := i ∈ e.fdRead ∨ i ∈ e.fdWrite

instance (e : Env) (i : Fd) : Decidable (e.Ready i) := inferInstanceAs (Decidable (_ ∨ _))

/-- The first statement of that loop's body. -/
def checkRead (e : Env) (answer : Option Answer) : Option Env :=
  if e.checking ∈ e.fdRead then e.callRead e.checking answer
  else if answer = none then some e
  else none

/-- The other statements of the body. -/
def checkWrite (e : Env) : Env :=
  let written := if e.checking ∈ e.fdWrite then e.callWrite e.checking else e
  if written.ending = none then
    { written with
      r := if written.Ready written.checking then written.r - 1 else written.r
      checking := written.checking + 1 }
  else written

/-- One turn of the loop in `check_fd`. -/
def checkFd (e : Env) (answer : Option Answer) : Option Env :=
  if e.checking < fdSetSize then
    (e.checkRead answer).map fun e => if e.ending = none then e.checkWrite else e
  else if answer = none then some (e.halt .pastFdSet)
  else none

/-- `init_fd` and `do_select`, up to the loop of `check_fd`. -/
def select (e : Env) (ready : Option (Finset Fd × Finset Fd)) : Env :=
  let e := e.initFd
  if e.ending = none then { e.doSelect ready with checking := 0 } else e

end Env

/-- `select` reports descriptors it was asked for, and looks no further than `max`. -/
def Env.Reports (e : Env) (ready : Option (Finset Fd × Finset Fd)) : Prop :=
  ∀ sets ∈ ready, (∀ i ∈ sets.1, i ∈ e.watched ∧ i ≤ e.initFd.max) ∧
    ∀ i ∈ sets.2, i ∈ e.written ∧ i ≤ e.initFd.max

instance (e : Env) (ready : Option (Finset Fd × Finset Fd)) : Decidable (e.Reports ready) :=
  inferInstanceAs (Decidable (∀ sets ∈ ready, _ ∧ _))

/-- One step of `main_loop`. -/
def step (e : Env) (a : Action) : Option Env :=
  if e.ending = none then
    match a with
    | .select ready =>
        if ¬ e.Checks ∧ e.Reports ready then some (e.select ready) else none
    | .check answer => if e.Checks then e.checkFd answer else none
  else none

/-- The server as `init_env` and `srv_create` leave it: the listening socket is
`s`, and `leftover` gives what the buffers hold. -/
def initial (maxfd : Nat) (s : Fd) (leftover : Fd → Str × Str) : Env where
  fds := fun fd =>
    if fd = s then
      { type := .serv, fctRead := some .srvAccept, fctWrite := none,
        bufRead := (leftover fd).1, bufWrite := (leftover fd).2 }
    else
      { type := .free, fctRead := none, fctWrite := none,
        bufRead := (leftover fd).1, bufWrite := (leftover fd).2 }
  maxfd := maxfd
  max := 0
  r := 0
  fdRead := ∅
  fdWrite := ∅
  checking := 0
  sent := []
  ending := none

/-- A start of the server. -/
def Start (e : Env) : Prop := ∃ maxfd s leftover, s < maxfd ∧ e = initial maxfd s leftover

/-- Runs of the server. -/
abbrev Steps (trace : Run.Trace Env Action) (e : Env) : Prop := Run.Steps step Start trace e

end Bircd
