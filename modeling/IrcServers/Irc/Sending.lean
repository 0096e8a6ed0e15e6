import Mathlib.Data.Prod.Lex
import Mathlib.Order.Lattice.Nat
import Mathlib.Order.WellFounded
import IrcServers.Irc.Loop
import IrcServers.While

/-!
# Handing a message to the kernel

`Server::sendMessage` calls `send` until all of the message is accepted;
`Client::sendMessage` calls it once and does not look at the result.  The
kernel may accept a part of what it is offered, or nothing for the moment, so
the two differ in what arrives.

The loop of `Server::sendMessage` ends because every accepted byte lowers
`remaining`, and while nothing is accepted the next call that accepts
something comes nearer.
-/

namespace Irc

/-- What a call of `send` reports: a positive number of bytes, `EAGAIN` or
`EWOULDBLOCK`, zero, or another error. -/
inductive SendResult where
  | accepted (n : Nat)
  | again
  | closed
  | error
deriving DecidableEq

/-- What the kernel reports to each call of a sender, given its number and how
many bytes it is offered. -/
abbrev Kernel := Nat → Nat → SendResult

/-- Each call that offers something is accepted in part or to be repeated, and
what is offered again and again is accepted some time. -/
structure Kernel.Regular (kernel : Kernel) : Prop where
  reports : ∀ call offered, 0 < offered →
    kernel call offered = .again ∨ ∃ n, 1 ≤ n ∧ n ≤ offered ∧ kernel call offered = .accepted n
  accepts : ∀ call offered, 0 < offered → ∃ wait, kernel (call + wait) offered ≠ .again

/-- How `Server::sendMessage` leaves its loop early: it returns false, or throws
a `ServerException`. -/
inductive SendExit where
  | returnsFalse
  | throws
deriving DecidableEq

/-- The variables of `Server::sendMessage`, with the number of calls so far and
the bytes that the kernel has accepted. -/
structure Sending where
  totalSend : Nat
  remaining : Nat
  calls : Nat
  accepted : Str
  exit : Option SendExit
deriving DecidableEq

/-- The variables before the loop. -/
def Sending.start (msg : Str) : Sending where
  totalSend := 0
  remaining := msg.length
  calls := 0
  accepted := []
  exit := none

/-- One round of the loop of `Server::sendMessage`.  The call offers `remaining`
bytes from position `totalSend` on. -/
def sendRound (kernel : Kernel) (msg : Str) (v : Sending) : Option Sending :=
  if v.exit = none ∧ v.totalSend < msg.length then
    let v' := { v with calls := v.calls + 1 }
    match kernel v.calls v.remaining with
    | .accepted n =>
        let offered := (msg.drop v.totalSend).take v.remaining
        some { v' with
          totalSend := v.totalSend + n
          remaining := v.remaining - n
          accepted := v.accepted ++ offered.take n }
    | .again => some v'
    | .closed => some { v' with exit := some .returnsFalse }
    | .error => some { v' with exit := some .throws }
  else none

/-- The bytes that the kernel accepts from one call. -/
def Kernel.acceptedBytes (kernel : Kernel) (call : Nat) (buffer : Str) : Str :=
  match kernel call buffer.length with
  | .accepted n => buffer.take n
  | _ => []

/-- `Client::sendMessage`: what the kernel accepts of the bytes it is handed. -/
def clientSendMessage (kernel : Kernel) (s : Server) (client : ClientPtr) (message : Str) : Str :=
  kernel.acceptedBytes 0 (s.messageTo client message).2

variable {kernel : Kernel} {msg : Str} {v v' : Sending}

/-- The counters are in step, and what is counted is what has been accepted. -/
structure Sending.InStep (msg : Str) (v : Sending) : Prop where
  total : v.totalSend + v.remaining = msg.length
  accepted : v.accepted = msg.take v.totalSend
  stays : v.exit = none

/-- Nothing has been sent at the start. -/
theorem inStep_start (msg : Str) : (Sending.start msg).InStep msg where
  total := Nat.zero_add msg.length
  accepted := rfl
  stays := rfl

/-- **One round.**  Either the same bytes are offered again, or some of them are
accepted; the counters stay in step. -/
theorem sendRound_cases (hkernel : kernel.Regular) (h : v.InStep msg)
    (hround : sendRound kernel msg v = some v') :
    v'.InStep msg ∧ v'.calls = v.calls + 1 ∧
      (0 < v.remaining ∧ kernel v.calls v.remaining = .again ∧ v'.remaining = v.remaining ∨
        v'.remaining < v.remaining) := by
  obtain ⟨htotal, haccepted, hstays⟩ := h
  unfold sendRound at hround
  split at hround
  · rename_i htest
    have hoffered : 0 < v.remaining := by omega
    rcases hkernel.reports v.calls v.remaining hoffered with hagain | ⟨n, hpos, hle, hn⟩
    · simp only [hagain, Option.some.injEq] at hround
      subst hround
      exact ⟨⟨htotal, haccepted, hstays⟩, rfl, Or.inl ⟨hoffered, hagain, rfl⟩⟩
    · simp only [hn, Option.some.injEq] at hround
      subst hround
      refine ⟨⟨?_, ?_, hstays⟩, rfl, Or.inr ?_⟩
      · dsimp only
        omega
      · dsimp only
        rw [haccepted, List.take_take, Nat.min_eq_left hle, List.take_add]
      · dsimp only
        omega
  · cases hround

/-- How many calls it takes until one of them accepts something. -/
noncomputable def Sending.wait (kernel : Kernel) (v : Sending) : Nat :=
  sInf {wait | kernel (v.calls + wait) v.remaining ≠ .again}

/-- After a call that is to be repeated, the wait is shorter. -/
theorem wait_lt (hkernel : kernel.Regular) (hoffered : 0 < v.remaining)
    (hagain : kernel v.calls v.remaining = .again) (hcalls : v'.calls = v.calls + 1)
    (hremaining : v'.remaining = v.remaining) : v'.wait kernel < v.wait kernel := by
  have hmem : kernel (v.calls + v.wait kernel) v.remaining ≠ .again :=
    Nat.sInf_mem (hkernel.accepts v.calls v.remaining hoffered)
  obtain ⟨n, hn⟩ : ∃ n, v.wait kernel = n + 1 := by
    cases hwait : v.wait kernel with
    | zero =>
        rw [hwait] at hmem
        exact (hmem hagain).elim
    | succ n => exact ⟨n, rfl⟩
  have hle : v'.wait kernel ≤ n := by
    apply Nat.sInf_le
    show kernel (v'.calls + n) v'.remaining ≠ .again
    rw [hcalls, hremaining, Nat.add_assoc, Nat.add_comm 1 n, ← hn]
    exact hmem
  omega

/-- When the loop is over, all of the message has been accepted. -/
theorem Sending.InStep.accepted_of_end (h : v.InStep msg) (hend : sendRound kernel msg v = none) :
    v.accepted = msg := by
  have hlength : msg.length ≤ v.totalSend := by
    by_contra hlt
    unfold sendRound at hend
    rw [if_pos ⟨h.stays, Nat.lt_of_not_le hlt⟩] at hend
    split at hend <;> cases hend
  rw [h.accepted, List.take_of_length_le hlength]

/-- **`Server::sendMessage` delivers the message**, in whatever parts it is
accepted. -/
theorem sendMessage_delivers (hkernel : kernel.Regular) (msg : Str) :
    ∃ v, While.Ends (sendRound kernel msg) (.start msg) v ∧ v.exit = none ∧ v.accepted = msg := by
  have hlower : ∀ v v', v.InStep msg → sendRound kernel msg v = some v' → v'.InStep msg ∧
      toLex (v'.remaining, v'.wait kernel) < toLex (v.remaining, v.wait kernel) := by
    intro v v' hv hround
    obtain ⟨hstep, hcalls, ⟨hoffered, hagain, hsame⟩ | hless⟩ := sendRound_cases hkernel hv hround
    · have hwait := wait_lt hkernel hoffered hagain hcalls hsame
      exact ⟨hstep, Prod.Lex.toLex_lt_toLex.mpr (Or.inr ⟨hsame, hwait⟩)⟩
    · exact ⟨hstep, Prod.Lex.toLex_lt_toLex.mpr (Or.inl hless)⟩
  obtain ⟨v, hends, hstep⟩ := While.exists_ends (Sending.InStep msg) _ hlower (inStep_start msg)
  exact ⟨v, hends, hstep.stays, hstep.accepted_of_end hends.test⟩

/-- `Client::sendMessage` delivers the message with its line end just when its
only call accepts all of it. -/
theorem clientSendMessage_eq_iff (hkernel : kernel.Regular) (s : Server) (client : ClientPtr)
    (message : Str) : clientSendMessage kernel s client message = message ++ crlf ↔
      kernel 0 (message.length + 2) = .accepted (message.length + 2) := by
  have hlength : (message ++ crlf).length = message.length + 2 := by simp [crlf]
  unfold clientSendMessage Server.messageTo Kernel.acceptedBytes
  dsimp only
  rw [hlength]
  rcases hkernel.reports 0 (message.length + 2) (by omega) with hagain | ⟨n, -, hle, hn⟩
  · simp [hagain, crlf]
  · rw [hn, SendResult.accepted.injEq]
    dsimp only
    rw [List.take_eq_self_iff, hlength]
    omega

/-- **Both senders.**  With any regular kernel, `Server::sendMessage` delivers
the message and `Client::sendMessage` the message and its line end, if and only
if the kernel accepts all that the first call of the latter offers. -/
theorem senders_deliver_iff (hkernel : kernel.Regular) (s : Server) (client : ClientPtr)
    (message : Str) :
    ((∃ v, While.Ends (sendRound kernel message) (.start message) v ∧
        v.exit = none ∧ v.accepted = message) ∧
      clientSendMessage kernel s client message = message ++ crlf) ↔
    kernel 0 (message.length + 2) = .accepted (message.length + 2) := by
  rw [clientSendMessage_eq_iff hkernel s client]
  exact and_iff_right (sendMessage_delivers hkernel message)

/-- A kernel that accepts whatever it is offered. -/
theorem senders_deliver_iff_roomy :
    Kernel.Regular (fun _ offered => .accepted offered) ∧
      (∃ v, While.Ends (sendRound (fun _ offered => .accepted offered) "hi".toList)
        (.start "hi".toList) v ∧ v.exit = none ∧ v.accepted = "hi".toList) ∧
      clientSendMessage (fun _ offered => .accepted offered) (initial [] [] 3 4).srv 0
        "hi".toList = "hi\r\n".toList := by
  have hkernel : Kernel.Regular (fun _ offered => .accepted offered) :=
    ⟨fun _ offered hoffered => Or.inr ⟨offered, hoffered, Nat.le_refl offered, rfl⟩,
      fun _ _ _ => ⟨0, fun h => SendResult.noConfusion h⟩⟩
  obtain ⟨hserver, hclient⟩ :=
    (senders_deliver_iff hkernel (initial [] [] 3 4).srv 0 "hi".toList).mpr rfl
  exact ⟨hkernel, hserver, hclient⟩

/-- A kernel whose buffer is full at the first call. -/
def fullOnce : Kernel := fun call offered => if call = 0 then .again else .accepted offered

/-- A kernel that takes everything is a regular one. -/
theorem fullOnce_regular : fullOnce.Regular where
  reports call offered hoffered := by
    unfold fullOnce
    split
    · exact Or.inl rfl
    · exact Or.inr ⟨offered, hoffered, Nat.le_refl offered, rfl⟩
  accepts call offered _ := by
    refine ⟨1, ?_⟩
    rw [fullOnce, if_neg (Nat.succ_ne_zero call)]
    exact fun h => SendResult.noConfusion h

/-- The client's sender loses a message that it is told to send again. -/
theorem client_message_lost : ¬ ∀ kernel s client message, Kernel.Regular kernel →
    (∃ v, While.Ends (sendRound kernel message) (.start message) v ∧
      v.exit = none ∧ v.accepted = message) ∧
    clientSendMessage kernel s client message = message ++ crlf := by
  intro hall
  have hsent := (hall fullOnce (initial [] [] 3 4).srv 0 "hi".toList fullOnce_regular).2
  exact absurd hsent (by decide)

end Irc
