import Mathlib.Data.List.Find
import IrcServers.FtIrc.Authority
import IrcServers.FtIrc.Members

/-!
# The password gate

A client is logged in by `USER` or `NICK` when the password stored for it is the
server's.  The stored password comes from its last `PASS`, or is the placeholder
`*` that `Client::Client` sets; so the gate holds for every server password but
this one.

A client that is not logged in is a member of no channel.  Its messages change a
channel only when they remove it and a client that has left before it had the
same descriptor and is still listed: then `Server::removeClient` drops that
entry.
-/

namespace FtIrc

open Utils Outcome

/-- The start of a server with the password given. -/
def StartWith (password : Str) (w : World) : Prop :=
  ∃ createdDate listener keepsFd, w = initial password createdDate listener keepsFd

/-- Runs of a server with the password given. -/
abbrev StepsWith (password : Str) (trace : Run.Trace World Action) (w : World) : Prop :=
  Run.Steps step (StartWith password) trace w

/-- The step handles a `PASS` of the client, with the password as its first
parameter. -/
def Presents (password : Str) (p : ClientPtr) (w : World) (a : Action) : Prop :=
  ∃ said ∈ w.speaker a, said.1 = p ∧ Checker.accepts said.2 = true ∧
    verbOf (commandOf said.2) = .pass ∧ (Parser.parse said.2).function = password

instance (password : Str) (p : ClientPtr) (w : World) (a : Action) :
    Decidable (Presents password p w a) := inferInstanceAs (Decidable (∃ said ∈ w.speaker a, _))

/-- The client has sent such a `PASS` earlier in its connection. -/
def Presented (password : Str) (p : ClientPtr) (trace : Run.Trace World Action) : Prop :=
  ∃ entry ∈ trace, Presents password p entry.1 entry.2

instance (password : Str) (p : ClientPtr) (trace : Run.Trace World Action) :
    Decidable (Presented password p trace) := inferInstanceAs (Decidable (∃ entry ∈ trace, _))

/-- A password that was presented stays so. -/
theorem Presented.cons {password : Str} {p : ClientPtr} {trace : Run.Trace World Action}
    (h : Presented password p trace) (entry : World × Action) :
    Presented password p (entry :: trace) := by
  obtain ⟨earlier, hmem, hpresents⟩ := h
  exact ⟨earlier, List.mem_cons_of_mem _ hmem, hpresents⟩

namespace Server

variable {s s' : Server} {ch : Channel} {x p : ClientPtr} {fd : Fd} {message : Str}

/-- Only `PASS` changes the password stored for a client. -/
theorem password_recordAfter (s : Server) (message : Str) (c : Client) :
    (s.recordAfter message c).password = c.password ∨
      Checker.accepts message = true ∧ verbOf (commandOf message) = .pass ∧
        (Parser.parse message).function = (s.recordAfter message c).password := by
  unfold recordAfter
  split
  · rename_i haccepts
    split
    · dsimp only
      split <;> exact Or.inl rfl
    · rename_i hverb
      exact Or.inr ⟨haccepts, hverb, rfl⟩
    · exact Or.inl rfl
    · exact Or.inl rfl
  · exact Or.inl rfl

end Server

variable {w w' : World} {a : Action} {password : Str} {trace : Run.Trace World Action}

/-- What is known of the clients and the passwords they have sent. -/
structure Gated (password : Str) (trace : Run.Trace World Action) (w : World) : Prop where
  tidy : Tidy w
  server : w.srv.password = password
  stored : ∀ p ∈ w.srv.clients, (w.srv.memory p).password = password → Presented password p trace
  login : ∀ p ∈ w.srv.clients, (w.srv.memory p).login = true → Presented password p trace

/-- There are no clients to let in at the start. -/
theorem gated_start (h : StartWith password w) : Gated password [] w := by
  have htidy : Tidy w := by
    obtain ⟨createdDate, listener, keepsFd, rfl⟩ := h
    exact tidy_start ⟨password, createdDate, listener, keepsFd, rfl⟩
  obtain ⟨createdDate, listener, keepsFd, rfl⟩ := h
  refine ⟨htidy, rfl, ?_, ?_⟩ <;> exact fun p hp => by cases hp

/-- A step logs a client in, or stores the server's password for it, only when
the client has presented the password. -/
theorem gated_records (hgated : Gated password trace w) (hrecords : Records w a w')
    {p : ClientPtr} (hp : p ∈ w.srv.clients) :
    ((w'.srv.memory p).password = password → Presented password p ((w, a) :: trace)) ∧
      ((w'.srv.memory p).login = true → Presented password p ((w, a) :: trace)) := by
  have hfresh := hgated.tidy.fresh p hp
  constructor
  · intro hstored
    by_cases hspeaks : ∃ line, w.speaker a = some (p, line)
    · obtain ⟨line, hspeaker⟩ := hspeaks
      rw [(hrecords.own p line hspeaker).password] at hstored
      rcases w.srv.password_recordAfter line (w.srv.memory p) with hold | ⟨haccepts, hverb, hset⟩
      · exact (hgated.stored p hp (hold.symm.trans hstored)).cons _
      · exact ⟨(w, a), List.mem_cons_self, (p, line), hspeaker, rfl, haccepts, hverb,
          hset.trans hstored⟩
    · have hsame := hrecords.others p (Or.inl hfresh) fun line heq => hspeaks ⟨line, heq⟩
      exact (hgated.stored p hp (hsame.password ▸ hstored)).cons _
  · intro hlogin
    rcases hrecords.login p hfresh hlogin with hold | hright
    · exact (hgated.login p hp hold).cons _
    · exact (hgated.stored p hp (hright.symm.trans hgated.server)).cons _

/-- A step lets in only who has presented the password. -/
theorem gated_step (hpassword : password ≠ "*".toList) (hgated : Gated password trace w)
    (hstep : Stepped w a w') : Gated password ((w, a) :: trace) w' := by
  have hrecords := hstep.records hgated.tidy
  refine ⟨hgated.tidy.stepped hstep, hrecords.password.trans hgated.server, ?_, ?_⟩
  · intro p hp hstored
    rcases mem_clients_step hgated.tidy hstep hp with hold | ⟨-, -, fd, hostName, hnew⟩
    · exact (gated_records hgated hrecords hold).1 hstored
    · rw [hnew] at hstored
      exact (hpassword hstored.symm).elim
  · intro p hp hlogin
    rcases mem_clients_step hgated.tidy hstep hp with hold | ⟨-, -, fd, hostName, hnew⟩
    · exact (gated_records hgated hrecords hold).2 hlogin
    · rw [hnew] at hlogin
      cases hlogin

namespace Server

variable {s s' : Server} {ch : Channel} {x : ClientPtr} {fd : Fd} {message : Str}

/-- Nobody is logged out. -/
theorem recordAfter_login {c : Client} (h : c.login = true) :
    (s.recordAfter message c).login = true := by
  unfold recordAfter
  split
  · split
    · dsimp only
      split <;> simp [h]
    · exact h
    · simp [h]
    · exact h
  · exact h

/-- The commands before the login test leave the channels alone, unless they
remove their client. -/
theorem handleLine_stranger (env : Env) (hline : OneLine message) (hx : s.getClient fd = some x)
    (hlogin : (s.memory x).login = false) (hremoves : s.removing message fd = none) :
    (handleLine env s message fd).Leaves fun s' => s'.channels = s.channels := by
  unfold handleLine
  rw [hline.executeTo, handle, leaves_catching]
  by_cases haccepts : Checker.accepts message = true
  · rw [check_of_accepts s fd haccepts, andThen_done]
    unfold dispatch
    unfold removing at hremoves
    rw [if_pos haccepts] at hremoves
    cases hverb : verbOf (commandOf message) with
    | quit =>
        rw [hverb, hx] at hremoves
        cases hremoves
    | user =>
        rw [hverb, hx] at hremoves
        dsimp only [Option.bind_some] at hremoves
        split at hremoves
        · rename_i hright
          refine .require fun user _ => .require fun client hc => ?_
          rw [hx] at hc
          cases hc
          have hset := login_channels (s.setClient x fun c =>
            { c with userName := user.1, realName := user.2 }) x
          split
          · rename_i s' hthrown
            exact (login_ne_mismatch (by simpa [setClient] using hright) s' hthrown).elim
          · exact hset
        · cases hremoves
    | nick => exact execNick_channels
    | pass => exact execPass_channels
    | join | privmsg | part | who | notice | mode | kick | invite | topic | whois | unknown =>
        dsimp only
        rw [hx, require_some, if_neg (by simp [hlogin])]
        exact leaves_done.mpr rfl
  · rw [check_andThen_of_not_accepts s fd haccepts]
    refine (check_sends s message fd).imp fun s' h => ?_
    rw [show s' = { s with sent := s'.sent } from h]

/-- Members other than the deleted client are found as before. -/
theorem getClient_deleteClient_stranger (hx : s.getClient fd = some x) (hmember : x ∉ ch.clients) :
    ch.getClient (s.deleteClient fd).memory fd = ch.getClient s.memory fd := by
  unfold Channel.getClient
  refine List.find?_congr fun p hp => ?_
  rw [deleteClient_memory fun hfound => hmember (Option.some.inj (hx.symm.trans hfound) ▸ hp)]

/-- Dropping an entry by its descriptor changes a channel that has one. -/
theorem dropFrom_eq_iff (hx : s.getClient fd = some x) (hmember : x ∉ ch.clients) :
    s.dropFrom fd ch = ch ↔ ∀ p ∈ ch.clients, (s.memory p).fd ≠ fd := by
  unfold dropFrom
  rw [getClient_deleteClient_stranger hx hmember]
  cases hq : ch.getClient s.memory fd with
  | none =>
      refine iff_of_true rfl fun p hp => ?_
      simpa using List.find?_eq_none.mp hq p hp
  | some q =>
      have hmem : q ∈ ch.clients := List.mem_of_find?_eq_some hq
      have hfd : (s.memory q).fd = fd := by simpa using List.find?_some hq
      refine iff_of_false ?_ fun hall => hall q hmem hfd
      rw [Channel.removeClient_some, Channel.without, if_pos hmem]
      intro heq
      have hlength := congrArg (fun ch : Channel => ch.clients.length) heq
      have hpos := List.length_pos_of_mem hmem
      simp only [List.length_erase_of_mem hmem] at hlength
      omega

/-- The removal of a client that is no member. -/
theorem parted_channels_stranger (hx : s.getClient fd = some x)
    (hmember : ∀ ch ∈ s.channels, x ∉ ch.clients) {k : Nat} (hk : k = 1 ∨ k = 2) :
    (s.parted fd k).channels = s.channels.map (s.dropFrom fd) := by
  rcases hk with rfl | rfl
  · exact s.channels_removeClient fd
  · have hdeparted : (s.departed fd).channels = s.channels := by
      refine (List.map_congr_left fun ch hch => ?_).trans (List.map_id _)
      unfold quitFrom
      rw [hx, Channel.removeClient_some, Channel.without_of_not_mem (hmember ch hch), ite_self]
      rfl
    have hremoved := (s.departed fd).channels_removeClient fd
    rw [dropFrom_departed, hdeparted] at hremoved
    exact hremoved

/-- The removal of a client that is on no channel changes one only if that lists its
descriptor. -/
theorem map_dropFrom_eq_iff (hx : s.getClient fd = some x)
    (hmember : ∀ ch ∈ s.channels, x ∉ ch.clients) :
    s.channels.map (s.dropFrom fd) = s.channels ↔
      ∀ ch ∈ s.channels, ∀ p ∈ ch.clients, (s.memory p).fd ≠ fd := by
  constructor
  · intro h ch hch
    rw [← dropFrom_eq_iff hx (hmember ch hch)]
    exact (List.map_inj_left.mp (h.trans (List.map_id _).symm)) ch hch
  · intro h
    refine (List.map_congr_left fun ch hch => ?_).trans (List.map_id _)
    exact (dropFrom_eq_iff hx (hmember ch hch)).mpr (h ch hch)

end Server

/-- All members of channels are logged in, or were when they left the server. -/
structure LoggedMembers (w : World) : Prop where
  tidy : Tidy w
  members : ∀ ch ∈ w.srv.channels, ∀ p ∈ ch.clients,
    p < w.srv.nextPtr ∧ (w.srv.memory p).login = true

/-- There are no members at the start. -/
theorem loggedMembers_start (h : Start w) : LoggedMembers w := by
  refine ⟨tidy_start h, ?_⟩
  obtain ⟨password, createdDate, listener, keepsFd, rfl⟩ := h
  exact fun ch hch => by cases hch

/-- A step makes only logged-in clients members. -/
theorem loggedMembers_step (h : LoggedMembers w) (hstep : Stepped w a w') : LoggedMembers w' := by
  have hrecords := hstep.records h.tidy
  have hnext := nextPtr_step h.tidy hstep
  have hkept : ∀ p < w.srv.nextPtr, (w.srv.memory p).login = true →
      (w'.srv.memory p).login = true := by
    intro p hp hlogin
    by_cases hspeaks : ∃ line, w.speaker a = some (p, line)
    · obtain ⟨line, hspeaker⟩ := hspeaks
      rw [(hrecords.own p line hspeaker).login]
      exact Server.recordAfter_login hlogin
    · rw [(hrecords.others p (Or.inl hp) fun line heq => hspeaks ⟨line, heq⟩).login]
      exact hlogin
  refine ⟨h.tidy.stepped hstep, fun ch' hch' p hp => ?_⟩
  rcases hstep.members h.tidy hch' hp with ⟨ch, hch, hp⟩ | ⟨line, hspeaker, hcalled⟩
  · obtain ⟨hfresh, hlogin⟩ := h.members ch hch p hp
    exact ⟨hfresh.trans_le hnext, hkept p hfresh hlogin⟩
  · have hfresh := h.tidy.fresh p (mem_of_speaker hspeaker)
    exact ⟨hfresh.trans_le hnext, hkept p hfresh hcalled.2.2⟩

/-- A line of a client that is not logged in leaves the channels as they are. -/
def Unmoved (w : World) (a : Action) : Prop :=
  ∀ said ∈ w.speaker a, (w.srv.memory said.1).login = false →
    ∀ w', step w a = some w' → w'.srv.channels = w.srv.channels

/-- A client that is not logged in is removed only when no channel lists a client
with its descriptor. -/
def LeavesNothing (w : World) (a : Action) : Prop :=
  ∀ said ∈ w.speaker a, (w.srv.memory said.1).login = false → w.removes a = none ∨
    ∀ ch ∈ w.srv.channels, ∀ p ∈ ch.clients,
      (w.srv.memory p).fd ≠ (w.srv.memory said.1).fd

instance (w : World) (a : Action) : Decidable (LeavesNothing w a) :=
  inferInstanceAs (Decidable (∀ said ∈ w.speaker a, _))

/-- A line leaves the channels alone just when it removes nothing from them. -/
theorem unmoved_iff (h : LoggedMembers w) (hstep : step w a = some w') :
    Unmoved w a ↔ LeavesNothing w a := by
  cases stepped_of_step hstep with
  | gather | accept | read | readFails =>
      exact iff_of_true (fun said hsaid => by cases hsaid) (fun said hsaid => by cases hsaid)
  | @line env fd line lines s hpending hdone =>
      have hline := h.tidy.lines fd _ hpending line List.mem_cons_self
      have hspeaker : w.speaker (.line env) = (w.srv.getClient fd).map fun p => (p, line) := by
        simp only [World.speaker, hpending]
      have hremoves : w.removes (.line env) = w.srv.removing line fd := by
        simp only [World.removes, hpending]
      have hexact : ∀ x, w.srv.getClient fd = some x → (w.srv.memory x).login = false →
          (s.channels = w.srv.channels ↔ w.srv.removing line fd = none ∨
            ∀ ch ∈ w.srv.channels, ∀ p ∈ ch.clients, (w.srv.memory p).fd ≠ fd) := by
        intro x hx hlogin
        have hmember : ∀ ch ∈ w.srv.channels, x ∉ ch.clients := by
          intro ch hch hmem
          rw [(h.members ch hch x hmem).2] at hlogin
          cases hlogin
        cases hremoving : w.srv.removing line fd with
        | none =>
            have hleaves := Server.handleLine_stranger env hline hx hlogin hremoving
            rw [hdone, leaves_done] at hleaves
            exact iff_of_true hleaves (Or.inl rfl)
        | some removal =>
            obtain ⟨client, k⟩ := removal
            obtain ⟨hclient, hk⟩ := Server.removing_some hremoving
            have hhandled := Server.handleLine_leaves env h.tidy.named hline fd
            rw [hdone, leaves_done, hremoving] at hhandled
            rw [hhandled.2.channels, Server.fd_of_getClient hclient,
              Server.parted_channels_stranger hx hmember hk, Server.map_dropFrom_eq_iff hx hmember]
            simp
      constructor
      · intro hunmoved said hsaid hlogin
        rw [hspeaker] at hsaid
        obtain ⟨x, hx, rfl⟩ := Option.map_eq_some_iff.mp hsaid
        rw [hremoves, Server.fd_of_getClient hx]
        refine (hexact x hx hlogin).mp (hunmoved (x, line) ?_ hlogin _ hstep)
        rw [hspeaker, hx]
        rfl
      · intro hleaves said hsaid hlogin w'' hstep'
        rw [hstep] at hstep'
        cases hstep'
        have hleft := hleaves said hsaid hlogin
        rw [hspeaker] at hsaid
        obtain ⟨x, hx, rfl⟩ := Option.map_eq_some_iff.mp hsaid
        rw [hremoves, Server.fd_of_getClient hx] at hleft
        exact (hexact x hx hlogin).mpr hleft

/-- So it is for all lines of a run. -/
theorem meets_unmoved_iff (run : Steps trace w) :
    Run.Meets Unmoved trace ↔ Run.Meets LeavesNothing trace :=
  run.meets_iff_meets LoggedMembers (fun _ => loggedMembers_start)
    (fun _ _ _ h hstep => loggedMembers_step h (stepped_of_step hstep))
    fun _ _ _ h hstep => unmoved_iff h hstep

/-- A run with a given password is a run. -/
theorem steps_of_stepsWith (run : StepsWith password trace w) : Steps trace w :=
  run.of_start fun _ h => ⟨password, h⟩

/-- A run in which a client without a password logs in, when the server's is the
placeholder. -/
theorem exists_placeholder_login : ∃ trace w, StepsWith "*".toList trace w ∧
    w.srv.clients = [0] ∧ (w.srv.memory 0).login = true ∧ ¬ Presented "*".toList 0 trace := by
  have hstart : StartWith "*".toList (initial "*".toList [] 3 overwritten) := ⟨[], 3, _, rfl⟩
  obtain ⟨trace, w, run, htest⟩ := Run.exists_steps_of_record step hstart
    ([.gather, .accept 5 "h".toList, .gather] ++ packet 5 ["NICK a", "USER a a a :n"])
    (fun trace w => w.srv.clients = [0] ∧ (w.srv.memory 0).login = true ∧
      ¬ Presented "*".toList 0 trace) (by decide +kernel)
  exact ⟨trace, w, run, of_decide_eq_true htest⟩

/-- **The password gate.**  For a server password, clients are logged in only
after they have presented it, in every state of every run, if and only if it is
not the placeholder; and the messages of clients that are not logged in leave
the channels alone, in a run, if and only if each of them that removes its
client finds no other entry with its descriptor. -/
theorem password_gate_iff (password : Str) :
    ((∀ trace w, StepsWith password trace w → ∀ p ∈ w.srv.clients,
        (w.srv.memory p).login = true → Presented password p trace) ↔ password ≠ "*".toList) ∧
      ∀ trace w, StepsWith password trace w →
        (Run.Meets Unmoved trace ↔ Run.Meets LeavesNothing trace) := by
  refine ⟨⟨?_, ?_⟩, fun trace w run => meets_unmoved_iff (steps_of_stepsWith run)⟩
  · rintro hall rfl
    obtain ⟨trace, w, run, hclients, hlogin, hnot⟩ := exists_placeholder_login
    exact hnot (hall trace w run 0 (by simp [hclients]) hlogin)
  · intro hpassword trace w run
    have hmeets : Run.Meets (fun (_ : World) (_ : Action) => True) trace := by simp [Run.Meets]
    have hgated : Gated password trace w := run.history_of_meets (Gated password)
      (fun _ => gated_start)
      (fun trace s a next h _ hstep => gated_step hpassword h (stepped_of_step hstep)) hmeets
    exact hgated.login

/-- With the password `*` a client logs in without one; and over a memory that keeps
deleted clients, the entry of a client that joined `#c` twice and hung up is dropped by
the `QUIT` of the next client on its descriptor. -/
theorem gate_left_open :
    (¬ ∀ password trace w, StepsWith password trace w → ∀ p ∈ w.srv.clients,
      (w.srv.memory p).login = true → Presented password p trace) ∧
    ¬ ∀ password trace w, StepsWith password trace w → Run.Meets Unmoved trace := by
  constructor
  · intro hall
    obtain ⟨trace, w, run, hclients, hlogin, hnot⟩ := exists_placeholder_login
    exact hnot (hall _ trace w run 0 (by simp [hclients]) hlogin)
  · intro hall
    have hstart : StartWith "pw".toList (initial "pw".toList [] 3 kept) := ⟨[], 3, _, rfl⟩
    obtain ⟨trace, w, run, htest⟩ := Run.exists_steps_of_record step hstart
      ([.gather, .accept 5 "h".toList, .gather] ++
        packet 5 ["PASS pw", "NICK a", "USER a a a :n", "JOIN #c", "JOIN #c"] ++
        [.read 5 [], .gather, .accept 5 "h".toList, .gather] ++ packet 5 ["QUIT :x"])
      (fun trace _ => ∃ entry ∈ trace, ¬ LeavesNothing entry.1 entry.2) (by decide +kernel)
    obtain ⟨entry, hmem, hnot⟩ := of_decide_eq_true htest
    exact hnot ((meets_unmoved_iff (steps_of_stepsWith run)).mp (hall _ trace w run) entry hmem)

end FtIrc
