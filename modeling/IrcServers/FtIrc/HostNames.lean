import IrcServers.FtIrc.Dangling
import IrcServers.FtIrc.Joining
import IrcServers.FtIrc.Records

/-!
# Host names stay hidden

`WHO` and `WHOIS` show host names to operators of a channel, and to a client its
own.  Two states that differ only in the host names of other clients are
compared: a client that is no operator is sent the same messages in both, except
where the code takes another entry of a channel for the client itself.  It does
so by the descriptor, and channels may go on listing clients that are deleted.
Once their descriptors are overwritten, there is no such entry.
-/

namespace FtIrc

open Utils Outcome

namespace Server

variable {s s' : Server} {v : ClientPtr}

/-- The states differ only in the host names of clients other than `v`; what has
been sent before is left out. -/
structure DiffersInHosts (v : ClientPtr) (s s' : Server) : Prop where
  rest : s' = { s with memory := s'.memory, sent := s'.sent }
  others : ∀ p, s'.memory p = { s.memory p with hostName := (s'.memory p).hostName }
  own : s'.memory v = s.memory v

/-- The line is answered by the same messages in both states. -/
def SameReply (s s' : Server) (env : Env) (message : Str) (fd : Fd) : Prop :=
  ∃ messages, handleLine env s message fd = .done (s.sendAll messages) ∧
    handleLine env s' message fd = .done (s'.sendAll messages)

namespace DiffersInHosts

/-- The descriptors are the same. -/
theorem fd (h : s.DiffersInHosts v s') (p : ClientPtr) :
    (s'.memory p).fd = (s.memory p).fd := by
  rw [h.others p]

/-- So are the nicknames. -/
theorem nickName (h : s.DiffersInHosts v s') (p : ClientPtr) :
    (s'.memory p).nickName = (s.memory p).nickName := by
  rw [h.others p]

/-- So are the user names. -/
theorem userName (h : s.DiffersInHosts v s') (p : ClientPtr) :
    (s'.memory p).userName = (s.memory p).userName := by
  rw [h.others p]

/-- So are the real names. -/
theorem realName (h : s.DiffersInHosts v s') (p : ClientPtr) :
    (s'.memory p).realName = (s.memory p).realName := by
  rw [h.others p]

/-- The same clients are logged in. -/
theorem login (h : s.DiffersInHosts v s') (p : ClientPtr) :
    (s'.memory p).login = (s.memory p).login := by
  rw [h.others p]

/-- The same clients are connected. -/
theorem clients (h : s.DiffersInHosts v s') : s'.clients = s.clients := by rw [h.rest]

/-- The channels are the same. -/
theorem channels (h : s.DiffersInHosts v s') : s'.channels = s.channels := by rw [h.rest]

/-- The server has the same name. -/
theorem name (h : s.DiffersInHosts v s') : s'.name = s.name := by rw [h.rest]

/-- The same client is found by a descriptor. -/
theorem getClient (h : s.DiffersInHosts v s') (fd : Fd) : s'.getClient fd = s.getClient fd := by
  simp only [Server.getClient, h.clients, h.fd]

/-- The same client is found by a nickname. -/
theorem getClientByNickName (h : s.DiffersInHosts v s') (nickname : Str) :
    s'.getClientByNickName nickname = s.getClientByNickName nickname := by
  simp only [Server.getClientByNickName, h.clients, h.nickName]

/-- The same channel is found by its name. -/
theorem getChannel (h : s.DiffersInHosts v s') (name : Str) :
    s'.getChannel name = s.getChannel name := by
  simp only [Server.getChannel, h.channels]

/-- The same member of a channel is found by a descriptor. -/
theorem channelGetClient (h : s.DiffersInHosts v s') (ch : Channel) (fd : Fd) :
    ch.getClient s'.memory fd = ch.getClient s.memory fd := by
  simp only [Channel.getClient, h.fd]

/-- So is the same operator. -/
theorem getOperator (h : s.DiffersInHosts v s') (ch : Channel) (fd : Fd) :
    ch.getOperator s'.memory fd = ch.getOperator s.memory fd := by
  simp only [Channel.getOperator, h.fd]

/-- The list of nicknames is the same. -/
theorem clientNames (h : s.DiffersInHosts v s') (ch : Channel) :
    s'.clientNames ch = s.clientNames ch := by
  simp only [Server.clientNames, h.getOperator, h.fd, h.nickName]

end DiffersInHosts

variable {ch : Channel} {p q : ClientPtr} {fd : Fd} {message name : Str}

/-- Different messages leave different states. -/
theorem sendAll_inj {messages messages' : List (Fd × Str)}
    (h : s.sendAll messages = s.sendAll messages') : messages = messages' :=
  List.append_cancel_left (congrArg Server.sent h)

/-- One line of a `WHO` reply to the member `member`. -/
def whoLine (s : Server) (ch : Channel) (member : ClientPtr) (isOperator : Bool)
    (p : ClientPtr) : Fd × Str :=
  ((s.memory member).fd, ":".toList ++ s.name ++ " 352 ".toList ++ (s.memory member).nickName ++
    (" ".toList ++ ch.name ++ " ".toList ++ (s.memory p).userName ++ " ".toList ++
      (if isOperator ∨ p = member then (s.memory p).hostName else "unknown".toList) ++
      " ".toList ++ s.name ++ " ".toList ++ (s.memory p).nickName ++ " H :0 ".toList ++
      (s.memory p).realName) ++ crlf)

/-- A line of a `WHO` reply about one of the members. -/
def whoReply (s : Server) (member : ClientPtr) (code : String) (text : Str) : Fd × Str :=
  ((s.memory member).fd, ":".toList ++ s.name ++ code.toList ++ (s.memory member).nickName ++
    text ++ crlf)

/-- The answer to a `WHO` for a channel of which a client with the descriptor is a
member. -/
theorem execWho_found (hch : s.getChannel (Parser.parse message).function = some ch)
    {member : ClientPtr} (hmember : ch.getClient s.memory fd = some member) :
    s.execWho message fd = .done (s.sendAll
      (s.whoReply member " 353 " (" = ".toList ++ ch.name ++ " : ".toList ++ s.clientNames ch) ::
        s.whoReply member " 366 " (" ".toList ++ ch.name ++ " :End of /NAMES list".toList) ::
        s.whoReply member " 324 " (" ".toList ++ ch.name ++ ch.getModes ++ " ".toList) ::
        (ch.clients.map (s.whoLine ch member (ch.getOperator s.memory fd).isSome)) ++
        [s.whoReply member " 315 " (" ".toList ++ ch.name ++ " :End of /WHO list".toList)])) := by
  unfold execWho
  dsimp only
  rw [hch]
  dsimp only
  rw [hmember]
  rfl

/-- The head of an answer shows no host name. -/
theorem DiffersInHosts.whoReply (h : s.DiffersInHosts v s') (member : ClientPtr) (code : String)
    (text : Str) : s'.whoReply member code text = s.whoReply member code text := by
  simp only [Server.whoReply, h.fd, h.name, h.nickName]

/-- A line of a `WHO` reply shows only the host name of the entry it is made
for. -/
theorem DiffersInHosts.whoLine_eq_iff (h : s.DiffersInHosts v s') (ch : Channel)
    (member p : ClientPtr) : s'.whoLine ch member false p = s.whoLine ch member false p ↔
      (p = member → (s'.memory p).hostName = (s.memory p).hostName) := by
  simp only [Server.whoLine, h.fd, h.name, h.nickName, h.userName, h.realName]
  by_cases hp : p = member <;> simp [hp]

/-- Whom `WHO` takes for the client that asks: the first entry with its
descriptor. -/
theorem DiffersInHosts.execWho_iff (h : s.DiffersInHosts v s')
    (hop : ∀ ch ∈ s.channels, ch.getOperator s.memory fd = none)
    (hmember : ∀ ch, s.getChannel (Parser.parse message).function = some ch →
      (ch.getClient s.memory fd).isSome = true) :
    (∃ messages, s.execWho message fd = .done (s.sendAll messages) ∧
      s'.execWho message fd = .done (s'.sendAll messages)) ↔
    ∀ ch ∈ s.getChannel (Parser.parse message).function, ∀ q ∈ ch.getClient s.memory fd,
      (s'.memory q).hostName = (s.memory q).hostName := by
  cases hch : s.getChannel (Parser.parse message).function with
  | none =>
      have hch' := (h.getChannel _).trans hch
      refine iff_of_true ⟨[(fd, ":".toList ++ s.name ++ " 366 * :End of WHO list".toList ++
        crlf)], ?_, ?_⟩ (fun ch hnone => by cases hnone)
      · unfold Server.execWho
        dsimp only
        rw [hch]
        rfl
      · unfold Server.execWho
        dsimp only
        rw [hch', h.name]
        rfl
  | some ch =>
      have hch' := (h.getChannel _).trans hch
      obtain ⟨q, hq⟩ := Option.isSome_iff_exists.mp (hmember ch hch)
      have hnone := hop ch (mem_of_getChannel hch)
      have hdone := execWho_found hch hq
      have hdone' := execWho_found hch' ((h.channelGetClient ch fd).trans hq)
      simp only [h.getOperator, h.whoReply, h.clientNames] at hdone'
      have hlines : ch.clients.map (s'.whoLine ch q false) =
          ch.clients.map (s.whoLine ch q false) ↔
            (s'.memory q).hostName = (s.memory q).hostName := by
        rw [List.map_inj_left]
        simp only [h.whoLine_eq_iff]
        exact ⟨fun hall => hall q (List.mem_of_find?_eq_some hq) rfl,
          fun hsame p _ hp => hp ▸ hsame⟩
      simp only [Option.mem_def, Option.some.injEq, forall_eq', hq]
      rw [hdone, hdone', ← hlines, hnone]
      constructor
      · rintro ⟨messages, heq, heq'⟩
        have hsame := (sendAll_inj (Outcome.done.inj heq)).trans
          (sendAll_inj (Outcome.done.inj heq')).symm
        simpa using hsame.symm
      · intro hsame
        rw [Option.isSome_none, hsame]
        exact ⟨_, rfl, rfl⟩

/-- Nor does the end of a `WHOIS`. -/
theorem DiffersInHosts.whoisEnd (h : s.DiffersInHosts v s') (name : Str) :
    s'.whoisEnd (s'.memory v) name = s.whoisEnd (s.memory v) name := by
  simp only [Server.whoisEnd, h.own, h.name]

/-- A line of a `WHOIS` reply shows only the host name of an entry with the
descriptor of the client that asks. -/
theorem DiffersInHosts.whoisLine_eq_iff (h : s.DiffersInHosts v s')
    (hop : ch.getOperator s.memory fd = none) (p : ClientPtr) :
    s'.whoisLine fd (s'.memory v) ch p = s.whoisLine fd (s.memory v) ch p ↔
      ((s.memory p).fd = fd → (s'.memory p).hostName = (s.memory p).hostName) := by
  simp only [Server.whoisLine, h.own, h.getOperator, hop, h.fd, h.name, h.nickName, h.userName,
    h.realName]
  by_cases hfd : (s.memory p).fd = fd <;> simp [hfd]

/-- Whom `WHOIS` takes for the client that asks: all entries with its
descriptor. -/
theorem DiffersInHosts.execWhois_iff (h : s.DiffersInHosts v s')
    (hfds : (s.fdsOf s.clients).Nodup) (hv : s.getClient fd = some v)
    (hop : ∀ ch ∈ s.channels, ch.getOperator s.memory fd = none) :
    (∃ messages, s.execWhois message fd = .done (s.sendAll messages) ∧
      s'.execWhois message fd = .done (s'.sendAll messages)) ↔
    (s.getClientByNickName (Parser.parse message).function = none →
      ∀ ch ∈ s.getChannel (Parser.parse message).function, ∀ p ∈ ch.clients,
        (s.memory p).fd = fd → (s'.memory p).hostName = (s.memory p).hostName) := by
  have hv' := (h.getClient fd).trans hv
  unfold Server.execWhois
  dsimp only
  rw [h.getClientByNickName, h.channels, h.getChannel, hv, hv']
  cases htarget : s.getClientByNickName (Parser.parse message).function with
  | none =>
      dsimp only [require_some]
      cases hch : s.getChannel (Parser.parse message).function with
      | none =>
          refine iff_of_true ⟨[_], rfl, ?_⟩ (fun _ ch hnone => by cases hnone)
          dsimp only
          rw [h.own, h.name]
          rfl
      | some ch =>
          have hlines : ch.clients.map (s'.whoisLine fd (s'.memory v) ch) =
              ch.clients.map (s.whoisLine fd (s.memory v) ch) ↔ ∀ p ∈ ch.clients,
                (s.memory p).fd = fd → (s'.memory p).hostName = (s.memory p).hostName := by
            rw [List.map_inj_left]
            simp only [h.whoisLine_eq_iff (hop ch (mem_of_getChannel hch))]
          simp only [Option.mem_def, Option.some.injEq, forall_eq', true_imp_iff]
          rw [← hlines, h.whoisEnd]
          constructor
          · rintro ⟨messages, heq, heq'⟩
            have hsame := (sendAll_inj (Outcome.done.inj heq)).trans
              (sendAll_inj (Outcome.done.inj heq')).symm
            exact (List.append_cancel_right hsame).symm
          · intro hsame
            rw [hsame]
            exact ⟨_, rfl, rfl⟩
  | some target =>
      refine iff_of_true ?_ (fun hnone => by cases hnone)
      dsimp only
      simp only [h.channelGetClient, h.fd]
      cases hch : s.channels.find? fun ch =>
          (ch.getClient s.memory (s.memory target).fd).isSome with
      | none => exact ⟨[], by simp [sendAll], by simp [sendAll]⟩
      | some ch =>
          have hline := (h.whoisLine_eq_iff (hop ch (List.mem_of_find?_eq_some hch)) target).mpr
            fun hfd => by
              obtain rfl : target = v :=
                eq_of_fd hfds (List.mem_of_find?_eq_some htarget) (mem_of_getClient hv)
                  (hfd.trans (fd_of_getClient hv).symm)
              rw [h.own]
          dsimp only [require_some]
          rw [hline, h.whoisEnd]
          exact ⟨_, rfl, rfl⟩

/-- A line that the checker refuses is answered from the name of its client. -/
theorem DiffersInHosts.refused (h : s.DiffersInHosts v s') (hv : s.getClient fd = some v)
    (env : Env) (hline : OneLine message) (haccepts : ¬ Checker.accepts message = true) :
    s.SameReply s' env message fd := by
  have hv' := (h.getClient fd).trans hv
  have hformat : ∀ verb e, Checker.formatError message verb = some e →
      caughtByExecute e = true := by
    intro verb e he
    cases verb with
    | user | pass | unknown => cases he
    | _ =>
        simp only [Checker.formatError] at he
        split at he <;> cases he
        rfl
  have hunknown : ∀ text, ∃ messages,
      (Checker.unknownCommand s fd text).catching caughtByExecute = .done (s.sendAll messages) ∧
      (Checker.unknownCommand s' fd text).catching caughtByExecute =
        .done (s'.sendAll messages) := by
    intro text
    unfold Checker.unknownCommand
    rw [hv, hv', require_some, require_some, h.own]
    unfold throwClient
    rw [h.name]
    exact ⟨[_], rfl, rfl⟩
  unfold SameReply handleLine
  rw [hline.executeTo, hline.executeTo, handle, handle,
    check_andThen_of_not_accepts s fd haccepts, check_andThen_of_not_accepts s' fd haccepts]
  unfold Checker.check
  by_cases hspace : Text.contains space (trim message) = true
  · rw [if_pos hspace, if_pos hspace]
    cases he : Checker.formatError message (verbOf (Checker.getCommand message)) with
    | some e =>
        have hcaught := hformat _ e he
        simp only [catching_thrown, hcaught, if_true]
        exact ⟨[], by simp [sendAll], by simp [sendAll]⟩
    | none =>
        dsimp only
        by_cases hverb : verbOf (Checker.getCommand message) = .unknown
        · rw [if_pos hverb, if_pos hverb]
          exact hunknown _
        · exact (haccepts (accepts_iff.mpr ⟨hspace, he, hverb⟩)).elim
  · rw [if_neg hspace, if_neg hspace]
    exact hunknown _

/-- The entries of the channel asked for that the code takes for `v`, by the
descriptor, have the same host names in both states. -/
def AlikeSelves (s s' : Server) (v : ClientPtr) (message : Str) : Prop :=
  Checker.accepts message = true →
    match verbOf (commandOf message) with
    | .who => ∀ ch ∈ s.getChannel (Parser.parse message).function,
        ∀ q ∈ ch.getClient s.memory (s.memory v).fd,
          (s'.memory q).hostName = (s.memory q).hostName
    | .whois => s.getClientByNickName (Parser.parse message).function = none →
        ∀ ch ∈ s.getChannel (Parser.parse message).function, ∀ p ∈ ch.clients,
          (s.memory p).fd = (s.memory v).fd → (s'.memory p).hostName = (s.memory p).hostName
    | _ => True

/-- `WHO` throws nothing that `Command::Execute` would catch. -/
theorem execWho_throws (s : Server) (message : Str) (fd : Fd) :
    (s.execWho message fd).ThrowsOnly fun e => caughtByExecute e = false := by
  unfold execWho
  dsimp only
  split
  · exact .require fun _ _ => throwsOnly_done
  · exact throwsOnly_done

/-- Nor does `WHOIS`. -/
theorem execWhois_throws (s : Server) (message : Str) (fd : Fd) :
    (s.execWhois message fd).ThrowsOnly fun e => caughtByExecute e = false := by
  unfold execWhois
  dsimp only
  split
  · refine .require fun _ _ => ?_
    split <;> exact throwsOnly_done
  · split
    · exact .require fun _ _ => throwsOnly_done
    · exact throwsOnly_done

/-- An accepted line is answered as its handler answers. -/
theorem sameReply_iff (h : s.DiffersInHosts v s') (env : Env) (hline : OneLine message)
    (haccepts : Checker.accepts message = true) (hv : s.getClient fd = some v)
    (hlogin : (s.memory v).login = true) :
    (verbOf (commandOf message) = .who → (s.SameReply s' env message fd ↔ ∃ messages,
      s.execWho message fd = .done (s.sendAll messages) ∧
      s'.execWho message fd = .done (s'.sendAll messages))) ∧
    (verbOf (commandOf message) = .whois → (s.SameReply s' env message fd ↔ ∃ messages,
      s.execWhois message fd = .done (s.sendAll messages) ∧
      s'.execWhois message fd = .done (s'.sendAll messages))) := by
  have hv' := (h.getClient fd).trans hv
  have hlogin' := (h.login v).trans hlogin
  constructor
  · intro hverb
    unfold SameReply
    rw [handleLine_login env hline haccepts hverb (by decide) hv hlogin,
      handleLine_login env hline haccepts hverb (by decide) hv' hlogin']
    simp only [dispatchLogin, (execWho_throws _ _ _).catching_eq]
  · intro hverb
    unfold SameReply
    rw [handleLine_login env hline haccepts hverb (by decide) hv hlogin,
      handleLine_login env hline haccepts hverb (by decide) hv' hlogin']
    simp only [dispatchLogin, (execWhois_throws _ _ _).catching_eq]

end Server

variable {w : World} {trace : Run.Trace World Action} {v : ClientPtr} {message : Str}

/-- No descriptor is written where no client has been yet. -/
theorem Stepped.unused_fd {w' : World} {a : Action} (htidy : Tidy w) (h : Stepped w a w')
    {p : ClientPtr} (hp : w'.srv.nextPtr ≤ p) : (w'.srv.memory p).fd = (w.srv.memory p).fd := by
  rcases h.accept_or_handled htidy with ⟨fd, hostName, rfl, rfl⟩ | hhandled
  · exact congrArg Client.fd (Function.update_of_ne (Nat.lt_of_succ_le hp).ne' _ _)
  · have hnew : p ∉ w.srv.clients := fun hin =>
      Nat.not_lt.mpr ((nextPtr_step htidy h).trans hp) (htidy.fresh p hin)
    exact hhandled.kept_fd htidy.fds (fun _ _ hremoves => (removes_some hremoves).1)
      fun k hremoves => hnew (removes_some hremoves).1

/-- The memory of clients yet to come is as it was at the start. -/
theorem memory_of_unused (run : Steps trace w) :
    ∀ p, w.srv.nextPtr ≤ p → w.srv.memory p = Client.new 0 [] := by
  have hinv := run.invariant
    (fun w => Tidy w ∧ ∀ p, w.srv.nextPtr ≤ p → w.srv.memory p = Client.new 0 [])
    (fun w hstart => by
      refine ⟨tidy_start hstart, ?_⟩
      obtain ⟨password, createdDate, listener, keepsFd, rfl⟩ := hstart
      exact fun p _ => rfl)
    fun w a w' ⟨htidy, hunused⟩ hstep => by
      have hstepped := stepped_of_step hstep
      refine ⟨htidy.stepped hstepped, fun p hp => ?_⟩
      have hold := (nextPtr_step htidy hstepped).trans hp
      have hsilent : ∀ line, w.speaker a ≠ some (p, line) := fun line hspeaker =>
        absurd (htidy.fresh p (mem_of_speaker hspeaker)) (Nat.not_lt.mpr hold)
      have hrecord := (hstepped.records htidy).others p (Or.inr hp) hsilent
      rw [hrecord.eq_of_fd (hstepped.unused_fd htidy hp), hunused p hold]
  exact hinv.2

/-- Runs from one start have the same values in place of deleted descriptors. -/
theorem keepsFd_of_first {first : World} (hstart : Start first)
    (run : Run.Steps step (Eq first) trace w) : w.srv.keepsFd = first.srv.keepsFd := by
  have hinv := run.invariant (fun w => Tidy w ∧ w.srv.keepsFd = first.srv.keepsFd)
    (fun w (heq : first = w) => heq ▸ ⟨tidy_start hstart, rfl⟩)
    fun w a w' ⟨htidy, hkeepsFd⟩ hstep =>
      ⟨htidy.stepped (stepped_of_step hstep),
        ((stepped_of_step hstep).keepsFd htidy).trans hkeepsFd⟩
  exact hinv.2

/-- What two states of runs from one start have to agree in to differ only in the
host names of clients other than `v`. -/
def DifferInHosts (v : ClientPtr) (s s' : Server) : Bool :=
  decide (s'.nextPtr = s.nextPtr ∧ s'.name = s.name ∧ s'.version = s.version ∧
    s'.createdDate = s.createdDate ∧ s'.password = s.password ∧ s'.clients = s.clients ∧
    s'.channels = s.channels ∧ s'.memory v = s.memory v ∧
    ∀ p ∈ List.range s.nextPtr,
      s'.memory p = { s.memory p with hostName := (s'.memory p).hostName })

/-- What the test compares is all that the states have to agree in. -/
theorem differsInHosts_of_test {trace' : Run.Trace World Action} {w' : World}
    (run : Steps trace w) (run' : Steps trace' w') (hkeepsFd : w'.srv.keepsFd = w.srv.keepsFd)
    (h : DifferInHosts v w.srv w'.srv = true) : w.srv.DiffersInHosts v w'.srv := by
  obtain ⟨hnext, hname, hversion, hdate, hpassword, hclients, hchannels, hown, hmemory⟩ :=
    of_decide_eq_true h
  refine ⟨?_, fun p => ?_, hown⟩
  · rw [← hname, ← hversion, ← hdate, ← hpassword, ← hclients, ← hchannels, ← hnext, ← hkeepsFd]
  · rcases Nat.lt_or_ge p w.srv.nextPtr with hp | hp
    · exact hmemory p (List.mem_range.mpr hp)
    · rw [memory_of_unused run p hp, memory_of_unused run' p (hnext ▸ hp)]

/-- Let `v` be a logged-in client without the descriptor of an operator, in a state
of a run.  In any other state that differs only in the host names of other
clients, a `WHO` of `v` for one of its channels or for none, and a `WHOIS`, is
answered alike, if and only if the entries of the channel asked for that have the
descriptor of `v` have the same host names. -/
theorem sameReply_iff_alikeSelves (run : Steps trace w) (hv : v ∈ w.srv.clients)
    (hlogin : (w.srv.memory v).login = true)
    (hop : ∀ ch ∈ w.srv.channels, ∀ p ∈ ch.operators,
      (w.srv.memory p).fd ≠ (w.srv.memory v).fd)
    {s' : Server} (hdiffers : w.srv.DiffersInHosts v s') (env : Env) (hline : OneLine message)
    (hverb : (verbOf (commandOf message) = .who ∧
        ∀ ch, w.srv.getChannel (Parser.parse message).function = some ch → v ∈ ch.clients) ∨
      verbOf (commandOf message) = .whois) :
    w.srv.SameReply s' env message (w.srv.memory v).fd ↔ w.srv.AlikeSelves s' v message := by
  have htidy := tidy run
  have hclient := Server.getClient_fd htidy.fds hv
  have hnone : ∀ ch ∈ w.srv.channels, ch.getOperator w.srv.memory (w.srv.memory v).fd = none := by
    intro ch hch
    refine List.find?_eq_none.mpr fun p hp => ?_
    simpa using hop ch hch p hp
  by_cases haccepts : Checker.accepts message = true
  · unfold Server.AlikeSelves
    rw [forall_prop_of_true haccepts]
    have hanswer := Server.sameReply_iff hdiffers env hline haccepts hclient hlogin
    rcases hverb with ⟨hverb, hmember⟩ | hverb
    · rw [hverb, hanswer.1 hverb]
      exact hdiffers.execWho_iff hnone fun ch hch =>
        List.find?_isSome.mpr ⟨v, hmember ch hch, by simp⟩
    · rw [hverb, hanswer.2 hverb]
      exact hdiffers.execWhois_iff htidy.fds hclient hnone
  · exact iff_of_true (hdiffers.refused hclient env hline haccepts)
      (fun h => (haccepts h).elim)

/-- When deleted clients are overwritten, a member with the descriptor of `v` is
`v` itself. -/
theorem eq_of_member_fd (run : Steps trace w) (hv : v ∈ w.srv.clients)
    (hoverwritten : ∀ p, w.srv.keepsFd p = false) {ch : Channel} (hch : ch ∈ w.srv.channels)
    {p : ClientPtr} (hp : p ∈ ch.clients) (hfd : (w.srv.memory p).fd = (w.srv.memory v).fd) :
    p = v := by
  have htidy := tidy run
  have htraced : w.srv.MembersTraced := fun ch hch p hp =>
    (traced run).fd p ⟨ch, hch, Or.inl hp⟩ (hoverwritten p)
  exact htraced.eq_of_fd htidy.fds hv (htidy.valid v hv) hch hp hfd

end FtIrc
