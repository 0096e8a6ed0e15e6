import IrcServers.FtIrc.Endings

/-!
# Exceptions that leave `Command::Execute`

Two throws are matched by no catch list on their way out: the password mismatch
of `Client::login` when it is reached through `NICK`, and the exception of
`Channel::addInvite` for a client that is invited already.
-/

namespace FtIrc

open Utils Outcome

/-- No exception is left. -/
def NotThrown (ending : Ending Exception Fault) : Prop := ∀ e, ending ≠ .thrown e

@[simp] theorem notThrown_returned : NotThrown .returned := fun _ h => by cases h

@[simp] theorem notThrown_faulted (f : Fault) : NotThrown (.faulted f) := fun _ h => by cases h

@[simp] theorem not_notThrown_thrown (e : Exception) : ¬ NotThrown (.thrown e) := fun h => h e rfl

/-- A catch list leaves no exception where none was. -/
theorem NotThrown.caught {ending : Ending Exception Fault} (h : NotThrown ending)
    (catches : Exception → Bool) : NotThrown (ending.caught catches) := by
  cases ending with
  | returned => exact notThrown_returned
  | thrown e => exact (h e rfl).elim
  | faulted f => exact notThrown_faulted f

namespace Server

variable {s : Server} {message : Str} {fd : Fd} {client : ClientPtr}

/-- The handler of a message throws what nothing catches. -/
def Escapes (s : Server) (message : Str) (fd : Fd) : Prop :=
  match verbOf (commandOf message) with
  | .nick =>
      ∃ client ∈ s.getClient fd,
        s.getClientByNickName (Parser.parse message).function = none ∧
          (s.memory client).alreadyRegistered = true ∧ s.password ≠ (s.memory client).password
  | .invite =>
      ∃ client ∈ s.getClient fd, (s.memory client).login = true ∧
        ∃ ch ∈ s.getChannel (Parser.parse message).value,
          (ch.getOperator s.memory fd).isSome = true ∧
            ∃ target ∈ s.getClientByNickName (Parser.parse message).function, target ∈ ch.invites
  | _ => False

/-- `MODE` catches what it throws itself. -/
theorem execMode_notThrown {who : Server → Str → Fd → Result} (env : Env)
    (hc : s.getClient fd = some client) (hnamed : s.Named) (hwho : NestedWho who) :
    NotThrown (s.execMode env who message fd).ending := by
  rw [execMode_ending env hc hnamed hwho]
  split
  · exact notThrown_returned
  · split
    · exact notThrown_faulted _
    · rename_i ch hch
      have hgood := hnamed.good ch (mem_of_getChannel hch)
      split
      · rw [execModeKey_ending]
        split
        · rw [execOperator_ending]
          split <;> simp
        · split
          · exact execBan_not_thrown hc (getChannel_self hch) (hwho.sends _ hgood)
              (hwho.answers _ hgood)
          · exact notThrown_returned
      · exact notThrown_returned

/-- Behind the login test, only `INVITE` throws what is not caught. -/
theorem dispatchLogin_notThrown {who : Server → Str → Fd → Result} (env : Env)
    (hc : s.getClient fd = some client) (hnamed : s.Named) (hwho : NestedWho who) {verb : Verb}
    (hverb : verb ≠ .invite) :
    NotThrown ((s.dispatchLogin env who client message fd verb).ending.caught caughtByExecute) := by
  cases verb with
  | privmsg =>
      rw [dispatchLogin, execPrivMsg_ending hc]
      split <;> simp
  | notice =>
      rw [dispatchLogin, execNotice_ending hc]
      split <;> simp
  | join => simp [dispatchLogin, execJoin_ending hc]
  | part => simp [dispatchLogin, execPart_ending hc]
  | who =>
      rw [dispatchLogin, execWho_ending]
      split <;> simp
  | mode => exact (execMode_notThrown env hc hnamed hwho).caught _
  | kick =>
      rw [dispatchLogin, execKick_ending hc]
      split
      · simp
      · split <;> simp
  | invite => exact (hverb rfl).elim
  | topic =>
      rw [dispatchLogin, execTopic_ending hc]
      split
      · simp
      · split <;> simp
  | whois => simp [dispatchLogin, execWhois_ending hc]
  | quit | nick | user | pass | unknown =>
      simp [dispatchLogin, throwClient, caughtByExecute]

/-- `NICK` throws when the login it makes up for fails. -/
theorem execNick_notThrown :
    NotThrown ((s.execNick message fd).ending.caught caughtByExecute) ↔
      ¬ ∃ client ∈ s.getClient fd,
        s.getClientByNickName (Parser.parse message).function = none ∧
          (s.memory client).alreadyRegistered = true ∧
          s.password ≠ (s.memory client).password := by
  rw [execNick_ending]
  cases s.getClient fd with
  | none => simp
  | some client =>
      simp only [Option.mem_some_iff, exists_eq_left']
      split
      · rename_i hescapes
        apply iff_of_false _ (not_not_intro hescapes)
        simp [caughtByExecute]
      · rename_i hnot
        exact iff_of_true (by simp) hnot

/-- `INVITE` throws when the client is invited already. -/
theorem execInvite_notThrown (hc : s.getClient fd = some client) :
    NotThrown ((s.execInvite message fd).ending.caught caughtByExecute) ↔
      ¬ ∃ ch ∈ s.getChannel (Parser.parse message).value,
        (ch.getOperator s.memory fd).isSome = true ∧
          ∃ target ∈ s.getClientByNickName (Parser.parse message).function,
            target ∈ ch.invites := by
  rw [execInvite_ending hc]
  split
  · rename_i hescapes
    apply iff_of_false _ (not_not_intro hescapes)
    simp [caughtByExecute]
  · rename_i hnot
    exact iff_of_true (by simp) hnot

/-- Only the exceptions of lines that escape get past the catch list. -/
theorem dispatch_notThrown {who : Server → Str → Fd → Result} (env : Env) (hnamed : s.Named)
    (message : Str) (fd : Fd) (hwho : NestedWho who) :
    NotThrown ((s.dispatch env who message fd).ending.caught caughtByExecute) ↔
      ¬ s.Escapes message fd := by
  unfold dispatch Escapes
  generalize verbOf (commandOf message) = verb
  have hlogin : verb ≠ .invite →
      NotThrown ((Outcome.require (s.getClient fd) .nullClient fun client =>
      if (s.memory client).login then s.dispatchLogin env who client message fd verb
      else .done s).ending.caught caughtByExecute) := by
    intro hverb
    cases hc : s.getClient fd with
    | none => simp
    | some client =>
        rw [require_some]
        by_cases hlog : (s.memory client).login = true
        · rw [if_pos hlog]
          exact dispatchLogin_notThrown env hc hnamed hwho hverb
        · rw [if_neg hlog]
          simp
  cases verb with
  | quit =>
      refine iff_of_true ?_ id
      dsimp only
      rw [execQuit_ending]
      repeat' split
      all_goals simp
  | user =>
      refine iff_of_true ?_ id
      dsimp only
      rw [execUser_ending]
      split
      · simp
      · split <;> simp
  | nick => exact execNick_notThrown
  | pass =>
      refine iff_of_true ?_ id
      dsimp only
      rw [execPass_ending]
      split <;> simp
  | invite =>
      dsimp only
      cases hc : s.getClient fd with
      | none => simp
      | some client =>
          rw [require_some]
          simp only [Option.mem_some_iff, exists_eq_left']
          by_cases hlog : (s.memory client).login = true
          · rw [if_pos hlog, dispatchLogin, execInvite_notThrown hc]
            simp only [hlog, true_and]
          · rw [if_neg hlog]
            simp [hlog]
  | _ => exact iff_of_true (hlogin (by simp)) id

end Server

variable {trace : Run.Trace World Action} {w : World}

/-- **Exceptions.**  In every reachable state, no exception leaves the handling
of a line of a message, if and only if it is not a checked `NICK` for a free
nickname by a client that is marked as registered and has the wrong password,
nor a checked `INVITE` by an operator for a client that is invited already. -/
theorem exceptions_caught_iff (run : Steps trace w) (env : Env) {fd : Fd} {line : Str}
    {lines : List Str} (hpending : w.pending = some (fd, line :: lines)) :
    (∀ e s, handleLine env w.srv line fd ≠ .thrown e s) ↔
      (Checker.accepts line = true → ¬ w.srv.Escapes line fd) := by
  have htidy := tidy run
  have hline := htidy.lines fd _ hpending line List.mem_cons_self
  have hdispatch := Server.dispatch_notThrown env htidy.named line fd
    (Server.nestedWho_executeTo env 0)
  have hending : (∀ e s, handleLine env w.srv line fd ≠ .thrown e s) ↔
      NotThrown (w.srv.handle env (executeTo env 1) line fd).ending := by
    unfold handleLine NotThrown
    rw [hline.executeTo]
    simp only [ne_eq, ending_eq_thrown, not_exists]
  rw [hending, Server.handle_ending]
  by_cases haccepts : Checker.accepts line = true
  · rw [if_pos haccepts, hdispatch]
    simp [haccepts]
  · rw [if_neg haccepts]
    refine iff_of_true ?_ fun h => (haccepts h).elim
    split <;> simp

/-- A new client takes a nickname: nothing escapes. -/
theorem exceptions_caught_iff_nick : ∃ trace w, Steps trace w ∧
    w.pending = some (5, ["NICK a\r\n".toList]) ∧
    ∀ e s, handleLine Env.calm w.srv "NICK a\r\n".toList 5 ≠ .thrown e s := by
  obtain ⟨trace, w, run, htest⟩ := Run.exists_steps_of_perform step start_pw
    [.gather, .accept 5 "h".toList, .gather, .read 5 "NICK a\r\n".toList]
    (fun w => w.pending = some (5, ["NICK a\r\n".toList]) ∧
      ∀ client ∈ w.srv.getClient 5, (w.srv.memory client).alreadyRegistered = false)
    (by decide +kernel)
  obtain ⟨hpending, hmark⟩ := of_decide_eq_true htest
  refine ⟨trace, w, run, hpending, (exceptions_caught_iff run Env.calm hpending).mpr fun _ => ?_⟩
  have hverb : verbOf (commandOf "NICK a\r\n".toList) = .nick := by decide
  unfold Server.Escapes
  rw [hverb]
  intro hescapes
  obtain ⟨client, hc, -, hmarked, -⟩ := hescapes
  rw [hmark client hc] at hmarked
  cases hmarked

/-- A second `INVITE` for the same client leaves the loop. -/
theorem second_invite_escapes :
    ¬ ∀ trace w env fd line lines, Steps trace w → w.pending = some (fd, line :: lines) →
      ∀ e s, handleLine env w.srv line fd ≠ .thrown e s := by
  intro hall
  obtain ⟨trace, w, run, htest⟩ := Run.exists_steps_of_perform step start_pw
    ([.gather, .accept 5 "h".toList, .gather, .accept 6 "i".toList, .gather] ++
      packet 6 ["PASS pw", "NICK b", "USER b b b :n"] ++
      packet 5 ["PASS pw", "NICK a", "USER a a a :n", "JOIN #c", "INVITE b #c"] ++
      [.read 5 "INVITE b #c\r\n".toList])
    (fun w => w.pending = some (5, ["INVITE b #c\r\n".toList]) ∧
      (handleLine Env.calm w.srv "INVITE b #c\r\n".toList 5).ending = .thrown .alreadyInvite)
    (by decide +kernel)
  obtain ⟨hpending, hthrown⟩ := of_decide_eq_true htest
  obtain ⟨s, hthrown⟩ := ending_eq_thrown.mp hthrown
  exact hall trace w Env.calm 5 _ [] run hpending .alreadyInvite s hthrown

end FtIrc
