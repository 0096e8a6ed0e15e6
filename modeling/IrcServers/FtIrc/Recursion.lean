import IrcServers.FtIrc.Messages
import IrcServers.FtIrc.Endings

/-!
# The recursion of `Command::Execute`

`Command::Execute` calls itself for each line of a message with several, and a ban
calls it once more for each member, with the `WHO` for the channel.  The name of a
channel is one word on one line, so that call is for one line and makes no further
one.  Three levels are therefore all there are, and the model, which counts them,
leaves nothing out.
-/

namespace FtIrc

open Utils Outcome

namespace Server

variable {s : Server} {message name : Str} {fd : Fd} {client : ClientPtr} {ch : Channel}
  {info : ModeInfo} {who : Server → Str → Fd → Result}

/-- The nested call for a ban needs no more depth than it has. -/
theorem execBan_not_deep (hc : s.getClient fd = some client)
    (hch : s.getChannel ch.name = some ch) (hsends : WhoSends who ch.name)
    (hanswers : WhoAnswers who ch.name) :
    (s.execBan who ch info fd).ending ≠ .faulted .tooDeep := by
  rw [execBan_ending hc hch hsends hanswers]
  repeat' split
  all_goals simp

/-- `MODE` goes no deeper than its nested calls. -/
theorem execMode_not_deep (env : Env) (hc : s.getClient fd = some client) (hnamed : s.Named)
    (hwho : NestedWho who) : (s.execMode env who message fd).ending ≠ .faulted .tooDeep := by
  rw [execMode_ending env hc hnamed hwho]
  split
  · simp
  split
  · simp
  rename_i ch hch
  split
  · have hgood := hnamed.good ch (mem_of_getChannel hch)
    rw [execModeKey_ending]
    split
    · rw [execOperator_ending]
      split <;> simp
    split
    · exact execBan_not_deep hc (getChannel_self hch) (hwho.sends _ hgood) (hwho.answers _ hgood)
    · simp
  · simp

/-- So no command behind the login test runs out of depth. -/
theorem dispatchLogin_not_deep (env : Env) (hc : s.getClient fd = some client)
    (hnamed : s.Named) (hwho : NestedWho who) (verb : Verb) :
    (s.dispatchLogin env who client message fd verb).ending ≠ .faulted .tooDeep := by
  cases verb with
  | privmsg =>
      rw [dispatchLogin, execPrivMsg_ending hc]
      split <;> simp
  | notice =>
      rw [dispatchLogin, execNotice_ending hc]
      split <;> simp
  | join => simp [dispatchLogin, execJoin_ending hc]
  | part => simp [dispatchLogin, execPart_ending hc]
  | who =>
      rw [dispatchLogin, execWho_ending]
      split <;> simp
  | mode => exact execMode_not_deep env hc hnamed hwho
  | kick =>
      rw [dispatchLogin, execKick_ending hc]
      split
      · simp
      · split <;> simp
  | invite =>
      rw [dispatchLogin, execInvite_ending hc]
      split <;> simp
  | topic =>
      rw [dispatchLogin, execTopic_ending hc]
      repeat' split
      all_goals simp
  | whois => simp [dispatchLogin, execWhois_ending hc]
  | quit | nick | user | pass | unknown => simp [dispatchLogin, throwClient]

/-- Nor does any other. -/
theorem dispatch_not_deep (env : Env) (hnamed : s.Named) (hwho : NestedWho who) :
    (s.dispatch env who message fd).ending ≠ .faulted .tooDeep := by
  unfold dispatch
  generalize verbOf (commandOf message) = verb
  have hlogin : (Outcome.require (s.getClient fd) .nullClient fun client =>
      if (s.memory client).login then s.dispatchLogin env who client message fd verb
      else .done s).ending ≠ .faulted .tooDeep := by
    cases hc : s.getClient fd with
    | none => simp
    | some client =>
        rw [require_some, ending_ite]
        split
        · exact dispatchLogin_not_deep env hc hnamed hwho verb
        · simp
  cases verb with
  | quit =>
      dsimp only
      rw [execQuit_ending]
      repeat' split
      all_goals simp
  | user =>
      dsimp only
      rw [execUser_ending]
      repeat' split
      all_goals simp
  | nick =>
      dsimp only
      rw [execNick_ending]
      repeat' split
      all_goals simp
  | pass =>
      dsimp only
      rw [execPass_ending]
      split <;> simp
  | _ => exact hlogin

/-- One line is handled without a call that is too deep. -/
theorem handle_not_deep (env : Env) (hnamed : s.Named) (hwho : NestedWho who) :
    s.handle env who message fd ≠ .fault .tooDeep := by
  rw [ne_eq, ← ending_eq_faulted, handle_ending]
  split
  · rw [Ending.caught_eq_faulted]
    exact dispatch_not_deep env hnamed hwho
  · split <;> simp

/-- The channels keep their names, whatever a line does. -/
theorem executeTo_named (env : Env) (depth : Nat) (hnamed : s.Named) (hline : OneLine message)
    (fd : Fd) : (executeTo env (depth + 2) s message fd).Leaves Named := by
  rw [hline.executeTo]
  exact (handle_leaves env hnamed hline fun _ hname => executeTo_who_sends env depth hname).imp
    fun _ h => h.evolves.named hnamed

/-- A call that may go deeper does the same. -/
theorem executeTo_depth (env : Env) (depth : Nat) (hnamed : s.Named) (message : Str) (fd : Fd) :
    executeTo env (depth + 3) s message fd = execute env s message fd := by
  unfold execute
  by_cases hone : OneLine message
  · rw [hone.executeTo, hone.executeTo]
    exact handle_depth env hnamed (depth + 1) 1
  · have hsplit : ¬ (split message crlf).length = 1 := hone
    rw [executeTo, executeTo, if_neg hsplit, if_neg hsplit]
    refine congrArg (Outcome.catching caughtByExecute) (each_congr (R := Named) ?_ ?_ hnamed)
    · intro line hmem t ht
      have hline := oneLine_of_mem_linesOf hmem
      rw [hline.executeTo, hline.executeTo]
      exact handle_depth env ht depth 0
    · intro line hmem t ht
      exact executeTo_named env depth ht (oneLine_of_mem_linesOf hmem) fd

end Server

variable {trace : Run.Trace World Action} {w : World}

/-- **Recursion.**  In every state of a run `Command::Execute` comes to its end for
every message within three calls of itself: it is never cut off, and no deeper bound
makes a difference. -/
theorem recursion_bounded (run : Steps trace w) (env : Env) (message : Str) (fd : Fd) :
    execute env w.srv message fd ≠ .fault .tooDeep ∧
      ∀ depth, executeTo env (depth + 3) w.srv message fd = execute env w.srv message fd := by
  have hnamed := (tidy run).named
  refine ⟨?_, fun depth => Server.executeTo_depth env depth hnamed message fd⟩
  rw [Server.execute_eq_each env hnamed]
  refine each_ne_fault (R := Server.Named) ?_ ?_ hnamed
  · intro line hmem t ht
    have hline := oneLine_of_mem_linesOf hmem
    unfold handleLine
    rw [hline.executeTo]
    exact Server.handle_not_deep env ht (Server.nestedWho_executeTo env 0)
  · intro line hmem t ht
    exact Server.executeTo_named env 0 ht (oneLine_of_mem_linesOf hmem) fd

/-- An operator bans a host name; all three levels are used. -/
theorem recursion_bounded_ban : ∃ trace w, Steps trace w ∧
    executeTo Env.calm 2 w.srv "MODE #c +b *!*@x\r\nWHO #c\r\n".toList 5 = .fault .tooDeep ∧
    execute Env.calm w.srv "MODE #c +b *!*@x\r\nWHO #c\r\n".toList 5 ≠ .fault .tooDeep := by
  obtain ⟨trace, w, run, htest⟩ := Run.exists_steps_of_perform step start_pw
    ([.gather, .accept 5 "h".toList, .gather] ++
      packet 5 ["PASS pw", "NICK a", "USER a a a :n", "JOIN #c"])
    (fun w => (executeTo Env.calm 2 w.srv "MODE #c +b *!*@x\r\nWHO #c\r\n".toList 5).ending =
      .faulted .tooDeep) (by decide +kernel)
  exact ⟨trace, w, run, ending_eq_faulted.mp (of_decide_eq_true htest),
    (recursion_bounded run Env.calm _ 5).1⟩

end FtIrc
