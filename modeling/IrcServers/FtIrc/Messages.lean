import IrcServers.FtIrc.Reachable

/-!
# Whole messages

The machine takes a message line by line.  Its lines, one after the other, are
one call of `Command::Execute`.  The bound on the depth of that procedure's
recursion makes no difference: a handler calls it again only for a single line,
the `WHO` of a ban, and that line calls it no further.
-/

namespace FtIrc

variable {w w' : World} {s : Server} {message : Str} {fd : Fd}
  {who who' : Server → Str → Fd → Result}

namespace Server

/-- The nested call of a ban sees only the `WHO` for the channel's name. -/
theorem execMode_congr (env : Env) (hnamed : s.Named)
    (hsame : ∀ name, ChannelName name → ∀ s fd,
      who s (whoMessage name) fd = who' s (whoMessage name) fd) :
    s.execMode env who message fd = s.execMode env who' message fd := by
  have hban : ∀ ch ∈ s.channels, ∀ info,
      s.execBan who ch info fd = s.execBan who' ch info fd := by
    intro ch hch info
    have htell : banTell who ch.name = banTell who' ch.name := by
      funext flag parameters client s
      exact hsame ch.name (hnamed.good ch hch) _ _
    unfold execBan
    rw [htell]
  unfold execMode modeExecute
  split
  · rfl
  · congr 2
    funext info
    cases hch : s.getChannel info.channel with
    | none => rfl
    | some ch =>
        simp only [Outcome.require_some, execModeKey, hban ch (mem_of_getChannel hch)]

/-- So does the handling of a message as a whole. -/
theorem handle_congr (env : Env) (hnamed : s.Named)
    (hsame : ∀ name, ChannelName name → ∀ s fd,
      who s (whoMessage name) fd = who' s (whoMessage name) fd) :
    s.handle env who message fd = s.handle env who' message fd := by
  have hdispatch : s.dispatch env who message fd = s.dispatch env who' message fd := by
    unfold dispatch
    cases verbOf (commandOf message) <;>
      simp only [dispatchLogin, execMode_congr env hnamed hsame]
  unfold handle
  by_cases haccepts : Checker.accepts message = true
  · rw [check_of_accepts s fd haccepts]
    exact congrArg (Outcome.catching caughtByExecute) hdispatch
  · rw [check_andThen_of_not_accepts s fd haccepts, check_andThen_of_not_accepts s fd haccepts]

/-- The depth of the recursion does not matter to a single line. -/
theorem handle_depth (env : Env) (hnamed : s.Named) (depth depth' : Nat) :
    s.handle env (executeTo env (depth + 1)) message fd =
      s.handle env (executeTo env (depth' + 1)) message fd := by
  apply handle_congr env hnamed
  intro name hname s fd
  rw [hname.oneLine_who.executeTo, hname.oneLine_who.executeTo]
  have hverb := hname.commandOf_who
  unfold handle dispatch
  rw [hverb]
  rfl

/-- **One call of `Command::Execute`** handles the lines of the message in turn. -/
theorem execute_eq_each (env : Env) (hnamed : s.Named) (message : Str) (fd : Fd) :
    execute env s message fd =
      Outcome.each (fun line s => handleLine env s line fd) (linesOf message) s := by
  unfold execute
  by_cases hone : OneLine message
  · have hline : linesOf message = [message] := if_pos hone
    rw [hline, Outcome.each_cons, hone.executeTo, handle_depth env hnamed 1 0,
      ← hone.executeTo env 1]
    unfold handleLine
    cases executeTo env 2 s message fd <;> rfl
  · refine (if_neg hone).trans ?_
    apply Outcome.ThrowsOnly.catching_eq
    apply Outcome.ThrowsOnly.each
    intro line s
    rw [executeTo]
    split <;> exact Outcome.throwsOnly_catching _ _

end Server

/-- The loop goes on after a message that has been handled. -/
def World.after (w : World) : Result → Option World
  | .done s => some { w with srv := s, pending := none }
  | .thrown _ _ | .fault _ => none

/-- The lines of a message, taken one by one. -/
theorem perform_lines (env : Env) {lines : List Str} (w : World)
    (hpending : w.pending = remaining fd lines) :
    Run.perform step (lines.map fun _ => .line env) w =
      w.after (Outcome.each (fun line s => handleLine env s line fd) lines w.srv) := by
  induction lines generalizing w with
  | nil =>
      obtain ⟨srv, listener, pollFds, size, phase, pending⟩ := w
      obtain rfl : pending = none := hpending
      rfl
  | cons line lines ih =>
      have hfirst : w.pending = some (fd, line :: lines) := hpending
      rw [List.map_cons, Run.perform, Outcome.each_cons]
      cases hdone : handleLine env w.srv line fd with
      | done s =>
          have hstep : step w (.line env) =
              some { w with srv := s, pending := remaining fd lines } := by
            simp only [step, hfirst, hdone]
          rw [hstep, Option.bind_some, ih _ rfl, Outcome.andThen_done]
          rfl
      | thrown e s =>
          have hstep : step w (.line env) = none := by simp only [step, hfirst, hdone]
          rw [hstep]
          rfl
      | fault f =>
          have hstep : step w (.line env) = none := by simp only [step, hfirst, hdone]
          rw [hstep]
          rfl

/-- **A read and its lines.**  The steps for the lines of a message that has
been read do what `Command::Execute` does with the message; they cannot be
taken to their end when it throws or reaches a fault. -/
theorem perform_message {trace : Run.Trace World Action} (run : Steps trace w)
    (hread : step w (.read fd message) = some w') (env : Env) :
    Run.perform step ((linesOf message).map fun _ => .line env) w' =
      w'.after (execute env w'.srv message fd) := by
  have hnamed : w'.srv.Named := (tidy (run.cons hread)).named
  have hpending : w'.pending = remaining fd (linesOf message) := by
    cases stepped_of_step hread with
    | read => exact World.read_pending w fd message
  rw [Server.execute_eq_each env hnamed, perform_lines env w' hpending]

end FtIrc
