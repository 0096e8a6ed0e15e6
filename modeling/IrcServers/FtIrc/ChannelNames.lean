import IrcServers.FtIrc.Formats

/-!
# Names of channels

`Checker::check` tests the words after the command, joined and trimmed, while
`JOIN` takes the second word of the message.  The two agree on the first
character, unless that word is empty: a channel of the server has an empty name
or one that starts with `#`.
-/

namespace FtIrc

open Utils Text Outcome

/-- What `JOIN` accepts as a name, and the empty name. -/
def Hashed (name : Str) : Prop := name = [] ∨ name.head? = some '#'

/-- **The name in a `JOIN`** that has passed its check. -/
theorem hashed_function {message : Str} (haccepts : Checker.accepts message = true)
    (hjoin : verbOf (Checker.getCommand message) = .join) :
    Hashed (Parser.parse message).function := by
  obtain ⟨command, before, format, after, hlaid⟩ := exists_laid haccepts
  have hhead : format.head? = some '#' := by
    have hformat := (Server.accepts_iff.mp haccepts).2.1
    simpa [Checker.formatError, hjoin, Checker.checkFirstParamIsChannel, hlaid.formatOf_eq]
      using hformat
  rw [hlaid.function_eq]
  split
  · exact Or.inl rfl
  · exact Or.inr ((head?_trim_firstOf hlaid.trimmed).trans hhead)

/-- A space inside a trimmed text is one of the text. -/
theorem contains_of_trim {message : Str} (h : contains space (trim message) = true) :
    contains space message = true :=
  contains_space_iff.mpr ((infix_of_trim message).subset (contains_space_iff.mp h))

/-- The first word of a message, as the check reads it and as the dispatch does. -/
theorem getCommand_eq_commandOf {message : Str} (h : contains space (trim message) = true) :
    Checker.getCommand message = commandOf message := by
  obtain ⟨command, rest, hcommand, rfl⟩ := exists_command (contains_of_trim h)
  rw [getCommand_append hcommand, commandOf_append hcommand]

namespace Server

variable {s s' : Server} {ch : Channel} {fd : Fd} {message : Str}
  {touched : Str → Prop} {who : Server → Str → Fd → Result}

/-- All channels are named so. -/
def Hashes (s : Server) : Prop := ∀ ch ∈ s.channels, Hashed ch.name

/-- Channels that keep their names keep the `#`. -/
theorem Hashes.map {f : Channel → Channel} (h : s.Hashes) (hf : ∀ ch, (f ch).name = ch.name)
    (hchannels : s'.channels = s.channels.map f) : s'.Hashes := by
  intro ch hch
  rw [hchannels] at hch
  obtain ⟨old, hold, rfl⟩ := List.mem_map.mp hch
  rw [hf]
  exact h old hold

/-- So do channels that are touched. -/
theorem Hashes.of_touches (h : s.Hashes) (htouches : s.Touches touched s') : s'.Hashes := by
  intro ch hch
  have hname := List.mem_map_of_mem (f := Channel.name) hch
  rw [htouches.names] at hname
  obtain ⟨old, hold, heq⟩ := List.mem_map.mp hname
  exact heq ▸ h old hold

/-- The removal of a client renames no channel. -/
theorem Hashes.removeClient (h : s.Hashes) (fd : Fd) : (s.removeClient fd).Hashes :=
  h.map (s.dropFrom_name fd) (s.channels_removeClient fd)

/-- The names are part of the tables. -/
theorem Hashes.of_sameTables (h : s.Hashes) (hsame : s.SameTables s') : s'.Hashes := by
  intro ch hch
  exact h ch (hsame.channels ▸ hch)

/-- `JOIN` creates a channel with the name it is given. -/
theorem execJoin_hashes (h : s.Hashes) (hname : Hashed (Parser.parse message).function) :
    (s.execJoin message fd).Leaves Hashes := by
  have hthrow : ∀ e text fd, (s.throwClient fd e text).Leaves Hashes :=
    fun e text fd => leaves_thrown.mpr h
  unfold execJoin
  rw [leaves_catching]
  dsimp only
  split
  · rename_i found hfound
    refine .ite (fun _ => hthrow _ _ _) (fun _ => .require fun client _ => ?_)
    split
    · exact hthrow _ _ _
    · have hput : s.Touches (fun _ => True) (s.putChannel (found.pushClient client)) :=
        (Touches.refl s).putChannel (found.pushClient client) rfl trivial
      exact leaves_done.mpr (h.of_touches (hput.sendAll _))
  · refine .require fun client _ => leaves_done.mpr fun ch hch => ?_
    rcases List.mem_append.mp hch with hch | hch
    · exact h ch hch
    · rw [List.mem_singleton.mp hch]
      exact hname

/-- Sending, and writing channels back, renames none. -/
theorem frame_hashes : Frame (fun _ => True) Hashes where
  sends h hs ch hch := h ch (by rwa [show _ = _ from hs] at hch)
  putChannel h hch _ hthins old hold := by
    obtain ⟨new, hnew, rfl⟩ := List.mem_map.mp hold
    split
    · rw [hthins.name]
      exact h _ hch
    · exact h new hnew

/-- The checker lets a `JOIN` pass only with a `#`. -/
theorem handle_hashes (env : Env) (h : s.Hashes) (hnamed : s.Named)
    (hwho : ∀ name, ChannelName name → WhoSends who name) :
    (s.handle env who message fd).Leaves Hashes := by
  have hnone : ∀ {outcome : Result}, (outcome.Leaves (s.Touches fun _ => False)) →
      outcome.Leaves Hashes := fun ht => ht.imp fun _ ht => h.of_touches ht
  unfold handle
  rw [leaves_catching]
  by_cases haccepts : Checker.accepts message = true
  · rw [check_of_accepts s fd haccepts, andThen_done]
    have hspace := (accepts_iff.mp haccepts).1
    have hfunction := hashed_function haccepts
    rw [getCommand_eq_commandOf hspace] at hfunction
    unfold dispatch
    generalize verbOf (commandOf message) = verb at hfunction
    cases verb with
    | quit =>
        refine (execQuit_leaves hnamed message fd).imp fun s' hs => ?_
        have hquit : (s.departed fd).Hashes := h.map (s.quitFrom_name fd) rfl
        exact (hquit.removeClient fd).of_sameTables hs.2
    | user =>
        by_cases hpassword : ∀ client, s.getClient fd = some client →
            s.password = (s.memory client).password
        · exact hnone (execUser_touches hpassword)
        · push Not at hpassword
          obtain ⟨client, hc, hne⟩ := hpassword
          exact (execUser_leaves hc hne message).imp fun s' hs =>
            (h.removeClient fd).of_sameTables hs.2
    | nick => exact hnone execNick_touches
    | pass => exact hnone execPass_touches
    | join =>
        exact .require fun client _ => .ite (fun _ => execJoin_hashes h (hfunction rfl))
          (fun _ => leaves_done.mpr h)
    | privmsg | part | who | notice | mode | kick | invite | topic | whois | unknown =>
        refine .require fun client _ => .ite (fun _ => ?_) (fun _ => leaves_done.mpr h)
        exact frame_hashes.dispatchLogin h env hnamed hwho (by decide) fun _ _ => trivial
  · rw [check_andThen_of_not_accepts s fd haccepts]
    exact (check_sends s message fd).imp fun _ hs => frame_hashes.sends h hs

end Server

variable {trace : Run.Trace World Action} {w : World}

/-- **Channel names.**  They are empty or start with `#` in every reachable state. -/
theorem hashes (run : Steps trace w) : w.srv.Hashes := by
  have hboth : Tidy w ∧ w.srv.Hashes := by
    refine run.invariant (fun w => Tidy w ∧ w.srv.Hashes) (fun w h => ?_) fun w a w' h hstep => ?_
    · refine ⟨tidy_start h, ?_⟩
      obtain ⟨password, createdDate, listener, keepsFd, rfl⟩ := h
      simp [initial, Server.Hashes]
    · obtain ⟨htidy, hhashes⟩ := h
      have hstepped := stepped_of_step hstep
      refine ⟨htidy.stepped hstepped, ?_⟩
      cases hstepped with
      | gather hidle => exact hhashes
      | accept hphase hlistener hnew => exact hhashes
      | @read fd message hphase hidle hpolled hclient =>
          unfold World.read
          split
          · exact hhashes.removeClient fd
          · exact hhashes
      | readFails hphase hidle => exact hhashes
      | @line env fd line lines s hpending hdone =>
          have hleaves : (w.srv.handle env (executeTo env 1) line fd).Leaves Server.Hashes :=
            Server.handle_hashes env hhashes htidy.named
              fun _ hname => Server.executeTo_who_sends env 0 hname
          rw [handleLine, (htidy.lines fd _ hpending line List.mem_cons_self).executeTo] at hdone
          rw [hdone] at hleaves
          exact leaves_done.mp hleaves
  exact hboth.2

end FtIrc
