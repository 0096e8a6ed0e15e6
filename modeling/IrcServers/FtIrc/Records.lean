import IrcServers.FtIrc.Frames

/-!
# Records of clients

`NICK`, `PASS` and `USER` change the record of the client they come from; no
other command changes a record, and nothing changes the server's password.
`recordAfter` says what a line makes of the record of its client, and the step
lemma says that a step does this and no more.
-/

namespace FtIrc

open Utils Outcome

namespace Server

variable {s s' s'' : Server} {client p : ClientPtr} {fd : Fd} {message : Str}

/-- The records of the clients and the server's password stay. -/
structure Remembers (s s' : Server) : Prop where
  memory : s'.memory = s.memory
  password : s'.password = s.password

/-- The records stay when nothing happens. -/
theorem Remembers.refl (s : Server) : s.Remembers s := ⟨rfl, rfl⟩

/-- They stay in two steps. -/
theorem Remembers.trans (h : s.Remembers s') (h' : s'.Remembers s'') : s.Remembers s'' :=
  ⟨h'.memory.trans h.memory, h'.password.trans h.password⟩

/-- They stay when something is sent. -/
theorem Sends.remembers (h : s.Sends s') : s.Remembers s' := by
  rw [show s' = { s with sent := s'.sent } from h]
  exact ⟨rfl, rfl⟩

/-- They stay when a channel is written back. -/
theorem frame_remembers (s : Server) : Frame (fun _ => True) s.Remembers where
  sends h hs := h.trans hs.remembers
  putChannel h _ _ _ := ⟨h.memory, h.password⟩

/-- So `JOIN` leaves them as they are. -/
theorem execJoin_remembers : (s.execJoin message fd).Leaves s.Remembers := by
  unfold execJoin
  rw [leaves_catching]
  dsimp only
  split
  · refine .ite (fun _ => leaves_thrown.mpr ⟨rfl, rfl⟩) (fun _ => .require fun client _ => ?_)
    split
    · exact leaves_thrown.mpr ⟨rfl, rfl⟩
    · exact leaves_done.mpr ⟨rfl, rfl⟩
  · exact .require fun client _ => leaves_done.mpr ⟨rfl, rfl⟩

/-- A command behind the login test changes no record. -/
theorem dispatchLogin_remembers {who : Server → Str → Fd → Result} (env : Env) (hnamed : s.Named)
    (hwho : ∀ name, ChannelName name → WhoSends who name) (verb : Verb) :
    (s.dispatchLogin env who client message fd verb).Leaves s.Remembers := by
  by_cases hjoin : verb = .join
  · rw [hjoin]
    exact execJoin_remembers
  · exact (frame_remembers s).dispatchLogin (.refl s) env hnamed hwho hjoin fun _ _ => trivial

/-- `QUIT` changes no record either: the client that it removes keeps the last one. -/
theorem execQuit_remembers : (s.execQuit message fd).Leaves fun s' =>
    s'.password = s.password ∧ ∀ p, (s.memory p).SameRecord (s'.memory p) := by
  have htell : ∀ target (told : Server × Str), s.Remembers told.1 →
      (quitTell fd target told).Leaves fun told => s.Remembers told.1 := fun target told h =>
    (quitTell_sends target told (.refl told.1)).imp fun _ hs => h.trans hs.remembers
  have hchannel : ∀ ch (told : Server × Str), s.Remembers told.1 →
      (quitChannel fd ch told).Leaves fun told => s.Remembers told.1 := by
    intro ch told h
    refine .ite (fun _ => ?_) (fun _ => leaves_done.mpr h)
    refine Leaves.andThen (.each (fun target _ told h => htell target told h) h) fun told h => ?_
    exact leaves_done.mpr ⟨h.memory, h.password⟩
  have hloop := forgetMessage_leaves (R := s.Remembers)
    (Leaves.each (fun ch (_ : ch ∈ s.channels) told h => hchannel ch told h)
      (show s.Remembers (s, message).1 from .refl s))
  refine hloop.andThen_of_imp (fun _ h => ⟨h.password, fun _ => h.memory ▸ .refl _⟩)
    fun s' h => leaves_done.mpr ?_
  have hpassword : (s'.removeClient fd).password = s.password := by
    rw [removeClient_eq]
    exact h.password
  exact ⟨hpassword, fun p => h.memory ▸ s'.removeClient_record fd p⟩

/-- What a line makes of the record of the client it comes from, when its
handling returns. -/
def recordAfter (s : Server) (message : Str) (c : Client) : Client :=
  if Checker.accepts message then
    match verbOf (commandOf message) with
    | .nick =>
        let name := (Parser.parse message).function
        if (s.getClientByNickName name).isSome then { c with alreadyRegistered := true }
        else
          { c with
            nickName := name
            alreadyRegistered := false
            login := c.login || c.alreadyRegistered }
    | .pass => { c with password := (Parser.parse message).function }
    | .user =>
        let user := (Parser.userParse message).getD (c.userName, c.realName)
        { c with
          userName := user.1
          realName := user.2
          login := c.login || (decide (s.password = c.password) && !c.alreadyRegistered) }
    | _ => c
  else c

/-- A line from `fd` has changed the record of its client, and no other. -/
structure Recorded (s : Server) (message : Str) (fd : Fd) (s' : Server) : Prop where
  password : s'.password = s.password
  own : ∀ p, s.getClient fd = some p →
    (s.recordAfter message (s.memory p)).SameRecord (s'.memory p)
  others : ∀ p, s.getClient fd ≠ some p → (s.memory p).SameRecord (s'.memory p)
  login : ∀ p, (s'.memory p).login = true →
    (s.memory p).login = true ∨ s.password = (s.memory p).password

/-- A line that changes no record is recorded when `recordAfter` changes nothing. -/
theorem recorded_same (hpassword : s'.password = s.password)
    (hrecords : ∀ p, (s.memory p).SameRecord (s'.memory p))
    (hsame : ∀ c, s.recordAfter message c = c) : s.Recorded message fd s' where
  password := hpassword
  own p _ := by
    rw [hsame]
    exact hrecords p
  others p _ := hrecords p
  login p hlogin := Or.inl ((hrecords p).login ▸ hlogin)

/-- A line that makes nothing of its client's record leaves all records. -/
theorem Remembers.recorded (h : s.Remembers s') (hsame : ∀ c, s.recordAfter message c = c) :
    s.Recorded message fd s' :=
  recorded_same h.password (fun _ => h.memory ▸ .refl _) hsame

/-- A removal does not undo what a line has set. -/
theorem Recorded.removeClient (h : s.Recorded message fd s') :
    s.Recorded message fd (s'.removeClient fd) where
  password := by
    rw [removeClient_eq]
    exact h.password
  own p hp := (h.own p hp).trans (s'.removeClient_record fd p)
  others p hp := (h.others p hp).trans (s'.removeClient_record fd p)
  login p hlogin := h.login p ((s'.removeClient_record fd p).login ▸ hlogin)

/-- A line that sets the record of its client. -/
theorem recorded_set {c : Client} (hc : s.getClient fd = some client)
    (hpassword : s'.password = s.password)
    (hmemory : s'.memory = Function.update s.memory client c)
    (hafter : s.recordAfter message (s.memory client) = c)
    (hlogin : c.login = (s.memory client).login ∨ s.password = (s.memory client).password) :
    s.Recorded message fd s' where
  password := hpassword
  own p hp := by
    rw [hc] at hp
    cases hp
    rw [hmemory, Function.update_self, hafter]
    exact .refl c
  others p hp := by
    rw [hmemory, Function.update_of_ne fun heq => hp (by rw [heq, hc])]
    exact .refl _
  login p hp := by
    rw [hmemory] at hp
    by_cases heq : p = client
    · subst heq
      rw [Function.update_self] at hp
      exact hlogin.imp_left fun hsame => hsame.symm.trans hp
    · rw [Function.update_of_ne heq] at hp
      exact Or.inl hp

/-- `Client::login` returns with the right password, and logs in a client that is not
registered already. -/
theorem login_done (h : s.login client = .done s') :
    s.password = (s.memory client).password ∧ s'.password = s.password ∧
      s'.memory = Function.update s.memory client
        { s.memory client with
          login := (s.memory client).login || !(s.memory client).alreadyRegistered } := by
  unfold login at h
  dsimp only at h
  split at h
  · rename_i hpassword
    split at h
    · rename_i hflag
      cases h
      have hsame : ((s.memory client).login || !(s.memory client).alreadyRegistered) =
          (s.memory client).login := by simp [hflag]
      refine ⟨hpassword, rfl, ?_⟩
      rw [hsame]
      exact (Function.update_eq_self client s.memory).symm
    · rename_i hflag
      cases h
      refine ⟨hpassword, rfl, ?_⟩
      simp [setClient, sendAll, hflag]
  · cases h

/-- It throws with a wrong one, before it changes anything. -/
theorem login_thrown {e : Exception} (h : s.login client = .thrown e s') :
    s.password ≠ (s.memory client).password ∧ s.Sends s' := by
  unfold login at h
  dsimp only at h
  split at h
  · split at h <;> cases h
  · rename_i hpassword
    cases h
    exact ⟨hpassword, rfl⟩

/-- `NICK` records a free nickname, and logs in a client that is ready for it. -/
theorem execNick_recorded (haccepts : Checker.accepts message = true)
    (hverb : verbOf (commandOf message) = .nick) (h : s.execNick message fd = .done s') :
    s.Recorded message fd s' := by
  unfold execNick at h
  cases hc : s.getClient fd with
  | none => rw [hc] at h; cases h
  | some client =>
      rw [hc, require_some] at h
      dsimp only at h
      by_cases hused : (s.getClientByNickName (Parser.parse message).function).isSome = true
      · rw [if_pos hused] at h
        cases h
        refine recorded_set (c := { s.memory client with alreadyRegistered := true }) hc rfl rfl ?_
          (Or.inl rfl)
        simp only [recordAfter, haccepts, hverb, hused, if_true]
      · rw [if_neg hused] at h
        generalize hs :
          (if (s.memory client).nickName ≠ "*".toList then _ else _ : Server) = told at h
        have htold : told.password = s.password ∧ told.memory = Function.update s.memory client
            { s.memory client with nickName := (Parser.parse message).function } := by
          rw [← hs]
          split <;> exact ⟨rfl, rfl⟩
        have hrecord : told.memory client =
            { s.memory client with nickName := (Parser.parse message).function } := by
          rw [htold.2, Function.update_self]
        rw [hrecord] at h
        by_cases hflag : (s.memory client).alreadyRegistered = true
        · rw [if_pos hflag] at h
          obtain ⟨hright, hpassword, hmemory⟩ := login_done h
          have hright' : s.password = (s.memory client).password := by
            simpa [setClient, htold.1, htold.2] using hright
          refine recorded_set hc (hpassword.trans htold.1) (hmemory.trans ?_) rfl (Or.inr hright')
          simp [setClient, htold.2, recordAfter, haccepts, hverb, hused, hflag]
        · rw [if_neg hflag] at h
          cases h
          refine recorded_set hc htold.1 htold.2 ?_ (Or.inl rfl)
          simp only [recordAfter, haccepts, hverb, hused, if_true]
          simp [hflag]

/-- `PASS` records the password. -/
theorem execPass_recorded (haccepts : Checker.accepts message = true)
    (hverb : verbOf (commandOf message) = .pass) (h : s.execPass message fd = .done s') :
    s.Recorded message fd s' := by
  unfold execPass at h
  cases hc : s.getClient fd with
  | none => rw [hc] at h; cases h
  | some client =>
      rw [hc, require_some] at h
      cases h
      refine recorded_set hc rfl rfl ?_ (Or.inl rfl)
      simp only [recordAfter, haccepts, hverb, if_true]

/-- A `USER` that returns logs its client in, or removes it. -/
theorem execUser_recorded (haccepts : Checker.accepts message = true)
    (hverb : verbOf (commandOf message) = .user) (h : s.execUser message fd = .done s') :
    s.Recorded message fd s' := by
  unfold execUser at h
  cases huser : Parser.userParse message with
  | none => rw [huser] at h; cases h
  | some user =>
      rw [huser, require_some] at h
      cases hc : s.getClient fd with
      | none => rw [hc] at h; cases h
      | some client =>
          rw [hc, require_some] at h
          have hset : (s.setClient client fun c =>
              { c with userName := user.1, realName := user.2 }).memory client =
              { s.memory client with userName := user.1, realName := user.2 } := by
            simp [setClient]
          split at h
          · rename_i s'' hthrown
            cases h
            obtain ⟨hwrong, hsends⟩ := login_thrown hthrown
            rw [hset] at hwrong
            have hwrong' : ¬ s.password = (s.memory client).password := hwrong
            refine Recorded.removeClient (recorded_set (c := { s.memory client with
              userName := user.1, realName := user.2 }) hc hsends.remembers.password
              hsends.remembers.memory ?_ (Or.inl rfl))
            simp [recordAfter, haccepts, hverb, huser, hwrong']
          · obtain ⟨hright, hpassword, hmemory⟩ := login_done h
            rw [hset] at hright hmemory
            have hright' : s.password = (s.memory client).password := hright
            refine recorded_set hc hpassword (hmemory.trans ?_) rfl (Or.inr hright')
            simp [setClient, recordAfter, haccepts, hverb, huser, hright']

/-- The password is all that `Client::login` complains about. -/
theorem login_throws (s : Server) (client : ClientPtr) :
    (s.login client).ThrowsOnly fun e => e = .passwordMismatch :=
  .ite (fun _ => .ite (fun _ => throwsOnly_done) (fun _ => throwsOnly_done))
    (fun _ => throwsOnly_thrown.mpr rfl)

/-- So is it for `NICK`. -/
theorem execNick_throws (s : Server) (message : Str) (fd : Fd) :
    (s.execNick message fd).ThrowsOnly fun e => e = .passwordMismatch :=
  .require fun _ _ => .ite (fun _ => throwsOnly_done)
    (fun _ => .ite (fun _ => login_throws _ _) (fun _ => throwsOnly_done))

/-- So is it for `USER`. -/
theorem execUser_throws (s : Server) (message : Str) (fd : Fd) :
    (s.execUser message fd).ThrowsOnly fun e => e = .passwordMismatch := by
  refine .require fun user _ => .require fun client _ => ?_
  split
  · exact throwsOnly_done
  · exact login_throws _ _

/-- What a command throws about a wrong password, `Command::Execute` does not
catch. -/
theorem not_caught_of_throws {outcome : Result} {e : Exception}
    (h : outcome.ThrowsOnly fun e => e = .passwordMismatch) (hcaught : caughtByExecute e = true) :
    outcome ≠ .thrown e s' := by
  intro heq
  rw [h e s' heq] at hcaught
  cases hcaught

/-- A `try` block that has returned left what its body left. -/
theorem leaves_of_done {body : Result} {caught : Exception → Bool} {R : Server → Prop}
    (hbody : body.Leaves R) (h : body.catching caught = .done s') : R s' := by
  rw [← leaves_catching, h, leaves_done] at hbody
  exact hbody

/-- Each command makes of the record what is said of it. -/
theorem dispatch_recorded {who : Server → Str → Fd → Result} (env : Env) (hnamed : s.Named)
    (hwho : ∀ name, ChannelName name → WhoSends who name)
    (haccepts : Checker.accepts message = true)
    (h : (s.dispatch env who message fd).catching caughtByExecute = .done s') :
    s.Recorded message fd s' := by
  have hkept : ∀ verb, verbOf (commandOf message) = verb → verb ≠ .nick → verb ≠ .pass →
      verb ≠ .user → ∀ c, s.recordAfter message c = c := by
    intro verb hverb hnick hpass huser c
    unfold recordAfter
    rw [if_pos haccepts, hverb]
    cases verb <;> first | rfl | contradiction
  unfold dispatch at h
  cases hverb : verbOf (commandOf message) with
  | nick =>
      rw [hverb] at h
      rcases catching_eq_done h with h | ⟨e, hcaught, h⟩
      · exact execNick_recorded haccepts hverb h
      · exact (not_caught_of_throws (execNick_throws s message fd) hcaught h).elim
  | user =>
      rw [hverb] at h
      rcases catching_eq_done h with h | ⟨e, hcaught, h⟩
      · exact execUser_recorded haccepts hverb h
      · exact (not_caught_of_throws (execUser_throws s message fd) hcaught h).elim
  | pass =>
      rw [hverb] at h
      rcases catching_eq_done h with h | ⟨e, hcaught, h⟩
      · exact execPass_recorded haccepts hverb h
      · unfold execPass at h
        cases hc : s.getClient fd with
        | none => rw [hc] at h; cases h
        | some client => rw [hc] at h; cases h
  | quit =>
      rw [hverb] at h
      have hquit := leaves_of_done execQuit_remembers h
      exact recorded_same hquit.1 hquit.2 (hkept _ hverb (by decide) (by decide) (by decide))
  | join | privmsg | part | who | notice | mode | kick | invite | topic | whois | unknown =>
      rw [hverb] at h
      have hleaves : ∀ verb, (Outcome.require (s.getClient fd) .nullClient fun client =>
          if (s.memory client).login then s.dispatchLogin env who client message fd verb
          else .done s).Leaves s.Remembers := fun verb =>
        .require fun client _ => .ite (fun _ => dispatchLogin_remembers env hnamed hwho verb)
          (fun _ => leaves_done.mpr (.refl s))
      exact (leaves_of_done (hleaves _) h).recorded
        (hkept _ hverb (by decide) (by decide) (by decide))

/-- **Records after a line.** -/
theorem handleLine_recorded (env : Env) (hnamed : s.Named) (hline : OneLine message)
    (h : handleLine env s message fd = .done s') : s.Recorded message fd s' := by
  unfold handleLine at h
  rw [hline.executeTo, handle] at h
  by_cases haccepts : Checker.accepts message = true
  · rw [check_of_accepts s fd haccepts, andThen_done] at h
    exact dispatch_recorded env hnamed (fun _ hname => executeTo_who_sends env 0 hname) haccepts h
  · rw [check_andThen_of_not_accepts s fd haccepts] at h
    have hleaves := (check_sends s message fd).imp fun _ hs => hs.remembers
    refine (leaves_of_done hleaves h).recorded fun c => ?_
    unfold recordAfter
    rw [if_neg haccepts]

end Server

/-- The client that a step handles a line of, and the line. -/
def World.speaker (w : World) : Action → Option (ClientPtr × Str)
  | .line _ =>
      match w.pending with
      | some (fd, line :: _) => (w.srv.getClient fd).map fun p => (p, line)
      | _ => none
  | _ => none

/-- What a step does to the records of clients. -/
structure Records (w : World) (a : Action) (w' : World) : Prop where
  password : w'.srv.password = w.srv.password
  own : ∀ p line, w.speaker a = some (p, line) →
    (w.srv.recordAfter line (w.srv.memory p)).SameRecord (w'.srv.memory p)
  others : ∀ p, p < w.srv.nextPtr ∨ w'.srv.nextPtr ≤ p →
    (∀ line, w.speaker a ≠ some (p, line)) → (w.srv.memory p).SameRecord (w'.srv.memory p)
  login : ∀ p < w.srv.nextPtr, (w'.srv.memory p).login = true →
    (w.srv.memory p).login = true ∨ w.srv.password = (w.srv.memory p).password

variable {w w' : World} {a : Action}

/-- The speaker is connected. -/
theorem mem_of_speaker {p : ClientPtr} {line : Str} (h : w.speaker a = some (p, line)) :
    p ∈ w.srv.clients := by
  unfold World.speaker at h
  split at h
  · split at h
    · obtain ⟨q, hq, heq⟩ := Option.map_eq_some_iff.mp h
      cases heq
      exact Server.mem_of_getClient hq
    · cases h
  · cases h

/-- The speaker's line is a single line. -/
theorem oneLine_of_speaker (htidy : Tidy w) {p : ClientPtr} {line : Str}
    (h : w.speaker a = some (p, line)) : OneLine line := by
  unfold World.speaker at h
  split at h
  · split at h
    · rename_i fd first lines hpending
      obtain ⟨q, hq, heq⟩ := Option.map_eq_some_iff.mp h
      cases heq
      exact htidy.lines fd _ hpending _ List.mem_cons_self
    · cases h
  · cases h

/-- **Records after a step.** -/
theorem Stepped.records (htidy : Tidy w) (h : Stepped w a w') : Records w a w' := by
  have hquiet : ∀ {w' : World} {a : Action}, w.speaker a = none →
      w'.srv.password = w.srv.password →
      (∀ p, (w.srv.memory p).SameRecord (w'.srv.memory p)) → Records w a w' := by
    intro w' a hnone hpassword hsame
    refine ⟨hpassword, fun p line heq => ?_, fun p _ _ => hsame p,
      fun p _ hlogin => Or.inl ((hsame p).login ▸ hlogin)⟩
    rw [hnone] at heq
    cases heq
  cases h with
  | gather hidle => exact hquiet rfl rfl fun _ => .refl _
  | @accept fd hostName hphase hlistener hnew =>
      have hold : ∀ p, p ≠ w.srv.nextPtr →
          (w.srv.addClient fd hostName).memory p = w.srv.memory p :=
        fun p hp => Function.update_of_ne hp _ _
      refine ⟨rfl, fun p line heq => ?_, fun p hp _ => ?_,
        fun p hp hlogin => Or.inl (hold p hp.ne ▸ hlogin)⟩
      · cases heq
      · refine (hold p ?_).symm ▸ .refl _
        rcases hp with hp | hp
        · exact hp.ne
        · exact (Nat.lt_of_succ_le hp).ne'
  | @read fd message hphase hidle hpolled hclient =>
      unfold World.read
      dsimp only
      split
      · refine hquiet rfl ?_ fun p => w.srv.removeClient_record fd p
        dsimp only
        rw [Server.removeClient_eq]
      · exact hquiet rfl rfl fun _ => .refl _
  | readFails hphase hidle => exact hquiet rfl rfl fun _ => .refl _
  | @line env fd line lines s hpending hdone =>
      have hline := htidy.lines fd _ hpending line List.mem_cons_self
      have hrecorded := Server.handleLine_recorded env htidy.named hline hdone
      have hspeaker : w.speaker (.line env) =
          (w.srv.getClient fd).map fun p => (p, line) := by
        simp only [World.speaker, hpending]
      refine ⟨hrecorded.password, fun p text heq => ?_, fun p _ hne => ?_,
        fun p _ => hrecorded.login p⟩
      · rw [hspeaker] at heq
        obtain ⟨q, hq, heq⟩ := Option.map_eq_some_iff.mp heq
        cases heq
        exact hrecorded.own p hq
      · refine hrecorded.others p fun hp => hne line ?_
        rw [hspeaker, hp]
        rfl

/-- A client after a step is new, or was there before. -/
theorem mem_clients_step {p : ClientPtr} (htidy : Tidy w) (hstep : Stepped w a w')
    (hp : p ∈ w'.srv.clients) :
    p ∈ w.srv.clients ∨ p = w.srv.nextPtr ∧ w.speaker a = none ∧
      ∃ fd hostName, w'.srv.memory p = Client.new fd hostName := by
  rcases hstep.accept_or_handled htidy with ⟨fd, hostName, rfl, rfl⟩ | hhandled
  · refine (List.mem_append.mp hp).imp_right fun hp => ?_
    rw [List.mem_singleton.mp hp]
    exact ⟨rfl, rfl, fd, hostName, Function.update_self _ _ _⟩
  · exact Or.inl (hhandled.evolves.clients.subset hp)

/-- Objects are created and never forgotten. -/
theorem nextPtr_step (htidy : Tidy w) (hstep : Stepped w a w') :
    w.srv.nextPtr ≤ w'.srv.nextPtr := by
  rcases hstep.accept_or_handled htidy with ⟨fd, hostName, rfl, rfl⟩ | hhandled
  · exact Nat.le_succ _
  · exact hhandled.evolves.nextPtr.ge

end FtIrc
