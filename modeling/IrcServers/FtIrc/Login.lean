import IrcServers.FtIrc.Gate

/-!
# Registration

A client is to send `PASS`, `NICK` and `USER`.  `USER` logs it in unless the flag
`_alreadyRegistered` is set; a `NICK` that is refused sets the flag, and the next
one that is accepted clears it and logs the client in.  Neither path looks
whether the other command has come: a client is registered as it should be in
every state of a run just when none of its commands takes the wrong path.
-/

namespace FtIrc

open Utils Outcome

variable {w w' : World} {a : Action} {trace : Run.Trace World Action} {p q : ClientPtr}

/-- The step handles a line of the client with the command given. -/
def Says (verb : Verb) (p : ClientPtr) (w : World) (a : Action) : Prop :=
  ∃ said ∈ w.speaker a, said.1 = p ∧ Checker.accepts said.2 = true ∧
    verbOf (commandOf said.2) = verb

/-- The step accepts a nickname of the client. -/
def NickAccepted (p : ClientPtr) (w : World) (a : Action) : Prop :=
  ∃ said ∈ w.speaker a, said.1 = p ∧ Checker.accepts said.2 = true ∧
    verbOf (commandOf said.2) = .nick ∧
    w.srv.getClientByNickName (Parser.parse said.2).function = none

instance (verb : Verb) (p : ClientPtr) (w : World) (a : Action) : Decidable (Says verb p w a) :=
  inferInstanceAs (Decidable (∃ said ∈ w.speaker a, _))

instance (p : ClientPtr) (w : World) (a : Action) : Decidable (NickAccepted p w a) :=
  inferInstanceAs (Decidable (∃ said ∈ w.speaker a, _))

/-- It has happened in the run. -/
def Has (event : World → Action → Prop) (trace : Run.Trace World Action) : Prop :=
  ∃ entry ∈ trace, event entry.1 entry.2

instance (event : World → Action → Prop) [∀ w a, Decidable (event w a)]
    (trace : Run.Trace World Action) : Decidable (Has event trace) :=
  inferInstanceAs (Decidable (∃ entry ∈ trace, _))

@[simp] theorem not_has_nil (event : World → Action → Prop) : ¬ Has event [] := by simp [Has]

@[simp] theorem has_cons {event : World → Action → Prop} :
    Has event ((w, a) :: trace) ↔ event w a ∨ Has event trace := by simp [Has]

/-- The client is registered as it should be: it is logged in only after a
`NICK` that was accepted and a `USER`, and it is logged in when these and a
`PASS` have been handled and its password is the server's. -/
structure Registered (trace : Run.Trace World Action) (w : World) (p : ClientPtr) : Prop where
  sound : (w.srv.memory p).login = true →
    Has (NickAccepted p) trace ∧ Has (Says .user p) trace
  complete : Has (Says .pass p) trace → Has (NickAccepted p) trace → Has (Says .user p) trace →
    (w.srv.memory p).password = w.srv.password → (w.srv.memory p).login = true

/-- The commands that may log in a client take the right path: with the right
password, `USER` finds the flag clear just when a `NICK` has been accepted (or
the flag set and no `PASS` yet), a `NICK` that is accepted with the flag set comes
after a `USER`, and the right `PASS` is not the last of the three. -/
def RightPath (trace : Run.Trace World Action) (w : World) (p : ClientPtr) (line : Str) : Prop :=
  match verbOf (commandOf line) with
  | .user =>
      w.srv.password = (w.srv.memory p).password →
        if (w.srv.memory p).alreadyRegistered then
          ¬ (Has (Says .pass p) trace ∧ Has (NickAccepted p) trace)
        else Has (NickAccepted p) trace
  | .nick =>
      w.srv.getClientByNickName (Parser.parse line).function = none →
        (w.srv.memory p).alreadyRegistered = true → Has (Says .user p) trace
  | .pass =>
      (Parser.parse line).function = w.srv.password →
        ¬ (Has (NickAccepted p) trace ∧ Has (Says .user p) trace)
  | _ => True

instance (trace : Run.Trace World Action) (w : World) (p : ClientPtr) (line : Str) :
    Decidable (RightPath trace w p line) := by
  unfold RightPath
  split <;> infer_instance

/-- The line that a step handles, of a client that is not logged in yet, takes
the right path. -/
def OnRightPath (trace : Run.Trace World Action) (w : World) (a : Action) : Prop :=
  ∀ said ∈ w.speaker a, (w.srv.memory said.1).login = false →
    Checker.accepts said.2 = true → RightPath trace w said.1 said.2

instance (trace : Run.Trace World Action) (w : World) (a : Action) :
    Decidable (OnRightPath trace w a) := inferInstanceAs (Decidable (∀ said ∈ w.speaker a, _))

/-- What a client has said, while it was one of the clients there have been. -/
structure Told (trace : Run.Trace World Action) (w : World) : Prop where
  tidy : Tidy w
  known : ∀ entry ∈ trace, ∀ said ∈ entry.1.speaker entry.2, said.1 < w.srv.nextPtr
  user : ∀ p ∈ w.srv.clients, Has (Says .user p) trace →
    (w.srv.memory p).login = true ∨ (w.srv.memory p).alreadyRegistered = true

/-- Who says something is the speaker of its line. -/
theorem says_speaker {verb : Verb} (h : Says verb p w a) :
    ∃ line, w.speaker a = some (p, line) := by
  obtain ⟨⟨q, line⟩, hsaid, rfl, -⟩ := h
  exact ⟨line, hsaid⟩

/-- So is the one whose nickname is accepted. -/
theorem nickAccepted_speaker (h : NickAccepted p w a) : ∃ line, w.speaker a = some (p, line) := by
  obtain ⟨⟨q, line⟩, hsaid, rfl, -⟩ := h
  exact ⟨line, hsaid⟩

section Speaking

variable {line : Str}

/-- What the speaker says now. -/
theorem says_iff (hspeaker : w.speaker a = some (p, line)) (verb : Verb) :
    Says verb p w a ↔ Checker.accepts line = true ∧ verbOf (commandOf line) = verb := by
  simp [Says, hspeaker]

/-- A nickname is accepted when the line passes the checker and nobody has it. -/
theorem nickAccepted_iff (hspeaker : w.speaker a = some (p, line)) :
    NickAccepted p w a ↔ Checker.accepts line = true ∧ verbOf (commandOf line) = .nick ∧
      w.srv.getClientByNickName (Parser.parse line).function = none := by
  simp [NickAccepted, hspeaker]

end Speaking

/-- What others say is not said by `p`. -/
theorem not_says_of_ne (hnot : ∀ line, w.speaker a ≠ some (p, line)) (verb : Verb) :
    ¬ Says verb p w a :=
  fun h => let ⟨line, hspeaker⟩ := says_speaker h; hnot line hspeaker

/-- Who does not speak has no nickname accepted. -/
theorem not_nickAccepted_of_ne (hnot : ∀ line, w.speaker a ≠ some (p, line)) :
    ¬ NickAccepted p w a :=
  fun h => let ⟨line, hspeaker⟩ := nickAccepted_speaker h; hnot line hspeaker

/-- Being registered, said in one direction and in the other. -/
theorem registered_iff : Registered trace w p ↔
    ((w.srv.memory p).login = true → Has (NickAccepted p) trace ∧ Has (Says .user p) trace) ∧
      (Has (Says .pass p) trace → Has (NickAccepted p) trace → Has (Says .user p) trace →
        (w.srv.memory p).password = w.srv.password → (w.srv.memory p).login = true) :=
  ⟨fun h => ⟨h.sound, h.complete⟩, fun h => ⟨h.1, h.2⟩⟩

/-- Nothing happens to a client that says nothing. -/
theorem registered_of_silent (hrecords : Records w a w') (hfresh : p < w.srv.nextPtr)
    (hnot : ∀ line, w.speaker a ≠ some (p, line)) :
    Registered ((w, a) :: trace) w' p ↔ Registered trace w p := by
  have hsame := hrecords.others p (Or.inl hfresh) hnot
  simp only [registered_iff, has_cons, not_says_of_ne hnot, not_nickAccepted_of_ne hnot,
    false_or, hsame.login, hsame.password, hrecords.password]

/-- A client that is still there after its `USER` has the right password. -/
theorem right_of_user (htidy : Tidy w) (hstep : Stepped w a w') {line : Str}
    (hspeaker : w.speaker a = some (p, line)) (haccepts : Checker.accepts line = true)
    (hverb : verbOf (commandOf line) = .user) :
    p ∈ w'.srv.clients ↔ w.srv.password = (w.srv.memory p).password := by
  have hold : ∀ fd host, a ≠ .accept fd host := by
    rintro fd host rfl
    cases hspeaker
  have hhandled := hstep.handled htidy hold
  have hremoves : w.removes a =
      if w.srv.password = (w.srv.memory p).password then none else some (p, 1) := by
    unfold World.speaker at hspeaker
    split at hspeaker
    · split at hspeaker
      · rename_i hpending
        obtain ⟨q, hq, heq⟩ := Option.map_eq_some_iff.mp hspeaker
        cases heq
        simp only [World.removes, hpending, Server.removing, haccepts, hverb, if_true, hq,
          Option.bind_some]
      · cases hspeaker
    · cases hspeaker
  rw [hremoves] at hhandled
  split at hhandled
  · rename_i hright
    rw [hhandled.same]
    exact iff_of_true (mem_of_speaker hspeaker) hright
  · rename_i hwrong
    refine iff_of_false (fun hmem => ?_) hwrong
    rw [hhandled.2.clients, Server.parted_clients htidy.fds (mem_of_speaker hspeaker)] at hmem
    exact hmem.2 rfl

/-- Other commands before the login test keep their client. -/
theorem mem_of_nick_or_pass (htidy : Tidy w) (hstep : Stepped w a w') {line : Str}
    (hspeaker : w.speaker a = some (p, line))
    (hverb : verbOf (commandOf line) = .nick ∨ verbOf (commandOf line) = .pass) :
    p ∈ w'.srv.clients := by
  have hold : ∀ fd host, a ≠ .accept fd host := by
    rintro fd host rfl
    cases hspeaker
  have hhandled := hstep.handled htidy hold
  have hremoves : w.removes a = none := by
    unfold World.speaker at hspeaker
    split at hspeaker
    · split at hspeaker
      · rename_i hpending
        obtain ⟨q, -, heq⟩ := Option.map_eq_some_iff.mp hspeaker
        cases heq
        simp only [World.removes, hpending, Server.removing]
        split
        · rcases hverb with hverb | hverb <;> rw [hverb]
        · rfl
      · cases hspeaker
    · cases hspeaker
  rw [hremoves] at hhandled
  exact hhandled.same ▸ mem_of_speaker hspeaker

/-- A client that has just come has said nothing. -/
theorem Told.nothing (h : Told trace w) {event : World → Action → Prop}
    (hevent : ∀ w' a, event w' a → ∃ line, w'.speaker a = some (w.srv.nextPtr, line)) :
    ¬ Has event trace := by
  rintro ⟨entry, hmem, hhas⟩
  obtain ⟨line, hspeaker⟩ := hevent _ _ hhas
  exact absurd (h.known entry hmem _ hspeaker) (Nat.lt_irrefl _)

/-- Nobody has said anything at the start. -/
theorem told_start (h : Start w) : Told [] w := by
  refine ⟨tidy_start h, fun entry hmem => ?_, fun p _ hhas => (not_has_nil _ hhas).elim⟩
  cases hmem

/-- A `USER` logs its client in or finds the flag set, and the flag is cleared
only by a login. -/
theorem told_step (h : Told trace w) (hstep : Stepped w a w') : Told ((w, a) :: trace) w' := by
  have hrecords := hstep.records h.tidy
  have hnext := nextPtr_step h.tidy hstep
  refine ⟨h.tidy.stepped hstep, fun entry hmem said hsaid => ?_, fun p hp huser => ?_⟩
  · rcases List.mem_cons.mp hmem with rfl | hmem
    · exact (h.tidy.fresh _ (mem_of_speaker hsaid)).trans_le hnext
    · exact (h.known entry hmem said hsaid).trans_le hnext
  · rcases mem_clients_step h.tidy hstep hp with hold | ⟨rfl, hnone, -⟩
    · by_cases hspeaks : ∃ line, w.speaker a = some (p, line)
      · obtain ⟨line, hspeaker⟩ := hspeaks
        have hown := hrecords.own p line hspeaker
        rw [hown.login, hown.alreadyRegistered]
        rw [has_cons, says_iff hspeaker] at huser
        by_cases haccepts : Checker.accepts line = true
        · have hbefore : verbOf (commandOf line) ≠ .user →
              (w.srv.memory p).login = true ∨ (w.srv.memory p).alreadyRegistered = true :=
            fun hverb => h.user p hold (huser.resolve_left fun hnow => hverb hnow.2)
          unfold Server.recordAfter
          rw [if_pos haccepts]
          split
          · rename_i hverb
            dsimp only
            split
            · exact Or.inr rfl
            · refine Or.inl ?_
              rcases hbefore (by rw [hverb]; decide) with hold | hold <;> simp [hold]
          · rename_i hverb
            exact hbefore (by rw [hverb]; decide)
          · rename_i hverb
            have hright := (right_of_user h.tidy hstep hspeaker haccepts hverb).mp hp
            cases (w.srv.memory p).alreadyRegistered <;> simp [hright]
          · rename_i hnick hpass hnot
            exact hbefore hnot
        · unfold Server.recordAfter
          rw [if_neg haccepts]
          exact h.user p hold (huser.resolve_left fun hnow => haccepts hnow.1)
      · have hnot : ∀ line, w.speaker a ≠ some (p, line) := fun line heq => hspeaks ⟨line, heq⟩
        have hsame := hrecords.others p (Or.inl (h.tidy.fresh p hold)) hnot
        rw [hsame.login, hsame.alreadyRegistered]
        exact h.user p hold ((has_cons.mp huser).resolve_left (not_says_of_ne hnot _))
    · refine ((has_cons.mp huser).resolve_left ?_ |> h.nothing fun w' a => says_speaker).elim
      exact not_says_of_ne (fun line heq => by rw [hnone] at heq; cases heq) _

/-- A client is registered as it should be after its line just when the line
takes the right path. -/
theorem registered_speaker (h : Told trace w) (hstep : Stepped w a w') {line : Str}
    (hspeaker : w.speaker a = some (p, line)) (hregistered : Registered trace w p) :
    (p ∈ w'.srv.clients → Registered ((w, a) :: trace) w' p) ↔
      ((w.srv.memory p).login = false → Checker.accepts line = true →
        RightPath trace w p line) := by
  have hrecords := hstep.records h.tidy
  have hmem := mem_of_speaker hspeaker
  have hown := hrecords.own p line hspeaker
  obtain ⟨hsound, hcomplete⟩ := hregistered
  rw [registered_iff, hown.login, hown.password, hrecords.password]
  simp only [has_cons, says_iff hspeaker, nickAccepted_iff hspeaker]
  cases hlogin : (w.srv.memory p).login with
  | true =>
      refine iff_of_true (fun _ => ⟨fun _ => ?_, fun _ _ _ _ => ?_⟩) (fun hfalse => by cases hfalse)
      · exact ⟨Or.inr (hsound hlogin).1, Or.inr (hsound hlogin).2⟩
      · exact Server.recordAfter_login hlogin
  | false =>
      have hwrong : Has (Says .pass p) trace → Has (NickAccepted p) trace →
          Has (Says .user p) trace → ¬ (w.srv.memory p).password = w.srv.password := by
        intro hpass hnick huser hright
        have hlogged := hcomplete hpass hnick huser hright
        rw [hlogin] at hlogged
        cases hlogged
      have hflag : Has (Says .user p) trace → (w.srv.memory p).alreadyRegistered = true :=
        fun huser => (h.user p hmem huser).resolve_left (by simp [hlogin])
      by_cases haccepts : Checker.accepts line = true
      · unfold RightPath
        simp only [haccepts, true_and, true_imp_iff]
        cases hverb : verbOf (commandOf line) with
        | user =>
            rw [right_of_user h.tidy hstep hspeaker haccepts hverb]
            refine imp_congr_right fun hright => ?_
            simp only [Server.recordAfter, haccepts, hverb, if_true, hlogin, hright]
            cases hflag : (w.srv.memory p).alreadyRegistered <;> simp
        | nick =>
            have hthere := mem_of_nick_or_pass h.tidy hstep hspeaker (Or.inl hverb)
            simp only [hthere, true_imp_iff]
            cases hfree : w.srv.getClientByNickName (Parser.parse line).function with
            | some q =>
                simp only [Server.recordAfter, haccepts, hverb, if_true, hfree, hlogin]
                simpa using hwrong
            | none =>
                simp only [Server.recordAfter, haccepts, hverb, if_true, hfree, hlogin]
                simpa using fun _ _ hsaid _ => hflag hsaid
        | pass =>
            have hthere := mem_of_nick_or_pass h.tidy hstep hspeaker (Or.inr hverb)
            simp only [hthere, true_imp_iff, Server.recordAfter, haccepts, hverb, if_true, hlogin]
            grind
        | quit | join | privmsg | part | who | notice | mode | kick | invite | topic | whois
            | unknown =>
            simp only [Server.recordAfter, haccepts, hverb, if_true, hlogin]
            simpa using fun _ => hwrong
      · have hsame : w.srv.recordAfter line (w.srv.memory p) = w.srv.memory p := if_neg haccepts
        rw [hsame, hlogin]
        simpa [haccepts] using fun _ => hwrong

/-- A step leaves everybody registered as they should be just when its line is on the
right path. -/
theorem registered_step (h : Told trace w) (hstep : Stepped w a w')
    (hall : ∀ p ∈ w.srv.clients, Registered trace w p) :
    (∀ p ∈ w'.srv.clients, Registered ((w, a) :: trace) w' p) ↔ OnRightPath trace w a := by
  have hrecords := hstep.records h.tidy
  have hsilent : ∀ p ∈ w'.srv.clients, (∀ line, w.speaker a ≠ some (p, line)) →
      Registered ((w, a) :: trace) w' p := by
    intro p hp hnot
    rcases mem_clients_step h.tidy hstep hp with hold | ⟨rfl, -, fd, hostName, hnew⟩
    · exact (registered_of_silent hrecords (h.tidy.fresh p hold) hnot).mpr (hall p hold)
    · refine ⟨fun hlogged => ?_, fun hpass => ?_⟩
      · rw [hnew] at hlogged
        cases hlogged
      · rw [has_cons] at hpass
        have hbefore := hpass.resolve_left (not_says_of_ne hnot _)
        exact (h.nothing (fun _ _ => says_speaker) hbefore).elim
  constructor
  · rintro hafter ⟨p, line⟩ hspeaker
    exact (registered_speaker h hstep hspeaker (hall p (mem_of_speaker hspeaker))).mp (hafter p)
  · intro hturn p hp
    by_cases hspeaks : ∃ line, w.speaker a = some (p, line)
    · obtain ⟨line, hspeaker⟩ := hspeaks
      exact (registered_speaker h hstep hspeaker (hall p (mem_of_speaker hspeaker))).mpr
        (hturn _ hspeaker) hp
    · exact hsilent p hp fun line heq => hspeaks ⟨line, heq⟩

/-- **Registration is complete.**  In every state of a run every client is
registered as it should be, if and only if all commands of the run take the right
path. -/
theorem registered_iff_onRightPath (run : Steps trace w) :
    Run.Always (fun trace w => ∀ p ∈ w.srv.clients, Registered trace w p) trace w ↔
      Run.Along OnRightPath trace :=
  run.always_iff_along Told _ (fun _ => told_start)
    (fun _ _ _ _ h hstep => told_step h (stepped_of_step hstep))
    (fun w hstart p hp => by
      obtain ⟨password, createdDate, listener, keepsFd, rfl⟩ := hstart
      cases hp)
    fun _ _ _ _ h hall hstep => registered_step h (stepped_of_step hstep) hall

/-- A run that meets the condition: `NICK` is refused and repeated after
`USER`. -/
theorem registered_iff_onRightPath_retry : ∃ trace w, Steps trace w ∧ w.srv.clients = [0, 1] ∧
    (w.srv.memory 1).login = true ∧ (w.srv.memory 1).nickName = "b".toList ∧
    Run.Always (fun trace w => ∀ p ∈ w.srv.clients, Registered trace w p) trace w := by
  obtain ⟨trace, w, run, htest⟩ := Run.exists_steps_of_record step start_pw
    ([.gather, .accept 5 "h".toList, .gather, .accept 6 "i".toList, .gather] ++
      packet 5 ["PASS pw", "NICK a", "USER a a a :n"] ++
      packet 6 ["PASS pw", "NICK a", "USER b b b :n", "NICK b"])
    (fun trace w => w.srv.clients = [0, 1] ∧ (w.srv.memory 1).login = true ∧
      (w.srv.memory 1).nickName = "b".toList ∧ Run.Along OnRightPath trace) (by decide +kernel)
  obtain ⟨hclients, hlogin, hnick, halong⟩ := of_decide_eq_true htest
  exact ⟨trace, w, run, hclients, hlogin, hnick, (registered_iff_onRightPath run).mpr halong⟩

/-- `USER` alone logs a client in, with the nickname it started with. -/
theorem login_without_nick :
    ¬ ∀ trace w, Steps trace w → ∀ p ∈ w.srv.clients, Registered trace w p := by
  intro hall
  obtain ⟨trace, w, run, htest⟩ := Run.exists_steps_of_record step start_pw
    ([.gather, .accept 5 "h".toList, .gather] ++ packet 5 ["PASS pw", "USER a a a :n"])
    (fun trace w => w.srv.clients = [0] ∧ (w.srv.memory 0).login = true ∧
      ¬ Has (NickAccepted 0) trace) (by decide +kernel)
  obtain ⟨hclients, hlogin, hnot⟩ := of_decide_eq_true htest
  exact hnot ((hall trace w run 0 (by simp [hclients])).sound hlogin).1

end FtIrc
