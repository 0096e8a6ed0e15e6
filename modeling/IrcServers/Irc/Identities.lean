import IrcServers.Irc.Nicknames

/-!
# Identities

A `USER` is refused once a username is set, so that whoever is logged in keeps
its username, realname and client address.  The test looks at the username
itself, though, and two spaces in a row make an empty word: the username of an
accepted `USER` can be empty, and so can the nickname of an accepted `NICK`.
The file says for which lines the law holds.
-/

namespace Irc

/-- What a `USER` gives a client for good. -/
def Client.identity (c : Client) : Str × Str × Str := (c.username, c.realname, c.clientIp)

/-- A client that is logged in has a nickname and a username. -/
def Client.Introduced (c : Client) : Prop :=
  c.loged = true → c.nickname ≠ [] ∧ c.username ≠ []

instance (t : Tables) (p : ClientPtr) (parts : List Str) : Decidable (UserAccepted t p parts) :=
  match parts with
  | word :: username :: clientIp :: name :: rest =>
      decidable_of_iff (verbOf word = .user ∧ (t.memory p).hasNick = true ∧
          (t.memory p).username = [])
        ⟨fun h => ⟨word, username, clientIp, name, rest, rfl, h⟩,
          by rintro ⟨_, _, _, _, _, ⟨⟩, h⟩; exact h⟩
  | [] | [_] | [_, _] | [_, _, _] => isFalse (by rintro ⟨_, _, _, _, _, h, _⟩; cases h)

instance (t : Tables) (p : ClientPtr) (parts : List Str) (nick : Str) :
    Decidable (NickAccepted t p parts nick) :=
  match parts with
  | word :: given :: rest =>
      decidable_of_iff (given = nick ∧ verbOf word = .nick ∧ (t.memory p).isAuth = true ∧
          t.isNickTaken nick = false)
        ⟨by rintro ⟨rfl, h⟩; exact ⟨word, rest, rfl, h⟩,
          by rintro ⟨_, _, ⟨⟩, h⟩; exact ⟨rfl, h⟩⟩
  | [] | [_] => isFalse (by rintro ⟨_, _, h, _⟩; cases h)

section Lines

variable (env : Env) {line word nick username clientIp name : Str} {rest : List Str}
  {p : ClientPtr} {s s' : Server}

/-- A line with a word in it is not empty. -/
theorem line_ne_nil (hparts : commandParts line = word :: rest) (hword : word ≠ []) :
    line ≠ [] := by
  rintro rfl
  have hnil : commandParts [] = [[]] := by decide
  exact hword (List.cons.inj (hparts.symm.trans hnil)).1

/-- An accepted `USER` introduces its issuer and logs it in. -/
theorem commandParser_user
    (hparts : commandParts line = word :: username :: clientIp :: name :: rest)
    (hverb : verbOf word = .user) (hnick : (s.memory p).hasNick = true)
    (hname : (s.memory p).username = []) :
    ∃ s', Server.commandParser env line p s = .done s' ∧
      s'.toTables = s.setClient p fun c => { c with
        username := username, clientIp := clientIp,
        realname := dropColon (appendWords name rest), loged := true } := by
  have hline : line ≠ [] := line_ne_nil hparts (by rintro rfl; exact absurd hverb (by decide))
  refine ⟨s.user p (word :: username :: clientIp :: name :: rest), ?_, ?_⟩
  · unfold Server.commandParser Server.handleCommand
    rw [if_neg hline, hparts]
    dsimp only
    rw [hverb]
  · simp [Server.user, hnick, hname, Server.botSendMsg, Tables.setClient]

end Lines

namespace Tables

variable {t : Tables} {p : ClientPtr} {f : Client → Client}

/-- Everybody who is logged in has been introduced. -/
def Introduced (t : Tables) : Prop := ∀ p, t.Live p → (t.memory p).Introduced

/-- Whoever is logged in keeps its identity. -/
def KeepsIdentities (t t' : Tables) : Prop :=
  ∀ p, t.Live p → (t.memory p).loged = true → (t'.memory p).identity = (t.memory p).identity

/-- After a change of one client the law depends on that client. -/
theorem introduced_setClient_iff (h : t.Introduced) (hp : t.Live p) :
    ((t.setClient p f).Introduced ∧ t.KeepsIdentities (t.setClient p f)) ↔
      (f (t.memory p)).Introduced ∧
        ((t.memory p).loged = true → (f (t.memory p)).identity = (t.memory p).identity) := by
  constructor
  · rintro ⟨hintroduced, hkeeps⟩
    have hself := hintroduced p hp
    have hidentity := hkeeps p hp
    rw [setClient_memory_self] at hself hidentity
    exact ⟨hself, hidentity⟩
  · rintro ⟨hself, hidentity⟩
    refine ⟨fun q hq => ?_, fun q hq hloged => ?_⟩ <;> by_cases hqp : q = p
    · rw [hqp, setClient_memory_self]
      exact hself
    · rw [setClient_memory_ne t f hqp]
      exact h q hq
    · rw [hqp, setClient_memory_self]
      exact hidentity (hqp ▸ hloged)
    · rw [setClient_memory_ne t f hqp]

/-- Nothing changes for whom neither the entries nor the memory do. -/
theorem Introduced.congr {t' : Tables} (h : t.Introduced) (hlive : ∀ q, t'.Live q → t.Live q)
    (hmemory : ∀ q, t.Live q → t'.memory q = t.memory q) :
    t'.Introduced ∧ t.KeepsIdentities t' := by
  refine ⟨fun q hq => ?_, fun q hq _ => ?_⟩
  · rw [hmemory q (hlive q hq)]
    exact h q (hlive q hq)
  · rw [hmemory q hq]

end Tables

/-- The line is no accepted `USER` with an empty username or of a client without
a nickname, and no accepted `NICK` by which a client that is logged in takes the
empty nickname. -/
def NamesGiven (t : Tables) (p : ClientPtr) (parts : List Str) : Prop :=
  (UserAccepted t p parts → parts[1]? ≠ some [] ∧ (t.memory p).nickname ≠ []) ∧
    ((t.memory p).loged = true → ¬ NickAccepted t p parts [])

instance (t : Tables) (p : ClientPtr) (parts : List Str) : Decidable (NamesGiven t p parts) :=
  inferInstanceAs (Decidable (_ ∧ _))

/-- Only an accepted `NICK` or `USER` can break the law. -/
theorem Effect.introduced {t t' : Tables} {p : ClientPtr} {parts : List Str}
    (heffect : Effect p parts t t') (h : t.Introduced) (hp : t.Live p)
    (huser : ¬ UserAccepted t p parts) (hnick : ∀ nick, ¬ NickAccepted t p parts nick) :
    t'.Introduced ∧ t.KeepsIdentities t' := by
  cases heffect with
  | authenticated hpass => exact (Tables.introduced_setClient_iff h hp).mpr ⟨h p hp, fun _ => rfl⟩
  | renamed nick haccepted => exact (hnick nick haccepted).elim
  | registered username clientIp realname haccepted => exact (huser haccepted).elim
  | parted names hruns hnames =>
      rw [Tables.leaveAll_frame]
      exact h.congr (fun _ hq => hq) fun _ _ => rfl
  | kicked name target ch hruns hch hop hlive hmem htarget =>
      rw [Tables.leave_frame]
      exact h.congr (fun _ hq => hq) fun _ _ => rfl
  | quiet | joined | created | topicSet => exact h.congr (fun _ hq => hq) fun _ _ => rfl

/-- **A line and the law.**  A line of a connected client keeps the law just when
the names are given. -/
theorem introduced_line_iff {env : Env} {s s' : Server} {p : ClientPtr} {line : Str}
    (h : s.Introduced) (hp : s.Live p) (hdone : Server.commandParser env line p s = .done s')
    (heffect : Effect p (commandParts line) s.toTables s'.toTables) :
    (s'.Introduced ∧ s.KeepsIdentities s'.toTables) ↔
      NamesGiven s.toTables p (commandParts line) := by
  by_cases huser : UserAccepted s.toTables p (commandParts line)
  · have hnot : ¬ (s.memory p).loged = true := fun hloged => by
      obtain ⟨_, _, _, _, _, _, _, _, hname⟩ := huser
      exact (h p hp hloged).2 hname
    obtain ⟨word, username, clientIp, name, rest, hparts, hverb, hnick, hname⟩ := id huser
    obtain ⟨_, hdone', htables⟩ := commandParser_user env hparts hverb hnick hname
    rw [hdone] at hdone'
    cases hdone'
    have hgiven : NamesGiven s.toTables p (commandParts line) ↔
        username ≠ [] ∧ (s.memory p).nickname ≠ [] := by
      rw [NamesGiven, forall_prop_of_true huser, and_iff_left fun hloged => (hnot hloged).elim,
        hparts]
      simp
    rw [htables, Tables.introduced_setClient_iff h hp, hgiven,
      and_iff_left fun hloged => (hnot hloged).elim]
    exact ⟨fun hboth => (hboth rfl).symm, fun hboth _ => hboth.symm⟩
  · by_cases hnick : ∃ nick, NickAccepted s.toTables p (commandParts line) nick
    · obtain ⟨nick, hnick⟩ := hnick
      rw [commandParser_nick env hnick] at hdone
      cases hdone
      have hempty : NickAccepted s.toTables p (commandParts line) [] ↔ nick = [] := by
        constructor
        · intro hother
          obtain ⟨_, _, hparts, -⟩ := hnick
          obtain ⟨_, _, hparts', -⟩ := hother
          exact (List.cons.inj (List.cons.inj (hparts.symm.trans hparts')).2).1
        · rintro rfl
          exact hnick
      have hset := Tables.introduced_setClient_iff
        (t := s.registerNick nick (s.memory p).clientSocketFd)
        (f := fun c => { c with nickname := nick, hasNick := true }) h hp
      rw [Server.withTables_toTables]
      refine hset.trans ?_
      rw [NamesGiven, and_iff_right fun haccepted => (huser haccepted).elim, hempty]
      constructor
      · exact fun hself hloged => (hself.1 hloged).1
      · exact fun hnamed => ⟨fun hloged => ⟨hnamed hloged, (h p hp hloged).2⟩, fun _ => rfl⟩
    · refine iff_of_true ?_ ⟨fun haccepted => (huser haccepted).elim, fun _ haccepted =>
        hnick ⟨[], haccepted⟩⟩
      exact heffect.introduced h hp huser fun nick haccepted => hnick ⟨nick, haccepted⟩

/-- The step handles no line that breaks the law. -/
def World.NamesGiven (w : World) : Action → Prop
  | .command _ => ∀ current ∈ w.current, ∀ p ∈ w.srv.clients[current.1]?,
      Irc.NamesGiven w.srv.toTables p (commandParts current.2)
  | _ => True

instance (w : World) : ∀ a, Decidable (w.NamesGiven a)
  | .command _ => inferInstanceAs (Decidable (∀ current ∈ w.current, _))
  | .accept _ _ _ => isTrue trivial
  | .receive _ _ => isTrue trivial

/-- A `QUIT` is neither a `USER` nor a `NICK`. -/
theorem RunsRegistered.not_accepted {t : Tables} {p : ClientPtr} {parts : List Str} {verb : Verb}
    (h : RunsRegistered t p parts verb) :
    ¬ UserAccepted t p parts ∧ ∀ nick, ¬ NickAccepted t p parts nick := by
  obtain ⟨word, args, rfl, rfl, hopen, -⟩ := h
  refine ⟨?_, fun nick => ?_⟩
  · rintro ⟨_, _, _, _, _, ⟨⟩, hverb, -⟩
    simp [hverb] at hopen
  · rintro ⟨_, _, ⟨⟩, hverb, -⟩
    simp [hverb] at hopen

/-- A line behind the login test gives no names. -/
theorem RunsRegistered.namesGiven {t : Tables} {p : ClientPtr} {parts : List Str} {verb : Verb}
    (h : RunsRegistered t p parts verb) : NamesGiven t p parts :=
  ⟨fun huser => (h.not_accepted.1 huser).elim, fun _ => h.not_accepted.2 []⟩

/-- The condition, for a step that handles a line of a connected client. -/
theorem World.namesGiven_command {w : World} {env : Env} {fd : Fd} {p : ClientPtr} {line : Str}
    {lines : List Str} (hline : w.reading = some (fd, line :: lines))
    (hp : w.srv.clients[fd]? = some p) :
    w.NamesGiven (.command env) ↔ Irc.NamesGiven w.srv.toTables p (commandParts line) := by
  simp [World.NamesGiven, World.current, hline, hp]

/-- A step that closes a connection is no line of a client, or its `QUIT`. -/
theorem World.namesGiven_of_closing {w : World} {a : Action} {fd : Fd} (hattended : Attended w a)
    (hclosing : w.closing a = some fd) : w.NamesGiven a := by
  cases a with
  | accept fd ip port => trivial
  | receive fd results => trivial
  | command env =>
      rcases hreading : w.reading with _ | ⟨fd, _ | ⟨line, lines⟩⟩
      · simp [World.NamesGiven, World.current, hreading]
      · simp [World.NamesGiven, World.current, hreading]
      · obtain ⟨p, hp, hindex⟩ := hattended.issuer hreading
        rw [World.namesGiven_command hreading hp]
        by_cases hquit : RunsRegistered w.srv.toTables p (commandParts line) .quit
        · exact hquit.namesGiven
        · simp [World.closing, World.current, hreading, hindex, hquit] at hclosing

/-- **A step and the law.**  A step of a client that is attended keeps the law
just when the names are given. -/
theorem introduced_step_iff {w next : World} {a : Action} (hregistry : w.srv.Registry)
    (h : w.srv.Introduced) (hattended : Attended w a) (hstep : step w a = some next) :
    (next.srv.Introduced ∧ w.srv.KeepsIdentities next.srv.toTables) ↔ w.NamesGiven a := by
  have hturn := step_turn hattended hstep
  generalize hnext : next.srv.toTables = t' at hturn ⊢
  cases hturn with
  | accepted fd ip port ha hfresh =>
      subst ha
      have hfd := hregistry.absent hfresh
      refine iff_of_true ⟨?_, ?_⟩ trivial
      · rintro q ⟨k, hk⟩
        rcases Tables.accepted_entry hregistry.addresses hfd hk with
          ⟨-, -, hmemory⟩ | ⟨hold, hmemory⟩
        · rw [hmemory]
          intro hloged
          cases hloged
        · rw [hmemory]
          exact h q ⟨k, hold⟩
      · rintro q ⟨k, hk⟩ -
        have hne : q ≠ w.srv.nextPtr := Nat.ne_of_lt (hregistry.addresses.bound hk)
        rw [Tables.acceptConnection_of_none hfd]
        simp [hne]
  | received fd results ha =>
      subst ha
      exact iff_of_true (h.congr (fun _ hq => hq) fun _ _ => rfl) trivial
  | closed f hclosing =>
      refine iff_of_true (h.congr (fun q hq => ?_) fun _ _ => ?_) ?_
      · obtain ⟨k, hk⟩ := hq
        rw [Tables.closeConnection_clients] at hk
        split at hk
        · cases hk
        · exact ⟨k, hk⟩
      · rw [Tables.closeConnection_memory]
      · exact World.namesGiven_of_closing hattended hclosing
  | handled env fd p line lines _ ha hline hp heffect =>
      subst ha
      rw [World.namesGiven_command hline hp]
      by_cases hquit : RunsRegistered w.srv.toTables p (commandParts line) .quit
      · exact iff_of_true (heffect.introduced h ⟨fd, hp⟩ hquit.not_accepted.1
          hquit.not_accepted.2) hquit.namesGiven
      · cases houtcome : Server.commandParser env line p w.srv with
        | done s' =>
            simp only [step, hline, World.command_of_done hp houtcome, Option.some.injEq] at hstep
            subst hstep
            rw [← hnext] at heffect ⊢
            exact introduced_line_iff h ⟨fd, hp⟩ houtcome heffect
        | thrown e s' => exact (commandParser_not_thrown hquit e s' houtcome).elim
        | fault f =>
            simp [step, hline, World.command, Tables.index_of_some hp,
              show w.srv.withTables w.srv.toTables = w.srv from rfl, houtcome] at hstep

/-- Everybody who is logged in has been introduced, and the latest step has
changed no identity of a client that was logged in. -/
def IdentitiesKept (trace : Run.Trace World Action) (w : World) : Prop :=
  w.srv.Introduced ∧ ∀ entry ∈ trace.head?, entry.1.srv.KeepsIdentities w.srv.toTables

/-- **`USER` is accepted once.**  In a run in which every line is handled for a
connected client, everybody who is logged in has a nickname and a username and
keeps username, realname and client address, at every moment, just when the
names are given in every step. -/
theorem identities_kept_iff {trace : Run.Trace World Action} {w : World} (run : Steps trace w)
    (hattended : Run.Meets Attended trace) :
    Run.Always IdentitiesKept trace w ↔ Run.Meets World.NamesGiven trace := by
  have hguarded := run.to_guarded hattended
  rw [← Run.along_iff_meets]
  refine hguarded.always_iff_along (fun _ w => w.srv.Registry) IdentitiesKept
    (fun _ => registry_start) ?_ ?_ ?_
  · intro trace w a next h hstep
    obtain ⟨hattended, hstep⟩ := Run.guarded_eq_some.mp hstep
    exact registry_step h hattended hstep
  · intro w hstart
    refine ⟨?_, by simp⟩
    obtain ⟨password, host, serverSocket, botSocket, _, rfl⟩ := hstart
    rintro p ⟨fd, hp⟩
    simp [initial] at hp
  · intro trace w a next hregistry h hstep
    obtain ⟨hattended, hstep⟩ := Run.guarded_eq_some.mp hstep
    rw [← introduced_step_iff hregistry h.1 hattended hstep]
    simp [IdentitiesKept]

/-- A client registers, changes its nickname and tries another `USER`. -/
theorem identities_kept_iff_again : ∃ trace w, Steps trace w ∧
    (w.srv.memory 0).identity = ("u".toList, "n".toList, "h".toList) ∧
    (w.srv.memory 0).nickname = "b".toList ∧ Run.Always IdentitiesKept trace w := by
  obtain ⟨trace, w, run, hmeets, htest⟩ := Run.exists_steps_meeting step
    (fun w a => Attended w a ∧ w.NamesGiven a) start_pw
    (.accept 5 "10.0.0.1".toList 40000 :: packet 5
      ["PASS pw", "NICK a", "USER u h n", "NICK b", "USER v i m"])
    (fun w => (w.srv.memory 0).identity = ("u".toList, "n".toList, "h".toList) ∧
      (w.srv.memory 0).nickname = "b".toList) (by decide +kernel)
  obtain ⟨hidentity, hnick⟩ := of_decide_eq_true htest
  obtain ⟨hattended, hgiven⟩ := Run.meets_and.mp hmeets
  exact ⟨trace, w, run, hidentity, hnick, (identities_kept_iff run hattended).mpr hgiven⟩

/-- With two spaces behind `USER` a client is logged in without a username. -/
theorem user_with_empty_name : ¬ ∀ trace w, Steps trace w → Run.Always IdentitiesKept trace w := by
  intro hall
  obtain ⟨trace, w, run, htest⟩ := Run.exists_steps_of_perform step start_pw
    (.accept 5 "10.0.0.1".toList 40000 :: packet 5 ["PASS pw", "NICK a", "USER  h n"])
    (fun w => w.srv.clients[(5 : Fd)]? = some 0 ∧ (w.srv.memory 0).loged = true ∧
      (w.srv.memory 0).username = []) (by decide +kernel)
  obtain ⟨hp, hloged, hname⟩ := of_decide_eq_true htest
  have hkept : IdentitiesKept trace w := (hall trace w run).finish
  exact (hkept.1 0 ⟨5, hp⟩ hloged).2 hname

end Irc
