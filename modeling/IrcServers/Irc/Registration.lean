import IrcServers.Irc.Nicknames

/-!
# The registration gate

Three flags of a client say how far it has registered.  They are set by
`PASS`, `NICK` and `USER`, each of which tests at most the flag before, and
`handleCommand` tests the first and the last of them.  The file ties the flags
to the commands of the connection: `session` is the part of a run's history
that a client has contributed since its connection was accepted, and
`Enrolment` says which commands must be in it, and in which order, for each
flag.
-/

namespace Irc

/-- A line a client has sent, with the tables it was handled in. -/
abbrev Handled := Tables × Str

/-- The lines handled for descriptor `fd` since its connection was accepted,
latest first. -/
def session (fd : Fd) : Run.Trace World Action → List Handled
  | [] => []
  | (w, a) :: trace =>
      match a with
      | .accept accepted _ _ => if accepted = fd then [] else session fd trace
      | .receive _ _ => session fd trace
      | .command _ =>
          match w.current with
          | some (source, line) =>
              if source = fd then (w.srv.toTables, line) :: session fd trace
              else session fd trace
          | none => session fd trace

/-- The line is a `PASS` whose first parameter is the server password. -/
def GavePassword (entry : Handled) : Prop := SendsPassword entry.1 (commandParts entry.2)

/-- The line is an accepted `NICK` of the client on `fd`. -/
def TookNick (fd : Fd) (entry : Handled) : Prop :=
  ∃ p nick, entry.1.clients[fd]? = some p ∧
    NickAccepted entry.1 p (commandParts entry.2) nick

/-- The line is an accepted `USER` of the client on `fd`. -/
def GaveUser (fd : Fd) (entry : Handled) : Prop :=
  ∃ p, entry.1.clients[fd]? = some p ∧ UserAccepted entry.1 p (commandParts entry.2)

/-- Each flag of the client on `fd` is backed by its session. -/
structure Enrolment (fd : Fd) (session : List Handled) (c : Client) : Prop where
  isAuth : c.isAuth = true → Run.InOrder [GavePassword] session
  hasNick : c.hasNick = true → Run.InOrder [TookNick fd, GavePassword] session
  loged : c.loged = true → Run.InOrder [GaveUser fd, TookNick fd, GavePassword] session

/-- The client on `fd` is logged in and has registered in this connection with
the password, then an accepted nickname, then an accepted `USER`. -/
structure Enrolled (trace : Run.Trace World Action) (fd : Fd) (c : Client) : Prop where
  loged : c.loged = true
  hasNick : c.hasNick = true
  isAuth : c.isAuth = true
  history : Run.InOrder [GaveUser fd, TookNick fd, GavePassword] (session fd trace)

/-- What a session has brought about, a longer one has as well. -/
theorem Enrolment.mono {fd : Fd} {session longer : List Handled} {c : Client}
    (h : Enrolment fd session c) (hsub : List.Sublist session longer) :
    Enrolment fd longer c where
  isAuth := fun hflag => (h.isAuth hflag).mono hsub
  hasNick := fun hflag => (h.hasNick hflag).mono hsub
  loged := fun hflag => (h.loged hflag).mono hsub

/-- A new connection starts without flags. -/
theorem enrolment_connected (fd : Fd) (ip : Str) (port : Nat) (session : List Handled) :
    Enrolment fd session (Client.connected fd ip port) := by
  constructor <;> simp [Client.connected]

section Effects

variable {t t' : Tables} {fd : Fd} {p : ClientPtr} {line : Str} {history : List Handled}

/-- A command line changes no other client. -/
theorem Effect.memory_ne {parts : List Str} (h : Effect p parts t t') {q : ClientPtr}
    (hq : q ≠ p) : t'.memory q = t.memory q := by
  cases h with
  | quiet => rfl
  | authenticated h => exact Tables.setClient_memory_ne t _ hq
  | renamed nick h => exact Tables.setClient_memory_ne (t.registerNick nick _) _ hq
  | registered username clientIp realname h => exact Tables.setClient_memory_ne t _ hq
  | parted names h hnames => rw [Tables.leaveAll_frame]
  | kicked name target ch h hch hop hlive hmem htarget => rw [Tables.leave_frame]
  | joined | created | topicSet => rfl

/-- The issuer's flags stay backed: each handler that sets a flag finds the
flag before it set, and adds its own line to the session. -/
theorem Enrolment.effect (hp : t.clients[fd]? = some p)
    (h : Enrolment fd history (t.memory p)) (heffect : Effect p (commandParts line) t t') :
    Enrolment fd ((t, line) :: history) (t'.memory p) := by
  have hkept := h.mono (List.sublist_cons_self (t, line) history)
  cases heffect with
  | quiet => exact hkept
  | authenticated hpass =>
      rw [Tables.setClient_memory_self]
      exact ⟨fun _ => (Run.InOrder.nil history).cons hpass, hkept.hasNick, hkept.loged⟩
  | renamed nick hnick =>
      rw [Tables.setClient_memory_self]
      have hauth : (t.memory p).isAuth = true := by
        obtain ⟨_, _, _, _, hauth, _⟩ := hnick
        exact hauth
      exact ⟨hkept.isAuth, fun _ => (h.isAuth hauth).cons ⟨p, nick, hp, hnick⟩, hkept.loged⟩
  | registered username clientIp realname huser =>
      rw [Tables.setClient_memory_self]
      have hnick : (t.memory p).hasNick = true := by
        obtain ⟨_, _, _, _, _, _, _, hnick, _⟩ := huser
        exact hnick
      exact ⟨hkept.isAuth, hkept.hasNick, fun _ => (h.hasNick hnick).cons ⟨p, hp, huser⟩⟩
  | parted names hruns hnames =>
      rw [Tables.leaveAll_frame]
      exact hkept
  | kicked name target ch hruns hch hop hlive hmem htarget =>
      rw [Tables.leave_frame]
      exact hkept
  | joined | created | topicSet => exact hkept

end Effects

/-- The tables agree, and every connected client's flags are backed by its
session. -/
structure Enrolments (trace : Run.Trace World Action) (w : World) : Prop where
  registry : w.srv.Registry
  backed : ∀ {fd : Fd} {p : ClientPtr}, w.srv.clients[fd]? = some p →
    Enrolment fd (session fd trace) (w.srv.memory p)

/-- Nobody is enrolled at the start. -/
theorem enrolments_start {w : World} (h : Start w) : Enrolments [] w := by
  refine ⟨registry_start h, ?_⟩
  obtain ⟨password, host, serverSocket, botSocket, _, rfl⟩ := h
  intro fd p hp
  simp [initial] at hp

/-- Only an accept shortens a session. -/
theorem session_sublist {fd : Fd} {trace : Run.Trace World Action} {w : World} {a : Action}
    (h : ∀ ip port, a ≠ .accept fd ip port) :
    List.Sublist (session fd trace) (session fd ((w, a) :: trace)) := by
  cases a with
  | accept accepted ip port =>
      have hne : accepted ≠ fd := fun heq => h ip port (heq ▸ rfl)
      simp [session, hne]
  | receive source results => simp [session]
  | command env =>
      cases hcurrent : w.current with
      | none => simp [session, hcurrent]
      | some current =>
          obtain ⟨source, line⟩ := current
          by_cases hsource : source = fd <;> simp [session, hcurrent, hsource]

/-- A step of an attended run adds its line to the session of its client. -/
theorem enrolments_step {trace : Run.Trace World Action} {w next : World} {a : Action}
    (h : Enrolments trace w) (hattended : Attended w a) (hstep : step w a = some next) :
    Enrolments ((w, a) :: trace) next := by
  refine ⟨registry_step h.registry hattended hstep, ?_⟩
  intro k q hk
  have hturn := step_turn hattended hstep
  generalize next.srv.toTables = t' at hturn hk ⊢
  cases hturn with
  | accepted fd ip port ha hfresh =>
      subst ha
      have hfd := h.registry.absent hfresh
      rcases Tables.accepted_entry h.registry.addresses hfd hk with
        ⟨rfl, _, hmemory⟩ | ⟨hold, hmemory⟩
      · rw [hmemory]
        exact enrolment_connected _ ip port _
      · rw [hmemory]
        refine (h.backed hold).mono (session_sublist ?_)
        intro ip' port' hin
        cases hin
        rw [hfd] at hold
        cases hold
  | received fd results ha =>
      subst ha
      exact h.backed hk
  | closed f hclosing =>
      rw [Tables.closeConnection_clients] at hk
      split at hk
      · cases hk
      · rw [Tables.closeConnection_memory]
        refine (h.backed hk).mono (session_sublist ?_)
        intro ip port heq
        subst heq
        cases hclosing
  | handled env fd p line lines _ ha hline hp heffect =>
      subst ha
      rw [heffect.frame] at hk
      have hsession : session k ((w, .command env) :: trace) =
          if fd = k then (w.srv.toTables, line) :: session k trace else session k trace := by
        simp [session, World.current, hline]
      rw [hsession]
      by_cases hfd : fd = k
      · subst hfd
        obtain rfl : p = q := Option.some.inj (hp.symm.trans hk)
        rw [if_pos rfl]
        exact (h.backed hp).effect hp heffect
      · rw [if_neg hfd, heffect.memory_ne]
        · exact h.backed hk
        · intro heq
          subst heq
          exact hfd (h.registry.addresses.inj hp hk)

/-- In an attended run all flags come from the sessions. -/
theorem enrolments_of_attended {trace : Run.Trace World Action} {w : World}
    (hrun : Steps trace w) (hattended : Run.Meets Attended trace) : Enrolments trace w :=
  hrun.history_of_meets Enrolments (fun _ => enrolments_start)
    (fun _ _ _ _ => enrolments_step) hattended

/-- A client that is logged in is enrolled. -/
theorem Enrolments.enrolled {trace : Run.Trace World Action} {w : World}
    (h : Enrolments trace w) {fd : Fd} {p : ClientPtr} (hp : w.srv.clients[fd]? = some p)
    (hloged : (w.srv.memory p).loged = true) : Enrolled trace fd (w.srv.memory p) where
  loged := hloged
  hasNick := (h.registry.staged hp).named hloged
  isAuth := (h.registry.staged hp).authenticated ((h.registry.staged hp).named hloged)
  history := (h.backed hp).loged hloged

/-- The commands behind the registration test. -/
def Verb.gated : Verb → Bool
  | .join | .privmsg | .list | .part | .topic | .kick | .quit => true
  | _ => false

/-- A gated command of a client that is not registered only answers. -/
theorem commandParser_refused {env : Env} {line word : Str} {args : List Str}
    {p : ClientPtr} {s : Server} (hparts : commandParts line = word :: args)
    (hgated : (verbOf word).gated = true) (hreg : (s.memory p).registered = false) :
    Server.commandParser env line p s =
      .done (s.sendMessage p "You must login firstly".toList) := by
  have hempty : line ≠ [] := by
    intro heq
    subst heq
    obtain rfl : [] = word := by
      have hnil : commandParts [] = [[]] := by decide
      rw [hnil] at hparts
      exact (List.cons.inj hparts).1
    revert hgated
    decide
  unfold Server.commandParser Server.handleCommand
  rw [if_neg hempty, hparts]
  dsimp only
  revert hgated
  cases verbOf word <;> simp [Verb.gated, hreg]

end Irc
