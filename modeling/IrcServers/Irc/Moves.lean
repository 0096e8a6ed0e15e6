import IrcServers.Irc.Effects

/-!
# Steps of the poll loop, inverted

Every step of the machine is one of six moves: an accept, a read that yields
lines, a read that ends the connection, a line with one of the effects, a
`QUIT`, and a `QUIT` that ends in an exception.  `step_move` says so once.

Two coarser readings follow.  `Move.closes_or` separates the steps that close a
descriptor from the others.  `Turn` is the reading for runs in which every
line is handled for a client that is still connected, where `_clients[fd]`
never creates an entry.
-/

namespace Irc

namespace Tables

variable {t : Tables} {fd f k : Fd} {p q : ClientPtr} {junk : Leftover}

/-- Indexing an entry that exists changes nothing. -/
theorem index_of_some (h : t.clients[fd]? = some p) : t.index fd junk = (t, p) := by
  simp [index, h]

/-- The lookup of a client adds an entry for its descriptor, if there is none. -/
theorem index_clients (t : Tables) (fd k : Fd) (junk : Leftover) :
    (t.index fd junk).1.clients[k]? =
      if fd = k then some (t.index fd junk).2 else t.clients[k]? := by
  cases h : t.clients[fd]? with
  | some p =>
      rw [index_of_some h]
      by_cases hk : fd = k
      · simp [hk, ← h]
      · simp [hk]
  | none => simp [index, h, Std.ExtTreeMap.getElem?_insert]

@[simp] theorem index_channels (t : Tables) (fd : Fd) (junk : Leftover) :
    (t.index fd junk).1.channels = t.channels := by
  unfold index
  split <;> rfl

@[simp] theorem index_openFds (t : Tables) (fd : Fd) (junk : Leftover) :
    (t.index fd junk).1.openFds = t.openFds := by
  unfold index
  split <;> rfl

@[simp] theorem index_botSocket (t : Tables) (fd : Fd) (junk : Leftover) :
    (t.index fd junk).1.botSocket = t.botSocket := by
  unfold index
  split <;> rfl

/-- The indexed client is an entry of the map. -/
theorem index_live (t : Tables) (fd : Fd) (junk : Leftover) :
    (t.index fd junk).1.Live (t.index fd junk).2 :=
  ⟨fd, by simp [index_clients]⟩

@[simp] theorem closeConnection_channels (t : Tables) (f : Fd) :
    (t.closeConnection f).channels = t.channels := by
  unfold closeConnection
  split <;> rfl

@[simp] theorem closeConnection_memory (t : Tables) (f : Fd) :
    (t.closeConnection f).memory = t.memory := by
  unfold closeConnection
  split <;> rfl

@[simp] theorem closeConnection_botSocket (t : Tables) (f : Fd) :
    (t.closeConnection f).botSocket = t.botSocket := by
  unfold closeConnection
  split <;> rfl

/-- Closing an open descriptor erases its entry. -/
theorem closeConnection_clients (t : Tables) (f k : Fd) :
    (t.closeConnection f).clients[k]? =
      if f ∈ t.openFds ∧ f = k then none else t.clients[k]? := by
  unfold closeConnection
  by_cases hopen : f ∈ t.openFds
  · simp [hopen, Std.ExtTreeMap.getElem?_erase]
  · simp [hopen]

/-- Different entries of `_clients` are different objects, and the allocator
has handed out all of them. -/
structure Addresses (t : Tables) : Prop where
  inj : ∀ {fd fd' : Fd} {p : ClientPtr},
    t.clients[fd]? = some p → t.clients[fd']? = some p → fd = fd'
  bound : ∀ {fd : Fd} {p : ClientPtr}, t.clients[fd]? = some p → p < t.nextPtr

/-- The entry that a lookup adds is a new object. -/
theorem Addresses.index (h : t.Addresses) (fd : Fd) (junk : Leftover) :
    (t.index fd junk).1.Addresses := by
  cases hfd : t.clients[fd]? with
  | some p => rwa [index_of_some hfd]
  | none =>
      have hget : ∀ {k : Fd} {p : ClientPtr}, (t.index fd junk).1.clients[k]? = some p →
          fd = k ∧ p = t.nextPtr ∨ t.clients[k]? = some p := by
        intro k p hk
        rw [index_clients] at hk
        split at hk
        · simp_all [Tables.index]
        · exact Or.inr hk
      have hnext : (t.index fd junk).1.nextPtr = t.nextPtr + 1 := by simp [Tables.index, hfd]
      constructor
      · intro k k' p hk hk'
        rcases hget hk with ⟨rfl, rfl⟩ | hk <;> rcases hget hk' with ⟨rfl, hp⟩ | hk'
        · rfl
        · exact absurd (h.bound hk') (Nat.lt_irrefl _)
        · exact absurd (hp ▸ h.bound hk) (Nat.lt_irrefl _)
        · exact h.inj hk hk'
      · intro k p hk
        rw [hnext]
        rcases hget hk with ⟨-, rfl⟩ | hk
        · exact Nat.lt_succ_self _
        · exact Nat.lt_succ_of_lt (h.bound hk)

/-- Addresses stay distinct when entries are removed. -/
theorem Addresses.of_sub {t' : Tables} (h : t.Addresses) (hnext : t'.nextPtr = t.nextPtr)
    (hsub : ∀ {k : Fd} {p : ClientPtr}, t'.clients[k]? = some p → t.clients[k]? = some p) :
    t'.Addresses where
  inj := fun hk hk' => h.inj (hsub hk) (hsub hk')
  bound := fun hk => hnext ▸ h.bound (hsub hk)

/-- Closing a connection hands out no object. -/
theorem Addresses.closeConnection (h : t.Addresses) (f : Fd) :
    (t.closeConnection f).Addresses := by
  refine h.of_sub ?_ ?_
  · unfold Tables.closeConnection
    split <;> rfl
  · intro k p hk
    rw [closeConnection_clients] at hk
    split at hk
    · cases hk
    · exact hk

/-- Accepting a connection indexes its descriptor and overwrites the client. -/
theorem acceptConnection_eq (t : Tables) (fd : Fd) (ip : Str) (port : Nat) :
    t.acceptConnection fd ip port =
      { (t.index fd ⟨fd, port, false, false, false⟩).1.setClient
          (t.index fd ⟨fd, port, false, false, false⟩).2
          (fun _ => Client.connected fd ip port) with
        openFds := fd :: t.openFds, pollFds := t.pollFds ++ [fd] } := by
  unfold acceptConnection addNewClient index
  dsimp only
  split <;> rfl

/-- A new connection is a new object. -/
theorem Addresses.acceptConnection (h : t.Addresses) (fd : Fd) (ip : Str) (port : Nat) :
    (t.acceptConnection fd ip port).Addresses := by
  rw [acceptConnection_eq]
  exact (h.index fd ⟨fd, port, false, false, false⟩).of_sub rfl fun hk => hk

end Tables

section Decidable

instance (env : Env) (t : Tables) (quitter other : Client) :
    Decidable (Server.TellFails env t quitter other) :=
  inferInstanceAs (Decidable (_ ∧ _ ∧ _))

instance (env : Env) (t : Tables) (p : ClientPtr) : Decidable (quitFails env t p) :=
  inferInstanceAs (Decidable (∃ entry ∈ t.entries, _))

end Decidable

/-- One step of the machine, by what it does to the tables. -/
inductive Move (w : World) : Action → World → Prop
  | accepted (fd : Fd) (ip : Str) (port : Nat) (next : World) (hidle : w.reading = none)
      (hfresh : fd ∉ w.srv.openFds)
      (htables : next.srv.toTables = w.srv.acceptConnection fd ip port)
      (hreading : next.reading = none) : Move w (.accept fd ip port) next
  | received (fd : Fd) (results : List Recv) (text : Str) (next : World)
      (hidle : w.reading = none) (hpolled : fd ∈ w.srv.pollFds)
      (htext : receiveMessage results = .message text)
      (htables : next.srv.toTables = w.srv.toTables)
      (hreading : next.reading = remaining fd (commandsOf text)) :
      Move w (.receive fd results) next
  | hungUp (fd : Fd) (results : List Recv) (next : World) (hidle : w.reading = none)
      (hpolled : fd ∈ w.srv.pollFds)
      (hend : ∀ text, receiveMessage results ≠ .message text)
      (htables : next.srv.toTables = w.srv.closeConnection fd)
      (hreading : next.reading = none) : Move w (.receive fd results) next
  | handled (env : Env) (fd : Fd) (line : Str) (lines : List Str) (next : World)
      (hline : w.reading = some (fd, line :: lines))
      (hquit : ¬ RunsRegistered (w.srv.index fd env.leftover).1
        (w.srv.index fd env.leftover).2 (commandParts line) .quit)
      (heffect : Effect (w.srv.index fd env.leftover).2 (commandParts line)
        (w.srv.index fd env.leftover).1 next.srv.toTables)
      (hreading : next.reading = remaining fd lines) : Move w (.command env) next
  | quitted (env : Env) (fd : Fd) (line : Str) (lines : List Str) (next : World)
      (hline : w.reading = some (fd, line :: lines))
      (hquit : RunsRegistered (w.srv.index fd env.leftover).1
        (w.srv.index fd env.leftover).2 (commandParts line) .quit)
      (hsent : ¬ quitFails env (w.srv.index fd env.leftover).1
        (w.srv.index fd env.leftover).2)
      (htables : next.srv.toTables = (w.srv.index fd env.leftover).1.closeConnection
        ((w.srv.index fd env.leftover).1.memory
          (w.srv.index fd env.leftover).2).clientSocketFd)
      (hreading : next.reading = remaining fd lines) : Move w (.command env) next
  | aborted (env : Env) (fd : Fd) (line : Str) (lines : List Str) (next : World)
      (hline : w.reading = some (fd, line :: lines))
      (hquit : RunsRegistered (w.srv.index fd env.leftover).1
        (w.srv.index fd env.leftover).2 (commandParts line) .quit)
      (hfailed : quitFails env (w.srv.index fd env.leftover).1
        (w.srv.index fd env.leftover).2)
      (htables : next.srv.toTables =
        (w.srv.index fd env.leftover).1.closeConnection fd)
      (hreading : next.reading = none) : Move w (.command env) next

/-- The moves of one line. -/
theorem command_move {w next : World} {env : Env} {fd : Fd} {line : Str}
    {lines : List Str} (hline : w.reading = some (fd, line :: lines))
    (h : w.command env fd line lines = some next) : Move w (.command env) next := by
  simp only [World.command] at h
  by_cases hquit : RunsRegistered (w.srv.index fd env.leftover).1
      (w.srv.index fd env.leftover).2 (commandParts line) .quit
  · rw [commandParser_quit hquit] at h
    rcases quit_cases env (w.srv.withTables (w.srv.index fd env.leftover).1)
      (w.srv.index fd env.leftover).2 (commandParts line) with
      ⟨s', hs', hsent, htables⟩ | ⟨e, s', hs', hfailed, htables⟩
    · rw [hs'] at h
      cases h
      exact .quitted env fd line lines _ hline hquit hsent htables rfl
    · rw [hs'] at h
      cases h
      exact .aborted env fd line lines _ hline hquit hfailed (by simp [htables]) rfl
  · split at h
    · rename_i s' hs'
      cases h
      exact .handled env fd line lines _ hline hquit
        (commandParser_effect (s := w.srv.withTables _) hquit hs') rfl
    · rename_i e s' hs'
      exact (commandParser_not_thrown (s := w.srv.withTables _) hquit e s' hs').elim
    · cases h

/-- What the loop tests before it accepts. -/
theorem accept_guard {w next : World} {fd : Fd} {ip : Str} {port : Nat}
    (h : step w (.accept fd ip port) = some next) :
    w.reading = none ∧ w.srv.serverSocket ∈ w.srv.pollFds ∧ fd ∉ w.srv.openFds := by
  simp only [step] at h
  split at h
  · assumption
  · cases h

/-- What the loop tests before it receives. -/
theorem receive_guard {w next : World} {fd : Fd} {results : List Recv}
    (h : step w (.receive fd results) = some next) :
    w.reading = none ∧ fd ∈ w.srv.pollFds ∧ fd ≠ w.srv.serverSocket ∧
      results.all Recv.fits = true := by
  simp only [step] at h
  split at h
  · assumption
  · cases h

/-- **Step inversion.**  Every step of the machine is one of these moves. -/
theorem step_move {w : World} {a : Action} {next : World} (h : step w a = some next) :
    Move w a next := by
  cases a with
  | accept fd ip port =>
      have hguard := accept_guard h
      rw [step, if_pos hguard] at h
      cases h
      exact .accepted fd ip port _ hguard.1 hguard.2.2 rfl hguard.1
  | receive fd results =>
      have hguard := receive_guard h
      rw [step, if_pos hguard, Option.some.injEq] at h
      subst h
      unfold World.receive
      cases hres : receiveMessage results with
      | message text => exact .received fd results text _ hguard.1 hguard.2.1 hres rfl rfl
      | closed => exact .hungUp fd results _ hguard.1 hguard.2.1 (by simp [hres]) rfl hguard.1
      | failed => exact .hungUp fd results _ hguard.1 hguard.2.1 (by simp [hres]) rfl hguard.1
  | command env =>
      simp only [step] at h
      split at h
      · rename_i fd line lines hline
        exact command_move hline h
      · cases h

/-- The tables with the entry of the line's issuer, which `_clients[fd]`
creates when it is missing. -/
def World.entered (w : World) : Action → Tables
  | .command env =>
      match w.current with
      | some (fd, _) => (w.srv.index fd env.leftover).1
      | none => w.srv.toTables
  | _ => w.srv.toTables

/-- The descriptor the step closes, if any: the one whose `recv` ended or
failed, the one stored in a client that quits, or the one being read when a
farewell cannot be sent. -/
def World.closing (w : World) : Action → Option Fd
  | .accept _ _ _ => none
  | .receive fd results =>
      match receiveMessage results with
      | .message _ => none
      | _ => some fd
  | .command env =>
      match w.current with
      | none => none
      | some (fd, line) =>
          let indexed := w.srv.index fd env.leftover
          if RunsRegistered indexed.1 indexed.2 (commandParts line) .quit then
            if quitFails env indexed.1 indexed.2 then some fd
            else some (indexed.1.memory indexed.2).clientSocketFd
          else none

/-- A line is handled in the tables that the lookup of its client leaves. -/
theorem World.entered_command {w : World} {fd : Fd} {line : Str} {lines : List Str}
    (hline : w.reading = some (fd, line :: lines)) (env : Env) :
    w.entered (.command env) = (w.srv.index fd env.leftover).1 := by
  simp [World.entered, World.current, hline]

/-- A step that closes a descriptor is `closeConnection` on the tables; any
other step is an accept, a read, or a line with one of the listed effects. -/
theorem Move.closes_or {w next : World} {a : Action} (h : Move w a next) :
    (∃ f, w.closing a = some f ∧
      next.srv.toTables = (w.entered a).closeConnection f) ∨
    w.closing a = none ∧
      ((∃ fd ip port, fd ∉ w.srv.openFds ∧
          next.srv.toTables = w.srv.acceptConnection fd ip port) ∨
        next.srv.toTables = w.srv.toTables ∨
        ∃ (env : Env) (fd : Fd) (line : Str) (lines : List Str), a = .command env ∧
          w.reading = some (fd, line :: lines) ∧
          Effect (w.srv.index fd env.leftover).2 (commandParts line)
            (w.srv.index fd env.leftover).1 next.srv.toTables) := by
  cases h with
  | accepted fd ip port next hidle hfresh htables hreading =>
      exact Or.inr ⟨rfl, Or.inl ⟨fd, ip, port, hfresh, htables⟩⟩
  | received fd results text next hidle hpolled htext htables hreading =>
      exact Or.inr ⟨by simp [World.closing, htext], Or.inr (Or.inl htables)⟩
  | hungUp fd results next hidle hpolled hend htables hreading =>
      refine Or.inl ⟨fd, ?_, htables⟩
      unfold World.closing
      dsimp only
      split
      · rename_i text htext
        exact (hend text htext).elim
      · rfl
  | handled env fd line lines next hline hquit heffect hreading =>
      exact Or.inr ⟨by simp [World.closing, World.current, hline, hquit],
        Or.inr (Or.inr ⟨env, fd, line, lines, rfl, hline, heffect⟩)⟩
  | quitted env fd line lines next hline hquit hsent htables hreading =>
      refine Or.inl ⟨_, by simp [World.closing, World.current, hline, hquit, hsent]; rfl, ?_⟩
      rw [World.entered_command hline]
      exact htables
  | aborted env fd line lines next hline hquit hfailed htables hreading =>
      refine Or.inl ⟨fd, by simp [World.closing, World.current, hline, hquit, hfailed], ?_⟩
      rw [World.entered_command hline]
      exact htables

/-- The line a step handles comes from a client that is still an entry of
`_clients`, so that `_clients[fd]` creates none. -/
def Attended (w : World) : Action → Prop
  | .command _ => ∀ current ∈ w.current, (w.srv.clients[current.1]?).isSome = true
  | _ => True

instance (w : World) : ∀ a, Decidable (Attended w a)
  | .command _ => inferInstanceAs (Decidable (∀ current ∈ w.current, _))
  | .accept _ _ _ => isTrue trivial
  | .receive _ _ => isTrue trivial

/-- The issuer of a line in an attended step has an entry, which indexing finds. -/
theorem Attended.issuer {w : World} {env : Env} {fd : Fd} {line : Str} {lines : List Str}
    (h : Attended w (.command env)) (hline : w.reading = some (fd, line :: lines)) :
    ∃ p, w.srv.clients[fd]? = some p ∧ w.srv.index fd env.leftover = (w.srv.toTables, p) := by
  have hsome : (w.srv.clients[fd]?).isSome = true := h (fd, line) (by simp [World.current, hline])
  obtain ⟨p, hp⟩ := Option.isSome_iff_exists.mp hsome
  exact ⟨p, hp, Tables.index_of_some hp⟩

/-- An accepted `NICK` renames its issuer. -/
theorem commandParser_nick (env : Env) {line nick : Str} {p : ClientPtr} {s : Server}
    (h : NickAccepted s.toTables p (commandParts line) nick) :
    Server.commandParser env line p s =
      .done (s.withTables ((s.registerNick nick (s.memory p).clientSocketFd).setClient p
        fun c => { c with nickname := nick, hasNick := true })) := by
  obtain ⟨word, rest, hparts, hverb, hauth, hfree⟩ := h
  have hempty : line ≠ [] := by
    rintro rfl
    simp [commandParts, Text.cut, Text.cutWith] at hparts
  simp [Server.commandParser, Server.handleCommand, hempty, hparts, hverb, Server.nick, hauth,
    hfree]

/-- A line of a connected client that is handled to its end. -/
theorem World.command_of_done {w : World} {env : Env} {fd : Fd} {p : ClientPtr} {line : Str}
    {lines : List Str} {s' : Server} (hp : w.srv.clients[fd]? = some p)
    (h : Server.commandParser env line p w.srv = .done s') :
    w.command env fd line lines = some { srv := s', reading := remaining fd lines } := by
  unfold World.command
  rw [Tables.index_of_some hp]
  dsimp only
  rw [show w.srv.withTables w.srv.toTables = w.srv from rfl, h]

/-- What an attended step does to the tables. -/
inductive Turn (w : World) (a : Action) : Tables → Prop
  | accepted (fd : Fd) (ip : Str) (port : Nat) (ha : a = .accept fd ip port)
      (hfresh : fd ∉ w.srv.openFds) : Turn w a (w.srv.acceptConnection fd ip port)
  | received (fd : Fd) (results : List Recv) (ha : a = .receive fd results) :
      Turn w a w.srv.toTables
  | closed (f : Fd) (hclosing : w.closing a = some f) : Turn w a (w.srv.closeConnection f)
  | handled (env : Env) (fd : Fd) (p : ClientPtr) (line : Str) (lines : List Str)
      (t' : Tables) (ha : a = .command env) (hline : w.reading = some (fd, line :: lines))
      (hp : w.srv.clients[fd]? = some p)
      (heffect : Effect p (commandParts line) w.srv.toTables t') : Turn w a t'

/-- **Attended steps.** -/
theorem step_turn {w next : World} {a : Action} (hattended : Attended w a)
    (hstep : step w a = some next) : Turn w a next.srv.toTables := by
  have hentered : w.entered a = w.srv.toTables := by
    cases a with
    | accept fd ip port => rfl
    | receive fd results => rfl
    | command env =>
        unfold World.entered World.current
        dsimp only
        rcases hreading : w.reading with _ | ⟨fd, _ | ⟨line, lines⟩⟩
        · rfl
        · rfl
        · obtain ⟨p, _, hindex⟩ := hattended.issuer hreading
          simp [hindex]
  cases step_move hstep with
  | accepted fd ip port _ hidle hfresh htables hreading =>
      rw [htables]
      exact .accepted fd ip port rfl hfresh
  | received fd results text _ hidle hpolled htext htables hreading =>
      rw [htables]
      exact .received fd results rfl
  | handled env fd line lines _ hline hquit heffect hreading =>
      obtain ⟨p, hp, hindex⟩ := hattended.issuer hline
      rw [hindex] at heffect
      exact .handled env fd p line lines _ rfl hline hp heffect
  | hungUp | quitted | aborted =>
      rcases (step_move hstep).closes_or with ⟨f, hclosing, htables⟩ | ⟨hnone, _⟩
      · rw [htables, hentered]
        exact .closed f hclosing
      · simp_all [World.closing, World.current]

/-- No object is handed out before the start. -/
theorem addresses_start {w : World} (h : Start w) : w.srv.Addresses := by
  obtain ⟨password, host, serverSocket, botSocket, _, rfl⟩ := h
  constructor <;> simp [initial]

end Irc
