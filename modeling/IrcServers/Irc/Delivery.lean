import IrcServers.Irc.Rosters

/-!
# Direct messages

`PRIVMSG` to a nickname resolves its target in two steps: `clientFind` returns
the target if some client has that nickname and the empty string otherwise,
and `getClient` then looks the result up again.  A client that has connected
but not chosen a nickname has the empty nickname, so the second lookup can
find it for a target that nobody has.

The file says for every state of the server, reachable or not, to whom the
message goes, and when that is right.
-/

namespace Irc

namespace Tables

variable {t : Tables} {fd : Fd} {q : ClientPtr} {nick target : Str}

/-- `q` is the connected client with that nickname whose descriptor is
lowest. -/
def FirstNamed (t : Tables) (q : ClientPtr) (nick : Str) : Prop :=
  ∃ fd : Fd, t.clients[fd]? = some q ∧ (t.memory q).nickname = nick ∧
    ∀ (fd' : Fd) (q' : ClientPtr), t.clients[fd']? = some q' →
      (t.memory q').nickname = nick → fd ≤ fd'

/-- Nobody that is connected has that nickname. -/
def Unnamed (t : Tables) (nick : Str) : Prop :=
  ∀ q, t.Live q → (t.memory q).nickname ≠ nick

/-- Nobody is found by a nickname that nobody has. -/
theorem getClient_eq_none : t.getClient nick = none ↔ t.Unnamed nick := by
  simp only [getClient, Option.map_eq_none_iff, List.find?_eq_none, decide_eq_true_eq]
  constructor
  · intro h q hlive hname
    obtain ⟨entry, hmem, rfl⟩ := live_iff_mem_entries.mp hlive
    exact h entry hmem hname
  · intro h entry hmem
    exact h entry.2 (live_iff_mem_entries.mpr ⟨entry, hmem, rfl⟩)

/-- The lookup finds the first such client in map order. -/
theorem firstNamed_of_getClient (h : t.getClient nick = some q) : t.FirstNamed q nick := by
  obtain ⟨⟨fd, q⟩, hfind, rfl⟩ := Option.map_eq_some_iff.mp h
  obtain ⟨hname, before, after, hsplit, hbefore⟩ := List.find?_eq_some_iff_append.mp hfind
  refine ⟨fd, mem_entries_iff.mp (List.mem_of_find?_eq_some hfind), by simpa using hname, ?_⟩
  intro fd' q' hq' hname'
  have hmem : (fd', q') ∈ t.entries := mem_entries_iff.mpr hq'
  have hordered : t.entries.Pairwise fun a b => compare a.1 b.1 = .lt :=
    Std.ExtTreeMap.ordered_keys_toList
  rw [hsplit] at hmem hordered
  rcases List.mem_append.mp hmem with hmem | hmem
  · have := hbefore _ hmem
    simp [hname'] at this
  · rcases List.mem_cons.mp hmem with heq | hmem
    · cases heq
      exact Int.le_refl _
    · have hlater := (List.pairwise_cons.mp (List.pairwise_append.mp hordered).2.1).1 _ hmem
      exact Int.le_of_lt (Std.compare_eq_lt.mp hlater)

/-- Two clients cannot both be first. -/
theorem FirstNamed.unique {q' : ClientPtr} (h : t.FirstNamed q nick)
    (h' : t.FirstNamed q' nick) : q = q' := by
  obtain ⟨fd, hq, hname, hfirst⟩ := h
  obtain ⟨fd', hq', hname', hfirst'⟩ := h'
  obtain rfl : fd = fd' := Int.le_antisymm (hfirst fd' q' hq' hname') (hfirst' fd q hq hname)
  exact Option.some.inj (hq.symm.trans hq')

/-- Who is found is the first with the nickname. -/
theorem getClient_eq_some : t.getClient nick = some q ↔ t.FirstNamed q nick := by
  refine ⟨firstNamed_of_getClient, fun h => ?_⟩
  cases hget : t.getClient nick with
  | none =>
      obtain ⟨fd, hq, hname, _⟩ := h
      exact (getClient_eq_none.mp hget q ⟨fd, hq⟩ hname).elim
  | some q' => rw [(firstNamed_of_getClient hget).unique h]

/-- The sentinel: the target if somebody has that nickname, and otherwise the
nickname of those who have none. -/
theorem clientFind_eq (t : Tables) (target : Str) :
    t.clientFind target = if (t.getClient target).isSome then target else [] := by
  unfold clientFind getClient
  congr 1
  simp [List.find?_isSome]

end Tables

namespace Server

variable {s : Server} {p : ClientPtr} {env : Env} {target : Str} {words : List Str}

/-- The text `PRIVMSG` relays. -/
def relayed (env : Env) (s : Server) (p : ClientPtr) (target : Str) (words : List Str) : Str :=
  s.relayLine p target (s.privmsgText env.now p words).2

/-- After what the bot writes to its own socket, one message is sent: the
relayed text to a connected client that carries the target as its accepted
nickname, or, if there is none, the reply 401 to the sender. -/
def Routed (env : Env) (s : Server) (p : ClientPtr) (target : Str) (words : List Str)
    (result : Result) : Prop :=
  ∃ s' chatter last, result = .done s' ∧ s'.sent = s.sent ++ chatter ++ [last] ∧
    (∀ entry ∈ chatter, entry.1 = s.botSocket) ∧
    ((∃ q, s.Carries q target ∧ last = s.messageTo q (relayed env s p target words)) ∨
      (∀ q, ¬ s.Carries q target) ∧
        last = s.messageTo p (errNoSuchNick (s.prefixOf p) target))

/-- The target resolves to its carrier, or to nobody: either the connected
client with that nickname whose descriptor is lowest is reached under the
descriptor of a client that carries it as an accepted nickname, or nobody that
is connected has that nickname or the empty one. -/
def Resolves (s : Server) (target : Str) : Prop :=
  (∃ q, s.FirstNamed q target ∧ ∃ c, s.Carries c target ∧
      (s.memory c).clientSocketFd = (s.memory q).clientSocketFd) ∨
    s.Unnamed target ∧ s.Unnamed []

/-- Whom a direct message is sent to. -/
def recipient (s : Server) (target : Str) : Option ClientPtr :=
  s.getClient (s.clientFind target)

/-- Whoever has the nickname is meant, or else whoever has the empty one. -/
theorem recipient_eq (s : Server) (target : Str) :
    s.recipient target = (s.getClient target).or (s.getClient []) := by
  unfold recipient
  rw [Tables.clientFind_eq]
  cases hget : s.getClient target with
  | none => rfl
  | some q => simp [hget]

/-- The two spellings of the command. -/
theorem verbOf_eq_privmsg {word : Str} (h : verbOf word = .privmsg) :
    word = "PRIVMSG".toList ∨ word = "/PRIVMSG".toList := by
  have hskip : ∀ (c : Prop) [Decidable c] (verb next : Verb), verb ≠ .privmsg →
      next ≠ .privmsg → (if c then verb else next) ≠ .privmsg := by
    intro c _ verb next hverb hnext
    split <;> assumption
  by_contra hne
  have hother : ¬ (word = "/PRIVMSG".toList ∨ word = "PRIVMSG".toList) :=
    fun hor => hne hor.symm
  refine absurd h ?_
  unfold verbOf
  rw [if_neg hother]
  repeat' first | exact Verb.noConfusion | apply hskip

/-- What a direct `PRIVMSG` of a registered client does. -/
theorem commandParser_direct (env : Env) {line word first : Str} {rest : List Str}
    (hparts : commandParts line = word :: target :: first :: rest)
    (hverb : verbOf word = .privmsg) (htarget : target.head? ≠ some '#')
    (hreg : (s.memory p).registered = true) :
    ∃ chatter, (∀ entry ∈ chatter, entry.1 = s.botSocket) ∧
      Server.commandParser env line p s =
        .done ((s.sendAll chatter).sendAll [match s.recipient target with
          | some q => s.messageTo q (relayed env s p target (first :: rest))
          | none => s.messageTo p (errNoSuchNick (s.prefixOf p) target)]) := by
  have hempty : line ≠ [] := by
    intro heq
    subst heq
    have hnil : commandParts [] = [[]] := by decide
    rw [hnil] at hparts
    cases hparts
  have hword := verbOf_eq_privmsg hverb
  have hbot : s.BotWrote (s.privmsgText env.now p (first :: rest)).1 := by
    unfold privmsgText
    dsimp only
    split
    · exact s.processMessage_botWrote _ _
    · exact .refl s
  obtain ⟨chatter, hchatter, hs⟩ := hbot
  refine ⟨chatter, hchatter, ?_⟩
  have hdispatch : Server.commandParser env line p s =
      s.privmsg env p (word :: target :: first :: rest) := by
    rw [commandParser_registered hempty hparts (by rw [hverb]; decide) hreg, hverb]
    rfl
  rw [hdispatch]
  unfold privmsg
  dsimp only
  rw [if_pos ⟨hword, htarget⟩, hs, show s.recipient target =
    (s.sendAll chatter).getClient ((s.sendAll chatter).clientFind target) from rfl]
  cases (s.sendAll chatter).getClient ((s.sendAll chatter).clientFind target) with
  | none => rfl
  | some q => rfl

/-- A relayed line is no numeric reply. -/
theorem relayed_ne_noSuchNick (q : ClientPtr) (env : Env) (target source nick : Str)
    (words : List Str) :
    s.messageTo q (relayed env s p target words) ≠
      s.messageTo p (errNoSuchNick source nick) := by
  intro h
  have hfirst : some ':' = some '4' := congrArg (fun entry => entry.2.head?) h
  cases hfirst

/-- Whether a message is routed right is decided by the entry sent last. -/
theorem routed_done_iff {chatter : List (Fd × Str)} {entry : Fd × Str}
    (hchatter : ∀ e ∈ chatter, e.1 = s.botSocket) :
    Routed env s p target words (.done ((s.sendAll chatter).sendAll [entry])) ↔
      (∃ q, s.Carries q target ∧ entry = s.messageTo q (relayed env s p target words)) ∨
        (∀ q, ¬ s.Carries q target) ∧
          entry = s.messageTo p (errNoSuchNick (s.prefixOf p) target) := by
  constructor
  · intro hrouted
    obtain ⟨s', chatter', last, hdone, hsent, -, hlast⟩ := hrouted
    cases hdone
    have h := congrArg List.getLast? hsent
    have heq : entry = last := by simpa [sendAll] using h
    rwa [heq]
  · intro hentry
    exact ⟨_, chatter, entry, rfl, by simp [sendAll], hchatter, hentry⟩

/-- **Direct messages.**  In every state of the server a direct message of a
registered client is routed right if and only if its target resolves right. -/
theorem privmsg_routed_iff {line word first : Str} {rest : List Str}
    (hparts : commandParts line = word :: target :: first :: rest)
    (hverb : verbOf word = .privmsg) (htarget : target.head? ≠ some '#')
    (hreg : (s.memory p).registered = true) :
    Routed env s p target (first :: rest) (Server.commandParser env line p s) ↔
      s.Resolves target := by
  obtain ⟨chatter, hchatter, hresult⟩ :=
    commandParser_direct env hparts hverb htarget hreg
  rw [hresult, recipient_eq, routed_done_iff hchatter]
  cases hget : s.getClient target with
  | some q =>
      have hfirst := Tables.getClient_eq_some.mp hget
      simp only [Option.some_or]
      constructor
      · intro hrouted
        obtain ⟨c, hcarries, hc⟩ | ⟨-, hc⟩ := hrouted
        · exact Or.inl ⟨q, hfirst, c, hcarries, (congrArg Prod.fst hc).symm⟩
        · exact (relayed_ne_noSuchNick q env target _ _ _ hc).elim
      · intro hresolves
        obtain ⟨q', hq', c, hcarries, hfd⟩ | ⟨hunnamed, -⟩ := hresolves
        · obtain rfl := hfirst.unique hq'
          exact Or.inl ⟨c, hcarries, by simp [messageTo, hfd]⟩
        · rw [Tables.getClient_eq_none.mpr hunnamed] at hget
          cases hget
  | none =>
      have hunnamed := Tables.getClient_eq_none.mp hget
      have hnobody : ∀ c, ¬ s.Carries c target :=
        fun c hc => hunnamed c hc.live hc.nickname
      simp only [Option.none_or]
      constructor
      · intro hrouted
        obtain ⟨c, hcarries, -⟩ | ⟨-, hc⟩ := hrouted
        · exact (hnobody c hcarries).elim
        · refine Or.inr ⟨hunnamed, Tables.getClient_eq_none.mp ?_⟩
          cases hempty : s.getClient [] with
          | none => rfl
          | some q =>
              rw [hempty] at hc
              exact (relayed_ne_noSuchNick q env target _ _ _ hc).elim
      · intro hresolves
        obtain ⟨q, ⟨fd, hq, hname, -⟩, -⟩ | ⟨-, hempty⟩ := hresolves
        · exact (hunnamed q ⟨fd, hq⟩ hname).elim
        · rw [Tables.getClient_eq_none.mpr hempty]
          exact Or.inr ⟨hnobody, rfl⟩

end Server

/-- Two clients are logged in, and a message to the second is routed right. -/
theorem privmsg_routed_named : ∃ trace w, Steps trace w ∧
    w.reading = some (5, ["PRIVMSG x hi".toList]) ∧ w.srv.clients[(5 : Fd)]? = some 0 ∧
    Server.Routed Env.calm w.srv 0 "x".toList ["hi".toList]
      (Server.commandParser Env.calm "PRIVMSG x hi".toList 0 w.srv) := by
  obtain ⟨trace, w, hrun, htest⟩ := Run.exists_steps_of_perform step start_pw
    (.accept 5 "10.0.0.1".toList 40000 :: packet 5
        ["PASS pw", "NICK a", "USER a a a n"] ++
      .accept 6 "10.0.0.2".toList 40000 :: packet 6
        ["PASS pw", "NICK x", "USER x x x n"] ++
      (packet 5 ["PRIVMSG x hi"]).take 1)
    (fun w => (w.reading = some (5, ["PRIVMSG x hi".toList]) ∧
        w.srv.clients[(5 : Fd)]? = some 0 ∧ (w.srv.memory 0).registered = true) ∧
      w.srv.clients[(6 : Fd)]? = some 1 ∧ w.srv.getClient "x".toList = some 1 ∧
      (w.srv.memory 1).hasNick = true ∧ (w.srv.memory 1).nickname = "x".toList)
    (by decide +kernel)
  obtain ⟨⟨hline, hp, hreg⟩, hq, hget, hnick, hname⟩ := of_decide_eq_true htest
  refine ⟨trace, w, hrun, hline, hp, ?_⟩
  have hparts : commandParts "PRIVMSG x hi".toList =
      "PRIVMSG".toList :: "x".toList :: "hi".toList :: [] := by decide
  refine (Server.privmsg_routed_iff hparts (by decide) (by decide) hreg).mpr
    (Or.inl ⟨1, Tables.firstNamed_of_getClient hget, 1, ?_, rfl⟩)
  exact ⟨⟨6, hq⟩, hnick, hname⟩

/-- A message to a nickname nobody has is sent to a client that has connected
and not registered. -/
theorem privmsg_reaches_nameless_client :
    ¬ ∀ trace w env fd p line lines word target first rest, Steps trace w →
      w.reading = some (fd, line :: lines) → w.srv.clients[fd]? = some p →
      commandParts line = word :: target :: first :: rest → verbOf word = .privmsg →
      target.head? ≠ some '#' → (w.srv.memory p).registered = true →
      Server.Routed env w.srv p target (first :: rest)
        (Server.commandParser env line p w.srv) := by
  intro hall
  obtain ⟨trace, w, hrun, htest⟩ := Run.exists_steps_of_perform step start_pw
    (.accept 5 "10.0.0.1".toList 40000 :: packet 5
        ["PASS pw", "NICK a", "USER a a a n"] ++
      .accept 6 "10.0.0.2".toList 40000 :: (packet 5 ["PRIVMSG nobody hi"]).take 1)
    (fun w => (w.reading = some (5, ["PRIVMSG nobody hi".toList]) ∧
        w.srv.clients[(5 : Fd)]? = some 0 ∧ (w.srv.memory 0).registered = true) ∧
      (∀ entry ∈ w.srv.entries, (w.srv.memory entry.2).nickname ≠ "nobody".toList) ∧
      (w.srv.memory 0).clientSocketFd = 5 ∧
      ((Server.commandParser Env.calm "PRIVMSG nobody hi".toList 0 w.srv).state?.bind
        fun s => s.sent.getLast?).map Prod.fst = some 6)
    (by decide +kernel)
  obtain ⟨⟨hline, hp, hreg⟩, hnobody, hfd, hlast⟩ := of_decide_eq_true htest
  obtain ⟨s', chatter, last, hdone, hsent, -, ⟨q, hq, -⟩ | ⟨-, hreply⟩⟩ :=
    hall trace w Env.calm 5 0 _ [] "PRIVMSG".toList "nobody".toList "hi".toList [] hrun hline
      hp (by decide) (by decide) (by decide) hreg
  · obtain ⟨entry, hmem, rfl⟩ := Tables.live_iff_mem_entries.mp hq.live
    exact hnobody entry hmem hq.nickname
  · rw [hdone] at hlast
    simp [Outcome.state?, hsent, hreply, Server.messageTo, hfd] at hlast

end Irc
