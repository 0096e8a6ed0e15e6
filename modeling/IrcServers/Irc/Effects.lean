import IrcServers.Irc.Loop

/-!
# What a command line does to the tables

The handlers mostly send.  This file says once what each of them can do to the
tables and under which tests, so that invariants never have to look at the
handlers again.  `Effect` lists the possible effects of one command line, and
`commandParser_effect` connects it to the code; `QUIT` is treated apart.
-/

namespace Irc

/-- The line sends the server password with `PASS`. -/
def SendsPassword (t : Tables) (parts : List Str) : Prop :=
  ∃ word rest, parts = word :: t.password :: rest ∧ verbOf word = .pass

/-- The line is a `NICK` for `nick` that the handler accepts. -/
def NickAccepted (t : Tables) (client : ClientPtr) (parts : List Str) (nick : Str) : Prop :=
  ∃ word rest, parts = word :: nick :: rest ∧ verbOf word = .nick ∧
    (t.memory client).isAuth = true ∧ t.isNickTaken nick = false

/-- The line is a `USER` that the handler accepts. -/
def UserAccepted (t : Tables) (client : ClientPtr) (parts : List Str) : Prop :=
  ∃ word username clientIp name rest,
    parts = word :: username :: clientIp :: name :: rest ∧ verbOf word = .user ∧
    (t.memory client).hasNick = true ∧ (t.memory client).username = []

/-- The line runs the handler of `verb` behind the registration test. -/
def RunsRegistered (t : Tables) (client : ClientPtr) (parts : List Str) (verb : Verb) :
    Prop :=
  ∃ word args, parts = word :: args ∧ verbOf word = verb ∧
    verb ∉ [Verb.cap, .pass, .nick, .user] ∧ (t.memory client).registered = true

instance (t : Tables) (p : ClientPtr) (parts : List Str) (verb : Verb) :
    Decidable (RunsRegistered t p parts verb) :=
  match parts with
  | [] => isFalse (by rintro ⟨_, _, h, _⟩; cases h)
  | word :: args =>
      decidable_of_iff
        (verbOf word = verb ∧ verb ∉ [Verb.cap, .pass, .nick, .user] ∧
          (t.memory p).registered = true)
        ⟨fun h => ⟨word, args, rfl, h⟩, by rintro ⟨_, _, ⟨⟩, h⟩; exact h⟩

/-- A line runs one handler. -/
theorem RunsRegistered.unique {t : Tables} {p : ClientPtr} {parts : List Str}
    {verb other : Verb} (h : RunsRegistered t p parts verb) (hne : verb ≠ other) :
    ¬ RunsRegistered t p parts other := by
  obtain ⟨word, args, rfl, rfl, _⟩ := h
  intro hruns
  obtain ⟨_, _, ⟨⟩, hother, _⟩ := hruns
  exact hne hother

/-- The departures a `PART` or `KICK` line of `client` asks for and is entitled
to ask for: each channel with the client to be removed from it. -/
def departing (t : Tables) (client : ClientPtr) (parts : List Str) :
    List (Str × ClientPtr) :=
  if RunsRegistered t client parts .part then
    match parts with
    | _ :: channels :: _ => (Text.cut ",".toList channels).map fun name => (name, client)
    | _ => []
  else if RunsRegistered t client parts .kick then
    match parts with
    | _ :: name :: nickname :: _ =>
        match t.channels[name]?, t.getClient nickname with
        | some ch, some target =>
            if ch.opNick = (t.memory client).nickname then [(name, target)] else []
        | _, _ => []
    | _ => []
  else []

namespace Tables

/-- A member's departure as `removeClientFromChannel` enters it in the tables:
the channel goes with its last member, and a departing operator is succeeded
by the first remaining member. -/
def leave (t : Tables) (name : Str) (client : ClientPtr) : Tables :=
  match t.channels[name]? with
  | none => t
  | some ch =>
      if client ∈ ch.curClients then
        let left := { ch with curClients := ch.curClients.erase client }
        match left.curClients with
        | [] => { t with channels := (t.channels.insert name left).erase ch.name }
        | front :: _ =>
            if ch.opNick = (t.memory client).nickname then
              t.setChannel name (left.makeOp front (t.memory front).nickname)
            else t.setChannel name left
      else t

/-- Writing a channel twice keeps the second value. -/
theorem setChannel_setChannel (t : Tables) (name : Str) (first second : Channel) :
    (t.setChannel name first).setChannel name second = t.setChannel name second := by
  unfold setChannel
  congr 1
  apply Std.ExtTreeMap.ext_getElem?
  intro k
  simp only [Std.ExtTreeMap.getElem?_insert]
  split <;> rfl

/-- A departure touches the channels only. -/
theorem leave_frame (t : Tables) (name : Str) (p : ClientPtr) :
    t.leave name p = { t with channels := (t.leave name p).channels } := by
  unfold leave
  split
  · rfl
  · dsimp only
    split
    · split
      · rfl
      · split <;> rfl
    · rfl

/-- Departures from several channels, one after the other. -/
def leaveAll (t : Tables) (names : List Str) (client : ClientPtr) : Tables :=
  names.foldl (fun t name => t.leave name client) t

/-- Leaving channels changes the channels only. -/
theorem leaveAll_frame (t : Tables) (names : List Str) (p : ClientPtr) :
    t.leaveAll names p = { t with channels := (t.leaveAll names p).channels } := by
  induction names generalizing t with
  | nil => rfl
  | cons name names ih =>
      rw [show t.leaveAll (name :: names) p = (t.leave name p).leaveAll names p from rfl,
        ih, leave_frame]

/-- The ways a departure can go. -/
inductive Departs (t : Tables) (name : Str) (p : ClientPtr) : Tables → Prop
  | absent (hch : t.channels[name]? = none) : Departs t name p t
  | stranger (ch : Channel) (hch : t.channels[name]? = some ch) (hmem : p ∉ ch.curClients) :
      Departs t name p t
  | emptied (ch : Channel) (hch : t.channels[name]? = some ch) (hmem : p ∈ ch.curClients)
      (herase : ch.curClients.erase p = []) :
      Departs t name p
        { t with
            channels := (t.channels.insert name { ch with curClients := [] }).erase ch.name }
  | succeeded (ch : Channel) (front : ClientPtr) (rest : List ClientPtr)
      (hch : t.channels[name]? = some ch) (hmem : p ∈ ch.curClients)
      (herase : ch.curClients.erase p = front :: rest)
      (hop : ch.opNick = (t.memory p).nickname) :
      Departs t name p
        (t.setChannel name
          ({ ch with curClients := front :: rest }.makeOp front (t.memory front).nickname))
  | left (ch : Channel) (front : ClientPtr) (rest : List ClientPtr)
      (hch : t.channels[name]? = some ch) (hmem : p ∈ ch.curClients)
      (herase : ch.curClients.erase p = front :: rest)
      (hop : ch.opNick ≠ (t.memory p).nickname) :
      Departs t name p (t.setChannel name { ch with curClients := front :: rest })

/-- Leaving a channel is a departure from it. -/
theorem departs_leave (t : Tables) (name : Str) (p : ClientPtr) :
    Departs t name p (t.leave name p) := by
  unfold leave
  cases hch : t.channels[name]? with
  | none => exact .absent hch
  | some ch =>
      dsimp only
      by_cases hmem : p ∈ ch.curClients
      · rw [if_pos hmem]
        cases herase : ch.curClients.erase p with
        | nil => exact .emptied ch hch hmem herase
        | cons front rest =>
            dsimp only
            by_cases hop : ch.opNick = (t.memory p).nickname
            · rw [if_pos hop]
              exact .succeeded ch front rest hch hmem herase hop
            · rw [if_neg hop]
              exact .left ch front rest hch hmem herase hop
      · rw [if_neg hmem]
        exact .stranger ch hch hmem

/-- Writing a channel back changes nobody's membership of the others. -/
theorem member_setChannel {t : Tables} {name k : Str} {next : Channel} {q : ClientPtr}
    (h : (t.setChannel name next).Member k q) :
    k = name ∧ q ∈ next.curClients ∨ t.Member k q := by
  obtain ⟨c, hk, hq⟩ := h
  rw [setChannel_getElem?] at hk
  by_cases hname : name = k
  · rw [if_pos hname] at hk
    cases hk
    exact Or.inl ⟨hname.symm, hq⟩
  · rw [if_neg hname] at hk
    exact Or.inr ⟨c, hk, hq⟩

/-- Nobody joins a channel by a departure. -/
theorem Member.of_leave {t : Tables} {name k : Str} {p q : ClientPtr}
    (h : (t.leave name p).Member k q) : t.Member k q := by
  have hset : ∀ (ch next : Channel), t.channels[name]? = some ch →
      (∀ x ∈ next.curClients, x ∈ ch.curClients) →
      (t.setChannel name next).Member k q → t.Member k q := by
    intro ch next hch hsub hk
    rcases member_setChannel hk with ⟨rfl, hq⟩ | hk
    · exact ⟨ch, hch, hsub q hq⟩
    · exact hk
  have hdeparts := departs_leave t name p
  generalize t.leave name p = t' at h hdeparts
  cases hdeparts with
  | absent hch => exact h
  | stranger ch hch hmem => exact h
  | emptied ch hch hmem herase =>
      obtain ⟨c, hk, hq⟩ := h
      rw [Std.ExtTreeMap.getElem?_erase] at hk
      split at hk
      · cases hk
      · exact hset ch _ hch (by simp) ⟨c, hk, hq⟩
  | succeeded ch front rest hch hmem herase hop =>
      refine hset ch _ hch ?_ h
      intro x hx
      exact List.mem_of_mem_erase (herase ▸ hx : x ∈ ch.curClients.erase p)
  | left ch front rest hch hmem herase hop =>
      refine hset ch _ hch ?_ h
      intro x hx
      exact List.mem_of_mem_erase (herase ▸ hx : x ∈ ch.curClients.erase p)

/-- Whoever is on a channel after the departures was on it before them. -/
theorem Member.of_leaveAll {t : Tables} {names : List Str} {k : Str} {p q : ClientPtr}
    (h : (t.leaveAll names p).Member k q) : t.Member k q := by
  induction names generalizing t with
  | nil => exact h
  | cons name names ih => exact (ih h).of_leave

end Tables

namespace Server

/-- The removed channel is the only change. -/
theorem removeChannel_toTables (s : Server) (name : Str) :
    (s.removeChannel name).toTables =
      { s.toTables with channels := s.channels.erase name } := by
  have htold : ∀ (nicks : List Str) (s : Server),
      (nicks.foldl (fun s nick => s.partRemoved name nick) s).toTables = s.toTables := by
    intro nicks
    induction nicks with
    | nil => intro s; rfl
    | cons nick nicks ih => intro s; simp [ih]
  unfold removeChannel
  cases hch : s.channels[name]? with
  | some ch => simp [htold]
  | none =>
      have habsent : s.channels.erase name = s.channels := by
        apply Std.ExtTreeMap.ext_getElem?
        intro k
        rw [Std.ExtTreeMap.getElem?_erase]
        split <;> simp_all
      rw [habsent]

/-- `removeClientFromChannel` is `leave` on the tables. -/
theorem removeClientFromChannel_toTables (s : Server) (name : Str) (p : ClientPtr) :
    (s.removeClientFromChannel name p).toTables = s.toTables.leave name p := by
  unfold removeClientFromChannel Tables.leave
  cases hch : s.channels[name]? with
  | none => rfl
  | some ch =>
      by_cases hp : p ∈ ch.curClients
      · simp only [Channel.isUserOnChannel, hp, decide_true, if_true]
        cases herase : ch.curClients.erase p with
        | nil => simp [removeChannel_toTables, Tables.setChannel]
        | cons front rest =>
            by_cases hop : ch.opNick = (s.memory p).nickname
            · simp only [withTables_toTables, Tables.setChannel_memory, hop, if_true,
                sendChannelUserList_toTables, sendReply_toTables,
                Tables.setChannel_setChannel]
            · simp [hop]
      · simp [Channel.isUserOnChannel, hp]

@[simp] theorem cap_toTables (s : Server) (p : ClientPtr) (parts : List Str) :
    (s.cap p parts).toTables = s.toTables := by
  unfold cap
  split <;> (try split) <;> simp

@[simp] theorem listChannel_toTables (s : Server) (p : ClientPtr) (ch : Channel) :
    (s.listChannel p ch).toTables = s.toTables := by
  unfold listChannel
  split <;> simp

@[simp] theorem list_toTables (s : Server) (p : ClientPtr) :
    (s.list p).toTables = s.toTables := by
  have hlines : ∀ (entries : List (Str × Channel)) (s : Server),
      (entries.foldl (fun s entry => s.listChannel p entry.2) s).toTables =
        s.toTables := by
    intro entries
    induction entries with
    | nil => intro s; rfl
    | cons entry entries ih => intro s; simp [ih]
  simp [list, hlines]

@[simp] theorem privmsgText_toTables (s : Server) (now : Str) (p : ClientPtr)
    (words : List Str) : (s.privmsgText now p words).1.toTables = s.toTables := by
  unfold privmsgText
  dsimp only
  split <;> simp

/-- `PRIVMSG` only sends. -/
theorem privmsg_leaves (env : Env) (s : Server) (p : ClientPtr) (parts : List Str) :
    (s.privmsg env p parts).Leaves fun s' => s'.toTables = s.toTables := by
  have hmember : ∀ (target message nick : Str) (s' : Server),
      s'.toTables = s.toTables →
      (relayToMember p target message nick s').Leaves fun s'' => s''.toTables = s.toTables := by
    intro target message nick s' hs'
    unfold relayToMember
    split
    · simp
    · split <;> simpa using hs'
  unfold privmsg
  split
  · dsimp only
    split
    · split <;> simp
    · split
      · simp
      · split
        · exact Outcome.Leaves.each (fun nick _ s' hs' => hmember _ _ nick s' hs') (by simp)
        · simp
  · simp
  · simp

/-- `PRIVMSG` never throws. -/
theorem privmsg_throws (env : Env) (s : Server) (p : ClientPtr) (parts : List Str) :
    (s.privmsg env p parts).ThrowsOnly fun _ => False := by
  have hmember : ∀ (target message nick : Str) (s' : Server),
      (relayToMember p target message nick s').ThrowsOnly fun _ => False := by
    intro target message nick s'
    unfold relayToMember
    split
    · simp
    · split <;> simp
  unfold privmsg
  split
  · dsimp only
    split
    · split <;> simp
    · split
      · simp
      · split
        · exact Outcome.ThrowsOnly.each (hmember _ _) _ _
        · simp
  · simp
  · simp

/-- The farewell to `other` is sent, and `send` reports an error. -/
def TellFails (env : Env) (t : Tables) (quitter other : Client) : Prop :=
  quitter.clientSocketFd ≠ other.clientSocketFd ∧ quitter.clientSocketFd ≠ t.botSocket ∧
    env.sendFails other.clientSocketFd = true

/-- One round of the farewell loop: it throws just when its `send` fails. -/
theorem quitTell_cases (env : Env) (quitter : Client) (text : Str) (other : Client)
    (s : Server) :
    (TellFails env s.toTables quitter other ∧
      quitTell env quitter text other s = .thrown .sending s) ∨
    (¬ TellFails env s.toTables quitter other ∧
      ∃ s', quitTell env quitter text other s = .done s' ∧ s'.toTables = s.toTables) := by
  unfold quitTell
  by_cases hsend : quitter.clientSocketFd ≠ other.clientSocketFd ∧
      quitter.clientSocketFd ≠ s.botSocket
  · by_cases hfail : env.sendFails other.clientSocketFd = true
    · exact Or.inl ⟨⟨hsend.1, hsend.2, hfail⟩, by simp [hsend, hfail]⟩
    · exact Or.inr ⟨fun h => hfail h.2.2, _, by simp [hsend, hfail]; rfl, by simp⟩
  · exact Or.inr ⟨fun h => hsend ⟨h.1, h.2.1⟩, s, by simp only [hsend, if_false], rfl⟩

/-- Without a failing `send` the farewell loop returns. -/
theorem quitTell_done (env : Env) (quitter : Client) (text : Str) (others : List Client)
    (s : Server) (h : ∀ other ∈ others, ¬ TellFails env s.toTables quitter other) :
    ∃ s', Outcome.each (quitTell env quitter text) others s = .done s' ∧
      s'.toTables = s.toTables := by
  induction others generalizing s with
  | nil => exact ⟨s, rfl, rfl⟩
  | cons other others ih =>
      rcases quitTell_cases env quitter text other s with ⟨hfail, _⟩ | ⟨_, s1, hs1, ht⟩
      · exact (h other List.mem_cons_self hfail).elim
      · obtain ⟨s', hs', ht'⟩ := ih s1 (by
          rw [ht]
          exact fun x hx => h x (List.mem_cons_of_mem _ hx))
        exact ⟨s', by simp [hs1, hs'], ht'.trans ht⟩

/-- With a failing `send` the farewell loop throws. -/
theorem quitTell_thrown (env : Env) (quitter : Client) (text : Str) (others : List Client)
    (s : Server) (h : ∃ other ∈ others, TellFails env s.toTables quitter other) :
    ∃ e s', Outcome.each (quitTell env quitter text) others s = .thrown e s' ∧
      s'.toTables = s.toTables := by
  induction others generalizing s with
  | nil => simp at h
  | cons other others ih =>
      rcases quitTell_cases env quitter text other s with ⟨_, hs1⟩ | ⟨hok, s1, hs1, ht⟩
      · exact ⟨.sending, s, by simp [hs1], rfl⟩
      · obtain ⟨bad, hmem, hbad⟩ := h
        have hrest : bad ∈ others := by
          rcases List.mem_cons.mp hmem with rfl | hmem
          · exact (hok hbad).elim
          · exact hmem
        obtain ⟨e, s', hs', ht'⟩ := ih s1 ⟨bad, hrest, by rw [ht]; exact hbad⟩
        exact ⟨e, s', by simp [hs1, hs'], ht'.trans ht⟩

end Server

/-- Some `send` of the farewell loop of `QUIT` reports an error. -/
def quitFails (env : Env) (t : Tables) (client : ClientPtr) : Prop :=
  ∃ entry ∈ t.entries, Server.TellFails env t (t.memory client) (t.memory entry.2)

/-- The effects a command line of `client` can have on the tables, `QUIT`
apart. -/
inductive Effect (client : ClientPtr) (parts : List Str) (t : Tables) : Tables → Prop
  | quiet : Effect client parts t t
  | authenticated (h : SendsPassword t parts) :
      Effect client parts t (t.setClient client fun c => { c with isAuth := true })
  | renamed (nick : Str) (h : NickAccepted t client parts nick) :
      Effect client parts t
        ((t.registerNick nick (t.memory client).clientSocketFd).setClient client
          fun c => { c with nickname := nick, hasNick := true })
  | registered (username clientIp realname : Str) (h : UserAccepted t client parts) :
      Effect client parts t
        (t.setClient client fun c =>
          { c with username := username, clientIp := clientIp, realname := realname,
                   loged := true })
  | joined (name : Str) (ch next : Channel) (h : RunsRegistered t client parts .join)
      (hch : t.channels[name]? = some ch) (hnew : client ∉ ch.curClients)
      (hroom : ch.curClients.length < ch.userLimit)
      (hnext : next = ch.addClient client ∨
        ch.userLimit = 1 ∧
          next = (ch.addClient client).setOp (t.memory client).nickname) :
      Effect client parts t (t.setChannel name next)
  | created (name key : Str) (h : RunsRegistered t client parts .join)
      (hlen : 2 ≤ name.length) (hhash : name.head? = some '#')
      (hch : t.channels[name]? = none) :
      Effect client parts t
        (t.setChannel name
          { ((Channel.new name).addClient client).makeOp client (t.memory client).nickname
              with key := key })
  | parted (names : List Str) (h : RunsRegistered t client parts .part)
      (hnames : departing t client parts = names.map fun name => (name, client)) :
      Effect client parts t (t.leaveAll names client)
  | topicSet (name topic : Str) (ch : Channel) (h : RunsRegistered t client parts .topic)
      (hch : t.channels[name]? = some ch) (hop : ch.opNick = (t.memory client).nickname) :
      Effect client parts t (t.setChannel name { ch with topic := topic })
  | kicked (name : Str) (target : ClientPtr) (ch : Channel)
      (h : RunsRegistered t client parts .kick)
      (hch : t.channels[name]? = some ch) (hop : ch.opNick = (t.memory client).nickname)
      (hlive : t.Live target) (hmem : target ∈ ch.curClients)
      (htarget : departing t client parts = [(name, target)]) :
      Effect client parts t (t.leave name target)

/-- A command line touches the channels, the nickname list and the memory
only. -/
theorem Effect.frame {p : ClientPtr} {parts : List Str} {t t' : Tables}
    (h : Effect p parts t t') :
    t' = { t with channels := t'.channels, nickList := t'.nickList, memory := t'.memory } := by
  cases h with
  | parted names h hnames => rw [Tables.leaveAll_frame]
  | kicked name target ch h hch hop hlive hmem htarget => rw [Tables.leave_frame]
  | _ => rfl

/-- Whoever is on a channel after a command line was on it before, or is the
issuer of a `JOIN`. -/
theorem Effect.member {p q : ClientPtr} {parts : List Str} {t t' : Tables} {k : Str}
    (h : Effect p parts t t') (hq : t'.Member k q) :
    t.Member k q ∨ q = p ∧ RunsRegistered t p parts .join := by
  cases h with
  | quiet => exact Or.inl hq
  | authenticated h => exact Or.inl hq
  | renamed nick h => exact Or.inl hq
  | registered username clientIp realname h => exact Or.inl hq
  | joined name ch next h hch hnew hroom hnext =>
      rcases Tables.member_setChannel hq with ⟨rfl, hmem⟩ | hq
      · have hmem' : q ∈ ch.curClients ++ [p] := by
          rcases hnext with rfl | ⟨_, rfl⟩ <;> exact hmem
        rcases List.mem_append.mp hmem' with hold | hself
        · exact Or.inl ⟨ch, hch, hold⟩
        · exact Or.inr ⟨List.mem_singleton.mp hself, h⟩
      · exact Or.inl hq
  | created name key h hlen hhash hch =>
      rcases Tables.member_setChannel hq with ⟨rfl, hmem⟩ | hq
      · exact Or.inr ⟨List.mem_singleton.mp hmem, h⟩
      · exact Or.inl hq
  | parted names h hnames => exact Or.inl hq.of_leaveAll
  | topicSet name topic ch h hch hop =>
      rcases Tables.member_setChannel hq with ⟨rfl, hmem⟩ | hq
      · exact Or.inl ⟨ch, hch, hmem⟩
      · exact Or.inl hq
  | kicked name target ch h hch hop hlive hmem htarget => exact Or.inl hq.of_leave

/-- What the lookup by nickname finds is connected and has that nickname. -/
theorem Tables.getClient_spec {t : Tables} {nickname : Str} {p : ClientPtr}
    (h : t.getClient nickname = some p) : t.Live p ∧ (t.memory p).nickname = nickname := by
  obtain ⟨entry, hfind, rfl⟩ := Option.map_eq_some_iff.mp h
  refine ⟨live_iff_mem_entries.mpr ⟨entry, List.mem_of_find?_eq_some hfind, rfl⟩, ?_⟩
  simpa using List.find?_some hfind

section Handlers

variable {s : Server} {p : ClientPtr} {word : Str} {args : List Str}

/-- `PASS` may register its client. -/
theorem pass_effect (hverb : verbOf word = .pass) :
    Effect p (word :: args) s.toTables (s.pass p (word :: args)).toTables := by
  cases args with
  | nil => exact .quiet
  | cons pass rest =>
      unfold Server.pass
      by_cases hauth : (s.memory p).isAuth
      · simpa [hauth] using Effect.quiet
      · by_cases hpass : pass = s.password
        · subst hpass
          simpa [hauth] using Effect.authenticated ⟨word, rest, rfl, hverb⟩
        · simpa [hauth, hpass] using Effect.quiet

/-- `NICK` may name its client. -/
theorem nick_effect (hverb : verbOf word = .nick) :
    Effect p (word :: args) s.toTables (s.nick p (word :: args)).toTables := by
  unfold Server.nick
  by_cases hauth : (s.memory p).isAuth
  · cases args with
    | nil => simpa [hauth] using Effect.quiet
    | cons nick rest =>
        by_cases htaken : s.isNickTaken nick
        · simpa [hauth, htaken] using Effect.quiet
        · simpa [hauth, htaken] using
            Effect.renamed nick ⟨word, rest, rfl, hverb, hauth, by simpa using htaken⟩
  · simpa [hauth] using Effect.quiet

/-- `USER` may register its client too. -/
theorem user_effect (hverb : verbOf word = .user) :
    Effect p (word :: args) s.toTables (s.user p (word :: args)).toTables := by
  unfold Server.user
  by_cases hnick : (s.memory p).hasNick
  · match args with
    | [] | [_] | [_, _] => simpa [hnick] using Effect.quiet
    | username :: clientIp :: name :: more =>
        by_cases hname : (s.memory p).username = []
        · have haccepted : UserAccepted s.toTables p
              (word :: username :: clientIp :: name :: more) :=
            ⟨word, username, clientIp, name, more, rfl, hverb, hnick, hname⟩
          have h := Effect.registered username clientIp
            (dropColon (appendWords name more)) haccepted
          simpa [hnick, hname, Server.botSendMsg, Tables.setClient] using h
        · simpa [hnick, hname] using Effect.quiet
  · simpa [hnick] using Effect.quiet

/-- `JOIN` adds its client to one channel, if it does. -/
theorem join_effect (h : RunsRegistered s.toTables p (word :: args) .join) :
    Effect p (word :: args) s.toTables (s.join p (word :: args)).toTables := by
  unfold Server.join
  cases args with
  | nil => exact .quiet
  | cons name rest =>
      by_cases hempty : name = []
      · simpa [hempty] using Effect.quiet
      · simp only [ne_eq, hempty, not_false_eq_true, if_true, Server.joinChannel]
        split
        · exact .quiet
        · rename_i hname
          simp only [not_or, Nat.not_lt, not_not] at hname
          cases hch : s.channels[name]? with
          | none =>
              simp only [Server.sendChannelUserList_toTables,
                Server.broadcastMessage_toTables, Server.withTables_toTables]
              exact .created name _ h hname.1 hname.2 hch
          | some ch =>
              dsimp only
              split
              · exact .quiet
              split
              · exact .quiet
              split
              · exact .quiet
              · rename_i hnew _ hroom
                simp only [Server.sendChannelUserList_toTables,
                  Server.broadcastMessage_toTables, Server.withTables_toTables]
                refine .joined name ch _ h hch ?_ (Nat.lt_of_not_le hroom) ?_
                · simpa [Channel.isUserOnChannel] using hnew
                · by_cases hone : ch.userLimit = 1
                  · exact Or.inr ⟨hone, by simp [Channel.addClient, hone]; rfl⟩
                  · exact Or.inl (by simp [Channel.addClient, hone])

/-- One round of `PART`: the issuer leaves that channel, if it is on it. -/
theorem partChannel_toTables (s : Server) (p : ClientPtr) (message name : Str) :
    (s.partChannel p message name).toTables = s.toTables.leave name p := by
  unfold Server.partChannel
  cases hch : s.channels[name]? with
  | none => simp [Tables.leave, hch]
  | some ch =>
      by_cases hp : p ∈ ch.curClients
      · simp only [Channel.isUserOnChannel, hp, decide_true, if_true]
        split <;> simp [Server.removeClientFromChannel_toTables]
      · simp [Channel.isUserOnChannel, hp, Tables.leave, hch]

/-- The loop of `PART` on the tables. -/
theorem partChannels_toTables (p : ClientPtr) (message : Str) (names : List Str) (s : Server) :
    (names.foldl (Server.partChannel p message) s).toTables = s.toTables.leaveAll names p := by
  induction names generalizing s with
  | nil => rfl
  | cons name names ih => simp [ih, partChannel_toTables, Tables.leaveAll]

/-- `PART` is a row of departures. -/
theorem part_effect (h : RunsRegistered s.toTables p (word :: args) .part) :
    Effect p (word :: args) s.toTables (s.part p (word :: args)).toTables := by
  cases args with
  | nil => exact .quiet
  | cons channels words =>
      simp only [Server.part, partChannels_toTables]
      exact .parted _ h (by rw [departing, if_pos h])

/-- `TOPIC` writes a topic, if its client may. -/
theorem topic_effect (h : RunsRegistered s.toTables p (word :: args) .topic) :
    Effect p (word :: args) s.toTables (s.topic p (word :: args)).toTables := by
  unfold Server.topic
  cases args with
  | nil => exact .quiet
  | cons name words =>
      cases hch : s.channels[name]? with
      | none => simpa [hch] using Effect.quiet
      | some ch =>
          cases words with
          | nil => by_cases htopic : ch.topic = [] <;> simpa [hch, htopic] using Effect.quiet
          | cons first rest =>
              by_cases hop : ch.opNick = s.nickOf p
              · simpa [hch, hop] using Effect.topicSet name _ ch h hch (by exact hop)
              · simpa [hch, hop] using Effect.quiet

/-- The end of `KICK` on the tables, when it returns. -/
theorem kickMember_leaves (s : Server) (p target : ClientPtr) (name reason : Str) :
    (s.kickMember p target name reason).Leaves fun s' =>
      s'.toTables = s.toTables.leave name target := by
  unfold Server.kickMember
  refine Outcome.Leaves.require fun ch _ => Outcome.leaves_done.mpr ?_
  simp only [Server.sendChannelUserList_toTables, Server.sendMessage_toTables,
    Server.broadcastMessage_toTables, Server.removeClientFromChannel_toTables]

/-- `KICK` throws nothing. -/
theorem kick_throws (s : Server) (p : ClientPtr) (parts : List Str) :
    (s.kick p parts).ThrowsOnly fun _ => False := by
  unfold Server.kick
  split
  · split
    · exact Outcome.throwsOnly_done
    · split
      · exact Outcome.throwsOnly_done
      · split
        · exact Outcome.throwsOnly_done
        · split
          · exact Outcome.throwsOnly_done
          · exact Outcome.ThrowsOnly.require fun _ _ => Outcome.throwsOnly_done
  · exact Outcome.throwsOnly_done

/-- What a `KICK` that returns does to the tables. -/
theorem kick_effect (h : RunsRegistered s.toTables p (word :: args) .kick) :
    (s.kick p (word :: args)).Leaves fun s' =>
      Effect p (word :: args) s.toTables s'.toTables := by
  have hquiet : ∀ (parts : List Str) (s' : Server), s'.toTables = s.toTables →
      (Outcome.done s' : Result).Leaves fun s' => Effect p parts s.toTables s'.toTables :=
    fun parts s' htables => Outcome.leaves_done.mpr (htables ▸ .quiet)
  unfold Server.kick
  match args with
  | [] | [_] => exact hquiet _ _ rfl
  | name :: nickname :: words =>
      dsimp only
      split
      · exact hquiet _ _ rfl
      · rename_i ch hch
        split
        · exact hquiet _ _ rfl
        · rename_i hop
          split
          · exact hquiet _ _ rfl
          · rename_i target htarget
            split
            · exact hquiet _ _ rfl
            · rename_i hmem
              refine (kickMember_leaves s p target name _).imp fun s' htables => ?_
              rw [htables]
              have hnotPart : ¬ RunsRegistered s.toTables p (word :: name :: nickname :: words)
                  .part := h.unique nofun
              have hop' : ch.opNick = s.nickOf p := not_not.mp hop
              refine .kicked name target ch h hch hop' (Tables.getClient_spec htarget).1
                (by simpa [Channel.isUserOnChannel] using hmem) ?_
              simp only [departing, if_neg hnotPart, if_pos h, hch, htarget]
              exact if_pos hop'

/-- `QUIT` either closes the issuer's descriptor, or throws because a `send`
fails and has changed no table. -/
theorem quit_cases (env : Env) (s : Server) (p : ClientPtr) (parts : List Str) :
    (∃ s', s.quit env p parts = .done s' ∧ ¬ quitFails env s.toTables p ∧
      s'.toTables = s.toTables.closeConnection (s.memory p).clientSocketFd) ∨
    (∃ e s', s.quit env p parts = .thrown e s' ∧ quitFails env s.toTables p ∧
      s'.toTables = s.toTables) := by
  unfold Server.quit
  dsimp only
  by_cases hfails : quitFails env s.toTables p
  · obtain ⟨entry, hmem, hbad⟩ := hfails
    obtain ⟨e, s', hs', htables⟩ := Server.quitTell_thrown env (s.memory p)
      (rplQuit (s.memory p).getPrefix (msgMerge parts))
      (s.entries.map fun entry => s.memory entry.2) s
      ⟨_, List.mem_map_of_mem hmem, hbad⟩
    exact Or.inr ⟨e, s', by rw [hs']; rfl, ⟨entry, hmem, hbad⟩, htables⟩
  · obtain ⟨s', hs', htables⟩ := Server.quitTell_done env (s.memory p)
      (rplQuit (s.memory p).getPrefix (msgMerge parts))
      (s.entries.map fun entry => s.memory entry.2) s (by
        intro other hother hbad
        obtain ⟨entry, hmem, rfl⟩ := List.mem_map.mp hother
        exact hfails ⟨entry, hmem, hbad⟩)
    exact Or.inl ⟨_, by rw [hs']; rfl, hfails, by simp [htables]⟩

end Handlers

/-- The commands behind the registration test, `QUIT` apart. -/
theorem handleRegistered_effect {env : Env} {s s' : Server} {p : ClientPtr} {word : Str}
    {args : List Str} (hverb : verbOf word ∉ [Verb.cap, .pass, .nick, .user])
    (hquit : verbOf word ≠ .quit) (hreg : (s.memory p).registered = true)
    (h : s.handleRegistered env p (word :: args) (verbOf word) = .done s') :
    Effect p (word :: args) s.toTables s'.toTables := by
  have hruns : RunsRegistered s.toTables p (word :: args) (verbOf word) :=
    ⟨word, args, rfl, rfl, hverb, hreg⟩
  revert h hruns
  cases hv : verbOf word with
  | join =>
      intro hdone hruns
      cases hdone
      exact join_effect hruns
  | privmsg =>
      intro h _
      have hkeep := Server.privmsg_leaves env s p (word :: args) s' (by
        rw [show s.privmsg env p (word :: args) = .done s' from h]; rfl)
      rw [hkeep]
      exact .quiet
  | list =>
      intro hdone _
      cases hdone
      simpa using Effect.quiet
  | part =>
      intro hdone hruns
      cases hdone
      exact part_effect hruns
  | topic =>
      intro hdone hruns
      cases hdone
      exact topic_effect hruns
  | kick =>
      intro hdone hruns
      refine kick_effect hruns s' ?_
      rw [show s.kick p (word :: args) = .done s' from hdone]
      rfl
  | quit => exact (hquit hv).elim
  | unknown =>
      intro hdone _
      cases hdone
      simpa using Effect.quiet
  | cap | pass | nick | user => simp [hv] at hverb

/-- The dispatch of a nonempty line that is not one of the four commands open
to everybody. -/
theorem commandParser_registered {env : Env} {command word : Str} {args : List Str}
    {p : ClientPtr} {s : Server} (hempty : command ≠ [])
    (hparts : commandParts command = word :: args)
    (hverb : verbOf word ∉ [Verb.cap, .pass, .nick, .user])
    (hreg : (s.memory p).registered = true) :
    Server.commandParser env command p s =
      s.handleRegistered env p (word :: args) (verbOf word) := by
  unfold Server.commandParser Server.handleCommand
  simp only [hempty, if_false, hparts]
  revert hverb
  cases verbOf word <;> simp [hreg]

/-- **The effect of a command line.**  A line that is handled to its end and
is not a `QUIT` behind the registration test has one of the listed effects. -/
theorem commandParser_effect {env : Env} {command : Str} {p : ClientPtr} {s s' : Server}
    (hquit : ¬ RunsRegistered s.toTables p (commandParts command) .quit)
    (h : Server.commandParser env command p s = .done s') :
    Effect p (commandParts command) s.toTables s'.toTables := by
  by_cases hempty : command = []
  · simp only [Server.commandParser, hempty, if_true, Outcome.done.injEq] at h
    rw [← h]
    exact .quiet
  · cases hparts : commandParts command with
    | nil =>
        simp only [Server.commandParser, Server.handleCommand, hempty, if_false, hparts,
          Outcome.done.injEq] at h
        simpa [← h] using Effect.quiet
    | cons word args =>
        rw [hparts] at hquit
        by_cases hopen : verbOf word ∈ [Verb.cap, .pass, .nick, .user]
        · simp only [Server.commandParser, Server.handleCommand, hempty, if_false,
            hparts] at h
          simp only [List.mem_cons, List.not_mem_nil, or_false] at hopen
          rcases hopen with hv | hv | hv | hv
          · simp only [hv, Outcome.done.injEq] at h
            simpa [← h] using Effect.quiet
          · simp only [hv, Outcome.done.injEq] at h
            rw [← h]; exact pass_effect hv
          · simp only [hv, Outcome.done.injEq] at h
            rw [← h]; exact nick_effect hv
          · simp only [hv, Outcome.done.injEq] at h
            rw [← h]; exact user_effect hv
        · by_cases hreg : (s.memory p).registered = true
          · rw [commandParser_registered hempty hparts hopen hreg] at h
            refine handleRegistered_effect hopen ?_ hreg h
            exact fun hv => hquit ⟨word, args, rfl, hv, by simp, hreg⟩
          · have hrefused : s' = s.sendMessage p "You must login firstly".toList := by
              simp only [Server.commandParser, Server.handleCommand, hempty, if_false,
                hparts] at h
              revert h hopen
              cases verbOf word <;> simp [hreg, eq_comm]
            simpa [hrefused] using Effect.quiet

/-- A `QUIT` behind the registration test is `Quit::quit`. -/
theorem commandParser_quit {env : Env} {command : Str} {p : ClientPtr} {s : Server}
    (h : RunsRegistered s.toTables p (commandParts command) .quit) :
    Server.commandParser env command p s = s.quit env p (commandParts command) := by
  obtain ⟨word, args, hparts, hverb, hopen, hreg⟩ := h
  have hempty : command ≠ [] := by
    intro heq
    subst heq
    have hnil : commandParts [] = [[]] := by decide
    rw [hnil] at hparts
    cases hparts
    revert hverb
    decide
  rw [← hverb] at hopen
  rw [commandParser_registered hempty hparts hopen hreg, hverb, hparts]
  rfl

/-- Only `QUIT` throws. -/
theorem commandParser_not_thrown {env : Env} {command : Str} {p : ClientPtr} {s : Server}
    (hquit : ¬ RunsRegistered s.toTables p (commandParts command) .quit) :
    (Server.commandParser env command p s).ThrowsOnly fun _ => False := by
  unfold Server.commandParser
  split
  · simp
  · cases hparts : commandParts command with
    | nil => simp [Server.handleCommand]
    | cons word args =>
        rw [hparts] at hquit
        unfold Server.handleCommand
        dsimp only
        cases hverb : verbOf word with
        | cap | pass | nick | user => simp
        | quit =>
            have hreg : ¬ (s.memory p).registered = true := fun hreg =>
              hquit ⟨word, args, rfl, hverb, by simp, hreg⟩
            simp [hreg]
        | privmsg =>
            dsimp only
            split
            · exact Server.privmsg_throws env s p (word :: args)
            · simp
        | kick =>
            dsimp only
            split
            · exact kick_throws s p (word :: args)
            · simp
        | join | list | part | topic | unknown =>
            dsimp only
            split <;> simp [Server.handleRegistered]

end Irc
