import IrcServers.Irc.ChannelTable
import IrcServers.Irc.Delivery

/-!
# Messages to a channel

`PRIVMSG` to a channel turns the members into nicknames and looks every nickname
up again, as a direct message does.  A member that has left the server without
leaving the channel has no entry any more, and one with the empty nickname shares
it with everybody who has not chosen one.  So the text reaches the members, each
once, just when every listed member is found under its own nickname.
-/

namespace Irc

open Outcome

/-- `x` is to get what `p` writes to the channel: both are on it, and `x` is
neither the sender nor the bot. -/
def Tables.Receives (t : Tables) (p : ClientPtr) (ch : Channel) (x : ClientPtr) : Prop :=
  p ∈ ch.curClients ∧ x ∈ ch.curClients ∧ x ≠ p ∧ (t.memory x).nickname ≠ botNick

instance (t : Tables) (p : ClientPtr) (ch : Channel) (x : ClientPtr) :
    Decidable (t.Receives p ch x) := inferInstanceAs (Decidable (_ ∧ _ ∧ _ ∧ _))

namespace Server

variable {s s' : Server} {p q x : ClientPtr} {ch : Channel} {env : Env} {target message : Str}
  {nicks words : List Str}

/-- After what the bot writes to its own socket, every connected client that is to
get the text is sent one copy of it, and nobody else is sent any. -/
def Relays (env : Env) (s : Server) (p : ClientPtr) (ch : Channel) (target : Str)
    (words : List Str) (result : Result) : Prop :=
  ∃ s' copies, result = .done s' ∧
    s'.sent = (s.privmsgText env.now p words).1.sent ++ copies ∧
    (∀ copy ∈ copies, ∃ x, s.Live x ∧ copy = s.messageTo x (relayed env s p target words)) ∧
    ∀ x, s.Live x → copies.count (s.messageTo x (relayed env s p target words)) =
      if s.Receives p ch x then 1 else 0

/-- Every listed member is found under its nickname, unless the lookup finds the
sender or the bot, who are sent nothing. -/
def MembersFound (s : Server) (p : ClientPtr) (ch : Channel) : Prop :=
  ∀ q ∈ ch.curClients, ∃ x ∈ s.recipient (s.nickOf q),
    x = q ∨ x = p ∨ s.nickOf x = botNick

/-- Whom the loop over the nicknames sends a copy. -/
def relayTargets (s : Server) (p : ClientPtr) (nicks : List Str) : List ClientPtr :=
  (nicks.filterMap s.recipient).filter fun x =>
    (s.memory x).clientSocketFd ≠ (s.memory p).clientSocketFd ∧ s.nickOf x ≠ botNick

/-- What a round of the loop does, with the lookup in the state where the loop started.
-/
theorem relayToMember_eq (htables : s'.toTables = s.toTables) (nick : Str) :
    relayToMember p target message nick s' = match s.recipient nick with
      | none => .fault .nullClient
      | some x =>
          if (s.memory x).clientSocketFd ≠ (s.memory p).clientSocketFd ∧
              s.nickOf x ≠ botNick then
            .done (s'.sendAll [s.messageTo x (s.relayLine p target message)])
          else .done s' := by
  unfold relayToMember recipient nickOf relayLine nickOf sendMessage messageTo
  rw [htables]
  rfl

/-- The loop returns when every nickname is found. -/
theorem relay_done (hfound : ∀ nick ∈ nicks, (s.recipient nick).isSome = true)
    (htables : s'.toTables = s.toTables) :
    each (relayToMember p target message) nicks s' = .done (s'.sendAll
      ((s.relayTargets p nicks).map fun x => s.messageTo x (s.relayLine p target message))) := by
  induction nicks generalizing s' with
  | nil => simp [relayTargets, sendAll]
  | cons nick nicks ih =>
      obtain ⟨x, hx⟩ := Option.isSome_iff_exists.mp (hfound nick List.mem_cons_self)
      have hrest := fun nick hmem => hfound nick (List.mem_cons_of_mem _ hmem)
      rw [each_cons, relayToMember_eq htables, hx]
      dsimp only
      by_cases hother : (s.memory x).clientSocketFd ≠ (s.memory p).clientSocketFd ∧
          s.nickOf x ≠ botNick
      · rw [if_pos hother, andThen_done, ih hrest (by exact htables)]
        simp [relayTargets, hx, hother, sendAll]
      · rw [if_neg hother, andThen_done, ih hrest htables]
        simp only [relayTargets, List.filterMap_cons, hx, List.filter_cons, hother]
        simp

/-- It does not return when one is not. -/
theorem relay_fault (hmissing : ∃ nick ∈ nicks, s.recipient nick = none)
    (htables : s'.toTables = s.toTables) :
    each (relayToMember p target message) nicks s' = .fault .nullClient := by
  induction nicks generalizing s' with
  | nil => simp at hmissing
  | cons nick nicks ih =>
      rw [each_cons, relayToMember_eq htables]
      cases hx : s.recipient nick with
      | none => rfl
      | some x =>
          have hrest : ∃ nick ∈ nicks, s.recipient nick = none := by
            obtain ⟨missing, hmem, hnone⟩ := hmissing
            rcases List.mem_cons.mp hmem with rfl | hmem
            · rw [hx] at hnone
              cases hnone
            · exact ⟨missing, hmem, hnone⟩
          dsimp only
          split
          · exact ih hrest (by exact htables)
          · exact ih hrest htables

/-- What a lookup finds is the first client with its own nickname. -/
theorem firstNamed_of_recipient {nick : Str} (h : s.recipient nick = some x) :
    s.FirstNamed x (s.nickOf x) := by
  rw [recipient_eq] at h
  have hfirst : ∀ {name : Str}, s.getClient name = some x → s.FirstNamed x (s.nickOf x) := by
    intro name hget
    obtain ⟨fd, hx, hname, hfirst⟩ := Tables.firstNamed_of_getClient hget
    rw [nickOf, hname]
    exact ⟨fd, hx, hname, hfirst⟩
  rcases Option.or_eq_some_iff.mp h with hget | ⟨-, hget⟩
  · exact hfirst hget
  · exact hfirst hget

/-- The first client with a nickname is found by it. -/
theorem recipient_of_firstNamed (h : s.FirstNamed x (s.nickOf x)) :
    s.recipient (s.nickOf x) = some x := by
  rw [recipient_eq, Tables.getClient_eq_some.mpr h, Option.some_or]

/-- Who is found is connected. -/
theorem live_of_recipient {nick : Str} (h : s.recipient nick = some x) : s.Live x :=
  let ⟨fd, hx, _⟩ := firstNamed_of_recipient h
  ⟨fd, hx⟩

/-- A connected client is found under its nickname, or one with the same. -/
theorem nickOf_recipient (hq : s.Live q) (h : s.recipient (s.nickOf q) = some x) :
    s.nickOf x = s.nickOf q := by
  rw [recipient_eq] at h
  cases hget : s.getClient (s.nickOf q) with
  | none => exact (Tables.getClient_eq_none.mp hget q hq rfl).elim
  | some y =>
      rw [hget] at h
      cases h
      obtain ⟨fd, -, hname, -⟩ := Tables.firstNamed_of_getClient hget
      exact hname

/-- Connected clients have different descriptors. -/
theorem eq_of_socket (h : s.Registry) (hx : s.Live x) (hq : s.Live q)
    (hfd : (s.memory x).clientSocketFd = (s.memory q).clientSocketFd) : x = q := by
  obtain ⟨fd, hx⟩ := hx
  obtain ⟨fd', hq⟩ := hq
  rw [h.socket hx, h.socket hq] at hfd
  subst hfd
  exact Option.some.inj (hx.symm.trans hq)

/-- A message goes to a member as often as the member is listed. -/
theorem count_messageTo (h : s.Registry) (hx : s.Live x) {targets : List ClientPtr}
    (hlive : ∀ y ∈ targets, s.Live y) (text : Str) :
    (targets.map fun y => s.messageTo y text).count (s.messageTo x text) = targets.count x := by
  induction targets with
  | nil => rfl
  | cons y targets ih =>
      have hsame : s.messageTo y text = s.messageTo x text ↔ y = x :=
        ⟨fun heq => eq_of_socket h (hlive y List.mem_cons_self) hx (congrArg Prod.fst heq),
          fun heq => by rw [heq]⟩
      rw [List.map_cons, List.count_cons, List.count_cons,
        ih fun z hz => hlive z (List.mem_cons_of_mem _ hz)]
      simp only [beq_iff_eq, hsame]

/-- How many copies a client is sent: one for each member whose nickname leads to
it, unless it is the sender or the bot. -/
theorem count_relayTargets (h : s.Registry) (hx : s.Live x) (hp : s.Live p) (ch : Channel) :
    (s.relayTargets p (s.getChannelClients ch)).count x =
      if x ≠ p ∧ s.nickOf x ≠ botNick then
        ch.curClients.countP fun q => s.recipient (s.nickOf q) = some x else 0 := by
  have hother : (s.memory x).clientSocketFd ≠ (s.memory p).clientSocketFd ↔ x ≠ p :=
    not_congr ⟨eq_of_socket h hx hp, fun heq => by rw [heq]⟩
  unfold relayTargets Tables.getChannelClients
  by_cases hget : x ≠ p ∧ s.nickOf x ≠ botNick
  · rw [if_pos hget, List.count_filter (by simpa [hother] using hget), List.count_filterMap,
      List.countP_map]
    refine List.countP_congr fun q _ => ?_
    rw [decide_eq_true_iff]
    simp [nickOf]
  · rw [if_neg hget]
    refine List.count_eq_zero.mpr fun hmem => hget ?_
    simpa [hother] using (List.mem_filter.mp hmem).2

/-- Where two elements pass a test that one element passes, they are one. -/
theorem eq_of_countP_one {xs : List ClientPtr} {test : ClientPtr → Bool}
    (h : xs.countP test = 1) {a b : ClientPtr} (ha : a ∈ xs) (hb : b ∈ xs)
    (hta : test a = true) (htb : test b = true) : a = b := by
  rw [List.countP_eq_length_filter] at h
  obtain ⟨c, hc⟩ := List.length_eq_one_iff.mp h
  have hmem : ∀ {d}, d ∈ xs → test d = true → d = c := fun hd htest =>
    List.mem_singleton.mp (hc ▸ List.mem_filter.mpr ⟨hd, htest⟩)
  rw [hmem ha hta, hmem hb htb]

/-- When every member is found, everybody is sent as many copies as it is to
get. -/
theorem countP_of_membersFound (h : s.Registry) (hroster : s.Roster target ch)
    (hp : s.Live p) (hpnick : (s.memory p).hasNick = true) (hmem : p ∈ ch.curClients)
    (hfound : s.MembersFound p ch) (hx : s.Live x) (hne : x ≠ p) (hbot : s.nickOf x ≠ botNick) :
    (ch.curClients.countP fun q => s.recipient (s.nickOf q) = some x) =
      if s.Receives p ch x then 1 else 0 := by
  have hiff : ∀ q ∈ ch.curClients, s.recipient (s.nickOf q) = some x ↔ q = x := by
    intro q hq
    obtain ⟨y, hy, hkind⟩ := hfound q hq
    constructor
    · intro hget
      obtain rfl : x = y := Option.some.inj (hget.symm.trans hy)
      rcases hkind with rfl | rfl | hnick
      · rfl
      · exact (hne rfl).elim
      · exact (hbot hnick).elim
    · rintro rfl
      have hsame := nickOf_recipient hx hy
      rcases hkind with rfl | rfl | hnick
      · exact hy
      · exact (hne (h.nick_inj hx hp (hroster.named q hq hx) hpnick hsame.symm)).elim
      · exact (hbot (hsame ▸ hnick)).elim
  have hcount : (ch.curClients.countP fun q => s.recipient (s.nickOf q) = some x) =
      ch.curClients.count x := by
    refine List.countP_congr fun q hq => ?_
    simpa using hiff q hq
  have hreceives : s.Receives p ch x ↔ x ∈ ch.curClients :=
    ⟨fun hget => hget.2.1, fun hin => ⟨hmem, hin, hne, hbot⟩⟩
  rw [hcount, hroster.nodup.count]
  simp only [hreceives]

/-- Conversely, when everybody is sent as many copies as it is to get, every
member is found. -/
theorem membersFound_of_countP
    (hall : ∀ nick ∈ s.getChannelClients ch, (s.recipient nick).isSome = true)
    (hcounts : ∀ x, s.Live x → (if x ≠ p ∧ s.nickOf x ≠ botNick then
      ch.curClients.countP fun q => s.recipient (s.nickOf q) = some x else 0) =
        if s.Receives p ch x then 1 else 0) : s.MembersFound p ch := by
  intro q hq
  obtain ⟨x, hx⟩ := Option.isSome_iff_exists.mp (hall (s.nickOf q) (List.mem_map_of_mem hq))
  refine ⟨x, hx, ?_⟩
  by_cases hother : x ≠ p ∧ s.nickOf x ≠ botNick
  · -- the client found is sent a copy, so it is the member
    have hcount := hcounts x (live_of_recipient hx)
    rw [if_pos hother] at hcount
    have hpos : 0 < ch.curClients.countP fun q => s.recipient (s.nickOf q) = some x :=
      List.countP_pos_iff.mpr ⟨q, hq, by simpa using hx⟩
    have hreceives : s.Receives p ch x := by
      by_contra hnot
      rw [hcount, if_neg hnot] at hpos
      exact absurd hpos (Nat.lt_irrefl _)
    rw [if_pos hreceives] at hcount
    have hself := recipient_of_firstNamed (firstNamed_of_recipient hx)
    exact Or.inl (eq_of_countP_one hcount hreceives.2.1 hq (by simpa using hself)
      (by simpa using hx))
  · rcases not_and_or.mp hother with hself | hbot
    · exact Or.inr (Or.inl (not_not.mp hself))
    · exact Or.inr (Or.inr (not_not.mp hbot))

/-- What a `PRIVMSG` of a member does when every nickname is found. -/
theorem relays_iff_of_member (h : s.Registry) (hroster : s.Roster target ch)
    (hp : s.Live p) (hpnick : (s.memory p).hasNick = true) (hmem : p ∈ ch.curClients) :
    Relays env s p ch target words
        (each (relayToMember p target (s.privmsgText env.now p words).2)
          (s.getChannelClients ch) (s.privmsgText env.now p words).1) ↔
      s.MembersFound p ch := by
  have htables := s.privmsgText_toTables env.now p words
  by_cases hall : ∀ nick ∈ s.getChannelClients ch, (s.recipient nick).isSome = true
  · have hlive : ∀ y ∈ s.relayTargets p (s.getChannelClients ch), s.Live y := by
      intro y hy
      obtain ⟨nick, -, hget⟩ := List.mem_filterMap.mp (List.mem_filter.mp hy).1
      exact live_of_recipient hget
    rw [relay_done hall htables]
    constructor
    · rintro ⟨s', copies, hdone, hsent, -, hcounts⟩
      cases hdone
      obtain rfl := List.append_cancel_left hsent
      refine membersFound_of_countP hall fun x hx => ?_
      rw [← count_relayTargets h hx hp ch, ← count_messageTo h hx hlive, ← hcounts x hx]
      rfl
    · intro hfound
      refine ⟨_, _, rfl, rfl, ?_, fun x hx => ?_⟩
      · intro copy hcopy
        obtain ⟨y, hy, rfl⟩ := List.mem_map.mp hcopy
        exact ⟨y, hlive y hy, rfl⟩
      · refine (count_messageTo h hx hlive _).trans ?_
        rw [count_relayTargets h hx hp ch]
        by_cases hother : x ≠ p ∧ s.nickOf x ≠ botNick
        · rw [if_pos hother]
          exact countP_of_membersFound h hroster hp hpnick hmem hfound hx hother.1 hother.2
        · have hnot : ¬ s.Receives p ch x := fun hget => hother ⟨hget.2.2.1, hget.2.2.2⟩
          rw [if_neg hother, if_neg hnot]
  · obtain ⟨nick, hnick, hnone⟩ : ∃ nick ∈ s.getChannelClients ch, s.recipient nick = none := by
      simpa using hall
    rw [relay_fault ⟨nick, hnick, hnone⟩ htables]
    refine iff_of_false ?_ fun hfound => ?_
    · rintro ⟨s', copies, hdone, -⟩
      cases hdone
    · obtain ⟨q, hq, rfl⟩ := List.mem_map.mp hnick
      obtain ⟨x, hx, -⟩ := hfound q hq
      exact absurd (hnone.symm.trans hx) (by simp)

/-- The dispatch of a `PRIVMSG` to a channel. -/
theorem commandParser_channel (env : Env) {line word first : Str} {rest : List Str}
    (hparts : commandParts line = word :: target :: first :: rest)
    (hverb : verbOf word = .privmsg) (hhash : target.head? = some '#')
    (hch : s.channels[target]? = some ch) (hreg : (s.memory p).registered = true)
    (hbot : s.nickOf p ≠ botNick) :
    commandParser env line p s =
      if p ∈ ch.curClients then
        each (relayToMember p target (s.privmsgText env.now p (first :: rest)).2)
          (s.getChannelClients ch) (s.privmsgText env.now p (first :: rest)).1
      else .done (s.privmsgText env.now p (first :: rest)).1 := by
  have htables := s.privmsgText_toTables env.now p (first :: rest)
  have hruns : RunsRegistered s.toTables p (commandParts line) .privmsg :=
    ⟨word, _, hparts, hverb, by decide, hreg⟩
  have hon : (ch.isUserOnChannel p = true ∨
      botNick = (s.privmsgText env.now p (first :: rest)).1.nickOf p) ↔ p ∈ ch.curClients := by
    have hnot : ¬ botNick = (s.memory p).nickname := fun h => hbot h.symm
    rw [nickOf, htables]
    simp [Channel.isUserOnChannel, hnot]
  rw [hruns.commandParser_eq (by decide) hparts]
  change s.privmsg env p (word :: target :: first :: rest) = _
  unfold privmsg
  dsimp only
  rw [if_neg (fun h => h.2 hhash), htables, hch]
  dsimp only
  simp only [hon]

end Server

section Connected

variable {t t' : Tables} {p : ClientPtr} {fd : Fd} {parts : List Str}

/-- A connected client that has taken no nickname has the empty one. -/
def Tables.BlankUnnamed (t : Tables) : Prop :=
  ∀ (fd : Fd) (p : ClientPtr), t.clients[fd]? = some p → (t.memory p).hasNick = false →
    (t.memory p).nickname = []

/-- A line leaves clients without a nickname blank. -/
theorem Effect.blankUnnamed (heffect : Effect p parts t t') (h : t.BlankUnnamed) :
    t'.BlankUnnamed := by
  have hset : ∀ (s : Tables) (g : Client → Client), s.clients = t.clients →
      s.memory = t.memory → ((g (t.memory p)).hasNick = true ∨
        (g (t.memory p)).hasNick = (t.memory p).hasNick ∧
          (g (t.memory p)).nickname = (t.memory p).nickname) →
      (s.setClient p g).BlankUnnamed := by
    intro s g hclients hmemory hg fd q hq hnick
    rw [Tables.setClient_clients, hclients] at hq
    by_cases hqp : q = p
    · subst hqp
      rw [Tables.setClient_memory_self, hmemory] at hnick ⊢
      rcases hg with hg | ⟨hsame, hname⟩
      · rw [hg] at hnick
        cases hnick
      · rw [hname]
        exact h fd q hq (hsame ▸ hnick)
    · rw [Tables.setClient_memory_ne s g hqp, hmemory] at hnick ⊢
      exact h fd q hq hnick
  cases heffect with
  | quiet => exact h
  | authenticated hpass => exact hset t _ rfl rfl (Or.inr ⟨rfl, rfl⟩)
  | renamed nick hnick => exact hset (t.registerNick nick _) _ rfl rfl (Or.inl rfl)
  | registered username clientIp realname huser => exact hset t _ rfl rfl (Or.inr ⟨rfl, rfl⟩)
  | parted names hruns hnames =>
      rw [Tables.leaveAll_frame]
      exact h
  | kicked name target ch hruns hch hop hlive hmem htarget =>
      rw [Tables.leave_frame]
      exact h
  | joined | created | topicSet => exact h

/-- So does a step. -/
theorem blankUnnamed_step {w next : World} {a : Action} (hregistry : w.srv.Registry)
    (h : w.srv.BlankUnnamed) (hattended : Attended w a) (hstep : step w a = some next) :
    next.srv.BlankUnnamed := by
  have hturn := step_turn hattended hstep
  generalize next.srv.toTables = t' at hturn ⊢
  cases hturn with
  | accepted fd ip port ha hfresh =>
      intro k p hk hnick
      rcases Tables.accepted_entry hregistry.addresses (hregistry.absent hfresh) hk with
        ⟨-, -, hmemory⟩ | ⟨hk, hmemory⟩
      · rw [hmemory]
        rfl
      · rw [hmemory] at hnick ⊢
        exact h k p hk hnick
  | received fd results ha => exact h
  | closed f hclosing =>
      intro k p hk hnick
      rw [Tables.closeConnection_memory] at hnick ⊢
      rw [Tables.closeConnection_clients] at hk
      split at hk
      · cases hk
      · exact h k p hk hnick
  | handled env fd p line lines _ ha hline hp heffect => exact heffect.blankUnnamed h

/-- Members that are connected and have a nickname, not the empty one, are
found. -/
theorem membersFound_of_connected {trace : Run.Trace World Action} {w : World}
    (run : Steps trace w) (hattended : Run.Meets Attended trace) {target : Str} {ch : Channel}
    (hch : w.srv.channels[target]? = some ch) (hlive : ∀ q ∈ ch.curClients, w.srv.Live q)
    (hnamed : ∀ q ∈ ch.curClients, w.srv.nickOf q ≠ []) (p : ClientPtr) :
    w.srv.MembersFound p ch := by
  obtain ⟨horderly, hblank⟩ := run.invariant_of_meets
    (fun w => Orderly w ∧ w.srv.BlankUnnamed)
    (fun w hstart => ⟨orderly_start hstart, by
      obtain ⟨password, host, serverSocket, botSocket, _, rfl⟩ := hstart
      intro fd p hp
      simp [initial] at hp⟩)
    (fun w a next h ha hstep => ⟨orderly_step h.1 ha hstep,
      blankUnnamed_step h.1.registry h.2 ha hstep⟩) hattended
  intro q hq
  cases hget : w.srv.getClient (w.srv.nickOf q) with
  | none => exact (Tables.getClient_eq_none.mp hget q (hlive q hq) rfl).elim
  | some x =>
      obtain ⟨fd, hx, hname, -⟩ := Tables.firstNamed_of_getClient hget
      have hnick : (w.srv.memory x).hasNick = true := by
        by_contra hnot
        exact hnamed q hq (hname ▸ hblank fd x hx (by simpa using hnot))
      have hself : x = q := horderly.registry.nick_inj ⟨fd, hx⟩ (hlive q hq) hnick
        ((horderly.rosters target ch hch).named q hq (hlive q hq)) hname
      refine ⟨x, ?_, Or.inl hself⟩
      rw [Server.recipient_eq, hget]
      rfl

end Connected

/-- **Messages to a channel.**  In a run in which every line is handled for a
connected client, let `p` be a client that is logged in and not the bot.  What it
writes to a channel is relayed to the members, and to nobody if it is none of them,
if and only if every listed member is found under its nickname. -/
theorem channel_relayed_iff {trace : Run.Trace World Action} {w : World} (run : Steps trace w)
    (hattended : Run.Meets Attended trace) {fd : Fd} {p : ClientPtr}
    (hp : w.srv.clients[fd]? = some p) (hreg : (w.srv.memory p).registered = true)
    (hbot : w.srv.nickOf p ≠ botNick) {target : Str} {ch : Channel}
    (hch : w.srv.channels[target]? = some ch) (env : Env) {line word first : Str}
    {rest : List Str} (hparts : commandParts line = word :: target :: first :: rest)
    (hverb : verbOf word = .privmsg) :
    Server.Relays env w.srv p ch target (first :: rest)
        (Server.commandParser env line p w.srv) ↔
      (p ∈ ch.curClients → w.srv.MembersFound p ch) := by
  have horderly := run.invariant_of_meets Orderly (fun _ => orderly_start)
    (fun _ _ _ => orderly_step) hattended
  have hentered := channelsEntered run
  rw [Server.commandParser_channel env hparts hverb (hentered target ch hch).hash hch hreg hbot]
  by_cases hmem : p ∈ ch.curClients
  · rw [if_pos hmem, forall_prop_of_true hmem]
    exact Server.relays_iff_of_member horderly.registry (horderly.rosters target ch hch)
      ⟨fd, hp⟩ ((horderly.registry.staged hp).of_registered hreg) hmem
  · rw [if_neg hmem]
    refine iff_of_true ⟨_, [], rfl, by simp, by simp, fun x _ => ?_⟩ (fun h => (hmem h).elim)
    rw [if_neg fun hget => hmem hget.1]
    rfl

/-- Three clients are on a channel, and one of them writes to it. -/
theorem channel_relayed_iff_three : ∃ trace w ch, Steps trace w ∧
    w.srv.channels["#c".toList]? = some ch ∧ ch.curClients = [0, 1, 2] ∧
    Server.Relays Env.calm w.srv 0 ch "#c".toList ["hi".toList]
      (Server.commandParser Env.calm "PRIVMSG #c hi".toList 0 w.srv) := by
  obtain ⟨trace, w, run, hmeets, htest⟩ := Run.exists_steps_meeting step Attended start_pw
    ([.accept 5 "10.0.0.1".toList 40000, .accept 6 "10.0.0.2".toList 40000,
        .accept 7 "10.0.0.3".toList 40000] ++
      packet 5 ["PASS pw", "NICK a", "USER a a a n", "JOIN #c"] ++
      packet 6 ["PASS pw", "NICK b", "USER b b b n", "JOIN #c"] ++
      packet 7 ["PASS pw", "NICK d", "USER d d d n", "JOIN #c"])
    (fun w => w.srv.clients[(5 : Fd)]? = some 0 ∧ (w.srv.memory 0).registered = true ∧
      w.srv.nickOf 0 ≠ botNick ∧ (w.srv.channels["#c".toList]?).isSome = true ∧
      ∀ ch ∈ w.srv.channels["#c".toList]?, ch.curClients = [0, 1, 2] ∧
        ∀ q ∈ ch.curClients, w.srv.recipient (w.srv.nickOf q) = some q) (by decide +kernel)
  obtain ⟨hp, hreg, hbot, hsome, hall⟩ := of_decide_eq_true htest
  obtain ⟨ch, hch⟩ := Option.isSome_iff_exists.mp hsome
  obtain ⟨hclients, hfound⟩ := hall ch hch
  have hparts : commandParts "PRIVMSG #c hi".toList =
      ["PRIVMSG".toList, "#c".toList, "hi".toList] := by decide
  exact ⟨trace, w, ch, run, hch, hclients,
    (channel_relayed_iff run hmeets hp hreg hbot hch Env.calm hparts (by decide)).mpr
      fun _ q hq => ⟨q, hfound q hq, Or.inl rfl⟩⟩

/-- A member has quit, and what is written to the channel reaches a client that has
connected and not registered. -/
theorem channel_text_reaches_stranger :
    ¬ ∀ trace w env (fd : Fd) p (target : Str) ch line word first rest, Steps trace w →
      w.srv.clients[fd]? = some p → (w.srv.memory p).registered = true →
      w.srv.nickOf p ≠ botNick → w.srv.channels[target]? = some ch →
      commandParts line = word :: target :: first :: rest → verbOf word = .privmsg →
      Server.Relays env w.srv p ch target (first :: rest)
        (Server.commandParser env line p w.srv) := by
  intro hall
  obtain ⟨trace, w, run, htest⟩ := Run.exists_steps_of_perform step start_pw
    ([.accept 5 "10.0.0.1".toList 40000, .accept 6 "10.0.0.2".toList 40000,
        .accept 7 "10.0.0.3".toList 40000] ++
      packet 5 ["PASS pw", "NICK a", "USER a a a n", "JOIN #c"] ++
      packet 6 ["PASS pw", "NICK b", "USER b b b n", "JOIN #c", "QUIT"])
    (fun w => w.srv.clients[(5 : Fd)]? = some 0 ∧ (w.srv.memory 0).registered = true ∧
      w.srv.nickOf 0 ≠ botNick ∧ w.srv.clients[(7 : Fd)]? = some 2 ∧
      (w.srv.channels["#c".toList]?).map Channel.curClients = some [0, 1] ∧
      ((Server.commandParser Env.calm "PRIVMSG #c hi".toList 0 w.srv).state?.map
        fun s => s.sent) = some (w.srv.sent ++ [((7 : Fd), ":a PRIVMSG #c :hi\r\n".toList)]) ∧
      (w.srv.privmsgText Env.calm.now 0 ["hi".toList]).1.sent = w.srv.sent ∧
      w.srv.messageTo 2 (Server.relayed Env.calm w.srv 0 "#c".toList ["hi".toList]) =
        ((7 : Fd), ":a PRIVMSG #c :hi\r\n".toList))
    (by decide +kernel)
  obtain ⟨hp, hreg, hbot, hstranger, hmembers, hstate, hbefore, hmessage⟩ :=
    of_decide_eq_true htest
  obtain ⟨ch, hch, hclients⟩ := Option.map_eq_some_iff.mp hmembers
  obtain ⟨s', copies, hdone, hsent, -, hcounts⟩ := hall trace w Env.calm 5 0 _ ch
    "PRIVMSG #c hi".toList "PRIVMSG".toList "hi".toList [] run hp hreg hbot hch (by decide)
    (by decide)
  rw [hdone] at hstate
  have hafter : s'.sent = w.srv.sent ++ [((7 : Fd), ":a PRIVMSG #c :hi\r\n".toList)] := by
    simpa [Outcome.state?] using hstate
  rw [hafter, hbefore] at hsent
  have hcopies := List.append_cancel_left hsent
  have hcount := hcounts 2 ⟨7, hstranger⟩
  rw [hmessage, ← hcopies] at hcount
  simp [Tables.Receives, hclients] at hcount

end Irc
