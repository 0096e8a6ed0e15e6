import IrcServers.Irc.ChannelTable

/-!
# Deleted channels

`Server::removeChannel` deletes the channel whose method is running:
`Channel::removeClientFromChannel` still looks at `_curClients` afterwards, and
`Kick::kick` goes on to send to the channel, which is a fault.  So a `PART` or
`KICK` line uses a deleted channel just when it deletes one, that is when it
removes the only member of a channel.
-/

namespace Irc

/-- One of the departures is that of the only member of a channel. -/
def Tables.Empties (t : Tables) (departures : List (Str × ClientPtr)) : Prop :=
  ∃ departure ∈ departures,
    (t.channels[departure.1]?).map Channel.curClients = some [departure.2]

instance (t : Tables) (departures : List (Str × ClientPtr)) : Decidable (t.Empties departures) :=
  inferInstanceAs (Decidable (∃ departure ∈ departures, _))

/-- A command line that runs `PART` or `KICK`. -/
def AsksDeparture (parts : List Str) : Prop :=
  ∃ word args, parts = word :: args ∧ (verbOf word = .part ∨ verbOf word = .kick)

/-- After a departure the channel does not list the client. -/
theorem Tables.ChannelsEntered.leave_other {t : Tables} (h : t.ChannelsEntered) (name : Str)
    (x : ClientPtr) : ((t.leave name x).channels[name]?).map Channel.curClients ≠ some [x] := by
  cases hch : t.channels[name]? with
  | none => simp [Tables.leave_absent hch]
  | some ch =>
      rcases Tables.leave_self (x := x) h hch with ⟨-, hgone⟩ | ⟨-, next, hnext, hout⟩
      · simp [hgone]
      · rw [hnext]
        intro hself
        exact hout (by simp [Option.some.inj hself])

namespace Server

variable {s : Server} {p x : ClientPtr} {name : Str} {ch : Channel}

@[simp] theorem sendMessage_freedUses (s : Server) (p : ClientPtr) (message : Str) :
    (s.sendMessage p message).freedUses = s.freedUses := rfl

@[simp] theorem sendReply_freedUses (s : Server) (p : ClientPtr) (reply : Str) :
    (s.sendReply p reply).freedUses = s.freedUses := rfl

@[simp] theorem broadcastMessage_freedUses (s : Server) (ch : Channel) (message : Str) :
    (s.broadcastMessage ch message).freedUses = s.freedUses := rfl

@[simp] theorem sendChannelUserList_freedUses (s : Server) (ch : Channel) (p : ClientPtr) :
    (s.sendChannelUserList ch p).freedUses = s.freedUses := rfl

@[simp] theorem withTables_freedUses (s : Server) (t : Tables) :
    (s.withTables t).freedUses = s.freedUses := rfl

@[simp] theorem useFreed_freedUses (s : Server) (name : Str) :
    (s.useFreed name).freedUses = s.freedUses ++ [name] := rfl

/-- `removeChannel` itself uses the channel before it deletes it only. -/
@[simp] theorem removeChannel_freedUses (s : Server) (name : Str) :
    (s.removeChannel name).freedUses = s.freedUses := by
  have htold : ∀ (nicks : List Str) (s : Server),
      (nicks.foldl (fun s nick => s.partRemoved name nick) s).freedUses = s.freedUses := by
    intro nicks
    induction nicks with
    | nil => intro s; rfl
    | cons nick nicks ih =>
        intro s
        rw [List.foldl_cons, ih]
        unfold partRemoved
        split <;> rfl
  unfold removeChannel
  split
  · exact htold _ _
  · rfl

/-- The uses of a deleted channel by the departure of a member: one, when the
channel went with it. -/
theorem removeClientFromChannel_freedUses (hch : s.channels[name]? = some ch) (x : ClientPtr) :
    (s.removeClientFromChannel name x).freedUses =
      s.freedUses ++ if ch.curClients = [x] then [name] else [] := by
  unfold removeClientFromChannel
  rw [hch]
  dsimp only
  by_cases hx : x ∈ ch.curClients
  · rw [if_pos (by simpa [Channel.isUserOnChannel] using hx)]
    cases herase : ch.curClients.erase x with
    | nil =>
        have honly : ch.curClients = [x] := by
          rcases List.erase_eq_nil_iff.mp herase with hnil | honly
          · rw [hnil] at hx
            cases hx
          · exact honly
        simp [honly]
    | cons front rest =>
        have hothers : ch.curClients ≠ [x] := by
          intro honly
          simp [honly] at herase
        rw [if_neg hothers, List.append_nil]
        dsimp only
        split <;> rfl
  · have hothers : ch.curClients ≠ [x] := by
      intro honly
      simp [honly] at hx
    rw [if_neg (by simpa [Channel.isUserOnChannel] using hx), if_neg hothers, List.append_nil]

/-- One round of `PART` uses a deleted channel once, if it has deleted it. -/
theorem partChannel_freedUses (s : Server) (p : ClientPtr) (message name : Str) :
    (s.partChannel p message name).freedUses = s.freedUses ++
      if (s.channels[name]?).map Channel.curClients = some [p] then [name] else [] := by
  unfold partChannel
  cases hch : s.channels[name]? with
  | none => simp
  | some ch =>
      dsimp only
      by_cases hp : p ∈ ch.curClients
      · rw [if_pos (by simpa [Channel.isUserOnChannel] using hp)]
        have hremoved := removeClientFromChannel_freedUses
          (s := (s.sendReply p (rplPart (s.prefixOf p) ch.name message)).broadcastMessage ch
            (rplPart (s.prefixOf p) ch.name message)) hch p
        split <;> simpa using hremoved
      · have hothers : ch.curClients ≠ [p] := by
          intro honly
          simp [honly] at hp
        rw [if_neg (by simpa [Channel.isUserOnChannel] using hp)]
        simp [hothers]

/-- Uses of deleted channels are only added. -/
theorem partChannels_freedUses_prefix (p : ClientPtr) (message : Str) (names : List Str)
    (s : Server) : s.freedUses <+: (names.foldl (partChannel p message) s).freedUses := by
  induction names generalizing s with
  | nil => exact List.prefix_refl _
  | cons name names ih =>
      rw [List.foldl_cons]
      refine List.IsPrefix.trans ?_ (ih _)
      rw [partChannel_freedUses]
      exact List.prefix_append _ _

/-- The loop of `PART` uses a deleted channel just when the client was the only
member of one of the channels it leaves. -/
theorem partChannels_freedUses_iff (h : s.ChannelsEntered) (p : ClientPtr) (message : Str)
    (names : List Str) : (names.foldl (partChannel p message) s).freedUses = s.freedUses ↔
      ¬ s.Empties (names.map fun name => (name, p)) := by
  have hempties : ∀ (t : Tables) (names : List Str), t.Empties (names.map fun name => (name, p)) ↔
      ∃ name ∈ names, (t.channels[name]?).map Channel.curClients = some [p] := by
    intro t names
    simp [Tables.Empties]
  rw [hempties]
  induction names generalizing s with
  | nil => simp
  | cons name names ih =>
      have htables := partChannel_toTables s p message name
      have hentered : (s.partChannel p message name).ChannelsEntered := htables ▸ h.leave name p
      have hround := partChannel_freedUses s p message name
      rw [List.foldl_cons]
      by_cases honly : (s.channels[name]?).map Channel.curClients = some [p]
      · -- the use of this round is never taken back
        refine iff_of_false (fun hsame => ?_) (fun hnone => hnone ⟨name, List.mem_cons_self, honly⟩)
        have hprefix := partChannels_freedUses_prefix p message names (s.partChannel p message name)
        rw [hsame, hround, if_pos honly] at hprefix
        exact absurd hprefix.length_le (by simp)
      · rw [if_neg honly, List.append_nil] at hround
        rw [← hround]
        refine (ih hentered).trans (not_congr ?_)
        rw [htables, List.exists_mem_cons_iff]
        constructor
        · rintro ⟨k, hk, hself⟩
          -- a channel that is left with others does not list the client any more
          have hne : name ≠ k := fun heq => h.leave_other name p (heq ▸ hself)
          rw [Tables.leave_getElem?_of_ne h.keyed hne] at hself
          exact Or.inr ⟨k, hk, hself⟩
        · rintro (hself | ⟨k, hk, hself⟩)
          · exact (honly hself).elim
          · have hne : name ≠ k := fun heq => honly (heq ▸ hself)
            exact ⟨k, hk, by rw [Tables.leave_getElem?_of_ne h.keyed hne, hself]⟩

/-- The procedure returns, and it has used no deleted channel. -/
def SparesFreed (s : Server) (outcome : Result) : Prop :=
  ∃ s', outcome = .done s' ∧ s'.freedUses = s.freedUses

/-- A line that returns spares deleted channels when it counts no use. -/
theorem sparesFreed_done {s' : Server} : s.SparesFreed (.done s') ↔ s'.freedUses = s.freedUses := by
  simp [SparesFreed]

/-- `KICK` of the only member goes on with the channel that it has deleted. -/
theorem kickMember_of_only (hch : s.channels[name]? = some ch) (hentered : s.ChannelsEntered)
    (honly : ch.curClients = [x]) (p : ClientPtr) (reason : Str) :
    s.kickMember p x name reason = .fault .freedChannel := by
  have hgone : (s.removeClientFromChannel name x).channels[name]? = none := by
    rw [removeClientFromChannel_toTables]
    exact ((Tables.leave_self hentered hch).resolve_right fun h => h.1 honly).2
  unfold kickMember
  dsimp only
  rw [hgone]
  rfl

/-- `KICK` from a channel with other members finds it where it was. -/
theorem kickMember_of_others (hch : s.channels[name]? = some ch) (hentered : s.ChannelsEntered)
    (hothers : ch.curClients ≠ [x]) (p : ClientPtr) (reason : Str) :
    s.SparesFreed (s.kickMember p x name reason) := by
  obtain ⟨next, hnext, -⟩ :=
    ((Tables.leave_self (x := x) hentered hch).resolve_left fun h => hothers h.1).2
  have hthere : (s.removeClientFromChannel name x).channels[name]? = some next := by
    rw [removeClientFromChannel_toTables, hnext]
  have hremoved := removeClientFromChannel_freedUses hch x
  rw [if_neg hothers, List.append_nil] at hremoved
  unfold kickMember
  dsimp only
  rw [hthere]
  exact ⟨_, rfl, hremoved⟩

/-- `PART` behind the registration test. -/
theorem part_freedUses_iff (h : s.ChannelsEntered) {word : Str} {args : List Str}
    (hruns : RunsRegistered s.toTables p (word :: args) .part) :
    (s.part p (word :: args)).freedUses = s.freedUses ↔
      ¬ s.Empties (departing s.toTables p (word :: args)) := by
  unfold departing
  rw [if_pos hruns]
  cases args with
  | nil => simp [part, Tables.Empties]
  | cons channels words => exact partChannels_freedUses_iff h p _ _

/-- `KICK` behind the registration test: it returns and has used no deleted channel, or
it goes on with the one that the removal of its only member has deleted. -/
theorem kick_cases (h : s.ChannelsEntered) {word : Str} {args : List Str}
    (hruns : RunsRegistered s.toTables p (word :: args) .kick) :
    s.SparesFreed (s.kick p (word :: args)) ∧
        ¬ s.Empties (departing s.toTables p (word :: args)) ∨
      s.kick p (word :: args) = .fault .freedChannel ∧
        s.Empties (departing s.toTables p (word :: args)) := by
  have hpart : ¬ RunsRegistered s.toTables p (word :: args) .part := hruns.unique nofun
  have hnone : ¬ s.Empties [] := by simp [Tables.Empties]
  unfold departing
  rw [if_neg hpart, if_pos hruns]
  match args with
  | [] | [_] => exact Or.inl ⟨⟨_, rfl, rfl⟩, hnone⟩
  | name :: nickname :: words =>
      unfold kick
      dsimp only
      cases hch : s.channels[name]? with
      | none => exact Or.inl ⟨⟨_, rfl, rfl⟩, hnone⟩
      | some ch =>
          dsimp only
          rw [show (s.memory p).nickname = s.nickOf p from rfl]
          by_cases hop : ch.opNick = s.nickOf p
          · rw [if_neg (not_not.mpr hop)]
            cases htarget : s.getClient nickname with
            | none => exact Or.inl ⟨⟨_, rfl, rfl⟩, hnone⟩
            | some target =>
                dsimp only
                rw [if_pos hop]
                have hempties : s.Empties [(name, target)] ↔ ch.curClients = [target] := by
                  simp [Tables.Empties, hch]
                rw [hempties]
                by_cases hmem : target ∈ ch.curClients
                · rw [if_neg (by simpa [Channel.isUserOnChannel] using hmem)]
                  by_cases honly : ch.curClients = [target]
                  · exact Or.inr ⟨kickMember_of_only hch h honly p _, honly⟩
                  · exact Or.inl ⟨kickMember_of_others hch h honly p _, honly⟩
                · rw [if_pos (by simpa [Channel.isUserOnChannel] using hmem)]
                  refine Or.inl ⟨⟨_, rfl, rfl⟩, fun honly => ?_⟩
                  simp [honly] at hmem
          · rw [if_pos hop]
            cases htarget : s.getClient nickname with
            | none => exact Or.inl ⟨⟨_, rfl, rfl⟩, hnone⟩
            | some target =>
                dsimp only
                rw [if_neg hop]
                exact Or.inl ⟨⟨_, rfl, rfl⟩, hnone⟩

/-- A `PART` or `KICK` line returns and has used no deleted channel, just when no
departure it asks for is that of the only member of a channel. -/
theorem departure_sparesFreed_iff (h : s.ChannelsEntered) (env : Env) {line : Str}
    (hverb : AsksDeparture (commandParts line)) :
    s.SparesFreed (commandParser env line p s) ↔
      ¬ s.Empties (departing s.toTables p (commandParts line)) := by
  obtain ⟨word, args, hparts, hverb⟩ := hverb
  by_cases hreg : (s.memory p).registered = true
  · rw [hparts]
    rcases hverb with hverb | hverb
    · have hruns : RunsRegistered s.toTables p (commandParts line) .part :=
        ⟨word, args, hparts, hverb, by decide, hreg⟩
      rw [hruns.commandParser_eq (by decide) hparts]
      exact sparesFreed_done.trans (part_freedUses_iff h (hparts ▸ hruns))
    · have hruns : RunsRegistered s.toTables p (commandParts line) .kick :=
        ⟨word, args, hparts, hverb, by decide, hreg⟩
      rw [hruns.commandParser_eq (by decide) hparts]
      change s.SparesFreed (s.kick p (word :: args)) ↔ _
      rcases kick_cases h (hparts ▸ hruns) with ⟨hspares, hstay⟩ | ⟨hfault, hempties⟩
      · exact iff_of_true hspares hstay
      · rw [hfault]
        exact iff_of_false (fun hspares => by simp [SparesFreed] at hspares) (not_not.mpr hempties)
  · have hnot : ∀ verb, ¬ RunsRegistered s.toTables p (commandParts line) verb := by
      rintro verb ⟨_, _, _, _, _, hlogged⟩
      exact hreg hlogged
    refine iff_of_true ?_ ?_
    · unfold commandParser handleCommand
      split
      · exact sparesFreed_done.mpr rfl
      · rw [hparts]
        dsimp only
        rcases hverb with hverb | hverb <;> simp [hverb, sparesFreed_done]
    · unfold departing
      rw [if_neg (hnot _), if_neg (hnot _)]
      simp [Tables.Empties]

end Server

/-- **Deleted channels.**  In every reachable state a `PART` or `KICK` line is
handled to its end without a use of a deleted channel, if and only if none of the
departures it asks for is that of the only member of a channel. -/
theorem freed_channels_unused_iff {trace : Run.Trace World Action} {w : World}
    (run : Steps trace w) (env : Env) (fd : Fd) (line : Str) (lines : List Str)
    (hverb : AsksDeparture (commandParts line)) :
    (∃ next, w.command env fd line lines = some next ∧
      next.srv.freedUses = w.srv.freedUses) ↔
    ¬ w.srv.Empties (departing (w.srv.index fd env.leftover).1
      (w.srv.index fd env.leftover).2 (commandParts line)) := by
  have hentered : (w.srv.withTables (w.srv.index fd env.leftover).1).ChannelsEntered :=
    (Tables.EachChannel.congr (Tables.index_channels _ _ _)).mpr (channelsEntered run)
  have hiff := Server.departure_sparesFreed_iff
    (p := (w.srv.index fd env.leftover).2) hentered env hverb
  have hempties : ∀ departures, (w.srv.index fd env.leftover).1.Empties departures ↔
      w.srv.Empties departures := by
    intro departures
    unfold Tables.Empties
    rw [Tables.index_channels]
  rw [Server.withTables_toTables, hempties] at hiff
  rw [← hiff]
  have hquit : ¬ RunsRegistered (w.srv.index fd env.leftover).1 (w.srv.index fd env.leftover).2
      (commandParts line) .quit := by
    obtain ⟨word, args, hparts, hverb⟩ := hverb
    rintro ⟨word', args', hparts', hquit, -, -⟩
    obtain ⟨rfl, rfl⟩ := List.cons.inj (hparts.symm.trans hparts')
    rcases hverb with hverb | hverb <;> simp [hverb] at hquit
  constructor
  · rintro ⟨next, hnext, hsame⟩
    exact ⟨_, World.command_done hquit hnext, hsame⟩
  · rintro ⟨s', hdone, hsame⟩
    unfold World.command
    dsimp only
    rw [hdone]
    exact ⟨_, rfl, hsame⟩

/-- A line that meets the condition: one of two members parts. -/
theorem freed_channels_unused_iff_two : ∃ trace w next, Steps trace w ∧
    w.command Env.calm 6 "PART #c".toList [] = some next ∧
    (w.srv.channels["#c".toList]?).map Channel.curClients = some [0, 1] ∧
    next.srv.freedUses = w.srv.freedUses := by
  obtain ⟨trace, w, run, htest⟩ := Run.exists_steps_of_perform step start_pw
    ([.accept 5 "10.0.0.1".toList 40000, .accept 6 "10.0.0.2".toList 40000] ++
      packet 5 ["PASS pw", "NICK a", "USER a a a n", "JOIN #c"] ++
      packet 6 ["PASS pw", "NICK b", "USER b b b n", "JOIN #c"])
    (fun w => (w.srv.channels["#c".toList]?).map Channel.curClients = some [0, 1] ∧
      ¬ w.srv.Empties (departing (w.srv.index 6 Env.calm.leftover).1
        (w.srv.index 6 Env.calm.leftover).2 (commandParts "PART #c".toList)))
    (by decide +kernel)
  obtain ⟨hmembers, hstay⟩ := of_decide_eq_true htest
  obtain ⟨next, hnext, hsame⟩ := (freed_channels_unused_iff run Env.calm 6
    "PART #c".toList [] ⟨"PART".toList, ["#c".toList], by decide, by decide⟩).mpr hstay
  exact ⟨trace, w, next, run, hnext, hmembers, hsame⟩

/-- The only member of `#c` parts. -/
theorem parted_channel_used : ¬ ∀ trace w, Steps trace w → ∀ env fd line lines next,
    AsksDeparture (commandParts line) → w.command env fd line lines = some next →
    next.srv.freedUses = w.srv.freedUses := by
  intro hall
  obtain ⟨trace, w, run, htest⟩ := Run.exists_steps_of_perform step start_pw
    (.accept 5 "10.0.0.1".toList 40000 ::
      packet 5 ["PASS pw", "NICK a", "USER a a a n", "JOIN #c"])
    (fun w => w.srv.freedUses = [] ∧
      (w.command Env.calm 5 "PART #c".toList []).any
        fun next => next.srv.freedUses = ["#c".toList]) (by decide +kernel)
  obtain ⟨hbefore, hany⟩ := of_decide_eq_true htest
  obtain ⟨next, hnext, hafter⟩ := (Option.any_eq_true _ _).mp hany
  have hsame := hall trace w run Env.calm 5 "PART #c".toList [] next
    ⟨"PART".toList, ["#c".toList], by decide, by decide⟩ hnext
  rw [hbefore, of_decide_eq_true hafter] at hsame
  cases hsame

end Irc
