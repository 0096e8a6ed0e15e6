import IrcServers.Irc.Rosters

/-!
# The channel table

What holds of every entry of `_channels` in every run, lines of disconnected
clients included: it is stored under its own name, the name is a channel name,
and its member list is not empty, holds nobody twice and is within the user
limit.  A full channel therefore admits nobody, and a channel disappears just
when the only client it lists is removed from it.
-/

namespace Irc

/-- What every entry of the channel table satisfies. -/
structure Channel.Entered (name : Str) (ch : Channel) : Prop where
  keyed : ch.name = name
  long : 2 ≤ name.length
  hash : name.head? = some '#'
  nonempty : ch.curClients ≠ []
  nodup : ch.curClients.Nodup
  limit : ch.userLimit = 10
  within : ch.curClients.length ≤ ch.userLimit

/-- An entry may lose members, but not all of them. -/
theorem Channel.Entered.of_sublist {name : Str} {ch next : Channel} (h : ch.Entered name)
    (hname : next.name = ch.name) (hlimit : next.userLimit = ch.userLimit)
    (hsub : List.Sublist next.curClients ch.curClients) (hnonempty : next.curClients ≠ []) :
    next.Entered name where
  keyed := hname.trans h.keyed
  long := h.long
  hash := h.hash
  nonempty := hnonempty
  nodup := hsub.nodup h.nodup
  limit := hlimit.trans h.limit
  within := hlimit ▸ hsub.length_le.trans h.within

namespace Tables

variable {t t' : Tables} {p x : ClientPtr} {name : Str} {ch : Channel} {parts : List Str}

/-- Every channel is entered as it should be. -/
def ChannelsEntered (t : Tables) : Prop := t.EachChannel fun name ch => ch.Entered name

/-- Every channel is stored under its own name. -/
theorem ChannelsEntered.keyed (h : t.ChannelsEntered) :
    t.EachChannel fun name ch => ch.name = name :=
  h.imp fun _ _ hch => hch.keyed

/-- A departure leaves the table in order: an empty channel goes. -/
theorem ChannelsEntered.leave (h : t.ChannelsEntered) (name : Str) (x : ClientPtr) :
    (t.leave name x).ChannelsEntered := by
  refine EachChannel.leave h h.keyed ?_ ?_
  · intro ch front rest hch hmem herase hop
    exact (h name ch hch).of_sublist rfl rfl (herase ▸ List.erase_sublist) (by
      simp [Channel.makeOp, Channel.setOp])
  · intro ch front rest hch hmem herase hop
    exact (h name ch hch).of_sublist rfl rfl (herase ▸ List.erase_sublist) (by simp)

/-- So do several departures. -/
theorem ChannelsEntered.leaveAll (h : t.ChannelsEntered) (names : List Str) (x : ClientPtr) :
    (t.leaveAll names x).ChannelsEntered := by
  induction names generalizing t with
  | nil => exact h
  | cons name names ih => exact ih (h.leave name x)

/-- A command line keeps the channel table in order, whoever sent it. -/
theorem ChannelsEntered.effect (h : t.ChannelsEntered) (heffect : Effect p parts t t') :
    t'.ChannelsEntered := by
  cases heffect with
  | quiet => exact h
  | authenticated hpass => exact h
  | renamed nick hnick => exact h
  | registered username clientIp realname huser => exact h
  | joined name ch next hruns hch hnew hroom hnext =>
      have hch' := h name ch hch
      obtain ⟨hname, hlimit, hclients⟩ : next.name = ch.name ∧ next.userLimit = ch.userLimit ∧
          next.curClients = ch.curClients ++ [p] := by
        rcases hnext with rfl | ⟨_, rfl⟩ <;> exact ⟨rfl, rfl, rfl⟩
      refine EachChannel.setChannel h ⟨hname.trans hch'.keyed, hch'.long, hch'.hash, ?_, ?_,
        hlimit.trans hch'.limit, ?_⟩
      · simp [hclients]
      · rw [hclients]
        exact List.nodup_append.mpr ⟨hch'.nodup, List.nodup_singleton p, by
          intro a ha b hb heq
          subst heq
          exact hnew (List.mem_singleton.mp hb ▸ ha)⟩
      · rw [hclients, hlimit, List.length_append, List.length_singleton]
        exact hroom
  | created name key hruns hlen hhash hch =>
      refine EachChannel.setChannel h ⟨rfl, hlen, hhash, ?_, ?_, rfl, ?_⟩
      · simp [Channel.addClient, Channel.makeOp, Channel.setOp]
      · simp [Channel.new, Channel.addClient, Channel.makeOp, Channel.setOp]
      · simp [Channel.new, Channel.addClient, Channel.makeOp, Channel.setOp]
  | parted names hruns hnames => exact h.leaveAll names p
  | topicSet name topic ch hruns hch hop =>
      have hch' := h name ch hch
      exact EachChannel.setChannel h (hch'.of_sublist rfl rfl (List.Sublist.refl _) hch'.nonempty)
  | kicked name target ch hruns hch hop hlive hmem htarget => exact h.leave name target

/-- A departure creates no channel. -/
theorem leave_absent (h : t.channels[name]? = none) (k : Str) (x : ClientPtr) :
    (t.leave k x).channels[name]? = none := by
  have hset : ∀ ch next, t.channels[k]? = some ch →
      (t.setChannel k next).channels[name]? = none := by
    intro ch next hch
    rw [setChannel_getElem?, if_neg]
    · exact h
    · rintro rfl
      rw [h] at hch
      cases hch
  have hdeparts := departs_leave t k x
  generalize t.leave k x = t' at hdeparts ⊢
  cases hdeparts with
  | absent hch => exact h
  | stranger ch hch hmem => exact h
  | emptied ch hch hmem herase =>
      rw [Std.ExtTreeMap.getElem?_erase]
      split
      · rfl
      · exact hset ch _ hch
  | succeeded ch front rest hch hmem herase hop => exact hset ch _ hch
  | left ch front rest hch hmem herase hop => exact hset ch _ hch

/-- Departures create no channel. -/
theorem leaveAll_absent (h : t.channels[name]? = none) (names : List Str) (x : ClientPtr) :
    (t.leaveAll names x).channels[name]? = none := by
  induction names generalizing t with
  | nil => exact h
  | cons k names ih => exact ih (leave_absent h k x)

/-- A departure from a channel deletes it when nobody else is on it, and
otherwise leaves it without the client. -/
theorem leave_self (h : t.ChannelsEntered) (hch : t.channels[name]? = some ch) :
    (ch.curClients = [x] ∧ (t.leave name x).channels[name]? = none) ∨
      (ch.curClients ≠ [x] ∧
        ∃ next, (t.leave name x).channels[name]? = some next ∧ x ∉ next.curClients) := by
  have hentered := h name ch hch
  have hgone : ∀ {front : ClientPtr} {rest : List ClientPtr},
      ch.curClients.erase x = front :: rest → ch.curClients ≠ [x] ∧ x ∉ front :: rest := by
    intro front rest herase
    refine ⟨?_, herase ▸ List.Nodup.not_mem_erase hentered.nodup⟩
    intro hself
    simp [hself] at herase
  have hset : ∀ next, (t.setChannel name next).channels[name]? = some next := by
    intro next
    rw [setChannel_getElem?, if_pos rfl]
  have hdeparts := departs_leave t name x
  generalize t.leave name x = t' at hdeparts ⊢
  cases hdeparts with
  | absent hnone => simp [hnone] at hch
  | stranger c hc hmem =>
      obtain rfl : c = ch := Option.some.inj (hc.symm.trans hch)
      exact Or.inr ⟨fun hself => hmem (by simp [hself]), c, hc, hmem⟩
  | emptied c hc hmem herase =>
      obtain rfl : c = ch := Option.some.inj (hc.symm.trans hch)
      refine Or.inl ⟨?_, by simp [hentered.keyed]⟩
      rcases List.erase_eq_nil_iff.mp herase with hnil | hself
      · exact (hentered.nonempty hnil).elim
      · exact hself
  | succeeded c front rest hc hmem herase hop =>
      obtain rfl : c = ch := Option.some.inj (hc.symm.trans hch)
      exact Or.inr ⟨(hgone herase).1, _, hset _, (hgone herase).2⟩
  | left c front rest hc hmem herase hop =>
      obtain rfl : c = ch := Option.some.inj (hc.symm.trans hch)
      exact Or.inr ⟨(hgone herase).1, _, hset _, (hgone herase).2⟩

/-- Several departures of a client delete a channel just when one of them is
from it and nobody else is on it. -/
theorem leaveAll_gone_iff (h : t.ChannelsEntered) (hch : t.channels[name]? = some ch)
    (names : List Str) (x : ClientPtr) :
    (t.leaveAll names x).channels[name]? = none ↔ ch.curClients = [x] ∧ name ∈ names := by
  induction names generalizing t ch with
  | nil => simp [leaveAll, hch]
  | cons k names ih =>
      change ((t.leave k x).leaveAll names x).channels[name]? = none ↔ _
      by_cases hk : k = name
      · subst hk
        rcases leave_self (x := x) h hch with ⟨hself, hnone⟩ | ⟨hother, next, hnext, hout⟩
        · exact iff_of_true (leaveAll_absent hnone names x) ⟨hself, List.mem_cons_self⟩
        · rw [ih (h.leave k x) hnext]
          refine iff_of_false (fun hself => hout ?_) fun hself => hother hself.1
          rw [hself.1]
          exact List.mem_singleton_self x
      · have hsame := leave_getElem?_of_ne (x := x) h.keyed hk
        rw [ih (h.leave k x) (hsame.trans hch)]
        simp [Ne.symm hk]

end Tables

section Effects

variable {t t' : Tables} {p q : ClientPtr} {name : Str} {ch : Channel} {parts : List Str}

/-- Whoever a command line adds to a channel finds room there. -/
theorem Effect.full (h : Effect p parts t t') (hch : t.channels[name]? = some ch)
    (hfull : ch.userLimit ≤ ch.curClients.length) (hq : t'.Member name q) :
    t.Member name q := by
  cases h with
  | quiet => exact hq
  | authenticated h => exact hq
  | renamed nick h => exact hq
  | registered username clientIp realname h => exact hq
  | joined k c next h hc hnew hroom hnext =>
      rcases Tables.member_setChannel hq with ⟨rfl, _⟩ | hold
      · obtain rfl : c = ch := Option.some.inj (hc.symm.trans hch)
        exact absurd hroom (Nat.not_lt_of_le hfull)
      · exact hold
  | created k key h hlen hhash hnone =>
      rcases Tables.member_setChannel hq with ⟨rfl, _⟩ | hold
      · rw [hnone] at hch
        cases hch
      · exact hold
  | parted names h hnames => exact hq.of_leaveAll
  | topicSet k topic c h hc hop =>
      rcases Tables.member_setChannel hq with ⟨rfl, hmem⟩ | hold
      · exact ⟨c, hc, hmem⟩
      · exact hold
  | kicked k target c h hc hop hlive hmem htarget => exact hq.of_leave

/-- A line that asks for no departure deletes no channel. -/
theorem Effect.survives (h : Effect p parts t t') (hch : t.channels[name]? = some ch)
    (hstay : departing t p parts = []) : t'.channels[name]? ≠ none := by
  have hset : ∀ k next, (t.setChannel k next).channels[name]? ≠ none := by
    intro k next
    rw [Tables.setChannel_getElem?]
    split
    · simp
    · simp [hch]
  cases h with
  | quiet => simp [hch]
  | authenticated h => simp [hch]
  | renamed nick h => simp [hch, Tables.registerNick]
  | registered username clientIp realname h => simp [hch]
  | joined k c next h hc hnew hroom hnext => exact hset k next
  | created k key h hlen hhash hnone => exact hset k _
  | parted names h hnames =>
      rw [hstay] at hnames
      rw [List.map_eq_nil_iff.mp hnames.symm]
      simp [Tables.leaveAll, hch]
  | topicSet k topic c h hc hop => exact hset k _
  | kicked k target c h hc hop hlive hmem htarget => simp [hstay] at htarget

end Effects

/-- The dispatch of a line that runs a known command behind the registration
test. -/
theorem RunsRegistered.commandParser_eq {env : Env} {line word : Str} {args : List Str}
    {p : ClientPtr} {s : Server} {verb : Verb}
    (h : RunsRegistered s.toTables p (commandParts line) verb) (hknown : verb ≠ .unknown)
    (hparts : commandParts line = word :: args) :
    Server.commandParser env line p s = s.handleRegistered env p (word :: args) verb := by
  obtain ⟨word', args', hparts', rfl, hopen, hreg⟩ := h
  obtain ⟨rfl, rfl⟩ := List.cons.inj (hparts'.symm.trans hparts)
  refine commandParser_registered ?_ hparts hopen hreg
  rintro rfl
  have hnil : commandParts [] = [[]] := by decide
  obtain ⟨rfl, -⟩ := List.cons.inj (hparts.symm.trans hnil)
  exact hknown (by decide)

/-- A line that asks for departures is carried out on the tables, if it returns. -/
theorem commandParser_departing (env : Env) {line : Str} {p : ClientPtr} {s : Server}
    (h : departing s.toTables p (commandParts line) ≠ []) :
    ∃ names x, departing s.toTables p (commandParts line) =
        names.map (fun name => (name, x)) ∧
      (Server.commandParser env line p s).Leaves fun s' =>
        s'.toTables = s.toTables.leaveAll names x := by
  by_cases hpart : RunsRegistered s.toTables p (commandParts line) .part
  · simp only [departing, if_pos hpart] at h ⊢
    split at h
    · rename_i word channels words hparts
      refine ⟨_, p, rfl, ?_⟩
      rw [hpart.commandParser_eq (by decide) hparts]
      refine Outcome.leaves_done.mpr ?_
      simp only [Server.part, partChannels_toTables]
    · exact (h rfl).elim
  · simp only [departing, if_neg hpart] at h ⊢
    split at h
    · rename_i hkick
      rw [if_pos hkick]
      split at h
      · rename_i word name nickname words hparts
        split at h
        · rename_i ch target hch htarget
          split at h
          · rename_i hop
            simp only [hop, if_true]
            refine ⟨[name], target, rfl, ?_⟩
            rw [hkick.commandParser_eq (by decide) hparts]
            change (s.kick p (word :: name :: nickname :: words)).Leaves _
            unfold Server.kick
            dsimp only
            rw [hch]
            dsimp only
            rw [if_neg (not_not.mpr (show ch.opNick = s.nickOf p from hop)), htarget]
            dsimp only
            split
            · rename_i hon
              have hmem : target ∉ ch.curClients := by simpa [Channel.isUserOnChannel] using hon
              exact Outcome.leaves_done.mpr (by simp [Tables.leaveAll, Tables.leave, hch, hmem])
            · exact kickMember_leaves s p target name _
          · exact (h rfl).elim
        · exact (h rfl).elim
      · exact (h rfl).elim
    · exact (h rfl).elim

/-- The handler of a line that is no `QUIT` has returned, when the round of the loop
has. -/
theorem World.command_done {w next : World} {env : Env} {fd : Fd} {line : Str}
    {lines : List Str} (hquit : ¬ RunsRegistered (w.srv.index fd env.leftover).1
      (w.srv.index fd env.leftover).2 (commandParts line) .quit)
    (hnext : w.command env fd line lines = some next) :
    Server.commandParser env line (w.srv.index fd env.leftover).2
      (w.srv.withTables (w.srv.index fd env.leftover).1) = .done next.srv := by
  unfold World.command at hnext
  dsimp only at hnext
  split at hnext
  · rename_i s' hdone
    cases hnext
    exact hdone
  · rename_i e s' hthrown
    exact (commandParser_not_thrown (s := w.srv.withTables _) hquit e s' hthrown).elim
  · cases hnext

/-- The departures a step asks for and is entitled to ask for. -/
def World.departures (w : World) : Action → List (Str × ClientPtr)
  | .command env =>
      match w.current with
      | some (fd, line) =>
          departing (w.srv.index fd env.leftover).1 (w.srv.index fd env.leftover).2
            (commandParts line)
      | none => []
  | _ => []

/-- There are no channels at the start. -/
theorem channelsEntered_start {w : World} (h : Start w) : w.srv.ChannelsEntered := by
  obtain ⟨password, host, serverSocket, botSocket, _, rfl⟩ := h
  intro name ch hch
  simp [initial] at hch

/-- A step leaves the table of channels in order. -/
theorem channelsEntered_step {w next : World} {a : Action} (h : w.srv.ChannelsEntered)
    (hstep : step w a = some next) : next.srv.ChannelsEntered := by
  have hsame : ∀ {t : Tables}, t.channels = w.srv.channels → t.ChannelsEntered :=
    fun hchannels => (Tables.EachChannel.congr hchannels).mpr h
  rcases (step_move hstep).closes_or with ⟨f, _, htables⟩ |
    ⟨_, ⟨fd, ip, port, _, htables⟩ | htables | ⟨env, fd, line, lines, _, _, heffect⟩⟩
  · refine hsame ?_
    rw [htables, Tables.closeConnection_channels]
    unfold World.entered
    split
    · split
      · exact Tables.index_channels _ _ _
      · rfl
    · rfl
  · refine hsame ?_
    rw [htables, Tables.acceptConnection_eq]
    exact Tables.index_channels _ _ _
  · exact hsame (by rw [htables])
  · exact Tables.ChannelsEntered.effect (hsame (Tables.index_channels _ _ _)) heffect

/-- It is in order in every state of a run. -/
theorem channelsEntered {trace : Run.Trace World Action} {w : World} (run : Steps trace w) :
    w.srv.ChannelsEntered :=
  run.invariant (fun w => w.srv.ChannelsEntered) (fun _ => channelsEntered_start)
    fun _ _ _ => channelsEntered_step

/-- What a step does to a channel that is there: if it is full nobody is added
to it, and it is deleted just when its only member departs. -/
theorem channel_step {w next : World} {a : Action} {name : Str} {ch : Channel}
    (h : w.srv.ChannelsEntered) (hstep : step w a = some next)
    (hch : w.srv.channels[name]? = some ch) :
    (ch.userLimit ≤ ch.curClients.length →
      ∀ q, next.srv.Member name q → q ∈ ch.curClients) ∧
    (next.srv.channels[name]? = none ↔
      ∃ p, ch.curClients = [p] ∧ (name, p) ∈ w.departures a) := by
  have hunchanged : ∀ {t : Tables}, t.channels = w.srv.channels →
      (∀ q, t.Member name q → q ∈ ch.curClients) ∧ t.channels[name]? ≠ none := by
    intro t hchannels
    refine ⟨fun q hq => ?_, by simp [hchannels, hch]⟩
    obtain ⟨c, hc, hmem⟩ := hq
    rw [hchannels, hch] at hc
    cases hc
    exact hmem
  have hquiet : next.srv.channels = w.srv.channels → w.departures a = [] →
      (ch.userLimit ≤ ch.curClients.length →
        ∀ q, next.srv.Member name q → q ∈ ch.curClients) ∧
      (next.srv.channels[name]? = none ↔
        ∃ p, ch.curClients = [p] ∧ (name, p) ∈ w.departures a) := by
    intro hchannels hdepartures
    obtain ⟨hmember, hthere⟩ := hunchanged hchannels
    exact ⟨fun _ => hmember, iff_of_false hthere (by simp [hdepartures])⟩
  cases step_move hstep with
  | accepted fd ip port _ hidle hfresh htables hreading =>
      refine hquiet ?_ rfl
      rw [htables, Tables.acceptConnection_eq]
      exact Tables.index_channels _ _ _
  | received fd results text _ hidle hpolled htext htables hreading =>
      exact hquiet (by rw [htables]) rfl
  | hungUp fd results _ hidle hpolled hend htables hreading =>
      exact hquiet (by rw [htables, Tables.closeConnection_channels]) rfl
  | quitted env fd line lines _ hline hquit hsent htables hreading =>
      refine hquiet (by rw [htables]; simp) ?_
      simp only [World.departures, World.current, hline, departing]
      rw [if_neg (hquit.unique (by decide)), if_neg (hquit.unique (by decide))]
  | aborted env fd line lines _ hline hquit hfailed htables hreading =>
      refine hquiet (by rw [htables]; simp) ?_
      simp only [World.departures, World.current, hline, departing]
      rw [if_neg (hquit.unique (by decide)), if_neg (hquit.unique (by decide))]
  | handled env fd line lines _ hline hquit heffect hreading =>
      have hentered : (w.srv.index fd env.leftover).1.ChannelsEntered :=
        (Tables.EachChannel.congr (Tables.index_channels _ _ _)).mpr h
      have hch' : (w.srv.index fd env.leftover).1.channels[name]? = some ch := by
        rw [Tables.index_channels, hch]
      have hdepartures : w.departures (.command env) = departing (w.srv.index fd env.leftover).1
          (w.srv.index fd env.leftover).2 (commandParts line) := by
        simp [World.departures, World.current, hline]
      refine ⟨fun hfull q hq => ?_, ?_⟩
      · obtain ⟨c, hc, hmem⟩ := heffect.full hch' hfull hq
        rw [hch'] at hc
        cases hc
        exact hmem
      · rw [hdepartures]
        by_cases hstay : departing (w.srv.index fd env.leftover).1
            (w.srv.index fd env.leftover).2 (commandParts line) = []
        · exact iff_of_false (heffect.survives hch' hstay) (by simp [hstay])
        · obtain ⟨names, x, hnames, hleaves⟩ :=
            commandParser_departing env (s := w.srv.withTables _) hstay
          rw [Server.withTables_toTables] at hnames hleaves
          simp only [step, hline] at hstep
          rw [World.command_done hquit hstep, Outcome.leaves_done] at hleaves
          rw [hnames]
          simp only [hleaves]
          rw [Tables.leaveAll_gone_iff hentered hch']
          simp

/-- **The channel table.**  In every run every channel is stored under its own
name, a channel name, and its members are between one and ten different
clients; and whatever comes next, a full channel admits nobody and a channel is
deleted just when its only member departs. -/
theorem channel_table {trace : Run.Trace World Action} {w : World} (hrun : Steps trace w) :
    (∀ (name : Str) (ch : Channel), w.srv.channels[name]? = some ch → ch.Entered name) ∧
    ∀ (a : Action) (next : World) (name : Str) (ch : Channel), step w a = some next →
      w.srv.channels[name]? = some ch →
      (ch.userLimit ≤ ch.curClients.length →
        ∀ q, next.srv.Member name q → q ∈ ch.curClients) ∧
      (next.srv.channels[name]? = none ↔
        ∃ p, ch.curClients = [p] ∧ (name, p) ∈ w.departures a) := by
  have h := channelsEntered hrun
  exact ⟨h, fun a next name ch hstep hch => channel_step h hstep hch⟩

/-- The last member of a channel parts. -/
theorem channel_table_parted : ∃ trace w next, Steps trace w ∧
    step w (.command Env.calm) = some next ∧ w.srv.Member "#c".toList 0 ∧
    next.srv.channels["#c".toList]? = none := by
  obtain ⟨trace, w, hrun, htest⟩ := Run.exists_steps_of_perform step start_pw
    (.accept 5 "10.0.0.1".toList 40000 :: packet 5
      ["PASS pw", "NICK a", "USER a a a n", "JOIN #c"] ++ (packet 5 ["PART #a,#c,#c bye"]).take 1)
    (fun w => (w.srv.channels["#c".toList]?).map Channel.curClients = some [0] ∧
      ("#c".toList, 0) ∈ w.departures (.command Env.calm) ∧
      (step w (.command Env.calm)).isSome) (by decide +kernel)
  obtain ⟨hmembers, hdeparts, hsome⟩ := of_decide_eq_true htest
  obtain ⟨ch, hch, hclients⟩ := Option.map_eq_some_iff.mp hmembers
  obtain ⟨next, hstep⟩ := Option.isSome_iff_exists.mp hsome
  exact ⟨trace, w, next, hrun, hstep, ⟨ch, hch, by simp [hclients]⟩,
    (((channel_table hrun).2 _ next _ ch hstep hch).2).mpr ⟨0, hclients, hdeparts⟩⟩

end Irc
