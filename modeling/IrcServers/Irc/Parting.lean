import IrcServers.Irc.ChannelTable

/-!
# Parting

`PART` for a list of channels, and `PART` behind `JOIN`.  The loop of
`Part::part` deletes channels from the map it looks up the next name in, but a
departure from one channel leaves the others alone and a second departure from
the same channel does nothing, so the table afterwards can be read off channel
by channel.  A `JOIN` is undone by a `PART` for the same name unless the name
has a comma, at which only `PART` cuts, or the departure is taken for the
operator's.
-/

namespace Irc

/-- What a departure of `x` makes of a channel. -/
def Channel.parted (memory : ClientPtr → Client) (x : ClientPtr) (ch : Channel) :
    Option Channel :=
  if x ∈ ch.curClients then
    match ch.curClients.erase x with
    | [] => none
    | front :: rest =>
        let left := { ch with curClients := front :: rest }
        some (if ch.opNick = (memory x).nickname then left.makeOp front (memory front).nickname
          else left)
  else some ch

/-- A channel after the departure of `x`: it is gone if nobody else was on it, and
otherwise keeps its other members in their order and all it has but the operator,
who changes only if the nickname was that of `x`. -/
structure Channel.PartedBy (memory : ClientPtr → Client) (x : ClientPtr) (ch : Channel)
    (after : Option Channel) : Prop where
  gone : after = none ↔ ch.curClients = [x]
  members : ∀ next, after = some next → next.curClients = ch.curClients.filter (· ≠ x)
  settings : ∀ next, after = some next → next.name = ch.name ∧ next.key = ch.key ∧
    next.topic = ch.topic ∧ next.userLimit = ch.userLimit
  operator : ∀ next, after = some next →
    next.opNick = ch.opNick ∨ x ∈ ch.curClients ∧ ch.opNick = (memory x).nickname ∧
      next.curClients.head?.map (fun p => (memory p).nickname) = some next.opNick
  succeeded : ∀ next, after = some next → x ∈ ch.curClients →
    ch.opNick = (memory x).nickname →
      next.curClients.head?.map (fun p => (memory p).nickname) = some next.opNick

section Parted

variable {memory : ClientPtr → Client} {x : ClientPtr} {name : Str} {ch : Channel}

/-- Who is not on the channel leaves it as it is. -/
theorem Channel.parted_of_not_mem (h : x ∉ ch.curClients) :
    ch.parted memory x = some ch := if_neg h

/-- The channel without a member has the next one as its operator, or is gone. -/
theorem Channel.Entered.partedBy (h : ch.Entered name) :
    ch.PartedBy memory x (ch.parted memory x) := by
  unfold Channel.parted
  by_cases hmem : x ∈ ch.curClients
  · rw [if_pos hmem]
    have hfilter : ch.curClients.erase x = ch.curClients.filter (· ≠ x) := by
      rw [h.nodup.erase_eq_filter]
      exact List.filter_congr fun p _ => by rw [Bool.eq_iff_iff]; simp
    cases herase : ch.curClients.erase x with
    | nil =>
        have hself : ch.curClients = [x] :=
          (List.erase_eq_nil_iff.mp herase).resolve_left h.nonempty
        exact ⟨iff_of_true rfl hself, by simp, by simp, by simp, by simp⟩
    | cons front rest =>
        have hother : ch.curClients ≠ [x] := fun hself => by simp [hself] at herase
        dsimp only
        by_cases hop : ch.opNick = (memory x).nickname
        · rw [if_pos hop]
          refine ⟨iff_of_false (by simp) hother, ?_, ?_, ?_, ?_⟩ <;> rintro next ⟨⟩
          · exact herase ▸ hfilter
          · exact ⟨rfl, rfl, rfl, rfl⟩
          · exact Or.inr ⟨hmem, hop, rfl⟩
          · exact fun _ _ => rfl
        · rw [if_neg hop]
          refine ⟨iff_of_false (by simp) hother, ?_, ?_, ?_, ?_⟩ <;> rintro next ⟨⟩
          · exact herase ▸ hfilter
          · exact ⟨rfl, rfl, rfl, rfl⟩
          · exact Or.inl rfl
          · exact fun _ hled => (hop hled).elim
  · rw [if_neg hmem]
    refine ⟨iff_of_false (by simp) fun hself => hmem (by simp [hself]), ?_, ?_, ?_, ?_⟩ <;>
      rintro next ⟨⟩
    · exact (List.filter_eq_self.mpr fun p hp => by
        simpa using fun heq : p = x => hmem (heq ▸ hp)).symm
    · exact ⟨rfl, rfl, rfl, rfl⟩
    · exact Or.inl rfl
    · exact fun hx => (hmem hx).elim

/-- Whoever has left cannot leave again. -/
theorem Channel.Entered.parted_bind (h : ch.Entered name) :
    (ch.parted memory x).bind (Channel.parted memory x) = ch.parted memory x := by
  have hparted : ch.PartedBy memory x (ch.parted memory x) := h.partedBy
  cases hafter : ch.parted memory x with
  | none => rfl
  | some next =>
      rw [Option.bind_some, Channel.parted_of_not_mem]
      rw [hparted.members next hafter]
      simp

end Parted

namespace Tables

variable {t t' : Tables} {x : ClientPtr} {name k : Str} {ch : Channel}

/-- A departure, on the channel that it is from. -/
theorem leave_getElem?_self (h : t.ChannelsEntered) :
    (t.leave name x).channels[name]? = t.channels[name]?.bind (Channel.parted t.memory x) := by
  unfold leave
  cases hch : t.channels[name]? with
  | none => exact hch
  | some ch =>
      have hkeyed := (h name ch hch).keyed
      rw [Option.bind_some, Channel.parted]
      dsimp only
      by_cases hmem : x ∈ ch.curClients
      · rw [if_pos hmem, if_pos hmem]
        cases herase : ch.curClients.erase x with
        | nil => simp [hkeyed]
        | cons front rest =>
            dsimp only
            split <;> simp [setChannel_getElem?]
      · rw [if_neg hmem, if_neg hmem]
        exact hch

/-- The channels after several departures of a client: those that it has left,
however often, and those that it has not. -/
theorem leaveAll_getElem? (h : t.ChannelsEntered) (names : List Str) (x : ClientPtr) (k : Str) :
    (t.leaveAll names x).channels[k]? =
      if k ∈ names then t.channels[k]?.bind (Channel.parted t.memory x)
      else t.channels[k]? := by
  induction names generalizing t with
  | nil => rfl
  | cons name names ih =>
      change ((t.leave name x).leaveAll names x).channels[k]? = _
      rw [ih (h.leave name x), leave_memory]
      by_cases hname : name = k
      · subst hname
        rw [leave_getElem?_self h, if_pos List.mem_cons_self]
        split
        · cases hch : t.channels[name]? with
          | none => rfl
          | some ch => exact (h name ch hch).parted_bind
        · rfl
      · rw [leave_getElem?_of_ne h.keyed hname]
        simp [Ne.symm hname]

end Tables

/-! ## Lines -/

/-- The words of a command with a space between them. -/
def commandLine (words : List Str) : Str := " ".toList.intercalate words

/-- What can stand in a line as a word: no space, no line break. -/
def Wordlike (word : Str) : Prop := ' ' ∉ word ∧ '\n' ∉ word

instance (word : Str) : Decidable (Wordlike word) := inferInstanceAs (Decidable (_ ∧ _))

/-- The words of a line are those that it is made of. -/
theorem commandParts_commandLine {word : Str} {args : List Str}
    (h : ∀ w ∈ word :: args, Wordlike w) :
    commandParts (commandLine (word :: args)) = word.map Char.toUpper :: args := by
  have hbreak : (commandLine (word :: args)).filter (· ≠ '\n') = commandLine (word :: args) := by
    refine List.filter_eq_self.mpr fun c hc => ?_
    rw [decide_eq_true_eq]
    rintro rfl
    rcases Text.mem_intercalate hc with hin | ⟨w, hw, hin⟩
    · exact absurd hin (by decide)
    · exact (h w hw).2 hin
  unfold commandParts
  rw [hbreak, commandLine,
    show " ".toList = [' '] from rfl, Text.cut_intercalate (fun w hw => (h w hw).1) (by simp)]

/-- A list of names as it stands in a line. -/
def nameList (names : List Str) : Str := ",".toList.intercalate names

/-- A list of such names is a word of the line too. -/
theorem wordlike_nameList {names : List Str} (h : ∀ n ∈ names, Wordlike n) :
    Wordlike (nameList names) := by
  refine ⟨fun hin => ?_, fun hin => ?_⟩ <;>
    rcases Text.mem_intercalate hin with hin | ⟨n, hn, hin⟩
  · exact absurd hin (by decide)
  · exact (h n hn).1 hin
  · exact absurd hin (by decide)
  · exact (h n hn).2 hin

section Lines

variable {env : Env} {p : ClientPtr}

/-- The loop of `PART`, as a line of a client. -/
theorem commandParser_part {s : Server} {verb channels : Str} {words : List Str}
    (hverb : verbOf (verb.map Char.toUpper) = .part)
    (hwords : ∀ v ∈ verb :: channels :: words, Wordlike v)
    (hreg : (s.memory p).registered = true) :
    Server.commandParser env (commandLine (verb :: channels :: words)) p s =
      .done ((Text.cut ",".toList channels).foldl
        (Server.partChannel p (dropColon (joinWords words))) s) := by
  have hparts := commandParts_commandLine hwords
  have hruns : RunsRegistered s.toTables p
      (commandParts (commandLine (verb :: channels :: words))) .part :=
    ⟨_, _, hparts, hverb, by decide, hreg⟩
  rw [hruns.commandParser_eq (by decide) hparts]
  rfl

/-- One `PART` for each of several names.  A departure changes no memory, so that
each of them finds a registered client. -/
theorem each_commandParser_part {s : Server} {verb : Str} {names words : List Str}
    (hverb : verbOf (verb.map Char.toUpper) = .part) (hcommas : ∀ n ∈ names, ',' ∉ n)
    (hwords : ∀ v ∈ verb :: names ++ words, Wordlike v)
    (hreg : (s.memory p).registered = true) :
    Outcome.each (fun n => Server.commandParser env (commandLine (verb :: n :: words)) p) names
      s = .done (names.foldl (Server.partChannel p (dropColon (joinWords words))) s) := by
  induction names generalizing s with
  | nil => rfl
  | cons n names ih =>
      have hsingle : ∀ v ∈ verb :: n :: words, Wordlike v := fun v hv => hwords v (by
        simp only [List.cons_append, List.mem_cons, List.mem_append] at hv ⊢
        grind)
      have hmemory : ((s.partChannel p (dropColon (joinWords words)) n).memory p).registered =
          true := by
        rw [partChannel_toTables, Tables.leave_memory]
        exact hreg
      rw [Outcome.each_cons, commandParser_part hverb hsingle hreg,
        show ",".toList = [','] from rfl, Text.cut_of_not_mem (hcommas n List.mem_cons_self),
        Outcome.andThen_done,
        List.foldl_cons, List.foldl_nil, List.foldl_cons]
      refine ih (fun m hm => hcommas m (List.mem_cons_of_mem n hm)) (fun v hv => ?_) hmemory
      apply hwords
      simp only [List.cons_append, List.mem_cons, List.mem_append] at hv ⊢
      grind

end Lines

/-! ## `PART` for several channels -/

/-- The channel table after a client has parted from channels of the given names. -/
structure Tables.PartedFrom (t t' : Tables) (names : List Str) (x : ClientPtr) : Prop where
  frame : t' = { t with channels := t'.channels }
  absent : ∀ name : Str, t.channels[name]? = none → t'.channels[name]? = none
  others : ∀ name : Str, name ∉ names → t'.channels[name]? = t.channels[name]?
  parted : ∀ name ∈ names, ∀ ch, t.channels[name]? = some ch →
    ch.PartedBy t.memory x (t'.channels[name]?)

/-- Leaving the channels of a list has that effect on each of them. -/
theorem Tables.ChannelsEntered.partedFrom {t : Tables} (h : t.ChannelsEntered)
    (names : List Str) (x : ClientPtr) : t.PartedFrom (t.leaveAll names x) names x where
  frame := leaveAll_frame t names x
  absent := fun _ hch => leaveAll_absent hch names x
  others := fun name hname => by rw [leaveAll_getElem? h, if_neg hname]
  parted := fun name hname ch hch => by
    rw [leaveAll_getElem? h, if_pos hname, hch]
    exact (h name ch hch).partedBy

/-- A channel without the record of its creator and successors, which is not in
the source. -/
def Channel.seen (ch : Channel) : Channel := { ch with madeOp := [] }

/-- Two channel tables are the same in all that the source keeps. -/
def Tables.SameChannels (t t' : Tables) : Prop :=
  ∀ name : Str, (t.channels[name]?).map Channel.seen = (t'.channels[name]?).map Channel.seen

/-- A client that has joined a channel parts from it. -/
theorem Channel.Entered.parted_addClient {memory : ClientPtr → Client} {x : ClientPtr}
    {name : Str} {ch : Channel} (h : ch.Entered name) (hnew : x ∉ ch.curClients) :
    ((ch.addClient x).parted memory x).map Channel.seen = some ch.seen ↔
      (ch.opNick = (memory x).nickname →
        ch.curClients.head?.map (fun p => (memory p).nickname) = some ch.opNick) := by
  have hmem : x ∈ (ch.addClient x).curClients :=
    List.mem_append_right _ (List.mem_singleton_self x)
  have herase : (ch.addClient x).curClients.erase x = ch.curClients := by
    change (ch.curClients ++ [x]).erase x = ch.curClients
    rw [List.erase_append_right _ hnew]
    simp
  unfold Channel.parted
  rw [if_pos hmem, herase]
  cases hclients : ch.curClients with
  | nil => exact (h.nonempty hclients).elim
  | cons front rest =>
      dsimp only
      have hback : { ch.addClient x with curClients := front :: rest } = ch := by
        rw [← hclients]
        rfl
      rw [hback, show (ch.addClient x).opNick = ch.opNick from rfl, Option.map_some,
        Option.some.injEq, List.head?_cons, Option.map_some, Option.some.injEq]
      by_cases hop : ch.opNick = (memory x).nickname
      · rw [if_pos hop, forall_prop_of_true hop]
        constructor
        · intro hseen
          exact congrArg Channel.opNick hseen
        · intro hnick
          rw [Channel.makeOp, Channel.setOp, Channel.seen, hnick]
          rfl
      · rw [if_neg hop]
        exact iff_of_true rfl fun hled => (hop hled).elim

/-- What a `JOIN` that adds the client does to the table. -/
theorem Effect.joining {t t' : Tables} {p : ClientPtr} {parts : List Str} {name : Str}
    (h : Effect p parts t t') (hentered : t.ChannelsEntered) (hbefore : ¬ t.Member name p)
    (hafter : t'.Member name p) :
    (∃ ch, t.channels[name]? = some ch ∧ p ∉ ch.curClients ∧
      t' = t.setChannel name (ch.addClient p)) ∨
    ∃ ch, t.channels[name]? = none ∧ ch.name = name ∧ ch.curClients = [p] ∧
      t' = t.setChannel name ch := by
  cases h with
  | quiet => exact (hbefore hafter).elim
  | authenticated hpass => exact (hbefore hafter).elim
  | renamed nick hnick => exact (hbefore hafter).elim
  | registered username clientIp realname huser => exact (hbefore hafter).elim
  | joined k ch next hruns hch hnew hroom hnext =>
      rcases Tables.member_setChannel hafter with ⟨rfl, -⟩ | hold
      · rcases hnext with rfl | ⟨hone, -⟩
        · exact Or.inl ⟨ch, hch, hnew, rfl⟩
        · have hten := (hentered name ch hch).limit
          rw [hone] at hten
          cases hten
      · exact (hbefore hold).elim
  | created k key hruns hlen hhash hch =>
      rcases Tables.member_setChannel hafter with ⟨rfl, -⟩ | hold
      · exact Or.inr ⟨_, hch, rfl, rfl, rfl⟩
      · exact (hbefore hold).elim
  | parted names hruns hnames => exact (hbefore hafter.of_leaveAll).elim
  | topicSet k topic ch hruns hch hop =>
      rcases Tables.member_setChannel hafter with ⟨rfl, hmem⟩ | hold
      · exact (hbefore ⟨ch, hch, hmem⟩).elim
      · exact (hbefore hold).elim
  | kicked k target ch hruns hch hop hlive hmem htarget => exact (hbefore hafter.of_leave).elim

namespace Tables

variable {t t' : Tables} {x : ClientPtr} {name : Str}

/-- A departure from the channel just joined gives back the table when the
departure is not taken for the operator's, or the operator's nickname is that of
the first member anyway. -/
theorem sameChannels_leave_iff (h : t.ChannelsEntered) (h' : t'.ChannelsEntered)
    (hjoined : (∃ ch, t.channels[name]? = some ch ∧ x ∉ ch.curClients ∧
        t' = t.setChannel name (ch.addClient x)) ∨
      ∃ ch, t.channels[name]? = none ∧ ch.name = name ∧ ch.curClients = [x] ∧
        t' = t.setChannel name ch) :
    (t'.leave name x).SameChannels t ↔
      ∀ ch, t.channels[name]? = some ch → ch.opNick = (t.memory x).nickname →
        ch.curClients.head?.map (fun p => (t.memory p).nickname) = some ch.opNick := by
  have hothers : ∀ k, k ≠ name → (t'.leave name x).channels[k]? = t.channels[k]? := by
    intro k hk
    rw [leave_getElem?_of_ne h'.keyed (Ne.symm hk)]
    rcases hjoined with ⟨ch, -, -, rfl⟩ | ⟨ch, -, -, -, rfl⟩ <;>
      rw [setChannel_getElem?, if_neg (Ne.symm hk)]
  have hsame : (t'.leave name x).SameChannels t ↔
      ((t'.leave name x).channels[name]?).map Channel.seen =
        (t.channels[name]?).map Channel.seen := by
    constructor
    · exact fun hall => hall name
    · intro hself k
      by_cases hk : k = name
      · exact hk ▸ hself
      · rw [hothers k hk]
  rw [hsame, leave_getElem?_self h']
  rcases hjoined with ⟨ch, hch, hnew, rfl⟩ | ⟨ch, hch, hname, hclients, rfl⟩
  · rw [setChannel_getElem?, if_pos rfl, hch, Option.bind_some, Option.map_some,
      setChannel_memory, (h name ch hch).parted_addClient hnew]
    simp
  · rw [setChannel_getElem?, if_pos rfl, hch, Option.bind_some, Channel.parted,
      if_pos (by simp [hclients]), hclients]
    simp

end Tables

/-- A client that is on a channel of one table only tells the tables apart. -/
theorem Tables.SameChannels.member {t t' : Tables} {x : ClientPtr} {name : Str}
    (h : t.SameChannels t') (hmem : t.Member name x) : t'.Member name x := by
  obtain ⟨ch, hch, hx⟩ := hmem
  have hseen := h name
  rw [hch, Option.map_some] at hseen
  obtain ⟨ch', hch', hsame⟩ := Option.map_eq_some_iff.mp hseen.symm
  exact ⟨ch', hch', congrArg Channel.curClients hsame ▸ hx⟩

/-- **`PART` behind `JOIN`.**  In every reachable state, when a registered client's
`JOIN` adds it to a channel, its `PART` for the same name gives back the channel
table just when the name has no comma and, if the channel was there before, the
operator's nickname was not the client's or is that of the first member. -/
theorem part_undoes_join_iff {trace : Run.Trace World Action} {w joined : World}
    (run : Steps trace w) {fd : Fd} {p : ClientPtr} (hp : w.srv.clients[fd]? = some p)
    (hreg : (w.srv.memory p).registered = true) {name : Str} {joinVerb partVerb : Str}
    {keys words : List Str} (hjoinVerb : verbOf (joinVerb.map Char.toUpper) = .join)
    (hpartVerb : verbOf (partVerb.map Char.toUpper) = .part)
    (hjoin : ∀ v ∈ joinVerb :: name :: keys, Wordlike v)
    (hpart : ∀ v ∈ partVerb :: name :: words, Wordlike v) {env : Env} {lines : List Str}
    (hjoined : w.command env fd (commandLine (joinVerb :: name :: keys)) lines = some joined)
    (hbefore : ¬ w.srv.Member name p) (hafter : joined.srv.Member name p) (env' : Env)
    (lines' : List Str) :
    ∃ parted, joined.command env' fd (commandLine (partVerb :: name :: words)) lines' =
        some parted ∧
      (parted.srv.SameChannels w.srv.toTables ↔
        ',' ∉ name ∧ ∀ ch, w.srv.channels[name]? = some ch →
          ch.opNick = (w.srv.memory p).nickname →
            ch.curClients.head?.map (fun q => (w.srv.memory q).nickname) = some ch.opNick) := by
  have hentered := channelsEntered run
  have hparts := commandParts_commandLine hjoin
  have hruns : RunsRegistered w.srv.toTables p
      (commandParts (commandLine (joinVerb :: name :: keys))) .join :=
    ⟨_, _, hparts, hjoinVerb, by decide, hreg⟩
  have hdone : Server.commandParser env (commandLine (joinVerb :: name :: keys)) p w.srv = _ :=
    hruns.commandParser_eq (by decide) hparts
  rw [World.command_of_done hp hdone] at hjoined
  cases hjoined
  have heffect := commandParser_effect (hruns.unique (by decide)) hdone
  have hentered' := hentered.effect heffect
  generalize w.srv.join p (joinVerb.map Char.toUpper :: name :: keys) = s at *
  have hjoining := heffect.joining hentered hbefore hafter
  obtain ⟨hmemory, hclients⟩ : s.memory = w.srv.memory ∧ s.clients = w.srv.clients := by
    rcases hjoining with ⟨ch, -, -, htables⟩ | ⟨ch, -, -, -, htables⟩ <;>
      exact ⟨by rw [htables]; rfl, by rw [htables]; rfl⟩
  have hreg' : (s.memory p).registered = true := by
    rw [hmemory]
    exact hreg
  have hparted : Server.commandParser env' (commandLine (partVerb :: name :: words)) p s = _ :=
    commandParser_part hpartVerb hpart hreg'
  refine ⟨_, World.command_of_done (by rw [hclients]; exact hp) hparted, ?_⟩
  rw [partChannels_toTables]
  by_cases hcomma : ',' ∈ name
  · refine iff_of_false (fun hsame => hbefore ?_) fun h => h.1 hcomma
    obtain ⟨ch, hch, hmem⟩ := hafter
    refine hsame.member ⟨ch, ?_, hmem⟩
    rw [Tables.leaveAll_getElem? hentered', if_neg]
    · exact hch
    · intro hpiece
      have hnone := Text.find_of_mem_cut (by decide) hpiece
      exact Text.find_singleton_eq_none.mp hnone hcomma
  · rw [show ",".toList = [','] from rfl, Text.cut_of_not_mem hcomma]
    rw [show s.toTables.leaveAll [name] p = s.toTables.leave name p from rfl,
      Tables.sameChannels_leave_iff hentered hentered' hjoining, and_iff_right hcomma]

/-- A client joins a channel that another one has made, and parts from it. -/
theorem part_undoes_join_iff_second : ∃ trace w joined parted, Steps trace w ∧
    (w.srv.channels["#c".toList]?).map Channel.curClients = some [0] ∧
    w.command Env.calm 6 "JOIN #c".toList [] = some joined ∧
    joined.command Env.calm 6 "PART #c".toList [] = some parted ∧
    joined.srv.Member "#c".toList 1 ∧ parted.srv.SameChannels w.srv.toTables := by
  obtain ⟨trace, w, run, htest⟩ := Run.exists_steps_of_perform step start_pw
    ([.accept 5 "10.0.0.1".toList 40000, .accept 6 "10.0.0.2".toList 40000] ++
      packet 5 ["PASS pw", "NICK a", "USER a a a n", "JOIN #c"] ++
      packet 6 ["PASS pw", "NICK b", "USER b b b n"])
    (fun w => w.srv.clients[(6 : Fd)]? = some 1 ∧ (w.srv.memory 1).registered = true ∧
      (w.srv.memory 1).nickname = "b".toList ∧
      (w.srv.channels["#c".toList]?).map (fun ch => (ch.curClients, ch.opNick)) =
        some ([0], "a".toList) ∧
      (w.command Env.calm 6 "JOIN #c".toList []).any fun joined =>
        (joined.srv.channels["#c".toList]?).map Channel.curClients = some [0, 1])
    (by decide +kernel)
  obtain ⟨hp, hreg, hnick, hchannel, hany⟩ := of_decide_eq_true htest
  obtain ⟨joined, hjoined, hmembers⟩ := (Option.any_eq_true _ _).mp hany
  obtain ⟨ch, hch, hvalues⟩ := Option.map_eq_some_iff.mp hchannel
  obtain ⟨hclients, hop⟩ := Prod.mk.inj hvalues
  obtain ⟨ch', hch', hclients'⟩ := Option.map_eq_some_iff.mp (of_decide_eq_true hmembers)
  have hjoinVerb : verbOf ("JOIN".toList.map Char.toUpper) = .join := by decide
  have hpartVerb : verbOf ("PART".toList.map Char.toUpper) = .part := by decide
  have hbefore : ¬ w.srv.Member "#c".toList 1 := by
    rintro ⟨c, hc, hmem⟩
    rw [hch] at hc
    cases hc
    rw [hclients] at hmem
    exact absurd hmem (by decide)
  have hafter : joined.srv.Member "#c".toList 1 := ⟨ch', hch', by simp [hclients']⟩
  have hjoin : ∀ v ∈ ["JOIN".toList, "#c".toList], Wordlike v := by decide
  have hpart : ∀ v ∈ ["PART".toList, "#c".toList], Wordlike v := by decide
  obtain ⟨parted, hparted, hsame⟩ := part_undoes_join_iff run hp hreg hjoinVerb hpartVerb hjoin
    hpart hjoined hbefore hafter Env.calm []
  refine ⟨trace, w, joined, parted, run, by rw [hch, Option.map_some, hclients], hjoined, hparted,
    hafter, hsame.mpr ⟨by decide, fun c hc hled => ?_⟩⟩
  rw [hch] at hc
  cases hc
  rw [hop, hnick] at hled
  exact absurd hled (by decide)

/-- `JOIN #a,b` makes one channel, and `PART #a,b` finds neither `#a` nor `b`. -/
theorem part_keeps_comma : ¬ ∀ trace w joined parted fd p name, Steps trace w →
    w.srv.clients[fd]? = some p → (w.srv.memory p).registered = true →
    Wordlike name →
    w.command Env.calm fd (commandLine ["JOIN".toList, name]) [] = some joined →
    ¬ w.srv.Member name p → joined.srv.Member name p →
    joined.command Env.calm fd (commandLine ["PART".toList, name]) [] = some parted →
    parted.srv.SameChannels w.srv.toTables := by
  intro hall
  obtain ⟨trace, w, run, htest⟩ := Run.exists_steps_of_perform step start_pw
    (.accept 5 "10.0.0.1".toList 40000 ::
      packet 5 ["PASS pw", "NICK a", "USER a a a n"])
    (fun w => w.srv.clients[(5 : Fd)]? = some 0 ∧ (w.srv.memory 0).registered = true ∧
      (w.srv.channels["#a,b".toList]?).isNone ∧
      (w.command Env.calm 5 "JOIN #a,b".toList []).any fun joined =>
        (joined.srv.channels["#a,b".toList]?).any fun ch => 0 ∈ ch.curClients ∧
        (joined.command Env.calm 5 "PART #a,b".toList []).any fun parted =>
          (parted.srv.channels["#a,b".toList]?).isSome)
    (by decide +kernel)
  obtain ⟨hp, hreg, hnone, hany⟩ := of_decide_eq_true htest
  obtain ⟨joined, hjoined, hjoin⟩ := (Option.any_eq_true _ _).mp hany
  obtain ⟨ch, hch, hmem⟩ := (Option.any_eq_true _ _).mp hjoin
  obtain ⟨hin, hpart⟩ := of_decide_eq_true hmem
  obtain ⟨parted, hparted, hstill⟩ := (Option.any_eq_true _ _).mp hpart
  rw [Option.isNone_iff_eq_none] at hnone
  have hbefore : ¬ w.srv.Member "#a,b".toList 0 := by
    rintro ⟨c, hc, -⟩
    rw [hnone] at hc
    cases hc
  have hsame := hall trace w joined parted 5 0 "#a,b".toList run hp hreg (by decide) hjoined
    hbefore ⟨ch, hch, hin⟩ hparted "#a,b".toList
  rw [hnone] at hsame
  obtain ⟨left, hleft⟩ := Option.isSome_iff_exists.mp hstill
  rw [hleft] at hsame
  cases hsame

end Irc
