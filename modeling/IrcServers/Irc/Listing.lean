import IrcServers.Irc.Histories

/-!
# What clients are told of the channels

`LIST` goes through the channel table and skips channels without members; since
there are none in any run, it reports every channel.  `JOIN` tells everybody on the
channel, the newcomer included, who is on it: the names are put together with a
space after each, and the last space is taken off again.
-/

namespace Irc

open Outcome

/-- Nicknames with spaces between them, the operator's with a mark. -/
def rosterText (op : Str) (nicks : List Str) : Str :=
  List.intercalate " ".toList
    (nicks.map fun nick => (if op = nick then "@".toList else []) ++ nick)

/-- A separator after every word but the last. -/
theorem dropLast_flatMap_separator (words : List Str) :
    (words.flatMap fun word => word ++ " ".toList).dropLast =
      List.intercalate " ".toList words := by
  induction words with
  | nil => rfl
  | cons word words ih =>
      cases words with
      | nil => simp [List.intercalate]
      | cons next words =>
          have hlast : (next :: words).flatMap (fun word => word ++ " ".toList) ≠ [] := by
            simp
          rw [List.flatMap_cons, List.dropLast_append_of_ne_nil hlast, ih,
            List.intercalate_cons_cons, List.append_assoc]

namespace Server

variable {s : Server} {p : ClientPtr} {name : Str} {ch : Channel}

/-- The names of `sendChannelUserList`. -/
theorem nickListText_eq (s : Server) (ch : Channel) :
    s.nickListText ch = rosterText ch.opNick (s.getChannelClients ch) := by
  unfold nickListText rosterText
  rw [← dropLast_flatMap_separator, List.flatMap_map]

/-- What everybody on a channel is sent when somebody has joined it. -/
def joinNotices (s : Server) (ch : Channel) (p : ClientPtr) : List (Fd × Str) :=
  (ch.curClients.map fun q => s.messageTo q (rplJoin (s.prefixOf p) ch.name)) ++
    (ch.curClients.map fun q => s.messageTo q
      (rplNamReply (s.nickOf p) ch.name (rosterText ch.opNick (s.getChannelClients ch)))) ++
    ch.curClients.map fun q => s.messageTo q (rplEndOfNames (s.nickOf p) ch.name)

/-- The end of `joinChannel`. -/
theorem announce_sent (s : Server) (ch : Channel) (p : ClientPtr) :
    ((s.broadcastMessage ch (rplJoin (s.prefixOf p) ch.name)).sendChannelUserList ch p).sent =
      s.sent ++ s.joinNotices ch p := by
  have htext : (s.broadcastMessage ch (rplJoin (s.prefixOf p) ch.name)).nickListText ch =
      rosterText ch.opNick (s.getChannelClients ch) := by
    rw [← nickListText_eq]
    rfl
  unfold sendChannelUserList
  rw [htext]
  simp only [broadcastMessage, sendAll, joinNotices, List.append_assoc]
  rfl

/-- A `JOIN` that passes the tests, with what is sent. -/
theorem join_sent (word : Str) {rest : List Str}
    (h : JoinAccepted s.toTables p name (rest.head?.getD [])) :
    ∃ next, (s.join p (word :: name :: rest)).toTables = s.setChannel name next ∧
      next.curClients = ((s.channels[name]?).map Channel.curClients).getD [] ++ [p] ∧
      (s.join p (word :: name :: rest)).sent = s.sent ++ s.joinNotices next p := by
  have hpass : ((word :: name :: rest)[2]?).getD [] = rest.head?.getD [] := by
    cases rest <;> rfl
  obtain ⟨hlong, hhash, hopen⟩ := h
  have hname : name ≠ [] := by
    rintro rfl
    cases hhash
  have htests : ¬ (name.length < 2 ∨ name.head? ≠ some '#') := by
    rintro (hshort | hplain)
    · omega
    · exact hplain hhash
  unfold join
  simp only [ne_eq, hname, not_false_eq_true, if_true, joinChannel, hpass]
  rw [if_neg htests]
  cases hch : s.channels[name]? with
  | none =>
      dsimp only
      refine ⟨_, ?_, rfl, announce_sent _ _ p⟩
      simp only [sendChannelUserList_toTables, broadcastMessage_toTables, withTables_toTables]
      rfl
  | some ch =>
      obtain ⟨hnew, hkey, hroom⟩ := hopen ch hch
      have hoff : ¬ ch.isUserOnChannel p = true := by
        simpa [Channel.isUserOnChannel] using hnew
      dsimp only
      rw [if_neg hoff, if_neg (not_not.mpr hkey), if_neg (Nat.not_le_of_lt hroom)]
      refine ⟨_, ?_, ?_, announce_sent _ _ p⟩
      · simp only [sendChannelUserList_toTables, broadcastMessage_toTables, withTables_toTables]
      · split <;> rfl

/-- The loop of `List::list` when no channel is empty. -/
theorem list_loop (p : ClientPtr) (entries : List (Str × Channel))
    (h : ∀ entry ∈ entries, entry.2.curClients ≠ []) (s : Server) :
    (entries.foldl (fun s entry => s.listChannel p entry.2) s).sent =
      s.sent ++ entries.map fun entry => s.messageTo p ((s.memory p).getPrefix ++ " ".toList ++
        rplList (s.nickOf p) entry.2.name (toString entry.2.curClients.length).toList
          entry.2.topic) := by
  induction entries generalizing s with
  | nil => simp
  | cons entry entries ih =>
      have hsome : entry.2.curClients.length ≠ 0 := by
        simpa using h entry List.mem_cons_self
      have hline : s.listChannel p entry.2 = s.sendReply p (rplList (s.nickOf p) entry.2.name
          (toString entry.2.curClients.length).toList entry.2.topic) := if_neg hsome
      rw [List.foldl_cons, hline, ih fun entry hmem => h entry (List.mem_cons_of_mem _ hmem),
        List.map_cons]
      simp only [sendReply, sendMessage, send, List.append_assoc, List.singleton_append]
      rfl

/-- The line of `LIST` about one channel. -/
def reportLine (s : Server) (p : ClientPtr) (name : Str) (ch : Channel) : Fd × Str :=
  s.messageTo p ((s.memory p).getPrefix ++ " ".toList ++
    rplList (s.nickOf p) name (toString ch.curClients.length).toList ch.topic)

/-- `LIST` when the channel table is in order. -/
theorem list_sent (h : s.toTables.ChannelsEntered) (p : ClientPtr) :
    (s.list p).sent = s.sent ++
      [s.messageTo p ((s.memory p).getPrefix ++ " ".toList ++ rplListStart (s.nickOf p) s.host)] ++
      (s.channels.toList.map fun entry => s.reportLine p entry.1 entry.2) ++
      [s.messageTo p ((s.memory p).getPrefix ++ " ".toList ++ rplListEnd (s.nickOf p))] := by
  have hentry : ∀ entry ∈ s.channels.toList, entry.2.Entered entry.1 := fun entry hmem =>
    h entry.1 entry.2 (Std.ExtTreeMap.mem_toList_iff_getElem?_eq_some.mp hmem)
  have hnames : (s.channels.toList.map fun entry => s.messageTo p ((s.memory p).getPrefix ++
        " ".toList ++ rplList (s.nickOf p) entry.2.name
          (toString entry.2.curClients.length).toList entry.2.topic)) =
      s.channels.toList.map fun entry => s.reportLine p entry.1 entry.2 :=
    List.map_congr_left fun entry hmem => by rw [(hentry entry hmem).keyed]; rfl
  have hloop := list_loop p s.channels.toList (fun entry hmem => (hentry entry hmem).nonempty)
    (s.sendReply p (rplListStart (s.nickOf p) s.host))
  have hmiddle : (s.channels.toList.foldl (fun s entry => s.listChannel p entry.2)
      (s.sendReply p (rplListStart (s.nickOf p) s.host))).toTables = s.toTables :=
    list_toTables s p
  have hlast : ∀ s' : Server, s'.toTables = s.toTables →
      (s'.sendReply p (rplListEnd (s'.nickOf p))).sent = s'.sent ++
        [s.messageTo p ((s.memory p).getPrefix ++ " ".toList ++ rplListEnd (s.nickOf p))] := by
    intro s' hsame
    unfold sendReply sendMessage messageTo nickOf
    rw [hsame]
    rfl
  exact (hlast _ hmiddle).trans (by rw [hloop, ← hnames]; rfl)

end Server

section Runs

variable {trace : Run.Trace World Action} {w : World} {fd : Fd} {p : ClientPtr}
  {line word : Str} {args lines : List Str}

/-- **`LIST`.**  In every run a `LIST` of a registered client is answered with a line
for each channel there is, once and in the order of the names, with the number of its
members and its topic, between the first and the last line of the reply; and nothing
else is sent. -/
theorem list_reports_all (run : Steps trace w) (hline : w.reading = some (fd, line :: lines))
    (hp : w.srv.clients[fd]? = some p) (hreg : (w.srv.memory p).registered = true)
    (hparts : commandParts line = word :: args) (hverb : verbOf word = .list) (env : Env) :
    ∃ next, ∃ reports : List (Str × Channel), step w (.command env) = some next ∧
      (∀ (name : Str) (ch : Channel),
        (name, ch) ∈ reports ↔ w.srv.channels[name]? = some ch) ∧
      (reports.map Prod.fst).Pairwise (fun name name' => compare name name' = .lt) ∧
      next.srv.sent = w.srv.sent ++
        [w.srv.messageTo p ((w.srv.memory p).getPrefix ++ " ".toList ++
          rplListStart (w.srv.nickOf p) w.srv.host)] ++
        (reports.map fun report => w.srv.reportLine p report.1 report.2) ++
        [w.srv.messageTo p ((w.srv.memory p).getPrefix ++ " ".toList ++
          rplListEnd (w.srv.nickOf p))] := by
  have hindex : w.srv.index fd env.leftover = (w.srv.toTables, p) := Tables.index_of_some hp
  have hself : w.srv.withTables w.srv.toTables = w.srv := rfl
  have hruns : RunsRegistered w.srv.toTables p (commandParts line) .list :=
    ⟨word, args, hparts, hverb, by decide, hreg⟩
  have hdone : Server.commandParser env line p w.srv = .done (w.srv.list p) :=
    hruns.commandParser_eq (by decide) hparts
  refine ⟨{ srv := w.srv.list p, reading := remaining fd lines }, w.srv.channels.toList, ?_,
    fun name ch => Std.ExtTreeMap.mem_toList_iff_getElem?_eq_some, ?_,
    Server.list_sent (channelsEntered run) p⟩
  · simp only [step, hline, World.command, hindex, hself, hdone]
  · exact List.pairwise_map.mpr Std.ExtTreeMap.ordered_keys_toList

/-- A client that is on two channels asks for the list. -/
theorem list_reports_all_two : ∃ trace w next, ∃ reports : List (Str × Channel), Steps trace w ∧
    step w (.command Env.calm) = some next ∧ (∀ (name : Str) (ch : Channel),
      (name, ch) ∈ reports ↔ w.srv.channels[name]? = some ch) ∧
    (w.srv.channels["#a".toList]?).isSome = true ∧
    (w.srv.channels["#b".toList]?).isSome = true := by
  obtain ⟨trace, w, run, htest⟩ := Run.exists_steps_of_perform step start_pw
    (.accept 5 "10.0.0.1".toList 40000 ::
      (packet 5 ["PASS pw", "NICK a", "USER a a a n", "JOIN #b", "JOIN #a", "LIST"]).take 6)
    (fun w => w.reading = some (5, ["LIST".toList]) ∧ w.srv.clients[(5 : Fd)]? = some 0 ∧
      (w.srv.memory 0).registered = true ∧ (w.srv.channels["#a".toList]?).isSome = true ∧
      (w.srv.channels["#b".toList]?).isSome = true) (by decide +kernel)
  obtain ⟨hline, hp, hreg, hfirst, hsecond⟩ := of_decide_eq_true htest
  have hparts : commandParts "LIST".toList = ["LIST".toList] := by decide
  obtain ⟨next, reports, hstep, hall, -⟩ :=
    list_reports_all run hline hp hreg hparts (by decide) Env.calm
  exact ⟨trace, w, next, reports, run, hstep, hall, hfirst, hsecond⟩

end Runs

end Irc
