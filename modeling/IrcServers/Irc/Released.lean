import IrcServers.Irc.Membership
import IrcServers.Irc.Operators

/-!
# Nicknames that are given up

`NICK` only ever appends to `nickList`, and `closeConnection` takes out the
first entry of the descriptor.  A nickname that a client gives up therefore
stays listed unless it was this first entry.  This file says exactly which
runs leak no nickname: those in which every step that takes a nickname from a
client takes it out of the list as well, or leaves another connected client
with it.
-/

namespace Irc

namespace Tables

variable {t t' : Tables} {p q : ClientPtr} {parts : List Str}

/-- Every listed nickname is the nickname of a connected client. -/
def NicksHeld (t : Tables) : Prop :=
  ∀ nick, t.isNickTaken nick = true → ∃ q, t.Live q ∧ (t.memory q).nickname = nick

/-- The nickname of `p` is not among the entries given, or another connected
client has it as well. -/
def Released (t : Tables) (p : ClientPtr) (listed : List (Fd × Str)) : Prop :=
  (t.memory p).nickname ∈ listed.map Prod.snd →
    ∃ entry ∈ t.entries, entry.2 ≠ p ∧ (t.memory entry.2).nickname = (t.memory p).nickname

instance (t : Tables) (p : ClientPtr) (listed : List (Fd × Str)) :
    Decidable (t.Released p listed) :=
  inferInstanceAs (Decidable (_ → ∃ entry ∈ t.entries, _ ∧ _))

/-- A nickname is taken when it is listed. -/
theorem isNickTaken_iff {nick : Str} :
    t.isNickTaken nick = true ↔ nick ∈ t.nickList.map Prod.snd := by
  simp [isNickTaken]

/-- A listed nickname is held by another client as well. -/
theorem Released.elim {listed : List (Fd × Str)} (h : t.Released p listed)
    (hlisted : (t.memory p).nickname ∈ listed.map Prod.snd) :
    ∃ q, t.Live q ∧ q ≠ p ∧ (t.memory q).nickname = (t.memory p).nickname := by
  obtain ⟨⟨fd, q⟩, hmem, hne, hnick⟩ := h hlisted
  exact ⟨q, ⟨fd, mem_entries_iff.mp hmem⟩, hne, hnick⟩

/-- Conversely, the nickname is released if it is held so whenever it is listed. -/
theorem Released.intro {listed : List (Fd × Str)}
    (h : (t.memory p).nickname ∈ listed.map Prod.snd →
      ∃ q, t.Live q ∧ q ≠ p ∧ (t.memory q).nickname = (t.memory p).nickname) :
    t.Released p listed := by
  intro hlisted
  obtain ⟨q, ⟨fd, hfd⟩, hne, hnick⟩ := h hlisted
  exact ⟨(fd, q), mem_entries_iff.mpr hfd, hne, hnick⟩

/-- **The rule of release.**  If a step takes the nickname of `p` away and
nobody else's, and lists no nickname that nobody has, then every listed
nickname is still held just when the nickname of `p` is released. -/
theorem NicksHeld.iff_released {listed : List (Fd × Str)} (h : t.NicksHeld)
    (hold : ∀ nick ∈ listed.map Prod.snd, nick ∈ t.nickList.map Prod.snd)
    (hlisted : ∀ nick ∈ t'.nickList.map Prod.snd, nick ∈ listed.map Prod.snd ∨
      ∃ q, t'.Live q ∧ (t'.memory q).nickname = nick)
    (hkept : ∀ nick ∈ listed.map Prod.snd, nick ∈ t'.nickList.map Prod.snd)
    (hothers : ∀ q, q ≠ p → t.Live q →
      t'.Live q ∧ (t'.memory q).nickname = (t.memory q).nickname)
    (hnobody : ∀ q, t'.Live q → (t'.memory q).nickname = (t.memory p).nickname →
      (t.memory p).nickname ∈ listed.map Prod.snd →
      q ≠ p ∧ t.Live q ∧ (t.memory q).nickname = (t.memory p).nickname) :
    t'.NicksHeld ↔ t.Released p listed := by
  constructor
  · intro hheld
    refine .intro fun hmem => ?_
    obtain ⟨q, hlive, hnick⟩ := hheld _ (isNickTaken_iff.mpr (hkept _ hmem))
    obtain ⟨hne, hlive, hnick⟩ := hnobody q hlive hnick hmem
    exact ⟨q, hlive, hne, hnick⟩
  · intro hreleased nick htaken
    rcases hlisted nick (isNickTaken_iff.mp htaken) with hmem | hheld
    · obtain ⟨q, hlive, rfl⟩ := h nick (isNickTaken_iff.mpr (hold nick hmem))
      by_cases hq : q = p
      · subst hq
        obtain ⟨q', hlive', hne, hnick'⟩ := hreleased.elim hmem
        exact ⟨q', (hothers q' hne hlive').1, (hothers q' hne hlive').2.trans hnick'⟩
      · exact ⟨q, hothers q hq hlive⟩
    · exact hheld

/-- It depends on the list and on the nicknames of the connected clients. -/
theorem NicksHeld.congr (h : t.NicksHeld) (hlist : t'.nickList = t.nickList)
    (hlive : ∀ q, t.Live q → t'.Live q ∧ (t'.memory q).nickname = (t.memory q).nickname) :
    t'.NicksHeld := by
  intro nick htaken
  rw [isNickTaken, hlist] at htaken
  obtain ⟨q, hq, rfl⟩ := h nick htaken
  exact ⟨q, hlive q hq⟩

@[simp] theorem index_nickList (t : Tables) (fd : Fd) (junk : Leftover) :
    (t.index fd junk).1.nickList = t.nickList := by
  unfold index
  split <;> rfl

/-- Indexing leaves the memory of connected clients as it is. -/
theorem Addresses.index_memory (h : t.Addresses) (hlive : t.Live q) (fd : Fd)
    (junk : Leftover) : (t.index fd junk).1.memory q = t.memory q := by
  obtain ⟨k, hk⟩ := hlive
  unfold Tables.index
  split
  · rfl
  · exact Function.update_of_ne (Nat.ne_of_lt (h.bound hk)) _ _

/-- The client that a lookup adds changes no nickname of the others. -/
theorem NicksHeld.index (h : t.NicksHeld) (haddr : t.Addresses) (fd : Fd) (junk : Leftover) :
    (t.index fd junk).1.NicksHeld :=
  h.congr (index_nickList t fd junk) fun q hq =>
    ⟨Live.index hq fd junk, by rw [haddr.index_memory hq]⟩

/-- Closing a connection takes the nickname of the client of that descriptor
away. -/
theorem nicksHeld_closeConnection (h : t.NicksHeld) (haddr : t.Addresses) (f : Fd) :
    (t.closeConnection f).NicksHeld ↔
      (f ∈ t.openFds → ∀ p ∈ t.clients[f]?,
        t.Released p (t.nickList.eraseP fun entry => entry.1 = f)) := by
  by_cases hopen : f ∈ t.openFds
  · have hclients : ∀ k, (t.closeConnection f).clients[k]? =
        if f = k then none else t.clients[k]? := by
      intro k
      simp [closeConnection_clients, hopen]
    have hlist : (t.closeConnection f).nickList =
        t.nickList.eraseP fun entry => entry.1 = f := by
      simp [closeConnection, hopen]
    have hsub : ∀ nick ∈ (t.nickList.eraseP fun entry => entry.1 = f).map Prod.snd,
        nick ∈ t.nickList.map Prod.snd :=
      fun nick hmem => (List.eraseP_sublist.map Prod.snd).subset hmem
    cases hp : t.clients[f]? with
    | none =>
        refine iff_of_true ?_ (by simp)
        intro nick htaken
        rw [isNickTaken_iff, hlist] at htaken
        obtain ⟨q, ⟨k, hk⟩, hnick⟩ := h nick (isNickTaken_iff.mpr (hsub nick htaken))
        refine ⟨q, ⟨k, ?_⟩, by simpa using hnick⟩
        rw [hclients, if_neg (by rintro rfl; simp [hp] at hk)]
        exact hk
    | some p =>
        simp only [hopen, Option.mem_some_iff, forall_eq', forall_const]
        refine h.iff_released hsub (fun nick hmem => Or.inl (hlist ▸ hmem))
          (fun nick hmem => hlist ▸ hmem) ?_ ?_
        · intro q hne hlive
          obtain ⟨k, hk⟩ := hlive
          refine ⟨⟨k, ?_⟩, by simp⟩
          rw [hclients, if_neg]
          · exact hk
          · rintro rfl
            exact hne (Option.some.inj (hk.symm.trans hp))
        · intro q hlive hnick _
          obtain ⟨k, hk⟩ := hlive
          rw [hclients] at hk
          split at hk
          · cases hk
          · rename_i hkf
            refine ⟨?_, ⟨k, hk⟩, by simpa using hnick⟩
            rintro rfl
            exact hkf (haddr.inj hp hk)
  · rw [closeConnection, if_neg hopen]
    exact iff_of_true h fun hin => (hopen hin).elim

/-- A connected client takes another nickname. -/
theorem nicksHeld_renamed (h : t.NicksHeld) (hlive : t.Live p) {nick : Str} (fd : Fd)
    (hfree : t.isNickTaken nick = false) :
    ((t.registerNick nick fd).setClient p fun c =>
        { c with nickname := nick, hasNick := true }).NicksHeld ↔
      t.Released p t.nickList := by
  have hself : (((t.registerNick nick fd).setClient p fun c =>
      { c with nickname := nick, hasNick := true }).memory p).nickname = nick := by simp
  have hother : ∀ q, q ≠ p → ((t.registerNick nick fd).setClient p fun c =>
      { c with nickname := nick, hasNick := true }).memory q = t.memory q :=
    fun q hq => setClient_memory_ne _ _ hq
  have hlist : ((t.registerNick nick fd).setClient p fun c =>
      { c with nickname := nick, hasNick := true }).nickList.map Prod.snd =
        t.nickList.map Prod.snd ++ [nick] := by
    simp [registerNick, setClient]
  have hnew := isNickTaken_eq_false.mp hfree
  refine h.iff_released (fun _ => id) ?_ ?_ ?_ ?_
  · intro n hn
    rw [hlist] at hn
    rcases List.mem_append.mp hn with hn | hn
    · exact Or.inl hn
    · exact Or.inr ⟨p, hlive, hself.trans (List.mem_singleton.mp hn).symm⟩
  · intro n hn
    rw [hlist]
    exact List.mem_append_left _ hn
  · intro q hq hlive
    exact ⟨hlive, congrArg Client.nickname (hother q hq)⟩
  · intro q hq hnick hmem
    have hne : q ≠ p := by
      rintro rfl
      rw [hself] at hnick
      exact hnew (hnick ▸ hmem)
    exact ⟨hne, hq, by rwa [hother q hne] at hnick⟩

/-- An accept over an entry that is still there takes that client's nickname
away, if it has one. -/
theorem nicksHeld_acceptConnection (h : t.NicksHeld) (haddr : t.Addresses) (fd : Fd)
    (ip : Str) (port : Nat) :
    (t.acceptConnection fd ip port).NicksHeld ↔
      ∀ p ∈ t.clients[fd]?, (t.memory p).nickname ≠ [] → t.Released p t.nickList := by
  cases hfd : t.clients[fd]? with
  | none =>
      refine iff_of_true (h.congr ?_ ?_) (by simp)
      · rw [acceptConnection_of_none hfd]
      · intro q hq
        obtain ⟨k, hk⟩ := hq
        have hne : fd ≠ k := by
          rintro rfl
          simp [hfd] at hk
        have hptr : q ≠ t.nextPtr := Nat.ne_of_lt (haddr.bound hk)
        rw [acceptConnection_of_none hfd]
        exact ⟨⟨k, by simpa [Std.ExtTreeMap.getElem?_insert, hne] using hk⟩, by simp [hptr]⟩
  | some p =>
      have hlive : t.Live p := ⟨fd, hfd⟩
      have heq : ∀ q, ((t.acceptConnection fd ip port).memory q).nickname =
          if q = p then [] else (t.memory q).nickname := by
        intro q
        rw [acceptConnection_eq, index_of_some hfd]
        by_cases hq : q = p
        · subst hq
          simp [Client.connected]
        · simp [setClient, hq]
      have hclients : (t.acceptConnection fd ip port).clients = t.clients := by
        rw [acceptConnection_eq, index_of_some hfd, setClient_clients]
      have hlist : (t.acceptConnection fd ip port).nickList = t.nickList := by
        rw [acceptConnection_eq, index_of_some hfd]
        rfl
      simp only [Option.mem_some_iff, forall_eq']
      by_cases hnick : (t.memory p).nickname = []
      · refine iff_of_true (h.congr hlist fun q hq => ⟨(live_congr hclients).mpr hq, ?_⟩)
          fun hne => (hne hnick).elim
        rw [heq]
        split
        · rename_i hq
          rw [hq, hnick]
        · rfl
      · simp only [hnick, not_false_eq_true, ne_eq, forall_const]
        refine h.iff_released (fun _ => id) (fun n hn => Or.inl (hlist ▸ hn))
          (fun n hn => hlist ▸ hn) ?_ ?_
        · intro q hq hl
          exact ⟨(live_congr hclients).mpr hl, by rw [heq, if_neg hq]⟩
        · intro q hq hsame _
          have hne : q ≠ p := by
            rintro rfl
            rw [heq, if_pos rfl] at hsame
            exact hnick hsame.symm
          exact ⟨hne, (live_congr hclients).mp hq, by rwa [heq, if_neg hne] at hsame⟩

end Tables

/-- The test says whether some nickname is accepted. -/
theorem acceptsNick_iff {t : Tables} {p : ClientPtr} {parts : List Str} :
    t.acceptsNick p parts = true ↔ ∃ nick, NickAccepted t p parts nick := by
  constructor
  · intro h
    unfold Tables.acceptsNick at h
    split at h
    · rename_i word nick rest
      simp only [Bool.and_eq_true, decide_eq_true_eq, Bool.not_eq_true'] at h
      exact ⟨nick, word, rest, rfl, h.1.1, h.1.2, h.2⟩
    · cases h
  · intro h
    obtain ⟨nick, word, rest, rfl, hverb, hauth, hfree⟩ := h
    simp [Tables.acceptsNick, hverb, hauth, hfree]

/-- Every other line leaves all nicknames as they are. -/
theorem Effect.nicknames {p : ClientPtr} {parts : List Str} {t t' : Tables}
    (h : Effect p parts t t') (hnot : t.acceptsNick p parts = false) :
    t'.nickList = t.nickList ∧ t'.clients = t.clients ∧
      ∀ q, (t'.memory q).nickname = (t.memory q).nickname := by
  have hset : ∀ (f : Client → Client), (∀ c, (f c).nickname = c.nickname) →
      ∀ q, ((t.setClient p f).memory q).nickname = (t.memory q).nickname := by
    intro f hf q
    by_cases hq : q = p
    · rw [hq, Tables.setClient_memory_self, hf]
    · rw [Tables.setClient_memory_ne t f hq]
  cases h with
  | renamed nick h => rw [acceptsNick_iff.mpr ⟨nick, h⟩] at hnot; cases hnot
  | authenticated h => exact ⟨rfl, rfl, hset _ fun _ => rfl⟩
  | registered username clientIp realname h => exact ⟨rfl, rfl, hset _ fun _ => rfl⟩
  | parted names h hnames =>
      rw [Tables.leaveAll_frame]
      exact ⟨rfl, rfl, fun _ => rfl⟩
  | kicked name target ch h hch hop hlive hmem htarget =>
      rw [Tables.leave_frame]
      exact ⟨rfl, rfl, fun _ => rfl⟩
  | quiet | joined | created | topicSet => exact ⟨rfl, rfl, fun _ => rfl⟩

/-- The client a step takes its nickname from, if any, with the entries of
`nickList` that stay: the client over whose entry a connection is accepted, the
client whose descriptor is closed, or the issuer of an accepted `NICK`. -/
def World.renounces (w : World) (a : Action) : Option (ClientPtr × List (Fd × Str)) :=
  let t := w.entered a
  match w.closing a with
  | some f =>
      if f ∈ t.openFds then
        (t.clients[f]?).map fun p => (p, t.nickList.eraseP fun entry => entry.1 = f)
      else none
  | none =>
      match a, w.current with
      | .accept fd _ _, _ =>
          ((t.clients[fd]?).filter fun p => (t.memory p).nickname ≠ []).map
            fun p => (p, t.nickList)
      | .command env, some (fd, line) =>
          let issuer := (w.srv.index fd env.leftover).2
          if t.acceptsNick issuer (commandParts line) then some (issuer, t.nickList) else none
      | _, _ => none

/-- A nickname that the step takes from a client is not listed any more, or
another connected client has it as well. -/
def ReleasesNick (w : World) (a : Action) : Prop :=
  ∀ renounced ∈ w.renounces a, (w.entered a).Released renounced.1 renounced.2

instance (w : World) (a : Action) : Decidable (ReleasesNick w a) :=
  inferInstanceAs (Decidable (∀ renounced ∈ w.renounces a, _))

/-- No nickname is listed at the start. -/
theorem nicksHeld_start {w : World} (h : Start w) : w.srv.NicksHeld := by
  obtain ⟨password, host, serverSocket, botSocket, _, rfl⟩ := h
  intro nick htaken
  simp [Tables.isNickTaken, initial] at htaken

/-- From a state that leaks no nickname, a step leaks one just when it does not
release the nickname it takes away. -/
theorem nicksHeld_step {w next : World} {a : Action} (haddr : w.srv.Addresses)
    (h : w.srv.NicksHeld) (hstep : step w a = some next) :
    next.srv.NicksHeld ↔ ReleasesNick w a := by
  have hentered : (w.entered a).NicksHeld := by
    unfold World.entered
    split
    · split
      · exact h.index haddr _ _
      · exact h
    · exact h
  have haddr' := World.entered_addresses haddr a
  have hclosed : ∀ f, w.closing a = some f →
      next.srv.toTables = (w.entered a).closeConnection f →
      (next.srv.NicksHeld ↔ ReleasesNick w a) := by
    intro f hclosing htables
    rw [htables, Tables.nicksHeld_closeConnection hentered haddr']
    simp only [ReleasesNick, World.renounces, hclosing]
    by_cases hopen : f ∈ (w.entered a).openFds
    · simp only [hopen, if_true, forall_const, Option.mem_def, Option.map_eq_some_iff,
        forall_exists_index, and_imp, forall_apply_eq_imp_iff₂]
    · simp [hopen]
  cases step_move hstep with
  | accepted fd ip port _ hidle hfresh htables hreading =>
      rw [htables, Tables.nicksHeld_acceptConnection h haddr]
      simp only [ReleasesNick, World.renounces, World.closing, World.entered, Option.mem_def,
        Option.map_eq_some_iff, Option.filter_eq_some_iff, forall_exists_index, and_imp]
      constructor
      · intro hall renounced p hp hne heq
        subst heq
        exact hall p hp (of_decide_eq_true hne)
      · intro hall p hp hne
        exact hall _ p hp (decide_eq_true hne) rfl
  | received fd results text _ hidle hpolled htext htables hreading =>
      rw [htables]
      exact iff_of_true h (by simp [ReleasesNick, World.renounces, World.closing, htext])
  | handled env fd line lines _ hline hquit heffect hreading =>
      have hcurrent : w.current = some (fd, line) := by simp [World.current, hline]
      have hnone : w.closing (.command env) = none := by simp [World.closing, hcurrent, hquit]
      rw [World.entered_command hline] at hentered
      simp only [ReleasesNick, World.renounces, hnone, hcurrent, World.entered_command hline]
      by_cases hnick : (w.srv.index fd env.leftover).1.acceptsNick
          (w.srv.index fd env.leftover).2 (commandParts line) = true
      · obtain ⟨nick, haccepted⟩ := acceptsNick_iff.mp hnick
        have hresult := commandParser_nick env
          (s := w.srv.withTables (w.srv.index fd env.leftover).1) haccepted
        simp only [step, hline, World.command, hresult, Option.some.injEq] at hstep
        have hfree := haccepted
        obtain ⟨_, _, _, _, _, hfree⟩ := hfree
        rw [← hstep]
        simp only [Server.withTables_toTables]
        rw [Tables.nicksHeld_renamed hentered (Tables.index_live _ _ _) _ hfree]
        simp [hnick]
      · have hsame := heffect.nicknames (by simpa using hnick)
        refine iff_of_true (hentered.congr hsame.1 fun q hq => ?_) (by simp [hnick])
        exact ⟨(Tables.live_congr hsame.2.1).mpr hq, hsame.2.2 q⟩
  | hungUp | quitted | aborted =>
      rcases (step_move hstep).closes_or with ⟨f, hclosing, htables⟩ | ⟨hnone, _⟩
      · exact hclosed f hclosing htables
      · simp_all [World.closing, World.current]

/-- **No nickname is leaked.**  In every state of a run every listed nickname
is the nickname of a connected client, if and only if every nickname that a
step takes from a client is released by it. -/
theorem nicks_held_iff {trace : Run.Trace World Action} {w : World} (hrun : Steps trace w) :
    Run.Throughout (fun w => w.srv.NicksHeld) trace w ↔ Run.Meets ReleasesNick trace :=
  hrun.throughout_iff_meets (fun w => w.srv.Addresses) _
    (fun _ => addresses_start) (fun _ _ _ => addresses_step)
    (fun _ => nicksHeld_start) (fun _ _ _ => nicksHeld_step)

/-- A client that never changes its nickname gives it back. -/
theorem nicks_held_iff_reconnect : ∃ trace w, Steps trace w ∧
    w.srv.nextPtr = 2 ∧ w.srv.isNickTaken "a".toList = false ∧
    Run.Throughout (fun w => w.srv.NicksHeld) trace w := by
  obtain ⟨trace, w, hrun, hmeets, htest⟩ := Run.exists_steps_meeting step ReleasesNick start_pw
    (.accept 5 "10.0.0.1".toList 40000 :: packet 5 ["PASS pw", "NICK a"] ++
      .receive 5 [.closed] :: .accept 5 "10.0.0.2".toList 40000 ::
      packet 5 ["PASS pw", "NICK b"])
    (fun w => w.srv.nextPtr = 2 ∧ w.srv.isNickTaken "a".toList = false) (by decide)
  obtain ⟨hnext, hfree⟩ := of_decide_eq_true htest
  exact ⟨trace, w, hrun, hnext, hfree, (nicks_held_iff hrun).mpr hmeets⟩

/-- A renamed client leaves its old nickname in the list. -/
theorem renamed_client_leaks_nick :
    ¬ ∀ trace w, Steps trace w → w.srv.NicksHeld := by
  intro hall
  obtain ⟨trace, w, hrun, htest⟩ := Run.exists_steps_of_perform step start_pw
    (.accept 5 "10.0.0.1".toList 40000 :: packet 5 ["PASS pw", "NICK a", "NICK b"])
    (fun w => w.srv.isNickTaken "a".toList = true ∧
      ∀ entry ∈ w.srv.entries, (w.srv.memory entry.2).nickname ≠ "a".toList) (by decide)
  obtain ⟨htaken, hnobody⟩ := of_decide_eq_true htest
  obtain ⟨q, hlive, hnick⟩ := hall trace w hrun _ htaken
  obtain ⟨entry, hmem, rfl⟩ := Tables.live_iff_mem_entries.mp hlive
  exact hnobody entry hmem hnick

end Irc
