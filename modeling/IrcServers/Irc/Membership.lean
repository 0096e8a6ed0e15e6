import IrcServers.Irc.Moves

/-!
# Channel members and connected clients

A channel stores addresses of clients that `_clients` owns.  `closeConnection`
erases the client from the map and from the poll and nickname lists, but it
looks at no channel.  This file states when the members of all channels are
clients of the map in every state of a run: exactly when every descriptor the
run closes belongs to a client that is on no channel at that moment.
-/

namespace Irc

namespace Tables

variable {t : Tables} {p : ClientPtr}

/-- Every client some channel holds is an entry of `_clients`. -/
def MembersLive (t : Tables) : Prop := ∀ p : ClientPtr, t.OnChannel p → t.Live p

/-- Who is on a channel depends on the channels only. -/
theorem OnChannel.congr {t' : Tables} (h : t'.channels = t.channels) :
    t'.OnChannel p ↔ t.OnChannel p := by
  unfold OnChannel Member
  rw [h]

/-- Indexing keeps everybody connected, unless it overwrites an entry. -/
theorem Live.index (h : t.Live p) (fd : Fd) (junk : Leftover) : (t.index fd junk).1.Live p := by
  obtain ⟨k, hk⟩ := h
  refine ⟨k, ?_⟩
  rw [index_clients]
  split
  · rename_i hfd
    rw [index_of_some (hfd ▸ hk)]
  · exact hk

/-- The lookup of a client disconnects nobody. -/
theorem MembersLive.index (h : t.MembersLive) (fd : Fd) (junk : Leftover) :
    (t.index fd junk).1.MembersLive :=
  fun p hp => Live.index (h p ((OnChannel.congr (index_channels t fd junk)).mp hp)) fd junk

/-- Nor does a new connection. -/
theorem MembersLive.acceptConnection (h : t.MembersLive) (fd : Fd) (ip : Str) (port : Nat) :
    (t.acceptConnection fd ip port).MembersLive := by
  rw [acceptConnection_eq]
  exact h.index fd ⟨fd, port, false, false, false⟩

/-- A command line keeps every member connected: only its issuer can become
one. -/
theorem MembersLive.effect {t' : Tables} {parts : List Str} (h : t.MembersLive)
    (hlive : t.Live p) (heffect : Effect p parts t t') : t'.MembersLive := by
  intro q hq
  have hclients : t'.clients = t.clients := by rw [heffect.frame]
  have : t.Live q := by
    obtain ⟨name, hmember⟩ := hq
    rcases heffect.member hmember with hmember | ⟨rfl, _⟩
    · exact h q ⟨name, hmember⟩
    · exact hlive
  simpa [Live, hclients] using this

/-- The client that descriptor `f` stands for, if the process has it open, is
on no channel. -/
def OffChannels (t : Tables) (f : Fd) : Prop :=
  f ∈ t.openFds → ∀ p ∈ t.clients[f]?, ¬ t.OnChannel p

instance (t : Tables) (f : Fd) : Decidable (t.OffChannels f) :=
  inferInstanceAs (Decidable (_ → ∀ p ∈ t.clients[f]?, _))

/-- Closing a descriptor leaves a dangling member just when its client is on a
channel. -/
theorem membersLive_closeConnection (hinj : t.Addresses) (h : t.MembersLive) (f : Fd) :
    (t.closeConnection f).MembersLive ↔ t.OffChannels f := by
  have hon : ∀ q, (t.closeConnection f).OnChannel q ↔ t.OnChannel q :=
    fun q => OnChannel.congr (closeConnection_channels t f)
  constructor
  · intro hclosed hopen p hp hmem
    obtain ⟨k, hk⟩ := hclosed p ((hon p).mpr hmem)
    rw [closeConnection_clients] at hk
    split at hk
    · cases hk
    · rename_i hkept
      exact hkept ⟨hopen, hinj.inj hp hk⟩
  · intro hoff q hq
    obtain ⟨k, hk⟩ := h q ((hon q).mp hq)
    refine ⟨k, ?_⟩
    rw [closeConnection_clients, if_neg]
    · exact hk
    · intro hclosed
      obtain ⟨hopen, rfl⟩ := hclosed
      exact hoff hopen q hk ((hon q).mp hq)

end Tables

/-- Every descriptor the step closes belongs to no member of a channel. -/
def ClosesOffChannels (w : World) (a : Action) : Prop :=
  ∀ f ∈ w.closing a, (w.entered a).OffChannels f

instance (w : World) (a : Action) : Decidable (ClosesOffChannels w a) :=
  inferInstanceAs (Decidable (∀ f ∈ w.closing a, _))

/-- A line finds different objects under different descriptors. -/
theorem World.entered_addresses {w : World} (h : w.srv.Addresses) (a : Action) :
    (w.entered a).Addresses := by
  unfold World.entered
  split
  · split
    · exact h.index _ _
    · exact h
  · exact h

/-- It finds the members connected. -/
theorem World.entered_membersLive {w : World} (h : w.srv.MembersLive) (a : Action) :
    (w.entered a).MembersLive := by
  unfold World.entered
  split
  · split
    · exact h.index _ _
    · exact h
  · exact h

/-- There are no members at the start. -/
theorem membersLive_start {w : World} (h : Start w) : w.srv.MembersLive := by
  obtain ⟨password, host, serverSocket, botSocket, _, rfl⟩ := h
  intro p hon
  obtain ⟨name, ch, hch, _⟩ := hon
  simp [initial] at hch

/-- A step never stores one object under two descriptors. -/
theorem addresses_step {w next : World} {a : Action} (h : w.srv.Addresses)
    (hstep : step w a = some next) : next.srv.Addresses := by
  rcases (step_move hstep).closes_or with ⟨f, _, htables⟩ |
    ⟨_, ⟨fd, ip, port, _, htables⟩ | htables | ⟨env, fd, line, lines, _, _, heffect⟩⟩
  · rw [htables]
    exact (World.entered_addresses h a).closeConnection f
  · rw [htables]
    exact h.acceptConnection fd ip port
  · rwa [htables]
  · have hindexed := h.index fd env.leftover
    rw [heffect.frame]
    exact hindexed.of_sub rfl id

/-- From a state without dangling members, a step leaves none just when the
descriptor it closes, if any, belongs to no member of a channel. -/
theorem membersLive_step {w next : World} {a : Action} (haddr : w.srv.Addresses)
    (h : w.srv.MembersLive) (hstep : step w a = some next) :
    next.srv.MembersLive ↔ ClosesOffChannels w a := by
  unfold ClosesOffChannels
  rcases (step_move hstep).closes_or with ⟨f, hcloses, htables⟩ | ⟨hnone, hkinds⟩
  · rw [htables, Tables.membersLive_closeConnection (World.entered_addresses haddr a)
      (World.entered_membersLive h a), hcloses]
    simp
  · have hlive : next.srv.MembersLive := by
      rcases hkinds with ⟨fd, ip, port, _, htables⟩ | htables |
        ⟨env, fd, line, lines, _, _, heffect⟩
      · rw [htables]
        exact h.acceptConnection fd ip port
      · rwa [htables]
      · exact (h.index fd env.leftover).effect (Tables.index_live _ _ _) heffect
    simp [hnone, hlive]

/-- **Members are connected.**  In every state of a run every client held by a
channel is an entry of `_clients`, if and only if every descriptor the run
closes belongs to a client that is on no channel when it is closed. -/
theorem members_live_iff {trace : Run.Trace World Action} {w : World}
    (hrun : Steps trace w) :
    Run.Throughout (fun w => w.srv.MembersLive) trace w ↔
      Run.Meets ClosesOffChannels trace :=
  hrun.throughout_iff_meets (fun w => w.srv.Addresses) _
    (fun _ => addresses_start) (fun _ _ _ => addresses_step)
    (fun _ => membersLive_start) (fun _ _ _ => membersLive_step)

/-- A run that meets the condition: the client leaves its channel before it
quits. -/
theorem members_live_iff_parted : ∃ trace w, Steps trace w ∧
    w.srv.nextPtr = 1 ∧ w.srv.entries = [] ∧
    Run.Throughout (fun w => w.srv.MembersLive) trace w := by
  obtain ⟨trace, w, hrun, hmeets, htest⟩ := Run.exists_steps_meeting step ClosesOffChannels start_pw
    (.accept 5 "10.0.0.1".toList 40000 :: packet 5
      ["PASS pw", "NICK a", "USER a a a n", "JOIN #c", "PART #c", "QUIT"])
    (fun w => w.srv.nextPtr = 1 ∧ w.srv.entries = []) (by decide)
  obtain ⟨hnext, hempty⟩ := of_decide_eq_true htest
  exact ⟨trace, w, hrun, hnext, hempty, (members_live_iff hrun).mpr hmeets⟩

/-- A member that quits stays on its channel: after login, `JOIN #c` and
`QUIT`, the channel holds the client at address 0 and `_clients` is empty. -/
theorem quit_leaves_member :
    ¬ ∀ trace w, Steps trace w → w.srv.MembersLive := by
  intro hall
  obtain ⟨trace, w, hrun, htest⟩ := Run.exists_steps_of_perform step start_pw
    (.accept 5 "10.0.0.1".toList 40000 :: packet 5
      ["PASS pw", "NICK a", "USER a a a n", "JOIN #c", "QUIT"])
    (fun w => w.srv.channels["#c".toList]?.map Channel.curClients = some [0] ∧
      w.srv.entries = []) (by decide)
  obtain ⟨hmember, hempty⟩ := of_decide_eq_true htest
  obtain ⟨ch, hch, hclients⟩ := Option.map_eq_some_iff.mp hmember
  have hlive := hall trace w hrun 0 ⟨_, ch, hch, by simp [hclients]⟩
  simp [Tables.live_iff_mem_entries, hempty] at hlive

end Irc
