import IrcServers.FtIrc.Reachable

/-!
# Channel lists and disconnected clients

A channel refers to clients in four lists.  The loop of `QUIT` takes one entry
of the client out of `_clients`, and the client out of `_operators`.
`Server::removeClient` deletes the client and then lets the channels look for
it, so it drops an entry only where the descriptor is still to be found at the
client's address.  Nothing is ever taken out of `_bans` or `_invites`, and a
client that joined several times has as many entries.  The theorem says that
this is all: channels refer to connected clients only, in every state of a run,
just when no removal meets an entry that outlasts it.
-/

namespace FtIrc

namespace Channel

/-- The channel after `k` entries of a client have left. -/
def dropping (p : ClientPtr) : Nat → Channel → Channel
  | 0, ch => ch
  | k + 1, ch => dropping p k (ch.without p)

theorem dropping_succ (p : ClientPtr) (k : Nat) (ch : Channel) :
    ch.dropping p (k + 1) = (ch.without p).dropping p k := rfl

/-- Bans and invitations stay. -/
theorem dropping_marks (p : ClientPtr) (k : Nat) (ch : Channel) :
    (ch.dropping p k).bans = ch.bans ∧ (ch.dropping p k).invites = ch.invites := by
  induction k generalizing ch with
  | zero => exact ⟨rfl, rfl⟩
  | succ k ih =>
      have hwithout : (ch.without p).bans = ch.bans ∧ (ch.without p).invites = ch.invites := by
        unfold without
        split <;> exact ⟨rfl, rfl⟩
      rw [dropping_succ, (ih (ch.without p)).1, (ih (ch.without p)).2]
      exact hwithout

/-- One entry leaves each time. -/
theorem count_dropping (p : ClientPtr) (k : Nat) (ch : Channel) :
    (ch.dropping p k).clients.count p = ch.clients.count p - k := by
  induction k generalizing ch with
  | zero => rfl
  | succ k ih =>
      have hwithout : (ch.without p).clients.count p = ch.clients.count p - 1 := by
        unfold without
        split
        · exact List.count_erase_self
        · rename_i hmem
          rw [List.count_eq_zero_of_not_mem hmem]
      rw [dropping_succ, ih, hwithout]
      omega

/-- Dropping entries takes a member off, or nobody. -/
theorem alters_dropping {allowed : ClientPtr → Prop} (p : ClientPtr) (k : Nat) (ch : Channel) :
    ch.Alters allowed (ch.dropping p k) := by
  induction k generalizing ch with
  | zero => exact .refl ch
  | succ k ih => exact (ch.alters_without p).trans (ih _)

/-- The entries of a client that no removal reaches: bans, invitations, and more
than `k` memberships. -/
def Outlasts (ch : Channel) (p : ClientPtr) (k : Nat) : Prop :=
  p ∈ ch.bans ∨ p ∈ ch.invites ∨ k < ch.clients.count p

instance (ch : Channel) (p : ClientPtr) (k : Nat) : Decidable (ch.Outlasts p k) :=
  inferInstanceAs (Decidable (_ ∨ _ ∨ _))

/-- The channel still refers to a client that left, just when an entry
outlasted the removal. -/
theorem holds_dropping {ch : Channel} (hled : ch.Led) (p : ClientPtr) (k : Nat) :
    (ch.dropping p k).holds p ↔ ch.Outlasts p k := by
  have hmember : p ∈ (ch.dropping p k).clients ↔ k < ch.clients.count p := by
    rw [← List.count_pos_iff, count_dropping]
    omega
  have hled' : (ch.dropping p k).Led :=
    (show ch.Alters (fun _ => True) _ from alters_dropping p k ch).led hled
  unfold holds Outlasts
  rw [(dropping_marks p k ch).1, (dropping_marks p k ch).2, hmember]
  constructor
  · intro h
    rcases h with h | h | h | h
    · exact Or.inr (Or.inr h)
    · exact Or.inr (Or.inr (hmember.mp (hled'.members p h)))
    · exact Or.inl h
    · exact Or.inr (Or.inl h)
  · intro h
    rcases h with h | h | h
    · exact Or.inr (Or.inr (Or.inl h))
    · exact Or.inr (Or.inr (Or.inr h))
    · exact Or.inl h

end Channel

namespace Server

variable {s s' : Server} {client p : ClientPtr} {k : Nat}

/-- Every client a channel refers to is an element of `_clients`. -/
def HoldsConnected (s : Server) : Prop := ∀ ch ∈ s.channels, ∀ p, ch.holds p → p ∈ s.clients

/-- Every member of a channel is an element of `_clients`, or a deleted client
whose descriptor is overwritten. -/
def MembersTraced (s : Server) : Prop :=
  ∀ ch ∈ s.channels, ∀ p ∈ ch.clients, p ∈ s.clients ∨ (s.memory p).fd = noFd

/-- Members that are connected need not be looked for. -/
theorem HoldsConnected.traced (h : s.HoldsConnected) : s.MembersTraced :=
  fun ch hch p hp => Or.inl (h ch hch p (Or.inl hp))

/-- A member with a descriptor in use is the client on it. -/
theorem MembersTraced.eq_of_fd (hmembers : s.MembersTraced) (hfds : (s.fdsOf s.clients).Nodup)
    (hclient : client ∈ s.clients) (hvalid : 0 ≤ (s.memory client).fd) {ch : Channel}
    (hch : ch ∈ s.channels) (hp : p ∈ ch.clients)
    (hfd : (s.memory p).fd = (s.memory client).fd) : p = client := by
  rcases hmembers ch hch p hp with hin | hleft
  · exact Server.eq_of_fd hfds hin hclient hfd
  · rw [← hfd, hleft] at hvalid
    exact absurd hvalid (by decide)

/-- A descriptor in use is read after the deletion just when the memory keeps it. -/
theorem leftFd_eq_iff (hvalid : 0 ≤ (s.memory p).fd) :
    s.leftFd p = (s.memory p).fd ↔ s.keepsFd p = true := by
  unfold leftFd
  cases s.keepsFd p with
  | true => exact iff_of_true rfl rfl
  | false =>
      refine iff_of_false (fun hfd => ?_) (by decide)
      rw [← hfd] at hvalid
      exact absurd (show 0 ≤ noFd from hvalid) (by decide)

/-- How many entries of a client each channel loses when the client is removed.
`QUIT` takes one off before the client is deleted; afterwards the channels find
it only if its descriptor has outlived it. -/
def entriesDropped (s : Server) (client : ClientPtr) (k : Nat) : Nat :=
  (if s.keepsFd client then 1 else 0) + (k - 1)

/-- After the deletion, a member found on the descriptor is the deleted client. -/
theorem fd_deleteClient_iff (hfds : (s.fdsOf s.clients).Nodup) (hmembers : s.MembersTraced)
    (hclient : client ∈ s.clients) (hvalid : 0 ≤ (s.memory client).fd) {ch : Channel}
    (hch : ch ∈ s.channels) (hp : p ∈ ch.clients) :
    ((s.deleteClient (s.memory client).fd).memory p).fd = (s.memory client).fd ↔
      p = client ∧ s.keepsFd client = true := by
  have hfound := getClient_fd hfds hclient
  by_cases heq : p = client
  · rw [heq, deleteClient_memory_self hfound, ← leftFd_eq_iff hvalid]
    exact ⟨fun hfd => ⟨rfl, hfd⟩, fun h => h.2⟩
  · rw [deleteClient_memory fun hsame => heq (Option.some.inj (hsame.symm.trans hfound))]
    refine iff_of_false (fun hfd => heq ?_) (fun h => heq h.1)
    exact hmembers.eq_of_fd hfds hclient hvalid hch hp hfd

/-- `Server::removeClient` takes an entry of this client off every channel that
has one, or none off any. -/
theorem removeClient_channels (hfds : (s.fdsOf s.clients).Nodup) (hmembers : s.MembersTraced)
    (hclient : client ∈ s.clients) (hvalid : 0 ≤ (s.memory client).fd) :
    (s.removeClient (s.memory client).fd).channels =
      s.channels.map fun ch => ch.dropping client (s.entriesDropped client 1) := by
  rw [removeClient_connected hfds hclient]
  unfold dropMembers entriesDropped
  rw [deleteClient_channels]
  apply List.map_congr_left
  intro ch hch
  have hiff := fun p (hp : p ∈ ch.clients) =>
    fd_deleteClient_iff hfds hmembers hclient hvalid hch hp
  cases hlookup : ch.getClient (s.deleteClient (s.memory client).fd).memory
      (s.memory client).fd with
  | none =>
      split
      · rename_i hkept
        refine (Channel.without_of_not_mem fun hmem => ?_).symm
        have hother := List.find?_eq_none.mp hlookup client hmem
        exact hother (decide_eq_true ((hiff client hmem).mpr ⟨rfl, hkept⟩))
      · rfl
  | some found =>
      have hmem : found ∈ ch.clients := List.mem_of_find?_eq_some hlookup
      have htest := List.find?_some hlookup
      obtain ⟨rfl, hkept⟩ := (hiff found hmem).mp (of_decide_eq_true htest)
      rw [Channel.removeClient_some, if_pos hkept]
      rfl

/-- The loop of `QUIT` takes an entry off every channel that has one. -/
theorem departed_channels (h : (s.fdsOf s.clients).Nodup) (hclient : client ∈ s.clients) :
    (s.departed (s.memory client).fd).channels = s.channels.map fun ch => ch.without client := by
  apply List.map_congr_left
  intro ch _
  unfold quitFrom
  rw [getClient_fd h hclient, Channel.removeClient_some]
  split
  · rfl
  · rename_i hnone
    refine (Channel.without_of_not_mem fun hmem => hnone ?_).symm
    exact List.find?_isSome.mpr ⟨client, hmem, by simp⟩

/-- The loop of `QUIT` makes no one a member. -/
theorem MembersTraced.departed (h : s.MembersTraced) (fd : Fd) : (s.departed fd).MembersTraced := by
  intro ch hch p hp
  obtain ⟨old, hmem, rfl⟩ := List.mem_map.mp hch
  refine h old hmem p ?_
  unfold quitFrom at hp
  split at hp
  · cases hclient : s.getClient fd with
    | none => rwa [hclient] at hp
    | some client =>
        rw [hclient, Channel.removeClient_some, Channel.without] at hp
        split at hp
        · exact List.mem_of_mem_erase hp
        · exact hp
  · exact hp

/-- A removal, as channels see it. -/
theorem parted_channels (hfds : (s.fdsOf s.clients).Nodup) (hmembers : s.MembersTraced)
    (hclient : client ∈ s.clients) (hvalid : 0 ≤ (s.memory client).fd) (hk : k = 1 ∨ k = 2) :
    (s.parted (s.memory client).fd k).channels =
      s.channels.map fun ch => ch.dropping client (s.entriesDropped client k) := by
  rcases hk with rfl | rfl
  · exact removeClient_channels hfds hmembers hclient hvalid
  · have htwice := removeClient_channels (s := s.departed (s.memory client).fd) hfds
      (hmembers.departed _) hclient hvalid
    rw [departed_channels hfds hclient, List.map_map] at htwice
    exact htwice

end Server

/-- No channel entry of the client that a step removes outlasts the removal. -/
def RemovesAll (w : World) (a : Action) : Prop :=
  ∀ removal ∈ w.removes a, ∀ ch ∈ w.srv.channels,
    ¬ ch.Outlasts removal.1 (w.srv.entriesDropped removal.1 removal.2)

instance (w : World) (a : Action) : Decidable (RemovesAll w a) :=
  inferInstanceAs (Decidable (∀ removal ∈ w.removes a, _))

/-- From a state in which channels refer to connected clients only, a step leads
to such a state just when no entry outlasts its removal. -/
theorem holdsConnected_step {w w' : World} {a : Action} (htidy : Tidy w)
    (hheld : w.srv.HoldsConnected) (hstep : Stepped w a w') :
    w'.srv.HoldsConnected ↔ RemovesAll w a := by
  rcases hstep.accept_or_handled htidy with ⟨fd, hostName, rfl, rfl⟩ | hhandled
  · refine iff_of_true (fun ch hch p hp => ?_) (fun removal hremoval => by cases hremoval)
    exact List.mem_append_left _ (hheld ch hch p hp)
  · unfold RemovesAll
    cases hremoves : w.removes a with
    | none =>
        rw [hremoves] at hhandled
        refine iff_of_true (fun ch hch p hp => ?_) (fun removal hremoval => by cases hremoval)
        rw [hhandled.same]
        rcases hhandled.holds p ⟨ch, hch, hp⟩ with hold | hin
        · obtain ⟨old, hmem, hp⟩ := hold
          exact hheld old hmem p hp
        · exact hin
    | some removal =>
        obtain ⟨client, k⟩ := removal
        obtain ⟨hclient, hk⟩ := removes_some hremoves
        rw [hremoves] at hhandled
        obtain ⟨hevolves, hclients, hchannels, -⟩ := hhandled
        rw [Server.parted_channels htidy.fds hheld.traced hclient (htidy.valid client hclient) hk]
          at hchannels
        have hleft : ∀ p, p ∈ w'.srv.clients ↔ p ∈ w.srv.clients ∧ p ≠ client := fun p => by
          rw [hclients]
          exact Server.parted_clients htidy.fds hclient
        constructor
        · intro hheld' removal hremoval ch hch houtlasts
          cases hremoval
          have hmem : ch.dropping client (w.srv.entriesDropped client k) ∈ w'.srv.channels := by
            rw [hchannels]
            exact List.mem_map.mpr ⟨ch, hch, rfl⟩
          have hin := hheld' _ hmem client
            ((Channel.holds_dropping (htidy.led ch hch) client _).mpr houtlasts)
          exact ((hleft client).mp hin).2 rfl
        · intro hall ch' hch' p hp
          rw [hchannels] at hch'
          obtain ⟨ch, hch, rfl⟩ := List.mem_map.mp hch'
          have hin : p ∈ w.srv.clients := by
            have halters : ch.Alters (fun _ => False)
                (ch.dropping client (w.srv.entriesDropped client k)) :=
              Channel.alters_dropping client _ ch
            exact hheld ch hch p ((halters.holds p hp).elim id False.elim)
          refine (hleft p).mpr ⟨hin, fun heq => ?_⟩
          rw [heq] at hp
          exact hall (client, k) rfl ch hch
            ((Channel.holds_dropping (htidy.led ch hch) client _).mp hp)

/-- **Channels refer to connected clients.**  In every state of a run every
client in a list of a channel is an element of `_clients`, if and only if no
client the run removes is in the bans or the invitations of a channel, nor a
member more often than the removal drops entries. -/
theorem channels_hold_connected_iff {trace : Run.Trace World Action} {w : World}
    (run : Steps trace w) :
    Run.Throughout (fun w => w.srv.HoldsConnected) trace w ↔ Run.Meets RemovesAll trace := by
  refine run.throughout_iff_meets Tidy _ (fun _ => tidy_start) ?_ ?_ ?_
  · exact fun _ _ _ htidy hstep => htidy.stepped (stepped_of_step hstep)
  · intro w hstart
    obtain ⟨password, createdDate, listener, keepsFd, rfl⟩ := hstart
    exact fun ch hch => by cases hch
  · exact fun _ _ _ htidy hheld hstep => holdsConnected_step htidy hheld (stepped_of_step hstep)

/-- A run that meets the condition: of two members of a channel one leaves it
and hangs up, and the other quits. -/
theorem channels_hold_connected_iff_departures : ∃ trace w, Steps trace w ∧
    w.srv.nextPtr = 2 ∧ w.srv.clients = [] ∧
    Run.Throughout (fun w => w.srv.HoldsConnected) trace w := by
  obtain ⟨trace, w, run, hmeets, htest⟩ := Run.exists_steps_meeting step RemovesAll start_pw
    ([.gather, .accept 5 "h".toList, .gather, .accept 6 "i".toList, .gather] ++
      packet 5 ["PASS pw", "NICK a", "USER a a a :n", "JOIN #c"] ++
      packet 6 ["PASS pw", "NICK b", "USER b b b :n", "JOIN #c"] ++
      packet 5 ["PART #c :bye"] ++ [.read 5 []] ++ packet 6 ["QUIT :bye"])
    (fun w => w.srv.nextPtr = 2 ∧ w.srv.clients = []) (by decide +kernel)
  obtain ⟨hnext, hempty⟩ := of_decide_eq_true htest
  exact ⟨trace, w, run, hnext, hempty, (channels_hold_connected_iff run).mpr hmeets⟩

/-- A banned client that hangs up stays on the list of bans: the client at
address 1 is banned from `#c` and gone from `_clients`. -/
theorem ban_outlasts_client :
    ¬ ∀ trace w, Steps trace w → w.srv.HoldsConnected := by
  intro hall
  obtain ⟨trace, w, run, htest⟩ := Run.exists_steps_of_perform step start_pw
    ([.gather, .accept 5 "h".toList, .gather, .accept 6 "i".toList, .gather] ++
      packet 5 ["PASS pw", "NICK a", "USER a a a :n", "JOIN #c"] ++
      packet 6 ["PASS pw", "NICK b", "USER b b b :n", "JOIN #c"] ++
      packet 5 ["MODE #c +b *!*@i"] ++ [.read 6 []])
    (fun w => w.srv.clients = [0] ∧ w.srv.channels.map Channel.bans = [[1]]) (by decide +kernel)
  obtain ⟨hclients, hbans⟩ := of_decide_eq_true htest
  obtain ⟨ch, hch, hban⟩ := List.mem_map.mp (hbans ▸ List.mem_singleton_self [1])
  have hheld := hall trace w run ch hch 1 (Or.inr (Or.inr (Or.inl (by simp [hban]))))
  simp [hclients] at hheld

end FtIrc
