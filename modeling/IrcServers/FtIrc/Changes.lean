import Mathlib.Data.List.Nodup
import IrcServers.FtIrc.Loop
import IrcServers.FtIrc.Names

/-!
# What the handlers change

Every handler leaves the descriptors and addresses of clients alone, keeps
channel names fit and distinct, keeps operators members, and puts into a
channel list only clients that are connected or already held by some channel
(`Evolves`).  All but `QUIT` and a failed `USER` keep the list of clients too
(`Keeps`).  For these two the channels they leave are given exactly, as
`execQuit_leaves` and `execUser_leaves`.
-/

namespace FtIrc

open Utils Outcome

namespace Channel

variable {ch ch' : Channel} {p q : ClientPtr} {memory : ClientPtr → Client}

/-- The clients a channel refers to. -/
def holds (ch : Channel) (p : ClientPtr) : Prop :=
  p ∈ ch.clients ∨ p ∈ ch.operators ∨ p ∈ ch.bans ∨ p ∈ ch.invites

/-- The guard of the commands of operators. -/
theorem passes_guard_iff {fd : Fd} :
    ¬ (ch.getOperator memory fd).isNone = true ↔ (ch.getOperator memory fd).isSome = true := by
  rw [Bool.not_eq_true, Option.isNone_eq_false_iff]

/-- Every operator is a member, and is listed once. -/
structure Led (ch : Channel) : Prop where
  nodup : ch.operators.Nodup
  members : ∀ p ∈ ch.operators, p ∈ ch.clients

/-- The channel after one entry of a client has left. -/
def without (ch : Channel) (p : ClientPtr) : Channel :=
  if p ∈ ch.clients then
    { ch with operators := ch.operators.erase p, clients := ch.clients.erase p }
  else ch

/-- Somebody who is no member leaves nothing behind. -/
theorem without_of_not_mem (h : p ∉ ch.clients) : ch.without p = ch := if_neg h

/-- The nickname test in `removeClient` never keeps an operator that leaves:
it finds the operator itself. -/
theorem removeClient_some (ch : Channel) (memory : ClientPtr → Client) (p : ClientPtr) :
    ch.removeClient memory (some p) = ch.without p := by
  simp only [removeClient, without]
  by_cases hmem : p ∈ ch.clients
  · rw [if_pos hmem, if_pos hmem]
    by_cases hop : p ∈ ch.operators
    · have hfound : (ch.getOperatorByNickName memory (memory p).nickName).isSome = true :=
        List.find?_isSome.mpr ⟨p, hop, by simp⟩
      rw [if_pos hfound]
    · rw [List.erase_of_not_mem hop, ite_self]
  · rw [if_neg hmem, if_neg hmem]

/-- A step of a channel: its name stays, the clients it comes to hold are
`allowed`, and its operators remain members. -/
structure Alters (allowed : ClientPtr → Prop) (ch ch' : Channel) : Prop where
  name : ch'.name = ch.name
  holds : ∀ p, ch'.holds p → ch.holds p ∨ allowed p
  led : ch.Led → ch'.Led

variable {allowed : ClientPtr → Prop}

/-- No change at all is such a step. -/
theorem Alters.refl (ch : Channel) : Alters allowed ch ch := ⟨rfl, fun _ => Or.inl, id⟩

/-- Two such steps are one. -/
theorem Alters.trans {ch'' : Channel} (h : Alters allowed ch ch') (h' : Alters allowed ch' ch'') :
    Alters allowed ch ch'' where
  name := h'.name.trans h.name
  holds p hp := (h'.holds p hp).elim (h.holds p) Or.inr
  led hled := h'.led (h.led hled)

/-- Setting a mode or the topic. -/
theorem alters_settings (ch : Channel) (limit : Nat) (inviteOnly : Bool) (password topic : Str) :
    Alters allowed ch { ch with
      limit := limit, inviteOnly := inviteOnly, password := password, topic := topic } :=
  ⟨rfl, fun _ => Or.inl, fun h => ⟨h.nodup, h.members⟩⟩

/-- An allowed client may join. -/
theorem alters_pushClient (ch : Channel) (hp : allowed p) :
    Alters allowed ch (ch.pushClient p) where
  name := rfl
  holds q hq := by
    simp only [holds, pushClient, List.mem_append, List.mem_singleton] at hq ⊢
    rcases hq with (hq | rfl) | hq | hq | hq
    · exact Or.inl (Or.inl hq)
    · exact Or.inr hp
    · split at hq
      · rcases List.mem_append.mp hq with hq | hq
        · exact Or.inl (Or.inr (Or.inl hq))
        · rw [List.mem_singleton.mp hq]
          exact Or.inr hp
      · exact Or.inl (Or.inr (Or.inl hq))
    · exact Or.inl (Or.inr (Or.inr (Or.inl hq)))
    · exact Or.inl (Or.inr (Or.inr (Or.inr hq)))
  led hled := by
    unfold pushClient
    by_cases hempty : ch.clients.length = 0
    · -- the first member finds no operator
      have hnone : ch.operators = [] := List.eq_nil_iff_forall_not_mem.mpr fun q hq => by
        have hmem := hled.members q hq
        rw [List.length_eq_zero_iff.mp hempty] at hmem
        cases hmem
      exact ⟨by simp [hempty, hnone], by simp [hempty, hnone]⟩
    · refine ⟨by simpa [hempty] using hled.nodup, fun q hq => ?_⟩
      simp only [hempty, if_false] at hq
      exact List.mem_append_left _ (hled.members q hq)

/-- A member may leave. -/
theorem alters_without (ch : Channel) (p : ClientPtr) : Alters allowed ch (ch.without p) := by
  by_cases hmem : p ∈ ch.clients
  · unfold without
    rw [if_pos hmem]
    refine ⟨rfl, fun q hq => Or.inl ?_, fun hled => ⟨hled.nodup.erase p, fun q hq => ?_⟩⟩
    · rcases hq with hq | hq | hq | hq
      · exact Or.inl (List.mem_of_mem_erase hq)
      · exact Or.inr (Or.inl (List.mem_of_mem_erase hq))
      · exact Or.inr (Or.inr (Or.inl hq))
      · exact Or.inr (Or.inr (Or.inr hq))
    · obtain ⟨hne, hq⟩ := hled.nodup.mem_erase_iff.mp hq
      exact (List.mem_erase_of_ne hne).mpr (hled.members q hq)
  · rw [without_of_not_mem hmem]
    exact .refl ch

/-- The channel keeps its name then. -/
theorem without_name (ch : Channel) (p : ClientPtr) : (ch.without p).name = ch.name :=
  have h : ch.Alters (fun _ => False) (ch.without p) := ch.alters_without p
  h.name

/-- `Channel::removeClient` takes a member off, or nobody. -/
theorem alters_removeClient (ch : Channel) (client : Option ClientPtr) :
    Alters allowed ch (ch.removeClient memory client) := by
  cases client with
  | none => exact .refl ch
  | some p =>
      rw [removeClient_some]
      exact alters_without ch p

/-- A member may become an operator. -/
theorem alters_addOperator (hp : p ∈ ch.clients) (h : ch.addOperator p = .ok ch') :
    Alters allowed ch ch' := by
  unfold addOperator at h
  split at h
  · cases h
  · rename_i hnew
    cases h
    refine ⟨rfl, fun q hq => Or.inl ?_, fun hled => ⟨?_, fun q hq => ?_⟩⟩
    · simp only [holds, List.mem_append, List.mem_singleton] at hq ⊢
      rcases hq with hq | (hq | rfl) | hq
      · exact Or.inl hq
      · exact Or.inr (Or.inl hq)
      · exact Or.inl hp
      · exact Or.inr (Or.inr hq)
    · rw [List.nodup_append_comm]
      exact List.nodup_cons.mpr ⟨hnew, hled.nodup⟩
    · rcases List.mem_append.mp hq with hq | hq
      · exact hled.members q hq
      · rw [List.mem_singleton.mp hq]
        exact hp

/-- An operator may be one no longer. -/
theorem alters_removeOperator {client : Option ClientPtr} (h : ch.removeOperator client = .ok ch') :
    Alters allowed ch ch' := by
  cases client with
  | none => cases h
  | some p =>
      simp only [removeOperator] at h
      split at h
      · cases h
        refine ⟨rfl, fun q hq => Or.inl ?_, fun hled => ⟨hled.nodup.erase p, fun q hq => ?_⟩⟩
        · rcases hq with hq | hq | hq
          · exact Or.inl hq
          · exact Or.inr (Or.inl (List.mem_of_mem_erase hq))
          · exact Or.inr (Or.inr hq)
        · exact hled.members q (List.mem_of_mem_erase hq)
      · cases h

/-- An allowed client may be banned. -/
theorem alters_addBan (hp : allowed p) (h : ch.addBan memory p = .ok ch') :
    Alters allowed ch ch' := by
  unfold addBan at h
  split at h
  · cases h
  · cases h
    have hban : Alters allowed ch { ch with bans := ch.bans ++ [p] } := by
      refine ⟨rfl, fun q hq => ?_, fun hled => ⟨hled.nodup, hled.members⟩⟩
      simp only [holds, List.mem_append, List.mem_singleton] at hq ⊢
      rcases hq with hq | hq | (hq | rfl) | hq
      · exact Or.inl (Or.inl hq)
      · exact Or.inl (Or.inr (Or.inl hq))
      · exact Or.inl (Or.inr (Or.inr (Or.inl hq)))
      · exact Or.inr hp
      · exact Or.inl (Or.inr (Or.inr (Or.inr hq)))
    exact hban.trans (alters_removeClient _ _)

/-- A ban may be lifted. -/
theorem alters_removeBan (h : ch.removeBan memory p = .ok ch') : Alters allowed ch ch' := by
  unfold removeBan at h
  split at h
  · cases h
    refine ⟨rfl, fun q hq => Or.inl ?_, fun hled => ⟨hled.nodup, hled.members⟩⟩
    rcases hq with hq | hq | hq | hq
    · exact Or.inl hq
    · exact Or.inr (Or.inl hq)
    · exact Or.inr (Or.inr (Or.inl (List.mem_of_mem_eraseP hq)))
    · exact Or.inr (Or.inr (Or.inr hq))
  · cases h

/-- An allowed client may be invited. -/
theorem alters_addInvite (hp : allowed p) (h : ch.addInvite p = .ok ch') :
    Alters allowed ch ch' := by
  unfold addInvite at h
  split at h
  · cases h
  · cases h
    refine ⟨rfl, fun q hq => ?_, fun hled => ⟨hled.nodup, hled.members⟩⟩
    simp only [holds, List.mem_append, List.mem_singleton] at hq ⊢
    rcases hq with hq | hq | hq | hq | rfl
    · exact Or.inl (Or.inl hq)
    · exact Or.inl (Or.inr (Or.inl hq))
    · exact Or.inl (Or.inr (Or.inr (Or.inl hq)))
    · exact Or.inl (Or.inr (Or.inr (Or.inr hq)))
    · exact Or.inr hp

end Channel

/-- Two objects of a client that agree in all but the descriptor. -/
structure Client.SameRecord (c c' : Client) : Prop where
  login : c'.login = c.login
  alreadyRegistered : c'.alreadyRegistered = c.alreadyRegistered
  userName : c'.userName = c.userName
  hostName : c'.hostName = c.hostName
  realName : c'.realName = c.realName
  nickName : c'.nickName = c.nickName
  password : c'.password = c.password

namespace Client.SameRecord

variable {c c' c'' : Client}

/-- An object agrees with itself. -/
theorem refl (c : Client) : c.SameRecord c := ⟨rfl, rfl, rfl, rfl, rfl, rfl, rfl⟩

/-- Agreement passes on. -/
theorem trans (h : c.SameRecord c') (h' : c'.SameRecord c'') : c.SameRecord c'' where
  login := h'.login.trans h.login
  alreadyRegistered := h'.alreadyRegistered.trans h.alreadyRegistered
  userName := h'.userName.trans h.userName
  hostName := h'.hostName.trans h.hostName
  realName := h'.realName.trans h.realName
  nickName := h'.nickName.trans h.nickName
  password := h'.password.trans h.password

/-- With the same descriptor, they agree altogether. -/
theorem eq_of_fd (h : c.SameRecord c') (hfd : c'.fd = c.fd) : c' = c := by
  obtain ⟨fd, login, flag, user, host, real, nick, password⟩ := c
  obtain ⟨fd', login', flag', user', host', real', nick', password'⟩ := c'
  obtain ⟨hlogin, hflag, huser, hhost, hreal, hnick, hpassword⟩ := h
  dsimp only at *
  subst hfd hlogin hflag huser hhost hreal hnick hpassword
  rfl

end Client.SameRecord

namespace Server

variable {s s' s'' : Server} {p : ClientPtr} {ch ch' : Channel} {name : Str}

/-- Some channel refers to the client. -/
def holds (s : Server) (p : ClientPtr) : Prop := ∃ ch ∈ s.channels, ch.holds p

/-- Channels have different names, each fit to be one. -/
structure Named (s : Server) : Prop where
  distinct : (s.channels.map Channel.name).Nodup
  good : ∀ ch ∈ s.channels, ChannelName ch.name

/-- What handling a message may do to clients and channels. -/
structure Evolves (s s' : Server) : Prop where
  clients : s'.clients.Sublist s.clients
  fds : s.clients.Nodup → ∀ p ∈ s'.clients, (s'.memory p).fd = (s.memory p).fd
  nextPtr : s'.nextPtr = s.nextPtr
  keepsFd : s'.keepsFd = s.keepsFd
  named : s.Named → s'.Named
  holds : ∀ p, s'.holds p → s.holds p ∨ p ∈ s.clients
  led : (∀ ch ∈ s.channels, ch.Led) → ∀ ch ∈ s'.channels, ch.Led

/-- The same, with no client removed. -/
structure Keeps (s s' : Server) : Prop extends Evolves s s' where
  same : s'.clients = s.clients
  fd : ∀ p, (s'.memory p).fd = (s.memory p).fd

/-- What two messages do after each other is of the same kind. -/
theorem Evolves.trans (h : s.Evolves s') (h' : s'.Evolves s'') : s.Evolves s'' where
  clients := h'.clients.trans h.clients
  fds hnodup p hp := (h'.fds (hnodup.sublist h.clients) p hp).trans
    (h.fds hnodup p (h'.clients.subset hp))
  nextPtr := h'.nextPtr.trans h.nextPtr
  keepsFd := h'.keepsFd.trans h.keepsFd
  named := h'.named ∘ h.named
  holds p hp := (h'.holds p hp).elim (h.holds p) fun hin => Or.inr (h.clients.subset hin)
  led := h'.led ∘ h.led

/-- Changing each channel on its own, to hold no new client. -/
theorem keeps_map {s s' : Server} (f : Channel → Channel)
    (hf : ∀ ch ∈ s.channels, ch.Alters (fun _ => False) (f ch))
    (hchannels : s'.channels = s.channels.map f) (hclients : s'.clients = s.clients)
    (hfd : ∀ p, (s'.memory p).fd = (s.memory p).fd) (hnext : s'.nextPtr = s.nextPtr)
    (hkeepsFd : s'.keepsFd = s.keepsFd) : s.Keeps s' where
  same := hclients
  clients := hclients ▸ List.Sublist.refl _
  fd := hfd
  fds _ p _ := hfd p
  nextPtr := hnext
  keepsFd := hkeepsFd
  named hnamed := by
    have hnames : s'.channels.map Channel.name = s.channels.map Channel.name := by
      rw [hchannels, List.map_map]
      exact List.map_congr_left fun ch hch => (hf ch hch).name
    refine ⟨hnames ▸ hnamed.distinct, fun ch hch => ?_⟩
    rw [hchannels] at hch
    obtain ⟨old, hold, rfl⟩ := List.mem_map.mp hch
    exact (hf old hold).name ▸ hnamed.good old hold
  holds p hp := by
    obtain ⟨ch, hch, hp⟩ := hp
    rw [hchannels] at hch
    obtain ⟨old, hold, rfl⟩ := List.mem_map.mp hch
    exact Or.inl ⟨old, hold, ((hf old hold).holds p hp).elim id False.elim⟩
  led hled ch hch := by
    rw [hchannels] at hch
    obtain ⟨old, hold, rfl⟩ := List.mem_map.mp hch
    exact (hf old hold).led (hled old hold)

/-- The clients change, not the channels. -/
theorem evolves_clients {s s' : Server} (hchannels : s'.channels = s.channels)
    (hclients : s'.clients.Sublist s.clients)
    (hfds : s.clients.Nodup → ∀ p ∈ s'.clients, (s'.memory p).fd = (s.memory p).fd)
    (hnext : s'.nextPtr = s.nextPtr) (hkeepsFd : s'.keepsFd = s.keepsFd) : s.Evolves s' where
  clients := hclients
  fds := hfds
  nextPtr := hnext
  keepsFd := hkeepsFd
  named h := ⟨hchannels ▸ h.distinct, fun ch hch => h.good ch (hchannels ▸ hch)⟩
  holds p hp := by
    obtain ⟨ch, hch, hp⟩ := hp
    exact Or.inl ⟨ch, hchannels ▸ hch, hp⟩
  led hled ch hch := hled ch (hchannels ▸ hch)

namespace Keeps

/-- Nothing happens and nobody is removed. -/
theorem refl (s : Server) : s.Keeps s :=
  keeps_map id (fun ch _ => .refl ch) (List.map_id _).symm rfl (fun _ => rfl) rfl rfl

/-- Two messages that remove nobody are of this kind together. -/
theorem trans (h : s.Keeps s') (h' : s'.Keeps s'') : s.Keeps s'' where
  toEvolves := h.toEvolves.trans h'.toEvolves
  same := h'.same.trans h.same
  fd p := (h'.fd p).trans (h.fd p)

/-- What has been sent does not matter. -/
theorem sent (h : s.Keeps s') (sent : List (Fd × Str)) : s.Keeps { s' with sent := sent } :=
  ⟨⟨h.clients, h.fds, h.nextPtr, h.keepsFd,
    fun hn => ⟨(h.named hn).distinct, (h.named hn).good⟩, h.holds, h.led⟩, h.same, h.fd⟩

/-- Messages remove nobody. -/
theorem sendAll (h : s.Keeps s') (messages : List (Fd × Str)) : s.Keeps (s'.sendAll messages) :=
  h.sent _

/-- Nor does a single one. -/
theorem send (h : s.Keeps s') (fd : Fd) (message : Str) : s.Keeps (s'.send fd message) :=
  h.sendAll [(fd, message)]

/-- Nor does one to all members. -/
theorem broadcast (h : s.Keeps s') (clients : List ClientPtr) (message : Str) :
    s.Keeps (s'.broadcast clients message) := h.sendAll _

/-- A client changes, but not its descriptor. -/
theorem setClient (h : s.Keeps s') {f : Client → Client} (hf : ∀ c, (f c).fd = c.fd)
    (p : ClientPtr) : s.Keeps (s'.setClient p f) := by
  have hfd : ∀ q, ((s'.setClient p f).memory q).fd = (s.memory q).fd := by
    intro q
    rw [← h.fd q]
    simp only [Server.setClient, Function.update_apply]
    split
    · rename_i heq
      rw [hf, heq]
    · rfl
  exact ⟨⟨h.clients, fun _ q _ => hfd q, h.nextPtr, h.keepsFd,
    fun hn => ⟨(h.named hn).distinct, (h.named hn).good⟩, h.holds, h.led⟩, h.same, hfd⟩

/-- A channel changes. -/
theorem putChannel (h : s.Keeps s') (hch : ch ∈ s'.channels)
    (halters : ch.Alters (fun p => s.holds p ∨ p ∈ s.clients) ch') :
    s.Keeps (s'.putChannel ch') := by
  have hmem : ∀ old ∈ (s'.putChannel ch').channels, old ∈ s'.channels ∨ old = ch' := by
    intro old hold
    obtain ⟨new, hnew, rfl⟩ := List.mem_map.mp hold
    split
    · exact Or.inr rfl
    · exact Or.inl hnew
  refine ⟨⟨h.clients, h.fds, h.nextPtr, h.keepsFd, fun hn => ⟨?_, ?_⟩, ?_, ?_⟩, h.same, h.fd⟩
  · have hnames : (s'.putChannel ch').channels.map Channel.name =
        s'.channels.map Channel.name := by
      simp only [Server.putChannel, List.map_map]
      apply List.map_congr_left
      intro old _
      simp only [Function.comp_apply]
      split
      · rename_i heq
        exact heq.symm
      · rfl
    rw [hnames]
    exact (h.named hn).distinct
  · intro old hold
    rcases hmem old hold with hold | rfl
    · exact (h.named hn).good old hold
    · exact halters.name ▸ (h.named hn).good ch hch
  · intro p hp
    obtain ⟨old, hold, hp⟩ := hp
    rcases hmem old hold with hold | rfl
    · exact h.holds p ⟨old, hold, hp⟩
    · exact (halters.holds p hp).elim (fun hp => h.holds p ⟨ch, hch, hp⟩) id
  · intro hled old hold
    rcases hmem old hold with hold | rfl
    · exact h.led hled old hold
    · exact halters.led (h.led hled ch hch)

end Keeps

/-- The channel that is found is one of the channels. -/
theorem mem_of_getChannel (h : s.getChannel name = some ch) : ch ∈ s.channels :=
  List.mem_of_find?_eq_some h

/-- It has the name that was looked for. -/
theorem name_of_getChannel (h : s.getChannel name = some ch) : ch.name = name := by
  have hname := List.find?_some h
  simpa using hname

/-- The channel of a lookup is found under its own name. -/
theorem getChannel_self (h : s.getChannel name = some ch) : s.getChannel ch.name = some ch := by
  rw [name_of_getChannel h, h]

/-- Channels are found by their names. -/
theorem getChannel_of_mem (hdistinct : (s.channels.map Channel.name).Nodup)
    (hch : ch ∈ s.channels) : s.getChannel ch.name = some ch := by
  obtain ⟨found, hfound⟩ : ∃ found, s.getChannel ch.name = some found :=
    Option.isSome_iff_exists.mp (List.find?_isSome.mpr ⟨ch, hch, by simp⟩)
  rw [hfound, List.inj_on_of_nodup_map hdistinct (mem_of_getChannel hfound) hch
    (name_of_getChannel hfound)]

/-- Looking up a channel after all of them have changed in place. -/
theorem getChannel_map {f : Channel → Channel} (hf : ∀ ch, (f ch).name = ch.name)
    (hchannels : s'.channels = s.channels.map f) (name : Str) :
    s'.getChannel name = (s.getChannel name).map f := by
  unfold getChannel
  rw [hchannels, List.find?_map]
  congr 2
  funext ch
  simp [hf]

/-- Writing a channel back changes no name. -/
theorem putChannel_name (ch old : Channel) :
    (if old.name = ch.name then ch else old).name = old.name := by
  split
  · rename_i heq
    exact heq.symm
  · rfl

/-- A channel that is written back is found again. -/
theorem getChannel_putChannel (hch : s.getChannel name = some ch) (hname : ch'.name = name) :
    (s.putChannel ch').getChannel name = some ch' := by
  rw [getChannel_map (putChannel_name ch') rfl, hch, Option.map_some,
    if_pos ((name_of_getChannel hch).trans hname.symm)]

/-- The others are found as before. -/
theorem getChannel_putChannel_of_ne (s : Server) (h : ch.name ≠ name) :
    (s.putChannel ch).getChannel name = s.getChannel name := by
  rw [getChannel_map (putChannel_name ch) rfl]
  cases hfind : s.getChannel name with
  | none => rfl
  | some old =>
      have hother : old.name ≠ ch.name := by
        rw [name_of_getChannel hfind]
        exact h.symm
      rw [Option.map_some, if_neg hother]

/-- The client that is found is connected. -/
theorem mem_of_getClient {fd : Fd} (h : s.getClient fd = some p) : p ∈ s.clients :=
  List.mem_of_find?_eq_some h

/-- It has the descriptor that was looked for. -/
theorem fd_of_getClient {fd : Fd} (h : s.getClient fd = some p) : (s.memory p).fd = fd := by
  have hfd := List.find?_some h
  simpa using hfd

/-- A new channel, with its first member. -/
theorem keeps_addChannel (hname : ChannelName name) (hnew : s.getChannel name = none)
    (hp : p ∈ s.clients) : s.Keeps (s.addChannel ((Channel.new name).pushClient p)) := by
  have halters : (Channel.new name).Alters (fun q => q ∈ s.clients)
      ((Channel.new name).pushClient p) := Channel.alters_pushClient _ hp
  have hmem : ∀ ch ∈ (s.addChannel ((Channel.new name).pushClient p)).channels,
      ch ∈ s.channels ∨ ch = (Channel.new name).pushClient p := by
    intro ch hch
    simpa [addChannel] using hch
  refine ⟨⟨List.Sublist.refl _, fun _ _ _ => rfl, rfl, rfl, fun hn => ⟨?_, ?_⟩, ?_, ?_⟩, rfl,
    fun _ => rfl⟩
  · simp only [addChannel, List.map_append, List.map_cons, List.map_nil]
    rw [List.nodup_append_comm]
    refine List.nodup_cons.mpr ⟨fun hin => ?_, hn.distinct⟩
    obtain ⟨ch, hch, heq⟩ := List.mem_map.mp hin
    have hne : ¬ ch.name = name := by simpa using List.find?_eq_none.mp hnew ch hch
    exact hne heq
  · intro ch hch
    rcases hmem ch hch with hch | rfl
    · exact hn.good ch hch
    · exact hname
  · intro q hq
    obtain ⟨ch, hch, hq⟩ := hq
    rcases hmem ch hch with hch | rfl
    · exact Or.inl ⟨ch, hch, hq⟩
    · refine (halters.holds q hq).elim (fun hnone => ?_) Or.inr
      simp [Channel.holds, Channel.new] at hnone
  · intro hled ch hch
    rcases hmem ch hch with hch | rfl
    · exact hled ch hch
    · exact halters.led ⟨List.nodup_nil, fun _ hq => by cases hq⟩

/-- Only messages are sent. -/
def Sends (s s' : Server) : Prop := s' = { s with sent := s'.sent }

/-- To do nothing is to send nothing. -/
theorem Sends.refl (s : Server) : s.Sends s := rfl

/-- Sending sends. -/
theorem sends_sendAll (s : Server) (messages : List (Fd × Str)) : s.Sends (s.sendAll messages) :=
  rfl

/-- What is sent later follows what is sent first. -/
theorem Sends.trans (h : s.Sends s') (h' : s'.Sends s'') : s.Sends s'' := by
  unfold Sends at h h' ⊢
  rw [h', h]

/-- Sending changes no channel. -/
theorem Sends.channels (h : s.Sends s') : s'.channels = s.channels := by
  rw [show s' = { s with sent := s'.sent } from h]

/-- It removes nobody. -/
theorem Sends.keeps (h : s.Sends s') : s.Keeps s' := by
  rw [show s' = { s with sent := s'.sent } from h]
  exact (Keeps.refl s).sent _

variable {message : Str} {fd : Fd} {client : ClientPtr} {info : ModeInfo} {e : Exception}

/-- An exception of a client is a message to it. -/
theorem throwClient_sends (s : Server) (fd : Fd) (e : Exception) (text : Str) :
    (s.throwClient fd e text).Leaves s.Sends :=
  leaves_thrown.mpr rfl

/-- So it removes nobody. -/
theorem throwClient_keeps (h : s.Keeps s') (fd : Fd) (e : Exception) (text : Str) :
    (s'.throwClient fd e text).Leaves s.Keeps :=
  leaves_thrown.mpr (h.send fd _)

/-- Nor does the refusal of somebody who is no operator. -/
theorem throwNotOperator_keeps (s : Server) (fd : Fd) (name : Str) :
    (s.throwNotOperator fd name).Leaves s.Keeps :=
  .require fun _ _ => throwClient_keeps (.refl s) _ _ _

/-- An unknown command is answered by a message. -/
theorem unknownCommand_sends (s : Server) (fd : Fd) (text : Str) :
    (Checker.unknownCommand s fd text).Leaves s.Sends :=
  .require fun _ _ => throwClient_sends s _ _ _

/-- The checker only answers. -/
theorem check_sends (s : Server) (message : Str) (fd : Fd) :
    (Checker.check s message fd).Leaves s.Sends := by
  unfold Checker.check
  refine .ite (fun _ => ?_) (fun _ => unknownCommand_sends s fd _)
  split
  · exact leaves_thrown.mpr rfl
  · exact .ite (fun _ => unknownCommand_sends s fd _) (fun _ => leaves_done.mpr rfl)

/-- A channel operation that may throw. -/
theorem update_keeps {changed : Except Exception Channel} {next : Channel → Server → Result}
    (h : s.Keeps s') (hch : ch ∈ s'.channels)
    (halters : ∀ ch', changed = .ok ch' → ch.Alters (fun p => s.holds p ∨ p ∈ s.clients) ch')
    (hnext : ∀ ch' s', s.Keeps s' → (next ch' s').Leaves s.Keeps) :
    (s'.update changed next).Leaves s.Keeps := by
  cases changed with
  | ok ch' => exact hnext ch' _ (h.putChannel hch (halters ch' rfl))
  | error e => exact leaves_thrown.mpr h

/-- `Client::login` greets the client, or throws. -/
theorem login_keeps (h : s.Keeps s') (client : ClientPtr) : (s'.login client).Leaves s.Keeps := by
  unfold login
  refine .ite (fun _ => .ite (fun _ => leaves_done.mpr h) (fun _ => ?_)) (fun _ => ?_)
  · exact leaves_done.mpr ((h.sendAll _).setClient (fun _ => by rfl) client)
  · exact throwClient_keeps h _ _ _

/-- `JOIN` adds its client to a channel. -/
theorem execJoin_keeps (hline : OneLine message) : (s.execJoin message fd).Leaves s.Keeps := by
  unfold execJoin
  rw [leaves_catching]
  dsimp only
  split
  · rename_i ch hch
    refine .ite (fun _ => throwClient_keeps (.refl s) _ _ _) (fun _ => .require fun client hc => ?_)
    split
    · exact throwClient_keeps (.refl s) _ _ _
    · exact leaves_done.mpr (((Keeps.refl s).putChannel (mem_of_getChannel hch)
        (ch.alters_pushClient (Or.inr (mem_of_getClient hc)))).sendAll _)
  · rename_i hnone
    refine .require fun client hc => leaves_done.mpr ?_
    exact (keeps_addChannel (.function hline) hnone (mem_of_getClient hc)).send _ _

/-- Relaying a text sends messages. -/
theorem relay_keeps (s : Server) (fd : Fd) (target text : Str) (toSelf : Bool) :
    s.Keeps (s.relay fd target text toSelf) := by
  unfold relay
  split
  · dsimp only
    split
    · exact (Keeps.refl s).send _ _
    · exact .refl s
  · split
    · exact (Keeps.refl s).sendAll _
    · exact .refl s

/-- `PRIVMSG` relays. -/
theorem execPrivMsg_keeps : (s.execPrivMsg message fd).Leaves s.Keeps :=
  .require fun _ _ => .require fun _ _ => leaves_done.mpr (relay_keeps ..)

/-- So does `NOTICE`. -/
theorem execNotice_keeps : (s.execNotice message fd).Leaves s.Keeps :=
  .require fun _ _ => .require fun _ _ => leaves_done.mpr (relay_keeps ..)

/-- `PART` takes its client off a channel. -/
theorem execPart_keeps : (s.execPart message fd).Leaves s.Keeps := by
  refine .require fun client _ => ?_
  dsimp only
  split
  · rename_i ch hch
    exact leaves_done.mpr (((Keeps.refl s).broadcast _ _).putChannel (mem_of_getChannel hch)
      (ch.alters_removeClient _))
  · exact leaves_done.mpr (.refl s)

/-- `WHO` only answers. -/
theorem execWho_sends : (s.execWho message fd).Leaves s.Sends := by
  unfold execWho
  dsimp only
  split
  · exact .require fun _ _ => leaves_done.mpr rfl
  · exact leaves_done.mpr rfl

/-- `NICK` writes a nickname. -/
theorem execNick_keeps : (s.execNick message fd).Leaves s.Keeps := by
  refine .require fun client _ => .ite (fun _ => ?_) (fun _ => ?_)
  · exact leaves_done.mpr (((Keeps.refl s).send _ _).setClient (fun _ => by rfl) client)
  · have hnamed : s.Keeps (s.setClient client fun c =>
        { c with nickName := (Parser.parse message).function }) :=
      (Keeps.refl s).setClient (fun _ => by rfl) client
    dsimp only
    generalize hs : (if (s.memory client).nickName ≠ "*".toList then _ else _ : Server) = s'
    have htold : s.Keeps s' := by
      rw [← hs]
      split
      · exact hnamed.sendAll _
      · exact hnamed
    exact .ite (fun _ => login_keeps (htold.setClient (fun _ => by rfl) client) client)
      (fun _ => leaves_done.mpr htold)

/-- `PASS` writes a password. -/
theorem execPass_keeps : (s.execPass message fd).Leaves s.Keeps :=
  .require fun client _ => leaves_done.mpr ((Keeps.refl s).setClient (fun _ => by rfl) client)

/-- A change of operators makes a member one, or ends it. -/
theorem execOperator_keeps (hch : ch ∈ s.channels) : (s.execOperator ch info).Leaves s.Keeps := by
  unfold execOperator
  rw [leaves_catching]
  dsimp only
  refine .ite (fun _ => .require fun client hc => ?_) (fun _ => ?_)
  · exact update_keeps (.refl s) hch
      (fun _ hok => Channel.alters_addOperator (List.mem_of_find?_eq_some hc) hok)
      (fun _ _ h => leaves_done.mpr (h.broadcast _ _))
  · exact update_keeps (.refl s) hch (fun _ hok => Channel.alters_removeOperator hok)
      (fun _ _ h => .require fun _ _ => leaves_done.mpr (h.broadcast _ _))

/-- What the nested call of `Command::Execute` is used for. -/
def WhoSends (who : Server → Str → Fd → Result) (name : Str) : Prop :=
  ∀ s fd, (who s (whoMessage name) fd).Leaves s.Sends

/-- Telling a member of a ban is sending it the members of the channel. -/
theorem banTell_sends {who : Server → Str → Fd → Result} (hwho : WhoSends who name)
    (flag parameters : Str) (client : ClientPtr) (h : s.Sends s') :
    (s'.banTell who name flag parameters client).Leaves s.Sends :=
  (hwho _ _).imp fun _ hs => h.trans ((sends_sendAll s' _).trans hs)

/-- So is telling all of them. -/
theorem banTells_sends {who : Server → Str → Fd → Result} (hwho : WhoSends who name)
    (flag parameters : Str) (clients : List ClientPtr) (s : Server) :
    (Outcome.each (banTell who name flag parameters) clients s).Leaves s.Sends :=
  .each (fun client _ _ h => banTell_sends hwho flag parameters client h) rfl

/-- A ban moves a client from the members to the bans. -/
theorem banClient_keeps (h : s.Keeps s') (hclient : s.holds client) :
    (s'.banClient name client).Leaves s.Keeps := by
  unfold banClient
  split
  · exact leaves_done.mpr h
  · rename_i ch hch
    exact update_keeps h (mem_of_getChannel hch)
      (fun _ hok => Channel.alters_addBan (Or.inl hclient) hok)
      (fun _ _ h => leaves_done.mpr (h.send _ _))

/-- Lifting a ban takes a client off that list. -/
theorem pardon_keeps (h : s.Keeps s') (hch : ch ∈ s'.channels) (hostName : Str) :
    (s'.pardon ch hostName).Leaves s.Keeps := by
  unfold pardon
  split
  · exact update_keeps h hch (fun _ hok => Channel.alters_removeBan hok)
      (fun _ _ h => leaves_done.mpr h)
  · exact .ite (fun _ => leaves_thrown.mpr h) (fun _ => leaves_fault)

/-- A change of bans does one or the other. -/
theorem execBan_keeps {who : Server → Str → Fd → Result} (hch : ch ∈ s.channels)
    (hwho : WhoSends who ch.name) : (s.execBan who ch info fd).Leaves s.Keeps := by
  unfold execBan
  rw [leaves_catching]
  refine .ite
    (fun _ => .require fun _ _ => leaves_done.mpr ((Keeps.refl s).sendAll _)) (fun _ => ?_)
  refine .ite (fun _ => .require fun hostName _ => ?_) (fun _ => ?_)
  · refine Leaves.andThen (.each (fun client hclient _ h => banClient_keeps h ?_) (.refl s)) ?_
    · exact ⟨ch, hch, Or.inl (List.mem_of_mem_filter hclient)⟩
    · intro s' h
      exact (banTells_sends hwho _ _ _ s').imp fun _ hs => h.trans hs.keeps
  · refine (banTells_sends hwho _ _ _ s).andThen_of_imp (fun _ h => h.keeps) fun s' hs =>
      .require fun hostName _ => ?_
    exact pardon_keeps hs.keeps (hs.channels ▸ hch) _

/-- A change of the limit writes the channel. -/
theorem execLimit_keeps (env : Env) (hch : ch ∈ s.channels) :
    s.Keeps (s.execLimit env ch info) := by
  unfold execLimit
  split
  · dsimp only
    split
    · exact (Keeps.refl s).sendAll _
    · exact ((Keeps.refl s).sendAll _).putChannel hch
        (ch.alters_settings _ _ _ _)
  · dsimp only
    split
    · exact (Keeps.refl s).sendAll _
    · exact ((Keeps.refl s).sendAll _).putChannel hch
        (ch.alters_settings _ _ _ _)

/-- So does one of the invite-only flag. -/
theorem execInviteOnly_keeps (hch : ch ∈ s.channels) : s.Keeps (s.execInviteOnly ch info) :=
  ((Keeps.refl s).putChannel hch (ch.alters_settings _ _ _ _)).sendAll _

/-- So does one of the key. -/
theorem execKey_keeps (hch : ch ∈ s.channels) : s.Keeps (s.execKey ch info) :=
  ((Keeps.refl s).putChannel hch (ch.alters_settings _ _ _ _)).sendAll _

/-- So does one of the topic. -/
theorem execModeTopic_keeps (hch : ch ∈ s.channels) : s.Keeps (s.execModeTopic ch info) :=
  ((Keeps.refl s).putChannel hch (ch.alters_settings _ _ _ _)).broadcast _ _

/-- A change of any mode is one of these. -/
theorem execModeKey_keeps {who : Server → Str → Fd → Result} (env : Env) (hch : ch ∈ s.channels)
    (hwho : WhoSends who ch.name) : (s.execModeKey env who ch info fd).Leaves s.Keeps := by
  unfold execModeKey
  refine .ite (fun _ => execOperator_keeps hch) (fun _ => ?_)
  refine .ite (fun _ => execBan_keeps hch hwho) (fun _ => ?_)
  refine .ite (fun _ => leaves_done.mpr (execLimit_keeps env hch)) (fun _ => ?_)
  refine .ite (fun _ => leaves_done.mpr (execInviteOnly_keeps hch)) (fun _ => ?_)
  refine .ite (fun _ => leaves_done.mpr (execKey_keeps hch)) (fun _ => ?_)
  exact .ite
    (fun _ => leaves_done.mpr (execModeTopic_keeps hch)) (fun _ => leaves_done.mpr (.refl s))

/-- `MODE` changes the modes of a channel, or shows them. -/
theorem execMode_keeps {who : Server → Str → Fd → Result} (env : Env) (hnamed : s.Named)
    (hwho : ∀ name, ChannelName name → WhoSends who name) :
    (s.execMode env who message fd).Leaves s.Keeps := by
  unfold execMode modeExecute
  rw [leaves_catching]
  refine .ite (fun _ => leaves_done.mpr (.refl s)) (fun _ => .require fun info _ => ?_)
  refine .require fun ch hch => .ite (fun _ => throwNotOperator_keeps _ _ _) (fun _ => ?_)
  have hmem := mem_of_getChannel hch
  exact execModeKey_keeps env hmem (hwho _ (hnamed.good ch hmem))

/-- `KICK` takes a client off a channel. -/
theorem execKick_keeps : (s.execKick message fd).Leaves s.Keeps := by
  refine .require fun parsed _ => ?_
  dsimp only
  rw [leaves_catching]
  refine .require fun ch hch => .ite (fun _ => throwNotOperator_keeps _ _ _) (fun _ => ?_)
  split
  · exact throwClient_keeps (.refl s) _ _ _
  · exact leaves_done.mpr (((Keeps.refl s).broadcast _ _).putChannel (mem_of_getChannel hch)
      (ch.alters_removeClient _))

/-- `INVITE` puts a client on the list of the invited. -/
theorem execInvite_keeps : (s.execInvite message fd).Leaves s.Keeps := by
  unfold execInvite
  rw [leaves_catching]
  dsimp only
  split
  · exact throwClient_keeps (.refl s) _ _ _
  · rename_i ch hch
    refine .ite (fun _ => throwNotOperator_keeps _ _ _) (fun _ => ?_)
    split
    · exact throwClient_keeps (.refl s) _ _ _
    · rename_i target htarget
      exact update_keeps (.refl s) (mem_of_getChannel hch)
        (fun _ hok => Channel.alters_addInvite (Or.inr (List.mem_of_find?_eq_some htarget)) hok)
        (fun _ _ h => leaves_done.mpr (h.broadcast _ _))

/-- `TOPIC` writes a topic. -/
theorem execTopic_keeps : (s.execTopic message fd).Leaves s.Keeps := by
  unfold execTopic
  rw [leaves_catching]
  refine .require fun ch hch => .ite (fun _ => throwNotOperator_keeps _ _ _) (fun _ => ?_)
  refine .ite (fun _ => .require fun _ _ => ?_) (fun _ => .require fun value _ => ?_)
  · exact leaves_done.mpr ((Keeps.refl s).send _ _)
  · exact leaves_done.mpr (((Keeps.refl s).putChannel (mem_of_getChannel hch)
      (ch.alters_settings _ _ _ _)).broadcast _ _)

/-- `WHOIS` only answers. -/
theorem execWhois_sends : (s.execWhois message fd).Leaves s.Sends := by
  unfold execWhois
  dsimp only
  split
  · refine .require fun _ _ => ?_
    split
    · exact leaves_done.mpr rfl
    · exact leaves_done.mpr rfl
  · split
    · exact .require fun _ _ => leaves_done.mpr rfl
    · exact leaves_done.mpr rfl

/-- No command behind the login test removes a client. -/
theorem dispatchLogin_keeps {who : Server → Str → Fd → Result} (env : Env) (hnamed : s.Named)
    (hline : OneLine message) (hwho : ∀ name, ChannelName name → WhoSends who name) (verb : Verb) :
    (s.dispatchLogin env who client message fd verb).Leaves s.Keeps := by
  cases verb with
  | privmsg => exact execPrivMsg_keeps
  | join => exact execJoin_keeps hline
  | part => exact execPart_keeps
  | who => exact execWho_sends.imp fun _ h => h.keeps
  | notice => exact execNotice_keeps
  | mode => exact execMode_keeps env hnamed hwho
  | kick => exact execKick_keeps
  | invite => exact execInvite_keeps
  | topic => exact execTopic_keeps
  | whois => exact execWhois_sends.imp fun _ h => h.keeps
  | quit | nick | user | pass | unknown => exact throwClient_keeps (.refl s) _ _ _

/-- A descriptor that is not found belongs to no connected client. -/
theorem getClient_eq_none (h : s.getClient fd = none) :
    ∀ p ∈ s.clients, ¬ (s.memory p).fd = fd := by
  intro p hp
  simpa using List.find?_eq_none.mp h p hp

/-- Deleting a client changes the list of clients and one object. -/
theorem deleteClient_eq (s : Server) (fd : Fd) :
    s.deleteClient fd =
      { s with
        clients := s.clients.eraseP fun p => (s.memory p).fd = fd
        memory := (s.deleteClient fd).memory } := by
  unfold deleteClient
  cases hc : s.getClient fd with
  | some client => rfl
  | none =>
      have hkept : (s.clients.eraseP fun p => (s.memory p).fd = fd) = s.clients :=
        List.eraseP_of_forall_not fun p hp => by simpa using getClient_eq_none hc p hp
      rw [hkept]

@[simp] theorem deleteClient_clients (s : Server) (fd : Fd) :
    (s.deleteClient fd).clients = s.clients.eraseP fun p => (s.memory p).fd = fd := by
  rw [deleteClient_eq]

@[simp] theorem deleteClient_channels (s : Server) (fd : Fd) :
    (s.deleteClient fd).channels = s.channels := by
  rw [deleteClient_eq]

@[simp] theorem deleteClient_keepsFd (s : Server) (fd : Fd) :
    (s.deleteClient fd).keepsFd = s.keepsFd := by
  rw [deleteClient_eq]

@[simp] theorem deleteClient_nextPtr (s : Server) (fd : Fd) :
    (s.deleteClient fd).nextPtr = s.nextPtr := by
  rw [deleteClient_eq]

/-- Only the object of the deleted client is written. -/
theorem deleteClient_memory (hp : s.getClient fd ≠ some p) :
    (s.deleteClient fd).memory p = s.memory p := by
  unfold deleteClient
  split
  · rename_i client hc
    exact Function.update_of_ne (fun heq => hp (by rw [heq, hc])) _ _
  · rfl

/-- The memory of the client that is deleted. -/
theorem deleteClient_memory_self (hp : s.getClient fd = some p) :
    (s.deleteClient fd).memory p = { s.memory p with fd := s.leftFd p } := by
  unfold deleteClient
  rw [hp]
  exact Function.update_self _ _ _

/-- It changes no object but for the descriptor. -/
theorem deleteClient_record (s : Server) (fd : Fd) (p : ClientPtr) :
    (s.memory p).SameRecord ((s.deleteClient fd).memory p) := by
  by_cases hp : s.getClient fd = some p
  · rw [deleteClient_memory_self hp]
    exact ⟨rfl, rfl, rfl, rfl, rfl, rfl, rfl⟩
  · rw [deleteClient_memory hp]
    exact .refl _

/-- A client listed once is off the list when it has been deleted. -/
theorem not_mem_deleteClient (hnodup : s.clients.Nodup) (hp : s.getClient fd = some p) :
    p ∉ (s.deleteClient fd).clients := by
  obtain ⟨hfd, pre, post, hsplit, hpre⟩ := List.find?_eq_some_iff_append.mp hp
  have hpre' : ∀ q ∈ pre, ¬ decide ((s.memory q).fd = fd) = true :=
    fun q hq => by simpa using hpre q hq
  rw [deleteClient_clients, hsplit, List.eraseP_append_right _ hpre', List.eraseP_cons, hfd]
  exact (List.nodup_cons.mp (List.nodup_middle.mp (hsplit ▸ hnodup))).1

/-- A client is deleted and the others are kept. -/
theorem evolves_deleteClient (s : Server) (fd : Fd) : s.Evolves (s.deleteClient fd) := by
  refine evolves_clients (s.deleteClient_channels fd) ?_ ?_ (s.deleteClient_nextPtr fd)
    (s.deleteClient_keepsFd fd)
  · rw [deleteClient_clients]
    exact List.eraseP_sublist
  · intro hnodup p hp
    rw [deleteClient_memory fun hfound => not_mem_deleteClient hnodup hfound hp]

/-- Without such a client nothing is deleted. -/
theorem deleteClient_of_none (h : s.getClient fd = none) : s.deleteClient fd = s := by
  unfold deleteClient
  rw [h]

/-- Without a client on the descriptor, only the channels are gone through. -/
theorem removeClient_of_none (h : s.getClient fd = none) :
    s.removeClient fd = s.dropMembers fd := by
  have hafter : (s.dropMembers fd).getClient fd = none := h
  rw [removeClient, deleteClient_of_none h, deleteClient_of_none hafter]

/-- The loop over the channels removes no client from the server. -/
theorem keeps_dropMembers (s : Server) (fd : Fd) : s.Keeps (s.dropMembers fd) :=
  keeps_map _ (fun ch _ => ch.alters_removeClient _) rfl rfl (fun _ => rfl) rfl rfl

/-- A removal is a deletion, that loop, and perhaps another deletion. -/
theorem evolves_removeClient (s : Server) (fd : Fd) : s.Evolves (s.removeClient fd) :=
  ((s.evolves_deleteClient fd).trans (keeps_dropMembers _ fd).toEvolves).trans
    (evolves_deleteClient _ fd)

/-- Removing a client changes the tables and the objects of clients. -/
theorem removeClient_eq (s : Server) (fd : Fd) :
    s.removeClient fd =
      { s with
        clients := (s.removeClient fd).clients
        channels := (s.removeClient fd).channels
        memory := (s.removeClient fd).memory } := by
  unfold removeClient
  rw [deleteClient_eq _ fd, dropMembers, deleteClient_eq s fd]

/-- Nobody is told of a removal. -/
theorem removeClient_sent (s : Server) (fd : Fd) : (s.removeClient fd).sent = s.sent := by
  rw [removeClient_eq]

/-- What `Server::removeClient` does to one channel. -/
def dropFrom (s : Server) (fd : Fd) (ch : Channel) : Channel :=
  ch.removeClient (s.deleteClient fd).memory (ch.getClient (s.deleteClient fd).memory fd)

/-- The channel keeps its name. -/
theorem dropFrom_name (s : Server) (fd : Fd) (ch : Channel) : (s.dropFrom fd ch).name = ch.name :=
  have h : ch.Alters (fun _ => False) (s.dropFrom fd ch) := ch.alters_removeClient _
  h.name

/-- A removal does that to every channel. -/
theorem channels_removeClient (s : Server) (fd : Fd) :
    (s.removeClient fd).channels = s.channels.map (s.dropFrom fd) := by
  unfold removeClient dropMembers
  rw [deleteClient_channels, deleteClient_channels]
  rfl

/-- The records of all clients stay where they are. -/
theorem removeClient_record (s : Server) (fd : Fd) (p : ClientPtr) :
    (s.memory p).SameRecord ((s.removeClient fd).memory p) :=
  (s.deleteClient_record fd p).trans
    (((s.deleteClient fd).dropMembers fd).deleteClient_record fd p)

/-- The clients and channels are those of another state, and so are all
descriptors. -/
structure SameTables (s s' : Server) : Prop where
  clients : s'.clients = s.clients
  channels : s'.channels = s.channels
  fd : ∀ p, (s'.memory p).fd = (s.memory p).fd

namespace SameTables

/-- A state has its own tables. -/
theorem refl (s : Server) : s.SameTables s := ⟨rfl, rfl, fun _ => rfl⟩

/-- What is sent is no part of the tables. -/
theorem sent (h : s.SameTables s') (sent : List (Fd × Str)) :
    s.SameTables { s' with sent := sent } := ⟨h.clients, h.channels, h.fd⟩

/-- The same client is found in both states. -/
theorem getClient (h : s.SameTables s') (fd : Fd) : s'.getClient fd = s.getClient fd := by
  simp only [Server.getClient, h.clients, h.fd]

/-- Deleting a client looks at the descriptors only. -/
theorem deleteClient (h : s.SameTables s') (hkeepsFd : s'.keepsFd = s.keepsFd) (fd : Fd) :
    (s.deleteClient fd).SameTables (s'.deleteClient fd) := by
  refine ⟨?_, ?_, fun p => ?_⟩
  · simp only [deleteClient_clients, h.clients, h.fd]
  · simp only [deleteClient_channels, h.channels]
  · by_cases hp : s.getClient fd = some p
    · rw [deleteClient_memory_self hp, deleteClient_memory_self ((h.getClient fd).trans hp)]
      simp only [leftFd, hkeepsFd, h.fd]
    · have hp' : s'.getClient fd ≠ some p := h.getClient fd ▸ hp
      rw [deleteClient_memory hp, deleteClient_memory hp', h.fd]

/-- The loop over the channels does the same in both. -/
theorem dropMembers (h : s.SameTables s') (fd : Fd) :
    (s.dropMembers fd).SameTables (s'.dropMembers fd) := by
  refine ⟨h.clients, ?_, h.fd⟩
  simp only [Server.dropMembers, h.channels]
  refine List.map_congr_left fun ch _ => ?_
  have hfound : ch.getClient s'.memory fd = ch.getClient s.memory fd := by
    simp only [Channel.getClient, h.fd]
  rw [hfound]
  cases ch.getClient s.memory fd with
  | none => rfl
  | some p => rw [Channel.removeClient_some, Channel.removeClient_some]

/-- So does the removal of a client. -/
theorem removeClient (h : s.SameTables s') (hkeepsFd : s'.keepsFd = s.keepsFd) (fd : Fd) :
    (s.removeClient fd).SameTables (s'.removeClient fd) := by
  have hkeepsFd' : ((s'.deleteClient fd).dropMembers fd).keepsFd =
      ((s.deleteClient fd).dropMembers fd).keepsFd := by
    rw [show ((s'.deleteClient fd).dropMembers fd).keepsFd = _ from deleteClient_keepsFd s' fd,
      show ((s.deleteClient fd).dropMembers fd).keepsFd = _ from deleteClient_keepsFd s fd,
      hkeepsFd]
  exact ((h.deleteClient hkeepsFd fd).dropMembers fd).deleteClient hkeepsFd' fd

end SameTables

/-- What the loop of `Command::execQuit` makes of a channel. -/
def quitFrom (s : Server) (fd : Fd) (ch : Channel) : Channel :=
  if (ch.getClient s.memory fd).isSome then ch.removeClient s.memory (s.getClient fd) else ch

/-- The loop of `QUIT` takes a member off, or nobody. -/
theorem alters_quitFrom {allowed : ClientPtr → Prop} (s : Server) (fd : Fd) (ch : Channel) :
    ch.Alters allowed (s.quitFrom fd ch) := by
  unfold quitFrom
  split
  · exact ch.alters_removeClient _
  · exact .refl ch

/-- The channel keeps its name. -/
theorem quitFrom_name (s : Server) (fd : Fd) (ch : Channel) : (s.quitFrom fd ch).name = ch.name :=
  have h : ch.Alters (fun _ => False) (s.quitFrom fd ch) := s.alters_quitFrom fd ch
  h.name

/-- The channels after the loop of `Command::execQuit`. -/
def departed (s : Server) (fd : Fd) : Server :=
  { s with channels := s.channels.map (s.quitFrom fd) }

/-- The loop of `QUIT` has no influence on what the channels read afterwards. -/
theorem dropFrom_departed (s : Server) (fd : Fd) :
    (s.departed fd).dropFrom fd = s.dropFrom fd := by
  have hclient : (s.departed fd).getClient fd = s.getClient fd := rfl
  have hmemory : ((s.departed fd).deleteClient fd).memory = (s.deleteClient fd).memory := by
    unfold deleteClient
    rw [hclient]
    split <;> rfl
  unfold dropFrom
  rw [hmemory]

/-- That loop removes no client from the server. -/
theorem keeps_departed (s : Server) (fd : Fd) : s.Keeps (s.departed fd) :=
  keeps_map _ (fun ch _ => s.alters_quitFrom fd ch) rfl rfl (fun _ => rfl) rfl rfl

/-- One channel is written back, and the others stay. -/
theorem putChannel_middle {pre post : List Channel} (hchannels : s.channels = pre ++ ch :: post)
    (hdistinct : (s.channels.map Channel.name).Nodup) (hname : ch'.name = ch.name) :
    s.putChannel ch' = { s with channels := pre ++ ch' :: post } := by
  rw [hchannels, List.map_append, List.map_cons] at hdistinct
  obtain ⟨-, hpost, hpre⟩ := List.nodup_append.mp hdistinct
  have hother : ∀ old ∈ pre ++ post, old.name ≠ ch'.name := by
    intro old hold
    rw [hname]
    rcases List.mem_append.mp hold with hold | hold
    · exact hpre _ (List.mem_map_of_mem hold) _ List.mem_cons_self
    · intro heq
      exact (List.nodup_cons.mp hpost).1 (heq ▸ List.mem_map_of_mem hold)
  have hkeep : ∀ l : List Channel, (∀ old ∈ l, old ∈ pre ++ post) →
      (l.map fun old => if old.name = ch'.name then ch' else old) = l := by
    intro l hl
    rw [List.map_congr_left fun old hold => if_neg (hother old (hl old hold))]
    exact List.map_id _
  unfold putChannel
  rw [hchannels, List.map_append, List.map_cons, if_pos hname.symm,
    hkeep pre (fun _ => List.mem_append_left _), hkeep post (fun _ => List.mem_append_right _)]

/-- Telling a member only sends. -/
theorem quitTell_sends (target : Fd) (told : Server × Str) (h : s.Sends told.1) :
    (quitTell fd target told).Leaves fun told => s.Sends told.1 := by
  unfold quitTell
  refine .ite (fun _ => .require fun text _ => .require fun client _ => ?_) (fun _ => ?_)
  · exact leaves_done.mpr (h.trans (sends_sendAll told.1 _))
  · exact leaves_done.mpr h

/-- The state while the loop of `Command::execQuit` stands between `pre` and
`post`. -/
def PartWay (s : Server) (fd : Fd) (pre post : List Channel) (told : Server × Str) : Prop :=
  told.1 = { s with channels := pre.map (s.quitFrom fd) ++ post, sent := told.1.sent }

/-- It throws nothing: what can fail is the text behind the colon. -/
theorem quitTell_throws (fd target : Fd) (told : Server × Str) :
    (quitTell fd target told).ThrowsOnly fun _ => False :=
  .ite (fun _ => .require fun _ _ => .require fun _ _ => throwsOnly_done) (fun _ => throwsOnly_done)

/-- A round of the loop takes the client off one more channel. -/
theorem quitChannel_leaves (hnamed : s.Named) {pre post : List Channel}
    (hsplit : s.channels = pre ++ ch :: post) {told : Server × Str}
    (htold : s.PartWay fd pre (ch :: post) told) :
    (quitChannel fd ch told).Leaves (s.PartWay fd (pre ++ [ch]) post) := by
  have hmemory : told.1.memory = s.memory := by rw [show told.1 = _ from htold]
  unfold quitChannel
  rw [hmemory]
  refine .ite (fun hmember => ?_) (fun hmember => ?_)
  · refine Leaves.andThen_of_throwsOnly (R := fun after => told.1.Sends after.1)
      (.each (fun target _ after h => quitTell_sends target after h) rfl)
      (.each (fun target after => quitTell_throws fd target after) _ _) fun after hafter => ?_
    refine leaves_done.mpr ?_
    have hstate : after.1 =
        { s with channels := pre.map (s.quitFrom fd) ++ ch :: post, sent := after.1.sent } := by
      rw [show after.1 = _ from hafter, show told.1 = _ from htold]
    have hdistinct : (after.1.channels.map Channel.name).Nodup := by
      have hnames : after.1.channels.map Channel.name = s.channels.map Channel.name := by
        rw [hstate, hsplit]
        simp only [List.map_append, List.map_map]
        congr 1
        exact List.map_congr_left fun old _ => s.quitFrom_name fd old
      exact hnames ▸ hnamed.distinct
    have hquit : ch.removeClient after.1.memory (after.1.getClient fd) = s.quitFrom fd ch := by
      rw [hstate, quitFrom, if_pos hmember]
      rfl
    unfold PartWay
    dsimp only
    rw [hquit, putChannel_middle (by rw [hstate]) hdistinct (s.quitFrom_name fd ch)]
    conv_lhs => rw [hstate]
    simp
  · refine leaves_done.mpr ?_
    unfold PartWay at htold ⊢
    rw [htold]
    simp [quitFrom, hmember]

/-- A round throws nothing either. -/
theorem quitChannel_throws (fd : Fd) (ch : Channel) (told : Server × Str) :
    (quitChannel fd ch told).ThrowsOnly fun _ => False :=
  .ite (fun _ => .andThen (.each (quitTell_throws fd) _ _) fun _ => throwsOnly_done)
    (fun _ => throwsOnly_done)

/-- The loop of `Command::execQuit`, from some channel on. -/
theorem quitChannels_leaves (hnamed : s.Named) {pre post : List Channel} {told : Server × Str}
    (hsplit : s.channels = pre ++ post) (htold : s.PartWay fd pre post told) :
    (Outcome.each (quitChannel fd) post told).Leaves (s.PartWay fd s.channels []) := by
  induction post generalizing pre told with
  | nil =>
      rw [hsplit, List.append_nil]
      exact leaves_done.mpr htold
  | cons ch post ih =>
      exact (quitChannel_leaves hnamed hsplit htold).andThen_of_throwsOnly
        (quitChannel_throws fd ch told) fun after h => ih (by rw [hsplit, List.append_cons]) h

/-- The message that the loop has cut is no part of the state. -/
theorem forgetMessage_leaves {R : Server → Prop} {told : Outcome (Server × Str) Exception Fault}
    (h : told.Leaves fun after => R after.1) : (forgetMessage told).Leaves R := by
  cases told with
  | done after => exact fun s hs => by cases hs; exact h after rfl
  | thrown e after => exact fun s hs => by cases hs; exact h after rfl
  | fault f => exact leaves_fault

/-- Forgetting it throws nothing. -/
theorem forgetMessage_throws {told : Outcome (Server × Str) Exception Fault}
    (h : told.ThrowsOnly fun _ => False) : (forgetMessage told).ThrowsOnly fun _ => False := by
  cases told with
  | done after => exact throwsOnly_done
  | thrown e after => exact (h e after rfl).elim
  | fault f => exact throwsOnly_fault

/-- **`QUIT`.**  Every channel loses the client once in the loop, and once more
in `Server::removeClient`. -/
theorem execQuit_leaves (hnamed : s.Named) (message : Str) (fd : Fd) :
    (s.execQuit message fd).Leaves fun s' =>
      s.Evolves s' ∧ ((s.departed fd).removeClient fd).SameTables s' := by
  have hstart : s.PartWay fd [] s.channels (s, message) := rfl
  have hloop := forgetMessage_leaves
    (R := fun after => ∃ sent, after = { s.departed fd with sent := sent })
    ((quitChannels_leaves hnamed (List.nil_append _).symm hstart).imp fun after h =>
      ⟨after.1.sent, by rw [show after.1 = _ from h, List.append_nil]; rfl⟩)
  refine hloop.andThen_of_throwsOnly (forgetMessage_throws (.each (quitChannel_throws fd) _ _)) ?_
  intro after hafter
  obtain ⟨sent, rfl⟩ := hafter
  have hsent : s.Keeps { s.departed fd with sent := sent } := (s.keeps_departed fd).sent sent
  exact leaves_done.mpr ⟨hsent.toEvolves.trans (evolves_removeClient _ fd),
    ((SameTables.refl (s.departed fd)).sent sent).removeClient rfl fd⟩

/-- When the passwords agree, there is no mismatch. -/
theorem login_ne_mismatch (h : s.password = (s.memory client).password) (s' : Server) :
    s.login client ≠ .thrown .passwordMismatch s' := by
  unfold login
  dsimp only
  rw [if_pos h]
  split <;> simp

/-- `USER` with the right password removes nobody. -/
theorem execUser_keeps (hpassword : ∀ client, s.getClient fd = some client →
    s.password = (s.memory client).password) : (s.execUser message fd).Leaves s.Keeps := by
  refine .require fun user _ => .require fun client hc => ?_
  have hset : s.Keeps (s.setClient client fun c =>
      { c with userName := user.1, realName := user.2 }) :=
    (Keeps.refl s).setClient (fun _ => by rfl) client
  have hlogin := login_keeps hset client
  split
  · rename_i s' hthrown
    exact (login_ne_mismatch (by simpa [setClient] using hpassword client hc) s' hthrown).elim
  · exact hlogin

/-- **A failed `USER`.**  The client is removed. -/
theorem execUser_leaves (hc : s.getClient fd = some client)
    (hpassword : s.password ≠ (s.memory client).password) (message : Str) :
    (s.execUser message fd).Leaves fun s' =>
      s.Evolves s' ∧ (s.removeClient fd).SameTables s' := by
  refine .require fun user _ => ?_
  rw [hc, require_some]
  have hset : s.Keeps (s.setClient client fun c =>
      { c with userName := user.1, realName := user.2 }) :=
    (Keeps.refl s).setClient (fun _ => by rfl) client
  unfold login
  rw [if_neg (by simpa [setClient] using hpassword)]
  have hsame : s.SameTables (s.setClient client fun c =>
      { c with userName := user.1, realName := user.2 }) := ⟨rfl, rfl, hset.fd⟩
  exact leaves_done.mpr ⟨(hset.send _ _).toEvolves.trans (evolves_removeClient _ fd),
    (hsame.sent _).removeClient rfl fd⟩

/-- The client that a message removes if its handling returns, and how often the
channels look for it: `QUIT` goes through them before the client is deleted,
`Server::removeClient` afterwards. -/
def removing (s : Server) (message : Str) (fd : Fd) : Option (ClientPtr × Nat) :=
  if Checker.accepts message then
    match verbOf (commandOf message) with
    | .quit => (s.getClient fd).map fun client => (client, 2)
    | .user =>
        (s.getClient fd).bind fun client =>
          if s.password = (s.memory client).password then none else some (client, 1)
    | _ => none
  else none

/-- The state after a removal in which the channels look for the client `k`
times. -/
def parted (s : Server) (fd : Fd) : Nat → Server
  | 2 => (s.departed fd).removeClient fd
  | _ => s.removeClient fd

/-- What is done by a message that removes the client given, or none. -/
def Handled (s : Server) : Option (ClientPtr × Nat) → Server → Prop
  | none, s' => s.Keeps s'
  | some (client, k), s' => s.Evolves s' ∧ (s.parted (s.memory client).fd k).SameTables s'

/-- The three tests a message has to pass. -/
theorem accepts_iff : Checker.accepts message = true ↔
    Text.contains space (trim message) = true ∧
      Checker.formatError message (verbOf (Checker.getCommand message)) = none ∧
        verbOf (Checker.getCommand message) ≠ .unknown := by
  simp only [Checker.accepts, Bool.and_eq_true, decide_eq_true_eq]

/-- The checker lets an accepted message pass. -/
theorem check_of_accepts (s : Server) (fd : Fd) (h : Checker.accepts message = true) :
    Checker.check s message fd = .done s := by
  obtain ⟨hspace, hformat, hknown⟩ := accepts_iff.mp h
  unfold Checker.check
  rw [if_pos hspace, hformat]
  exact if_neg hknown

/-- The exceptions of the checks are in the catch list of `Command::Execute`. -/
theorem formatError_caught {verb : Verb} {e : Exception}
    (h : Checker.formatError message verb = some e) : caughtByExecute e = true := by
  unfold Checker.formatError at h
  split at h
  all_goals
    first
      | cases h
      | (split at h
         · cases h <;> rfl
         · cases h <;> rfl)

/-- How a message is refused: by the check of its command, or as an unknown
command. -/
theorem check_refused (s : Server) (fd : Fd) (h : ¬ Checker.accepts message = true) :
    (Checker.unknown message = false ∧
      ∃ e, caughtByExecute e = true ∧ Checker.check s message fd = .thrown e s) ∨
    (Checker.unknown message = true ∧
      ∃ text, Checker.check s message fd = Checker.unknownCommand s fd text) := by
  unfold Checker.check
  by_cases hspace : Text.contains space (trim message) = true
  · rw [if_pos hspace]
    cases hformat : Checker.formatError message (verbOf (Checker.getCommand message)) with
    | some e =>
        have hverb : verbOf (Checker.getCommand message) ≠ .unknown := by
          intro hverb
          rw [hverb] at hformat
          cases hformat
        exact Or.inl ⟨by simp [Checker.unknown, hspace, hverb], e, formatError_caught hformat, rfl⟩
    | none =>
        have hverb : verbOf (Checker.getCommand message) = .unknown := by
          by_contra hknown
          exact h (accepts_iff.mpr ⟨hspace, hformat, hknown⟩)
        exact Or.inr ⟨by simp [Checker.unknown, hverb], _, if_pos hverb⟩
  · rw [if_neg hspace]
    exact Or.inr ⟨by simp [Checker.unknown, hspace], _, rfl⟩

/-- A message is refused by an exception or a fault. -/
theorem check_of_not_accepts (s : Server) (fd : Fd) (h : ¬ Checker.accepts message = true) :
    (Checker.check s message fd).ending ≠ .returned := by
  rcases check_refused s fd h with ⟨-, e, -, hcheck⟩ | ⟨-, text, hcheck⟩
  · rw [hcheck, ending_thrown]
    exact fun hreturned => by cases hreturned
  · rw [hcheck]
    unfold Checker.unknownCommand
    cases s.getClient fd with
    | none => simp
    | some client => simp [throwClient]

/-- A refused message goes no further than its check. -/
theorem check_andThen_of_not_accepts (s : Server) (fd : Fd)
    (h : ¬ Checker.accepts message = true) (next : Server → Result) :
    (Checker.check s message fd).andThen next = Checker.check s message fd := by
  have hstop := check_of_not_accepts s fd h
  cases hcheck : Checker.check s message fd with
  | done s' => exact (hstop (by rw [hcheck]; rfl)).elim
  | thrown e s' => rfl
  | fault f => rfl

/-- `QUIT` removes its client, after the channels have looked for it. -/
theorem execQuit_handled (hnamed : s.Named) :
    (s.execQuit message fd).Leaves
      (s.Handled ((s.getClient fd).map fun client => (client, 2))) := by
  refine (execQuit_leaves hnamed message fd).imp fun s' h => ?_
  cases hc : s.getClient fd with
  | some client =>
      rw [← fd_of_getClient hc] at h
      exact h
  | none =>
      -- nobody is on the descriptor, so nothing is deleted
      have hkept : (s.departed fd).removeClient fd = (s.departed fd).dropMembers fd :=
        removeClient_of_none hc
      have hkeeps := (s.keeps_departed fd).trans (keeps_dropMembers _ fd)
      rw [← hkept] at hkeeps
      exact ⟨h.1, h.2.clients.trans hkeeps.same, fun p => (h.2.fd p).trans (hkeeps.fd p)⟩

/-- `USER` removes its client if the password is wrong. -/
theorem execUser_handled :
    (s.execUser message fd).Leaves
      (s.Handled ((s.getClient fd).bind fun client =>
        if s.password = (s.memory client).password then none else some (client, 1))) := by
  cases hc : s.getClient fd with
  | none => exact execUser_keeps fun client h => by rw [hc] at h; cases h
  | some client =>
      rw [Option.bind_some]
      by_cases hpassword : s.password = (s.memory client).password
      · rw [if_pos hpassword]
        refine execUser_keeps fun other h => ?_
        rw [hc] at h
        cases h
        exact hpassword
      · have hleaves := execUser_leaves hc hpassword message
        rw [← fd_of_getClient hc] at hleaves ⊢
        rw [if_neg hpassword]
        exact hleaves

/-- **A line.**  What handling a message does to the clients and channels. -/
theorem handle_leaves {who : Server → Str → Fd → Result} (env : Env) (hnamed : s.Named)
    (hline : OneLine message) (hwho : ∀ name, ChannelName name → WhoSends who name) :
    (s.handle env who message fd).Leaves (s.Handled (s.removing message fd)) := by
  unfold handle removing
  rw [leaves_catching]
  by_cases haccepts : Checker.accepts message = true
  · rw [check_of_accepts s fd haccepts, if_pos haccepts, andThen_done]
    unfold dispatch
    generalize verbOf (commandOf message) = verb
    cases verb with
    | quit => exact execQuit_handled hnamed
    | user => exact execUser_handled
    | nick => exact execNick_keeps
    | pass => exact execPass_keeps
    | _ =>
        exact .require fun _ _ => .ite
          (fun _ => dispatchLogin_keeps env hnamed hline hwho _)
          (fun _ => leaves_done.mpr (.refl s))
  · rw [if_neg haccepts, check_andThen_of_not_accepts s fd haccepts]
    exact (check_sends s message fd).imp fun _ h => h.keeps

/-- A nested `WHO` only sends. -/
theorem executeTo_who_sends (env : Env) (depth : Nat) (hname : ChannelName name) :
    WhoSends (executeTo env (depth + 1)) name := by
  intro s fd
  rw [hname.oneLine_who.executeTo, handle, leaves_catching]
  refine (check_sends s _ fd).andThen fun s' hs => ?_
  unfold dispatch
  rw [hname.commandOf_who]
  refine .require fun client _ => .ite (fun _ => ?_) (fun _ => leaves_done.mpr hs)
  exact execWho_sends.imp fun _ h => hs.trans h

/-- What handling one line does to the clients and channels. -/
theorem handleLine_leaves (env : Env) (hnamed : s.Named) (hline : OneLine message) (fd : Fd) :
    (handleLine env s message fd).Leaves (s.Handled (s.removing message fd)) := by
  unfold handleLine
  rw [hline.executeTo]
  exact handle_leaves env hnamed hline fun _ hname => executeTo_who_sends env 0 hname

end Server

end FtIrc
