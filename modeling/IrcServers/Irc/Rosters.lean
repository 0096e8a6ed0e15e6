import IrcServers.Irc.Nicknames

/-!
# Rosters

What holds of the member lists of all channels in an attended run, whoever
joins, leaves or disconnects: a channel is stored under its own name, lists
nobody twice, has the default user limit, and its connected members all have
a nickname.  The file also says when a departure hands a channel on to a
client that is still connected, which is the one thing the later files have to
ask of a departure.
-/

namespace Irc

namespace Tables

variable {t : Tables} {p q x : ClientPtr} {fd f : Fd} {name k : Str}

/-- What every channel satisfies. -/
structure Roster (t : Tables) (name : Str) (ch : Channel) : Prop where
  keyed : ch.name = name
  nodup : ch.curClients.Nodup
  limit : ch.userLimit = 10
  known : ∀ p ∈ ch.curClients, p < t.nextPtr
  named : ∀ p ∈ ch.curClients, t.Live p → (t.memory p).hasNick = true

/-- Every channel satisfies `P`. -/
def EachChannel (t : Tables) (P : Str → Channel → Prop) : Prop :=
  ∀ name ch, t.channels[name]? = some ch → P name ch

/-- What all channels satisfy may be weakened. -/
theorem EachChannel.imp {P Q : Str → Channel → Prop} (h : t.EachChannel P)
    (himp : ∀ name ch, P name ch → Q name ch) : t.EachChannel Q :=
  fun name ch hch => himp name ch (h name ch hch)

/-- It depends on the channels only. -/
theorem EachChannel.congr {t' : Tables} {P : Str → Channel → Prop}
    (hchannels : t'.channels = t.channels) : t'.EachChannel P ↔ t.EachChannel P := by
  unfold EachChannel
  rw [hchannels]

/-- Writing a channel back. -/
theorem EachChannel.setChannel {P : Str → Channel → Prop} (h : t.EachChannel P)
    {next : Channel} (hnext : P name next) : (t.setChannel name next).EachChannel P := by
  intro k ch hk
  rw [setChannel_getElem?] at hk
  split at hk
  · rename_i hname
    cases hk
    exact hname ▸ hnext
  · exact h k ch hk

/-- **Departure rule.**  A property of all channels survives a departure if it
survives the two ways in which a channel that keeps members is changed. -/
theorem EachChannel.leave {P : Str → Channel → Prop} (h : t.EachChannel P)
    (hkeyed : t.EachChannel fun name ch => ch.name = name)
    (hsucceeded : ∀ ch front rest, t.channels[name]? = some ch → x ∈ ch.curClients →
      ch.curClients.erase x = front :: rest → ch.opNick = (t.memory x).nickname →
      P name ({ ch with curClients := front :: rest }.makeOp front (t.memory front).nickname))
    (hleft : ∀ ch front rest, t.channels[name]? = some ch → x ∈ ch.curClients →
      ch.curClients.erase x = front :: rest → ch.opNick ≠ (t.memory x).nickname →
      P name { ch with curClients := front :: rest }) :
    (t.leave name x).EachChannel P := by
  have hdeparts := departs_leave t name x
  generalize t.leave name x = t' at hdeparts ⊢
  cases hdeparts with
  | absent hch => exact h
  | stranger ch hch hmem => exact h
  | emptied ch hch hmem herase =>
      intro k c hk
      have hname : ch.name = name := hkeyed name ch hch
      simp only [Std.ExtTreeMap.getElem?_erase, Std.ExtTreeMap.getElem?_insert, hname] at hk
      split at hk
      · cases hk
      · exact h k c hk
  | succeeded ch front rest hch hmem herase hop =>
      exact h.setChannel (hsucceeded ch front rest hch hmem herase hop)
  | left ch front rest hch hmem herase hop =>
      exact h.setChannel (hleft ch front rest hch hmem herase hop)

/-- A departure from one channel leaves the others alone. -/
theorem leave_getElem?_of_ne (hkeyed : t.EachChannel fun name ch => ch.name = name)
    (hne : name ≠ k) : (t.leave name x).channels[k]? = t.channels[k]? := by
  have hset : ∀ next, (t.setChannel name next).channels[k]? = t.channels[k]? := by
    intro next
    rw [setChannel_getElem?, if_neg hne]
  have hdeparts := departs_leave t name x
  generalize t.leave name x = t' at hdeparts ⊢
  cases hdeparts with
  | absent hch => rfl
  | stranger ch hch hmem => rfl
  | emptied ch hch hmem herase =>
      have hname : ch.name = name := hkeyed name ch hch
      simp [Std.ExtTreeMap.getElem?_erase, Std.ExtTreeMap.getElem?_insert, hname, hne]
  | succeeded ch front rest hch hmem herase hop => exact hset _
  | left ch front rest hch hmem herase hop => exact hset _

/-- A departure changes no memory. -/
@[simp] theorem leave_memory (t : Tables) (name : Str) (x : ClientPtr) :
    (t.leave name x).memory = t.memory := by
  rw [leave_frame]

@[simp] theorem leave_clients (t : Tables) (name : Str) (x : ClientPtr) :
    (t.leave name x).clients = t.clients := by
  rw [leave_frame]

@[simp] theorem leave_nickList (t : Tables) (name : Str) (x : ClientPtr) :
    (t.leave name x).nickList = t.nickList := by
  rw [leave_frame]

@[simp] theorem leave_nextPtr (t : Tables) (name : Str) (x : ClientPtr) :
    (t.leave name x).nextPtr = t.nextPtr := by
  rw [leave_frame]

/-- Who is connected depends on the map of clients only. -/
theorem live_congr {t' : Tables} (h : t'.clients = t.clients) : t'.Live p ↔ t.Live p := by
  unfold Live
  rw [h]

@[simp] theorem live_leave : (t.leave name x).Live p ↔ t.Live p := live_congr (by simp)

/-- The rosters of a table. -/
def Rosters (t : Tables) : Prop := t.EachChannel t.Roster

/-- Every channel is stored under its own name. -/
theorem Rosters.keyed (h : t.Rosters) : t.EachChannel fun name ch => ch.name = name :=
  h.imp fun _ _ hch => hch.keyed

/-- A roster may lose members. -/
theorem Roster.of_sublist {ch next : Channel} (h : t.Roster name ch)
    (hname : next.name = ch.name) (hlimit : next.userLimit = ch.userLimit)
    (hsub : List.Sublist next.curClients ch.curClients) : t.Roster name next where
  keyed := hname.trans h.keyed
  nodup := hsub.nodup h.nodup
  limit := hlimit.trans h.limit
  known := fun p hp => h.known p (hsub.subset hp)
  named := fun p hp => h.named p (hsub.subset hp)

/-- The same roster over tables in which members kept what it needs. -/
theorem Roster.congr {t' : Tables} {ch : Channel} (h : t.Roster name ch)
    (hnext : t.nextPtr ≤ t'.nextPtr)
    (hlive : ∀ p, p < t.nextPtr → t'.Live p → t.Live p)
    (hnick : ∀ p, p < t.nextPtr → t.Live p → (t.memory p).hasNick = true →
      (t'.memory p).hasNick = true) :
    t'.Roster name ch where
  keyed := h.keyed
  nodup := h.nodup
  limit := h.limit
  known := fun p hp => Nat.lt_of_lt_of_le (h.known p hp) hnext
  named := fun p hp hp' => by
    have hbound := h.known p hp
    have hold := hlive p hbound hp'
    exact hnick p hbound hold (h.named p hp hold)

/-- A departure leaves the rosters in order. -/
theorem Rosters.leave (h : t.Rosters) (name : Str) (x : ClientPtr) :
    (t.leave name x).Rosters := by
  have hsub : ∀ {ch : Channel} {front : ClientPtr} {rest : List ClientPtr},
      ch.curClients.erase x = front :: rest →
      List.Sublist (front :: rest) ch.curClients :=
    fun herase => herase ▸ List.erase_sublist
  have hchannels : (t.leave name x).EachChannel t.Roster := by
    refine EachChannel.leave h h.keyed ?_ ?_
    · intro ch front rest hch hmem herase hop
      exact (h name ch hch).of_sublist rfl rfl (hsub herase)
    · intro ch front rest hch hmem herase hop
      exact (h name ch hch).of_sublist rfl rfl (hsub herase)
  exact hchannels.imp fun name ch hch =>
    hch.congr (by simp) (fun p _ => by simp) (fun p _ _ => by simp)

/-- So do several. -/
theorem Rosters.leaveAll (h : t.Rosters) (names : List Str) (x : ClientPtr) :
    (t.leaveAll names x).Rosters := by
  induction names generalizing t with
  | nil => exact h
  | cons name names ih => exact ih (h.leave name x)

/-- If `x` is the operator of the channel and leaves it, its successor is a
connected client. -/
def SuccessorLive (t : Tables) (name : Str) (x : ClientPtr) : Prop :=
  ∀ ch ∈ t.channels[name]?, x ∈ ch.curClients → ch.opNick = (t.memory x).nickname →
    ∀ front ∈ (ch.curClients.erase x).head?, t.Live front

instance (t : Tables) (name : Str) (x : ClientPtr) : Decidable (t.SuccessorLive name x) :=
  inferInstanceAs (Decidable (∀ ch ∈ t.channels[name]?, _ → _ → ∀ front ∈ _, _))

/-- A departure leaves the successions of the same client in order: of the
channel it has left it is no member any more, and the others are unchanged. -/
theorem SuccessorLive.leave (h : t.SuccessorLive k x) (hrosters : t.Rosters) (name : Str) :
    (t.leave name x).SuccessorLive k x := by
  have hchannel : (t.leave name x).EachChannel fun k' ch =>
      k' = k → t.channels[k]? = some ch ∨ x ∉ ch.curClients := by
    have hgone : ∀ {ch : Channel} {front : ClientPtr} {rest : List ClientPtr},
        t.channels[name]? = some ch → ch.curClients.erase x = front :: rest →
        x ∉ front :: rest := by
      intro ch front rest hch herase
      exact herase ▸ (hrosters name ch hch).nodup.not_mem_erase
    refine EachChannel.leave ?_ hrosters.keyed ?_ ?_
    · intro k' ch hch heq
      subst heq
      exact Or.inl hch
    · intro ch front rest hch hmem herase hop _
      exact Or.inr (hgone hch herase)
    · intro ch front rest hch hmem herase hop _
      exact Or.inr (hgone hch herase)
  intro ch hch hmem hop front hfront
  rcases hchannel k ch hch rfl with hold | hgone
  · rw [leave_memory] at hop
    exact live_leave.mpr (h ch hold hmem hop front hfront)
  · exact (hgone hmem).elim

/-- **Departures in a row.**  What one departure with a connected successor
keeps, departures from several channels keep. -/
theorem leaveAll_rule {Q : Tables → Prop} (names : List Str)
    (hstep : ∀ t name, Q t → t.Rosters → t.SuccessorLive name x → Q (t.leave name x))
    (hQ : Q t) (hrosters : t.Rosters) (hsucc : ∀ name ∈ names, t.SuccessorLive name x) :
    Q (t.leaveAll names x) := by
  induction names generalizing t with
  | nil => exact hQ
  | cons name names ih =>
      refine ih (hstep t name hQ hrosters (hsucc name List.mem_cons_self))
        (hrosters.leave name x) ?_
      intro k hk
      exact (hsucc k (List.mem_cons_of_mem _ hk)).leave hrosters name

end Tables

open Tables

section Lines

variable {t t' : Tables} {p q : ClientPtr} {fd : Fd} {parts : List Str}

/-- A nickname is not given up while a connection lasts. -/
theorem Effect.hasNick (h : Effect p parts t t')
    (hq : (t.memory q).hasNick = true) : (t'.memory q).hasNick = true := by
  have hset : ∀ (s : Tables) (g : Client → Client), s.memory = t.memory →
      ((g (t.memory p)).hasNick = true ∨ (g (t.memory p)).hasNick = (t.memory p).hasNick) →
      ((s.setClient p g).memory q).hasNick = true := by
    intro s g hs hg
    by_cases hqp : q = p
    · subst hqp
      rw [setClient_memory_self, hs]
      rcases hg with hg | hg
      · exact hg
      · rw [hg, hq]
    · rw [setClient_memory_ne s g hqp, hs, hq]
  cases h with
  | quiet => exact hq
  | authenticated h => exact hset t _ rfl (Or.inr rfl)
  | renamed nick h => exact hset (t.registerNick nick _) _ rfl (Or.inl rfl)
  | registered username clientIp realname h => exact hset t _ rfl (Or.inr rfl)
  | parted names h hnames =>
      rw [leaveAll_frame]
      exact hq
  | kicked name target ch h hch hop hlive hmem htarget =>
      rw [leave_frame]
      exact hq
  | joined | created | topicSet => exact hq

/-- A command line of a connected, staged client keeps the rosters. -/
theorem Tables.Rosters.effect (h : t.Rosters) (hregistry : t.Registry)
    (hp : t.clients[fd]? = some p) (heffect : Effect p parts t t') : t'.Rosters := by
  have hkeep : t'.EachChannel t.Roster → t'.Rosters := by
    have hclients : t'.clients = t.clients := by rw [heffect.frame]
    have hnext : t'.nextPtr = t.nextPtr := by rw [heffect.frame]
    exact fun hold => hold.imp fun name ch hch =>
      hch.congr (Nat.le_of_eq hnext.symm) (fun p _ => (live_congr hclients).mp)
        (fun q _ _ => heffect.hasNick)
  have hbound : p < t.nextPtr := hregistry.addresses.bound hp
  have hnick : ∀ {verb}, RunsRegistered t p parts verb → (t.memory p).hasNick = true := by
    intro verb hruns
    obtain ⟨_, _, _, _, _, hreg⟩ := hruns
    exact (hregistry.staged hp).of_registered hreg
  have hp_only : ∀ {verb}, RunsRegistered t p parts verb → ∀ q ∈ [p],
      q < t.nextPtr ∧ (t.Live q → (t.memory q).hasNick = true) := by
    intro verb hruns q hq
    obtain rfl := List.mem_singleton.mp hq
    exact ⟨hbound, fun _ => hnick hruns⟩
  cases heffect with
  | quiet => exact h
  | authenticated hpass => exact hkeep h
  | renamed nick hnick => exact hkeep h
  | registered username clientIp realname huser => exact hkeep h
  | joined name ch next hruns hch hnew hroom hnext =>
      refine hkeep (EachChannel.setChannel h ?_)
      have hch' := h name ch hch
      obtain ⟨hname, hlimit, hclients⟩ : next.name = ch.name ∧ next.userLimit = ch.userLimit ∧
          next.curClients = ch.curClients ++ [p] := by
        rcases hnext with rfl | ⟨_, rfl⟩ <;> exact ⟨rfl, rfl, rfl⟩
      refine ⟨hname.trans hch'.keyed, ?_, hlimit.trans hch'.limit, ?_, ?_⟩
      · rw [hclients]
        refine List.nodup_append.mpr ⟨hch'.nodup, List.nodup_singleton p, ?_⟩
        intro a ha b hb heq
        subst heq
        exact hnew (List.mem_singleton.mp hb ▸ ha)
      · intro q hq
        rw [hclients] at hq
        rcases List.mem_append.mp hq with hq | hq
        · exact hch'.known q hq
        · exact (hp_only hruns q hq).1
      · intro q hq
        rw [hclients] at hq
        rcases List.mem_append.mp hq with hq | hq
        · exact hch'.named q hq
        · exact (hp_only hruns q hq).2
  | created name key hruns hlen hhash hch =>
      refine hkeep (EachChannel.setChannel h ?_)
      exact ⟨rfl, List.nodup_singleton p, rfl, fun q hq => (hp_only hruns q hq).1,
        fun q hq => (hp_only hruns q hq).2⟩
  | parted names hruns hnames => exact h.leaveAll names p
  | topicSet name topic ch hruns hch hop =>
      refine hkeep (EachChannel.setChannel h ?_)
      exact (h name ch hch).of_sublist rfl rfl (List.Sublist.refl _)
  | kicked name target ch hruns hch hop hlive hmem htarget => exact h.leave name target

end Lines

namespace Tables

variable {t : Tables} {fd : Fd}

/-- So does a hang-up, which changes no roster. -/
theorem Rosters.closeConnection (h : t.Rosters) (f : Fd) :
    (t.closeConnection f).Rosters := by
  have hchannels : (t.closeConnection f).EachChannel t.Roster :=
    (EachChannel.congr (closeConnection_channels t f)).mpr h
  refine hchannels.imp fun name ch hch => hch.congr ?_ ?_ ?_
  · unfold Tables.closeConnection
    split <;> rfl
  · intro p _ hlisted
    obtain ⟨k, hk⟩ := hlisted
    rw [closeConnection_clients] at hk
    split at hk
    · cases hk
    · exact ⟨k, hk⟩
  · intro p _ _ hnick
    rwa [closeConnection_memory]

/-- A new client is on no channel. -/
theorem Rosters.acceptConnection (h : t.Rosters) (hfd : t.clients[fd]? = none) (ip : Str)
    (port : Nat) : (t.acceptConnection fd ip port).Rosters := by
  rw [acceptConnection_of_none hfd]
  have hchannels : t.EachChannel t.Roster := h
  refine hchannels.imp fun name ch hch => hch.congr (Nat.le_succ _) ?_ ?_
  · intro p hp hlisted
    obtain ⟨k, hk⟩ := hlisted
    simp only [Std.ExtTreeMap.getElem?_insert] at hk
    split at hk
    · cases hk
      exact absurd hp (Nat.lt_irrefl _)
    · exact ⟨k, hk⟩
  · intro p hp _ hnick
    simpa [Nat.ne_of_lt hp] using hnick

end Tables

/-- The tables agree and the rosters are in order. -/
structure Orderly (w : World) : Prop where
  registry : w.srv.Registry
  rosters : w.srv.Rosters

/-- There are no channels and no clients at the start. -/
theorem orderly_start {w : World} (h : Start w) : Orderly w := by
  refine ⟨registry_start h, ?_⟩
  obtain ⟨password, host, serverSocket, botSocket, _, rfl⟩ := h
  intro name ch hch
  simp [initial] at hch

/-- A step of an attended run keeps the tables in order. -/
theorem orderly_step {w next : World} {a : Action} (h : Orderly w) (hattended : Attended w a)
    (hstep : step w a = some next) : Orderly next := by
  refine ⟨registry_step h.registry hattended hstep, ?_⟩
  have hturn := step_turn hattended hstep
  generalize next.srv.toTables = t' at hturn ⊢
  cases hturn with
  | accepted fd ip port ha hfresh =>
      exact h.rosters.acceptConnection (h.registry.absent hfresh) ip port
  | received fd results ha => exact h.rosters
  | closed f hclosing => exact h.rosters.closeConnection f
  | handled env fd p line lines _ ha hline hp heffect =>
      exact h.rosters.effect h.registry hp heffect

end Irc
