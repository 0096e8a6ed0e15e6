import IrcServers.FtIrc.Reachable

/-!
# Frame rules for the commands behind the login test

Apart from `JOIN`, a command behind the login test sends messages, and writes
channels back that have the name they had and no new entry among their members
(`Thins`).  A property of the server that both kinds of change keep is kept by
all these commands; `Frame` names such a property, so that the commands are gone
through once.  The commands that only an operator may use write one channel, the
one they look up, after they have found an operator with the descriptor of the
line (`Operated`).
-/

namespace FtIrc

open Utils Outcome

namespace Channel

variable {ch ch' ch'' : Channel} {p : ClientPtr} {memory : ClientPtr → Client}

/-- The same channel, perhaps with other settings, and no new member. -/
structure Thins (ch ch' : Channel) : Prop where
  name : ch'.name = ch.name
  clients : ch'.clients.Sublist ch.clients

/-- A channel has no new member in itself. -/
theorem Thins.refl (ch : Channel) : ch.Thins ch := ⟨rfl, List.Sublist.refl _⟩

/-- No new members come in two steps either. -/
theorem Thins.trans (h : ch.Thins ch') (h' : ch'.Thins ch'') : ch.Thins ch'' :=
  ⟨h'.name.trans h.name, h'.clients.trans h.clients⟩

/-- Nobody comes when somebody leaves. -/
theorem thins_without (ch : Channel) (p : ClientPtr) : ch.Thins (ch.without p) := by
  unfold without
  split
  · exact ⟨rfl, List.erase_sublist⟩
  · exact .refl ch

/-- Nor when `Channel::removeClient` takes a member off. -/
theorem thins_removeClient (ch : Channel) (client : Option ClientPtr) :
    ch.Thins (ch.removeClient memory client) := by
  cases client with
  | none => exact .refl ch
  | some p =>
      rw [removeClient_some]
      exact ch.thins_without p

/-- A new operator is a member already. -/
theorem thins_addOperator (h : ch.addOperator p = .ok ch') : ch.Thins ch' := by
  unfold addOperator at h
  split at h
  · cases h
  · cases h
    exact ⟨rfl, List.Sublist.refl _⟩

/-- A former operator stays a member. -/
theorem thins_removeOperator {client : Option ClientPtr} (h : ch.removeOperator client = .ok ch') :
    ch.Thins ch' := by
  cases client with
  | none => cases h
  | some p =>
      simp only [removeOperator] at h
      split at h
      · cases h
        exact ⟨rfl, List.Sublist.refl _⟩
      · cases h

/-- A banned member leaves. -/
theorem thins_addBan (h : ch.addBan memory p = .ok ch') : ch.Thins ch' := by
  unfold addBan at h
  split at h
  · cases h
  · cases h
    have hban : ch.Thins { ch with bans := ch.bans ++ [p] } := ⟨rfl, List.Sublist.refl _⟩
    exact hban.trans (thins_removeClient _ _)

/-- A pardoned client does not come back by itself. -/
theorem thins_removeBan (h : ch.removeBan memory p = .ok ch') : ch.Thins ch' := by
  unfold removeBan at h
  split at h
  · cases h
    exact ⟨rfl, List.Sublist.refl _⟩
  · cases h

/-- Nor is an invited one a member yet. -/
theorem thins_addInvite (h : ch.addInvite p = .ok ch') : ch.Thins ch' := by
  unfold addInvite at h
  split at h
  · cases h
  · cases h
    exact ⟨rfl, List.Sublist.refl _⟩

end Channel

namespace Server

/-- A property kept by sending, and by writing back a channel with a name in
`touched`, without a new member. -/
structure Frame (touched : Str → Prop) (R : Server → Prop) : Prop where
  sends : ∀ {s s' : Server}, R s → s.Sends s' → R s'
  putChannel : ∀ {s : Server} {ch ch' : Channel}, R s → ch ∈ s.channels → touched ch.name →
    ch.Thins ch' → R (s.putChannel ch')

variable {touched : Str → Prop} {R : Server → Prop} {s s' : Server} {ch : Channel}
  {client : ClientPtr} {fd : Fd} {name message : Str} {info : ModeInfo}

/-- The channels with an operator of this descriptor. -/
def Operated (s : Server) (fd : Fd) (name : Str) : Prop :=
  ∃ ch, s.getChannel name = some ch ∧ (ch.getOperator s.memory fd).isSome = true

/-- Whoever passes the test for operators has the descriptor of one. -/
theorem operated_of_guard (hch : s.getChannel name = some ch)
    (hguard : ¬ (ch.getOperator s.memory fd).isNone = true) : s.Operated fd ch.name :=
  ⟨ch, getChannel_self hch, Channel.passes_guard_iff.mp hguard⟩

namespace Frame

/-- An exception of a client sends a message. -/
theorem throwClient (hR : Frame touched R) (h : R s) (fd : Fd) (e : Exception) (text : Str) :
    (s.throwClient fd e text).Leaves R :=
  leaves_thrown.mpr (hR.sends h rfl)

/-- So does the refusal of somebody who is no operator. -/
theorem throwNotOperator (hR : Frame touched R) (h : R s) (fd : Fd) (name : Str) :
    (s.throwNotOperator fd name).Leaves R :=
  .require fun _ _ => hR.throwClient h _ _ _

/-- A channel that is written back without a new member keeps the property. -/
theorem update (hR : Frame touched R) (h : R s) (hch : ch ∈ s.channels)
    (htouched : touched ch.name) {changed : Except Exception Channel}
    {next : Channel → Server → Result}
    (hthins : ∀ ch', changed = .ok ch' → ch.Thins ch')
    (hnext : ∀ ch' s', R s' → (next ch' s').Leaves R) : (s.update changed next).Leaves R := by
  cases changed with
  | ok ch' => exact hnext ch' _ (hR.putChannel h hch htouched (hthins ch' rfl))
  | error e => exact leaves_thrown.mpr h

/-- Relaying a text sends messages. -/
theorem relay (hR : Frame touched R) (h : R s) (fd : Fd) (target text : Str) (toSelf : Bool) :
    R (s.relay fd target text toSelf) := by
  unfold Server.relay
  split
  · dsimp only
    split
    · exact hR.sends h rfl
    · exact h
  · split
    · exact hR.sends h rfl
    · exact h

/-- `PRIVMSG` relays. -/
theorem execPrivMsg (hR : Frame touched R) (h : R s) : (s.execPrivMsg message fd).Leaves R :=
  .require fun _ _ => .require fun _ _ => leaves_done.mpr (hR.relay h ..)

/-- So does `NOTICE`. -/
theorem execNotice (hR : Frame touched R) (h : R s) : (s.execNotice message fd).Leaves R :=
  .require fun _ _ => .require fun _ _ => leaves_done.mpr (hR.relay h ..)

/-- `PART` takes its client off any channel, so all of them have to be in `touched`. -/
theorem execPart (hR : Frame touched R) (h : R s) (hall : ∀ name, touched name) :
    (s.execPart message fd).Leaves R := by
  refine .require fun client _ => ?_
  dsimp only
  split
  · rename_i ch hch
    exact leaves_done.mpr (hR.putChannel (s := s.broadcast ch.clients _) (hR.sends h rfl)
      (mem_of_getChannel hch) (hall _) (ch.thins_removeClient _))
  · exact leaves_done.mpr h

section Modes

variable {who : Server → Str → Fd → Result}

/-- A change of operators writes its channel. -/
theorem execOperator (hR : Frame touched R) (h : R s) (hch : ch ∈ s.channels)
    (htouched : touched ch.name) : (s.execOperator ch info).Leaves R := by
  unfold Server.execOperator
  rw [leaves_catching]
  dsimp only
  refine .ite (fun _ => .require fun client _ => ?_) (fun _ => ?_)
  · exact hR.update h hch htouched (fun _ hok => Channel.thins_addOperator hok)
      fun _ _ h => leaves_done.mpr (hR.sends h rfl)
  · exact hR.update h hch htouched (fun _ hok => Channel.thins_removeOperator hok)
      fun _ _ h => .require fun _ _ => leaves_done.mpr (hR.sends h rfl)

/-- A ban writes its channel, if that still exists. -/
theorem banClient (hR : Frame touched R) (h : R s) (htouched : touched name)
    (client : ClientPtr) : (s.banClient name client).Leaves R := by
  unfold Server.banClient
  split
  · exact leaves_done.mpr h
  · rename_i ch hch
    exact hR.update h (mem_of_getChannel hch) ((name_of_getChannel hch).symm ▸ htouched)
      (fun _ hok => Channel.thins_addBan hok) fun _ _ h => leaves_done.mpr (hR.sends h rfl)

/-- Lifting a ban writes its channel. -/
theorem pardon (hR : Frame touched R) (h : R s) (hch : ch ∈ s.channels)
    (htouched : touched ch.name) (hostName : Str) : (s.pardon ch hostName).Leaves R := by
  unfold Server.pardon
  split
  · exact hR.update h hch htouched (fun _ hok => Channel.thins_removeBan hok)
      fun _ _ h => leaves_done.mpr h
  · exact .ite (fun _ => leaves_thrown.mpr h) (fun _ => leaves_fault)

/-- A change of bans does one or the other, and sends. -/
theorem execBan (hR : Frame touched R) (h : R s) (hch : ch ∈ s.channels)
    (htouched : touched ch.name) (hwho : WhoSends who ch.name) :
    (s.execBan who ch info fd).Leaves R := by
  unfold Server.execBan
  rw [leaves_catching]
  refine .ite (fun _ => .require fun _ _ => leaves_done.mpr (hR.sends h rfl)) (fun _ => ?_)
  refine .ite (fun _ => .require fun hostName _ => ?_) (fun _ => ?_)
  · refine Leaves.andThen (.each (fun client _ _ h => hR.banClient h htouched client) h) ?_
    exact fun s' h => (banTells_sends hwho _ _ _ s').imp fun _ hs => hR.sends h hs
  · refine (banTells_sends hwho _ _ _ s).andThen_of_imp (fun _ hs => hR.sends h hs) fun s' hs =>
      .require fun hostName _ => ?_
    exact hR.pardon (hR.sends h hs) (hs.channels ▸ hch) htouched _

/-- A change of the limit writes its channel. -/
theorem execLimit (hR : Frame touched R) (h : R s) (env : Env) (hch : ch ∈ s.channels)
    (htouched : touched ch.name) : R (s.execLimit env ch info) := by
  have hset : ∀ {s' : Server} (limit : Nat), s.Sends s' →
      R (s'.putChannel { ch with limit := limit }) := by
    intro s' limit hs
    have hthins : ch.Thins { ch with limit := limit } := ⟨rfl, List.Sublist.refl _⟩
    exact hR.putChannel (hR.sends h hs) (hs.channels ▸ hch) htouched hthins
  unfold Server.execLimit
  split <;> dsimp only <;> split
  · exact hR.sends h rfl
  · exact hset _ rfl
  · exact hR.sends h rfl
  · exact hset _ rfl

/-- So does a change of any mode. -/
theorem execModeKey (hR : Frame touched R) (h : R s) (env : Env) (hch : ch ∈ s.channels)
    (htouched : touched ch.name) (hwho : WhoSends who ch.name) :
    (s.execModeKey env who ch info fd).Leaves R := by
  have hput : ∀ ch', ch.Thins ch' → R (s.putChannel ch') :=
    fun ch' hthins => hR.putChannel h hch htouched hthins
  unfold Server.execModeKey
  refine .ite (fun _ => hR.execOperator h hch htouched) (fun _ => ?_)
  refine .ite (fun _ => hR.execBan h hch htouched hwho) (fun _ => ?_)
  refine .ite (fun _ => leaves_done.mpr (hR.execLimit h env hch htouched)) (fun _ => ?_)
  refine .ite (fun _ => ?_) (fun _ => .ite (fun _ => ?_)
    (fun _ => .ite (fun _ => ?_) (fun _ => leaves_done.mpr h)))
  · exact leaves_done.mpr (hR.sends
      (hput { ch with inviteOnly := info.status } ⟨rfl, List.Sublist.refl _⟩) rfl)
  · exact leaves_done.mpr (hR.sends
      (hput { ch with password := info.parameters } ⟨rfl, List.Sublist.refl _⟩) rfl)
  · exact leaves_done.mpr (hR.sends
      (hput { ch with topic := info.parameters } ⟨rfl, List.Sublist.refl _⟩) rfl)

/-- `MODE` writes a channel only for one of its operators. -/
theorem execMode (hR : Frame touched R) (h : R s) (env : Env) (hnamed : s.Named)
    (hwho : ∀ name, ChannelName name → WhoSends who name)
    (htouched : ∀ name, s.Operated fd name → touched name) :
    (s.execMode env who message fd).Leaves R := by
  unfold Server.execMode modeExecute
  rw [leaves_catching]
  refine .ite (fun _ => leaves_done.mpr h) (fun _ => .require fun info _ => ?_)
  refine .require fun ch hch => .ite (fun _ => hR.throwNotOperator h _ _) (fun hguard => ?_)
  have hmem := mem_of_getChannel hch
  exact hR.execModeKey h env hmem (htouched _ (operated_of_guard hch hguard))
    (hwho _ (hnamed.good ch hmem))

end Modes

/-- So does `KICK`. -/
theorem execKick (hR : Frame touched R) (h : R s)
    (htouched : ∀ name, s.Operated fd name → touched name) :
    (s.execKick message fd).Leaves R := by
  refine .require fun parsed _ => ?_
  dsimp only
  rw [leaves_catching]
  refine .require fun ch hch => .ite (fun _ => hR.throwNotOperator h _ _) (fun hguard => ?_)
  split
  · exact hR.throwClient h _ _ _
  · exact leaves_done.mpr (hR.putChannel (s := s.broadcast ch.clients _) (hR.sends h rfl)
      (mem_of_getChannel hch) (htouched _ (operated_of_guard hch hguard))
      (ch.thins_removeClient _))

/-- So does `INVITE`. -/
theorem execInvite (hR : Frame touched R) (h : R s)
    (htouched : ∀ name, s.Operated fd name → touched name) :
    (s.execInvite message fd).Leaves R := by
  unfold Server.execInvite
  rw [leaves_catching]
  dsimp only
  split
  · exact hR.throwClient h _ _ _
  · rename_i ch hch
    refine .ite (fun _ => hR.throwNotOperator h _ _) (fun hguard => ?_)
    split
    · exact hR.throwClient h _ _ _
    · exact hR.update h (mem_of_getChannel hch) (htouched _ (operated_of_guard hch hguard))
        (fun _ hok => Channel.thins_addInvite hok) fun _ _ h => leaves_done.mpr (hR.sends h rfl)

/-- So does `TOPIC`. -/
theorem execTopic (hR : Frame touched R) (h : R s)
    (htouched : ∀ name, s.Operated fd name → touched name) :
    (s.execTopic message fd).Leaves R := by
  unfold Server.execTopic
  rw [leaves_catching]
  refine .require fun ch hch => .ite (fun _ => hR.throwNotOperator h _ _) (fun hguard => ?_)
  refine .ite (fun _ => .require fun _ _ => ?_) (fun _ => .require fun value _ => ?_)
  · exact leaves_done.mpr (hR.sends h rfl)
  · have hthins : ch.Thins { ch with topic := value } := ⟨rfl, List.Sublist.refl _⟩
    have hname := htouched _ (operated_of_guard hch hguard)
    exact leaves_done.mpr (hR.sends (hR.putChannel h (mem_of_getChannel hch) hname hthins) rfl)

/-- **Frame rule.**  For every command behind the login test but `JOIN`. -/
theorem dispatchLogin {who : Server → Str → Fd → Result} (hR : Frame touched R) (h : R s)
    (env : Env) (hnamed : s.Named) (hwho : ∀ name, ChannelName name → WhoSends who name)
    {verb : Verb} (hjoin : verb ≠ .join)
    (htouched : ∀ name, s.Operated fd name ∨ verb = .part → touched name) :
    (s.dispatchLogin env who client message fd verb).Leaves R := by
  have hoperated : ∀ name, s.Operated fd name → touched name :=
    fun name hname => htouched name (Or.inl hname)
  cases verb with
  | join => exact (hjoin rfl).elim
  | privmsg => exact hR.execPrivMsg h
  | part => exact hR.execPart h fun name => htouched name (Or.inr rfl)
  | who => exact execWho_sends.imp fun _ hs => hR.sends h hs
  | notice => exact hR.execNotice h
  | mode => exact hR.execMode h env hnamed hwho hoperated
  | kick => exact hR.execKick h hoperated
  | invite => exact hR.execInvite h hoperated
  | topic => exact hR.execTopic h hoperated
  | whois => exact execWhois_sends.imp fun _ hs => hR.sends h hs
  | quit | nick | user | pass | unknown => exact hR.throwClient h _ _ _

end Frame

end Server

end FtIrc
