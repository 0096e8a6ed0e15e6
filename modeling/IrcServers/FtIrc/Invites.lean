import IrcServers.FtIrc.Marks

/-!
# Invitations

`Command::execInvite` stores the pointer of the client that has the nickname
now, and `Channel::addClient` looks for a stored pointer whose client has the
nickname of the client that joins.  An invitation is never taken back.  So an
invitation lets in whoever has the nickname of the invited client: another
client that never chose one, or one that took it after the first had left.
-/

namespace FtIrc

open Utils Outcome

namespace Server

variable {s s' : Server} {ch : Channel} {x target : ClientPtr} {fd : Fd} {name message : Str}

/-- The channel and the client of an `INVITE` that passes the guard. -/
def invitation (s : Server) (message : Str) (fd : Fd) : Option (Str × ClientPtr) :=
  (s.getChannel (Parser.parse message).value).bind fun ch =>
    if (ch.getOperator s.memory fd).isSome then
      (s.getClientByNickName (Parser.parse message).function).map fun target => (ch.name, target)
    else none

/-- An `INVITE` that names no channel, comes from no operator or finds no client
sends one message at most. -/
theorem execInvite_none (h : s.invitation message fd = none) :
    (s.execInvite message fd).Leaves s.Sends := by
  unfold invitation at h
  unfold execInvite
  rw [leaves_catching]
  dsimp only
  cases hch : s.getChannel (Parser.parse message).value with
  | none => exact throwClient_sends _ _ _ _
  | some ch =>
      rw [hch, Option.bind_some] at h
      dsimp only
      refine .ite (fun _ => .require fun _ _ => throwClient_sends _ _ _ _) (fun hguard => ?_)
      rw [if_pos (Channel.passes_guard_iff.mp hguard), Option.map_eq_none_iff] at h
      rw [h]
      exact throwClient_sends _ _ _ _

/-- An `INVITE` that returns has added its client to the invitations. -/
theorem execInvite_some (h : s.invitation message fd = some (name, target))
    (hdone : (s.execInvite message fd).catching caughtByExecute = .done s') :
    ∃ ch ∈ s.channels, ch.name = name ∧
      (s.putChannel { ch with invites := ch.invites ++ [target] }).Sends s' := by
  obtain ⟨ch, hch, hguard⟩ := Option.bind_eq_some_iff.mp h
  split at hguard
  · rename_i hoperator
    obtain ⟨found, hfound, heq⟩ := Option.map_eq_some_iff.mp hguard
    obtain ⟨rfl, rfl⟩ := Prod.mk.inj heq
    refine ⟨ch, mem_of_getChannel hch, rfl, ?_⟩
    unfold execInvite at hdone
    dsimp only at hdone
    rw [hch] at hdone
    dsimp only at hdone
    rw [if_neg (Channel.passes_guard_iff.mpr hoperator), hfound] at hdone
    dsimp only [Channel.addInvite] at hdone
    split at hdone
    · -- the exception leaves the loop
      cases hdone
    · cases hdone
      rfl
  · cases hguard

/-- In a channel that is invite-only a client gets in when nothing else keeps it
out and an invited client has its nickname. -/
theorem admits_iff_of_inviteOnly (honly : ch.inviteOnly = true) (password : Str) :
    s.Admits ch x password ↔ s.Admits { ch with inviteOnly := false } x password ∧
      ∃ p ∈ ch.invites, (s.memory p).nickName = (s.memory x).nickName := by
  have hinvited : ¬ (ch.getInvite s.memory (s.memory x).nickName).isNone = true ↔
      ∃ p ∈ ch.invites, (s.memory p).nickName = (s.memory x).nickName := by
    rw [Bool.not_eq_true, Option.isNone_eq_false_iff, Channel.getInvite, List.find?_isSome]
    simp only [decide_eq_true_eq]
  rw [← hinvited]
  unfold Admits Channel.refuses Channel.getBan
  dsimp only
  rw [honly, and_assoc]
  refine and_congr_right fun _ => ?_
  split
  · simp
  · split
    · simp
    · simp

end Server

variable {w w' : World} {a : Action} {x : ClientPtr} {line : Str}

/-- The channel and the client of an `INVITE` that is executed. -/
def World.invitation (w : World) (a : Action) : Option (Str × ClientPtr) :=
  (w.called .invite a).bind fun said =>
    w.srv.invitation said.2 (w.srv.memory said.1).fd

/-- **Invitations after a step.**  One is added by an `INVITE` that is executed,
and none is removed. -/
theorem Stepped.invites (htidy : Tidy w) (hstep : Stepped w a w') (name : Str) (x : ClientPtr) :
    w'.srv.Lists Channel.invites name x ↔
      w.srv.Lists Channel.invites name x ∨ w.invitation a = some (name, x) := by
  cases hinvitation : w.invitation a with
  | none =>
      rw [or_iff_left (by simp)]
      refine Server.lists_of_marks (fun _ => rfl) (hstep.marks Channel.mark_invites htidy ?_ ?_)
      · intro env p line _ _
        refine Server.execMode_marks Channel.mark_invites.settings htidy.named.distinct
          Channel.mark_invites.unled env fun info _ _ ch hch _ => ?_
        have hmem := Server.mem_of_getChannel hch
        exact Server.execBan_marks Channel.mark_invites.lists htidy.named.distinct hmem
          (Server.executeTo_who_sends env 0 (htidy.named.good ch hmem)) fun _ _ => rfl
      · intro p line hcalled
        unfold World.invitation at hinvitation
        rw [hcalled, Option.bind_some] at hinvitation
        exact (Server.execInvite_none hinvitation).imp fun _ h => h.marks
  | some invited =>
      obtain ⟨invitedTo, target⟩ := invited
      obtain ⟨⟨p, line⟩, hcalled, hserver⟩ := Option.bind_eq_some_iff.mp hinvitation
      obtain ⟨hspeaker, haccepts, hverb, hlogin⟩ := World.called_eq_some.mp hcalled
      obtain ⟨env, -, hdone⟩ := hstep.called hcalled
      rw [Server.handleLine_login env (oneLine_of_speaker htidy hspeaker) haccepts hverb (by decide)
        (Server.getClient_fd htidy.fds (mem_of_speaker hspeaker)) hlogin] at hdone
      obtain ⟨ch, hch, rfl, hsends⟩ := Server.execInvite_some hserver hdone
      have hname : { ch with invites := ch.invites ++ [target] }.name = ch.name := rfl
      rw [Server.lists_of_marks (fun _ => rfl) (Or.inl hsends.marks),
        Server.lists_putChannel hch hname, Option.some.injEq, Prod.mk.injEq]
      split
      · rename_i heq
        rw [heq, Server.lists_iff_mem htidy.named.distinct hch, List.mem_append,
          List.mem_singleton]
        simp [eq_comm]
      · rename_i hne
        exact (or_iff_left fun heq => hne heq.1.symm).symm

/-- The line of the step comes from an operator of the channel, which is not only
one that has the descriptor of an operator. -/
def World.FromOperator (w : World) (a : Action) (name : Str) : Prop :=
  ∃ said ∈ w.speaker a, ∃ ch ∈ w.srv.getChannel name, said.1 ∈ ch.operators

instance (w : World) (a : Action) (name : Str) : Decidable (w.FromOperator a name) :=
  inferInstanceAs (Decidable (∃ said ∈ w.speaker a, _))

/-- An operator of the channel has executed an `INVITE` of the client. -/
def Invited (trace : Run.Trace World Action) (name : Str) (x : ClientPtr) : Prop :=
  ∃ entry ∈ trace, entry.1.invitation entry.2 = some (name, x) ∧ entry.1.FromOperator entry.2 name

/-- If the last step has added a client to a channel that was invite-only, the
client had been invited to it. -/
def InvitedOnly : Run.Trace World Action → World → Prop
  | [], _ => True
  | (before, _) :: earlier, w =>
      ∀ ch ∈ before.srv.channels, ch.inviteOnly = true →
        ∀ ch' ∈ w.srv.channels, ch'.name = ch.name →
          ∀ x, ch.clients.count x < ch'.clients.count x → Invited earlier ch.name x

/-- An `INVITE` that is executed comes from an operator of its channel. -/
def InviteFromOperator (w : World) (a : Action) : Prop :=
  ∀ entry ∈ w.invitation a, w.FromOperator a entry.1

instance (w : World) (a : Action) : Decidable (InviteFromOperator w a) :=
  inferInstanceAs (Decidable (∀ entry ∈ w.invitation a, _))

/-- A client that joins an invite-only channel, from which nothing else keeps it
out, is invited itself, unless no invited client has its nickname. -/
def JoinInvited (w : World) (a : Action) : Prop :=
  ∀ said ∈ w.called .join a, ∀ ch ∈ w.srv.getChannel (Parser.parse said.2).function,
    ch.inviteOnly = true →
      w.srv.Admits { ch with inviteOnly := false } said.1 (Parser.parse said.2).value →
        (∃ p ∈ ch.invites, (w.srv.memory p).nickName = (w.srv.memory said.1).nickName) →
          said.1 ∈ ch.invites

instance (w : World) (a : Action) : Decidable (JoinInvited w a) :=
  inferInstanceAs (Decidable (∀ said ∈ w.called .join a, _))

/-- What holds in every state of a run whose `INVITE`s come from operators: the
lists of invitations hold just the clients that have been invited. -/
structure InvitesKept (trace : Run.Trace World Action) (w : World) : Prop where
  tidy : Tidy w
  invites : ∀ name x, w.srv.Lists Channel.invites name x ↔ Invited trace name x

/-- Nobody is invited at the start. -/
theorem invitesKept_start (h : Start w) : InvitesKept [] w := by
  refine ⟨tidy_start h, fun name x => iff_of_false ?_ ?_⟩
  · obtain ⟨password, createdDate, listener, keepsFd, rfl⟩ := h
    rintro ⟨ch, hch, -⟩
    cases hch
  · rintro ⟨entry, hentry, -⟩
    cases hentry

/-- A step puts a client on a list only by an `INVITE` of an operator. -/
theorem InvitesKept.stepped {trace : Run.Trace World Action} (h : InvitesKept trace w)
    (hoperator : InviteFromOperator w a) (hstep : Stepped w a w') :
    InvitesKept ((w, a) :: trace) w' := by
  refine ⟨h.tidy.stepped hstep, fun name x => ?_⟩
  rw [hstep.invites h.tidy, h.invites]
  constructor
  · rintro (⟨entry, hentry, hinvited⟩ | hinvitation)
    · exact ⟨entry, List.mem_cons_of_mem _ hentry, hinvited⟩
    · exact ⟨(w, a), List.mem_cons_self, hinvitation, hoperator (name, x) hinvitation⟩
  · rintro ⟨entry, hentry, hinvited⟩
    rcases List.mem_cons.mp hentry with rfl | hentry
    · exact Or.inr hinvited.1
    · exact Or.inl ⟨entry, hentry, hinvited⟩

/-- A step adds only invited clients just when it is no `JOIN` of another client
with the nickname of an invited one. -/
theorem InvitesKept.invitedOnly_iff {trace : Run.Trace World Action} (h : InvitesKept trace w)
    (hstep : Stepped w a w') : InvitedOnly ((w, a) :: trace) w' ↔ JoinInvited w a := by
  constructor
  · rintro honly ⟨x, line⟩ hcalled ch hfound hmode hother hnick
    have hch := Server.mem_of_getChannel hfound
    have hadmits := (Server.admits_iff_of_inviteOnly hmode _).mpr ⟨hother, hnick⟩
    have hchannels := hstep.joined h.tidy hcalled
    rw [show w.srv.getChannel (Parser.parse line).function = some ch from hfound] at hchannels
    dsimp only at hchannels
    rw [if_pos hadmits] at hchannels
    have hpushed : ch.pushClient x ∈ w'.srv.channels := by
      rw [hchannels]
      exact List.mem_map.mpr ⟨ch, hch, if_pos rfl⟩
    have hinvited := honly ch hch hmode _ hpushed rfl x (by simp [Channel.pushClient])
    exact (Server.lists_iff_mem h.tidy.named.distinct hch).mp ((h.invites ch.name x).mpr hinvited)
  · intro hjoin ch hch hmode ch' hch' hname x hcount
    obtain ⟨line, hcalled, hfound, hadmits⟩ := hstep.added h.tidy hch hch' hname hcount
    obtain ⟨hother, hnick⟩ := (Server.admits_iff_of_inviteOnly hmode _).mp hadmits
    exact (h.invites ch.name x).mp
      ⟨ch, hch, rfl, hjoin (x, line) hcalled ch hfound hmode hother hnick⟩

end FtIrc
