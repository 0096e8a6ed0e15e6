import IrcServers.FtIrc.Bans
import IrcServers.FtIrc.Dangling
import IrcServers.Rooms

/-!
# Members and their histories

`JOIN` makes a client a member of one channel.  It stops being one by its own `PART` or
`QUIT`, or by a `KICK` or a ban of an operator.  A client that the server removes after a
hang-up or a `USER` with a wrong password stays a member, unless its descriptor outlives
it.  Nothing else changes the members of a channel, and a ban takes off one member only.
So who is on a channel, and in which order, can be read off the lines that have been
handled, as long as no member joins once more.
-/

namespace FtIrc

open Utils Outcome

namespace Channel

variable {ch : Channel} {p : ClientPtr} {k : Nat}

/-- One entry of the client is erased. -/
theorem without_clients (ch : Channel) (p : ClientPtr) :
    (ch.without p).clients = ch.clients.erase p := by
  unfold without
  split
  · rfl
  · rename_i hmem
    exact (List.erase_of_not_mem hmem).symm

/-- Somebody who is no member drops no entry. -/
theorem dropping_clients_of_not_mem (hmem : p ∉ ch.clients) :
    (ch.dropping p k).clients = ch.clients := by
  induction k with
  | zero => rfl
  | succ k ih => rw [dropping_succ, without_of_not_mem hmem, ih]

/-- A removal that drops an entry takes a client that is listed once off the
members. -/
theorem dropping_clients (hnodup : ch.clients.Nodup) (hk : k ≠ 0) :
    (ch.dropping p k).clients = ch.clients.erase p := by
  obtain ⟨k, rfl⟩ := Nat.exists_eq_succ_of_ne_zero hk
  rw [Nat.succ_eq_add_one, dropping_succ, dropping_clients_of_not_mem, without_clients]
  rw [without_clients]
  exact hnodup.not_mem_erase

end Channel

/-- Who joins and who leaves, and which channel. -/
abbrev MemberEvent := Rooms.Event Str ClientPtr Unit

namespace Server

/-- Who is on the channel of this name, nobody if there is none. -/
def membersOf (s : Server) (name : Str) : List ClientPtr :=
  ((s.getChannel name).map Channel.clients).getD []

/-- The channel that a `JOIN` makes `x` a member of. -/
def entering (s : Server) (x : ClientPtr) (message : Str) : Option Str :=
  match s.getChannel (Parser.parse message).function with
  | none => some (Parser.parse message).function
  | some ch => if s.Admits ch x (Parser.parse message).value then some ch.name else none

/-- The channel of a `KICK` that passes the guard, and the member it takes off. -/
def kicked (s : Server) (message : Str) (fd : Fd) : Option (Str × ClientPtr) :=
  (kickParse message).bind fun parsed =>
    (s.getChannel parsed.1.function).bind fun ch =>
      if (ch.getOperator s.memory fd).isSome then
        (ch.getClientByNickName s.memory parsed.1.value).map fun p => (ch.name, p)
      else none

/-- The member that a ban of the host name takes off: the first one, unless the host
name is banned already. -/
def banned (s : Server) (ch : Channel) (host : Str) : Option ClientPtr :=
  if ∃ q ∈ ch.bans, (s.memory q).hostName = host then none
  else (ch.getClients s.memory host).head?

/-- The channel of a `MODE` that bans, and the member it takes off. -/
def modeBanned (env : Env) (s : Server) (message : Str) (fd : Fd) : Option (Str × ClientPtr) :=
  (s.ban env message fd).bind fun said =>
    if said.1 then
      (s.getChannel said.2.1).bind fun ch => (s.banned ch said.2.2).map fun p => (ch.name, p)
    else none

/-- What a line of `x` does to the members of channels. -/
def memberEvents (env : Env) (s : Server) (x : ClientPtr) (line : Str) : List MemberEvent :=
  if s.Called .join line x then (s.entering x line).toList.map fun name => .enter name x ()
  else if s.Called .part line x then
    (s.getChannel (Parser.parse line).function).toList.map fun ch => .leave ch.name x
  else if s.Called .kick line x then
    (s.kicked line (s.memory x).fd).toList.map fun d => .leave d.1 d.2
  else if s.Called .mode line x then
    (s.modeBanned env line (s.memory x).fd).toList.map fun d => .leave d.1 d.2
  else []

end Server

/-- What a step does to the members of channels.  A client that is removed leaves them
all if its entries are dropped: those of a `QUIT` are. -/
def World.memberEvents (w : World) (a : Action) : List MemberEvent :=
  match w.removes a, a with
  | some removal, _ =>
      if w.srv.entriesDropped removal.1 removal.2 = 0 then []
      else w.srv.channels.map fun ch => .leave ch.name removal.1
  | none, .line env =>
      (w.speaker (.line env)).toList.flatMap fun said => w.srv.memberEvents env said.1 said.2
  | none, _ => []

/-- The joins and departures of a run. -/
def memberHistory (trace : Run.Trace World Action) : List MemberEvent :=
  Run.eventsOf World.memberEvents trace

namespace Server

variable {s s' : Server} {ch ch' : Channel} {p x client : ClientPtr} {fd : Fd}
  {name host message : Str} {info : ModeInfo} {env : Env} {events : List MemberEvent}
  {who : Server → Str → Fd → Result}

/-- The members of the channels have changed as the events say. -/
def MembersFollow (s : Server) (events : List MemberEvent) (s' : Server) : Prop :=
  ∀ name, s'.membersOf name =
    (s.membersOf name).filter (fun p => Rooms.leaves name p events = false) ++
      Rooms.standing name events

/-- The members of a channel are those in its list. -/
theorem membersOf_of_getChannel (hch : s.getChannel name = some ch) :
    s.membersOf name = ch.clients := by
  unfold membersOf
  rw [hch]
  rfl

/-- They depend on the lists only. -/
theorem membersOf_of_marks (h : s'.marks Channel.clients = s.marks Channel.clients)
    (name : Str) : s'.membersOf name = s.membersOf name := by
  have hread : ∀ s : Server, s.membersOf name =
      (((s.marks Channel.clients).find? fun mark => mark.1 = name).map Prod.snd).getD [] := by
    intro s
    unfold membersOf marks getChannel
    rw [List.find?_map, Option.map_map]
    rfl
  rw [hread, hread, h]

/-- The same lists follow no event. -/
theorem follows_nil (h : s'.marks Channel.clients = s.marks Channel.clients) :
    s.MembersFollow [] s' := by
  intro name
  rw [membersOf_of_marks h]
  simp [Rooms.leaves, Rooms.standing]

/-- Every channel loses the client. -/
theorem follows_leaveAll {f : Channel → Channel} (hname : ∀ ch, (f ch).name = ch.name)
    (hclients : ∀ ch ∈ s.channels, (f ch).clients = ch.clients.erase p)
    (hnodup : s.MembersNodup) (hchannels : s'.channels = s.channels.map f) :
    s.MembersFollow (s.channels.map fun ch => .leave ch.name p) s' := by
  intro name
  have hevents : (s.channels.map fun ch => (.leave ch.name p : MemberEvent)) =
      (s.channels.map Channel.name).map fun name => .leave name p := by
    rw [List.map_map]
    rfl
  rw [hevents, Rooms.standing_map_leave, List.append_nil]
  simp only [Rooms.leaves_map_leave]
  unfold membersOf
  rw [getChannel_map hname hchannels]
  cases hch : s.getChannel name with
  | none => rfl
  | some ch =>
      have hmem := mem_of_getChannel hch
      have hin : name ∈ s.channels.map Channel.name :=
        List.mem_map.mpr ⟨ch, hmem, name_of_getChannel hch⟩
      simp only [Option.map_some, Option.getD_some]
      rw [hclients ch hmem, (hnodup ch hmem).erase_eq_filter]
      refine List.filter_congr fun q _ => ?_
      by_cases hq : p = q
      · simp [hq, hin]
      · simp [hq, Ne.symm hq]

/-- One channel is written back. -/
theorem membersOf_putChannel (hch : s.getChannel ch.name = some ch) (hname : ch'.name = ch.name)
    (hchannels : s'.channels = (s.putChannel ch').channels) (name : Str) :
    s'.membersOf name = if ch.name = name then ch'.clients else s.membersOf name := by
  have hget : s'.getChannel name = (s.putChannel ch').getChannel name := by
    unfold getChannel
    rw [hchannels]
  unfold membersOf
  rw [hget]
  by_cases heq : ch.name = name
  · rw [if_pos heq, getChannel_putChannel (heq ▸ hch) (hname.trans heq)]
    rfl
  · rw [if_neg heq, getChannel_putChannel_of_ne s fun h => heq (hname.symm.trans h)]

/-- One channel loses the client. -/
theorem follows_leave (hch : s.getChannel name = some ch) (hnodup : s.MembersNodup)
    (ch' : Channel) (hname : ch'.name = ch.name) (hclients : ch'.clients = ch.clients.erase p)
    (hchannels : s'.channels = (s.putChannel ch').channels) :
    s.MembersFollow [.leave ch.name p] s' := by
  have hself := getChannel_self hch
  intro k
  rw [membersOf_putChannel hself hname hchannels]
  by_cases hk : ch.name = k
  · subst hk
    rw [if_pos rfl, hclients, (hnodup ch (mem_of_getChannel hch)).erase_eq_filter,
      membersOf_of_getChannel hself]
    simp only [Rooms.leaves, Rooms.standing, List.append_nil]
    refine List.filter_congr fun q _ => ?_
    by_cases hq : p = q
    · simp [hq]
    · simp [hq, Ne.symm hq]
  · rw [if_neg hk]
    simp [Rooms.leaves, Rooms.standing, hk]

/-- One channel gets a member. -/
theorem follows_enter (hmembers : ∀ k, s'.membersOf k =
      if name = k then s.membersOf k ++ [x] else s.membersOf k) :
    s.MembersFollow [.enter name x ()] s' := by
  intro k
  rw [hmembers]
  by_cases hk : name = k
  · rw [if_pos hk]
    simp [Rooms.leaves, Rooms.standing, hk]
  · rw [if_neg hk]
    simp [Rooms.leaves, Rooms.standing, hk]

/-! ## Bans -/

/-- Nobody is banned who has the host name of a ban. -/
theorem banClient_banned (hch : s.getChannel name = some ch)
    (h : ∃ q ∈ ch.bans, (s.memory q).hostName = (s.memory p).hostName) :
    s.banClient name p = .thrown .alreadyBan s := by
  obtain ⟨q, hq, hsame⟩ := h
  unfold banClient Channel.addBan
  rw [hch]
  dsimp only
  rw [if_pos (List.any_eq_true.mpr ⟨q, hq, decide_eq_true hsame⟩)]
  rfl

/-- Anybody else is taken off the members. -/
theorem banClient_new (hch : s.getChannel name = some ch)
    (h : ¬ ∃ q ∈ ch.bans, (s.memory q).hostName = (s.memory p).hostName) :
    ∃ t, s.banClient name p = .done t ∧
      (s.putChannel ({ ch with bans := ch.bans ++ [p] }.without p)).Sends t := by
  have hnew : ¬ (ch.bans.any fun q => (s.memory q).hostName = (s.memory p).hostName) = true := by
    rw [List.any_eq_true]
    rintro ⟨q, hq, hsame⟩
    exact h ⟨q, hq, of_decide_eq_true hsame⟩
  unfold banClient Channel.addBan
  rw [hch]
  dsimp only
  rw [if_neg hnew, Channel.removeClient_some]
  exact ⟨_, rfl, rfl⟩

/-- The channels when `p` has been banned from `ch`, or nobody. -/
def afterBan (s : Server) (ch : Channel) : Option ClientPtr → List Channel
  | none => s.channels
  | some p => (s.putChannel ({ ch with bans := ch.bans ++ [p] }.without p)).channels

/-- The loop of a ban takes one member off at most: the second one of the host meets the
ban that the first one has left. -/
theorem banClients_leaves (hch : s.getChannel ch.name = some ch) (host : Str) :
    (Outcome.each (banClient ch.name) (ch.getClients s.memory host) s).Leaves
      fun s' => s'.channels = s.afterBan ch (s.banned ch host) := by
  have hhosts : ∀ p ∈ ch.getClients s.memory host, (s.memory p).hostName = host :=
    fun p hp => (mem_getClients hp).2
  unfold banned
  cases hclients : ch.getClients s.memory host with
  | nil =>
      rw [each_nil, leaves_done]
      split <;> rfl
  | cons p rest =>
      rw [hclients] at hhosts
      have hp := hhosts p List.mem_cons_self
      rw [each_cons]
      by_cases hbanned : ∃ q ∈ ch.bans, (s.memory q).hostName = host
      · rw [if_pos hbanned, banClient_banned hch (hp.symm ▸ hbanned)]
        exact leaves_thrown.mpr rfl
      · obtain ⟨t, hdone, hsends⟩ := banClient_new hch (hp.symm ▸ hbanned)
        rw [if_neg hbanned, hdone, andThen_done]
        cases rest with
        | nil => exact leaves_done.mpr hsends.channels
        | cons q rest =>
            have hname : ({ ch with bans := ch.bans ++ [p] }.without p).name = ch.name :=
              Channel.without_name _ p
            have hget : t.getChannel ch.name =
                some ({ ch with bans := ch.bans ++ [p] }.without p) := by
              rw [← getChannel_putChannel hch hname]
              unfold getChannel
              rw [hsends.channels]
            have hban : p ∈ ({ ch with bans := ch.bans ++ [p] }.without p).bans := by
              unfold Channel.without
              split <;> exact List.mem_append_right _ (List.mem_singleton_self p)
            have hq := hhosts q (List.mem_cons_of_mem _ List.mem_cons_self)
            have hmemory : t.memory = s.memory := hsends.memory
            rw [each_cons, banClient_banned hget ⟨p, hban, by rw [hmemory, hp, hq]⟩]
            exact leaves_thrown.mpr hsends.channels

/-- A `+b` takes off the first member that has the host name, unless it is banned. -/
theorem execBan_add (hch : s.getChannel ch.name = some ch) (hwho : WhoSends who ch.name)
    (hmask : (split (banMask info.parameters) atSign)[1]? = some host)
    (hstatus : info.status = true) (hlist : ¬ (info.status = true ∧ info.parameters = [])) :
    (s.execBan who ch info fd).Leaves
      fun s' => s'.channels = s.afterBan ch (s.banned ch host) := by
  unfold execBan
  rw [leaves_catching, if_neg hlist]
  dsimp only
  rw [if_pos hstatus, hmask, require_some]
  refine (banClients_leaves hch host).andThen fun t ht => ?_
  exact (banTells_sends hwho _ _ _ t).imp fun _ hs => hs.channels.trans ht

/-! ## Commands -/

/-- Operators do not belong to the list of members. -/
theorem unled_clients : Channel.Unled Channel.clients := fun _ _ => rfl

/-- Nor do settings. -/
theorem unset_clients : Channel.Unset Channel.clients := fun _ _ _ _ _ => rfl

section Commands

variable (hdistinct : (s.channels.map Channel.name).Nodup) (hnodup : s.MembersNodup)
include hnodup

/-- `PART` takes its client off the channel. -/
theorem execPart_follows (hx : s.getClient fd = some x) :
    (s.execPart message fd).Leaves (s.MembersFollow
      ((s.getChannel (Parser.parse message).function).toList.map fun ch => .leave ch.name x)) := by
  unfold execPart
  rw [hx, require_some]
  dsimp only
  cases hch : s.getChannel (Parser.parse message).function with
  | none => exact leaves_done.mpr (follows_nil rfl)
  | some ch =>
      refine leaves_done.mpr (follows_leave hch hnodup (ch.without x) (ch.without_name x)
        (ch.without_clients x) ?_)
      rw [Channel.removeClient_some]
      rfl

/-- `KICK` takes the named member off, for an operator. -/
theorem execKick_follows : (s.execKick message fd).Leaves (s.MembersFollow
    ((s.kicked message fd).toList.map fun d => .leave d.1 d.2)) := by
  unfold kicked execKick
  refine .require fun parsed hparsed => ?_
  rw [hparsed, Option.bind_some, leaves_catching]
  refine .require fun ch hch => ?_
  rw [hch, Option.bind_some]
  refine .ite (fun hguard => ?_) (fun hguard => ?_)
  · rw [if_neg fun hop => Channel.passes_guard_iff.mpr hop hguard]
    exact (throwNotOperator_marks s fd _).imp fun _ h => follows_nil h
  · rw [if_pos (Channel.passes_guard_iff.mp hguard)]
    cases htarget : ch.getClientByNickName s.memory parsed.1.value with
    | none => exact (throwClient_marks s fd _ _).imp fun _ h => follows_nil h
    | some p =>
        refine leaves_done.mpr (follows_leave hch hnodup (ch.without p) (ch.without_name p)
          (ch.without_clients p) ?_)
        rw [Channel.removeClient_some]
        rfl

/-- A ban, as the members see it. -/
theorem follows_afterBan (hch : s.getChannel ch.name = some ch) {target : Option ClientPtr}
    (hchannels : s'.channels = s.afterBan ch target) :
    s.MembersFollow ((target.map fun p => (ch.name, p)).toList.map fun d => .leave d.1 d.2) s' := by
  cases target with
  | none => exact follows_nil (marks_of_channels hchannels)
  | some p =>
      exact follows_leave hch hnodup (Channel.without { ch with bans := ch.bans ++ [p] } p)
        (Channel.without_name _ p) (Channel.without_clients _ p) hchannels

include hdistinct in
/-- `MODE` takes a member off when it bans one. -/
theorem execMode_follows (hwho : ∀ ch ∈ s.channels, WhoSends who ch.name) :
    (s.execMode env who message fd).Leaves (s.MembersFollow
      ((s.modeBanned env message fd).toList.map fun d => .leave d.1 d.2)) := by
  unfold modeBanned
  cases hban : s.ban env message fd with
  | none =>
      refine (execMode_marks unset_clients hdistinct unled_clients env
        fun info hcall hkey ch hch hop => ?_).imp fun _ h => follows_nil h
      exact (execBan_of_none (hwho ch (mem_of_getChannel hch)) hban hcall hch hkey hop).imp
        fun _ h => h.marks
  | some said =>
      obtain ⟨status, name, host⟩ := said
      obtain ⟨info, ch, hostName, hcalled, hstatus, rfl, hhost⟩ := ban_eq_some hban
      have hch := getChannel_self hcalled.channel
      have hsends := hwho ch (mem_of_getChannel hch)
      rw [execMode_eq hcalled.call hcalled.channel hcalled.key hcalled.operator, leaves_catching,
        Option.bind_some]
      dsimp only
      cases status with
      | false =>
          refine (execBan_remove hsends (by simp [hstatus]) hcalled.mask).imp fun s' h => ?_
          refine follows_nil ?_
          rcases h with h | h
          · exact h.marks
          · refine h.marks.trans (marks_putChannel hdistinct rfl (mem_of_getChannel hch) ?_)
            rfl
      | true =>
          obtain rfl : host = hostName := by simpa using hhost
          rw [if_pos rfl, hch, Option.bind_some]
          exact (execBan_add hch hsends hcalled.mask hstatus hcalled.notList).imp
            fun _ h => follows_afterBan hnodup hch h

end Commands

/-- A `QUIT` from a descriptor that has no client takes nobody off a channel. -/
theorem execQuit_channels (hnamed : s.Named) (hmembers : s.MembersTraced) (hfd : 0 ≤ fd)
    (hnone : s.getClient fd = none) :
    (s.execQuit message fd).Leaves fun s' => s'.channels = s.channels := by
  have hnobody : ∀ ch ∈ s.channels, ch.getClient s.memory fd = none := by
    intro ch hch
    refine List.find?_eq_none.mpr fun p hp => ?_
    rcases hmembers ch hch p hp with hin | hleft
    · exact List.find?_eq_none.mp hnone p hin
    · rintro heq
      rw [← of_decide_eq_true heq, hleft] at hfd
      exact absurd hfd (by decide)
  refine (execQuit_leaves hnamed message fd).imp fun s' h => ?_
  have hquit : s.channels.map (s.quitFrom fd) = s.channels := by
    rw [List.map_congr_left, List.map_id]
    intro ch hch
    unfold quitFrom
    rw [if_neg (by simp [hnobody ch hch])]
    rfl
  have hsame : (s.departed fd).channels = s.channels := hquit
  have hkept : (s.departed fd).removeClient fd = (s.departed fd).dropMembers fd :=
    removeClient_of_none hnone
  rw [h.2.channels, hkept]
  show (s.departed fd).channels.map _ = s.channels
  rw [hsame, List.map_congr_left, List.map_id]
  intro ch hch
  exact congrArg (ch.removeClient s.memory) (hnobody ch hch)

/-- A `USER` with the right password takes nobody off a channel. -/
theorem execUser_channels (hpassword : ∀ client, s.getClient fd = some client →
    s.password = (s.memory client).password) :
    (s.execUser message fd).Leaves fun s' => s'.channels = s.channels := by
  refine .require fun user _ => .require fun client hc => ?_
  have hlogin := login_channels (s.setClient client fun c =>
    { c with userName := user.1, realName := user.2 }) client
  split
  · rename_i t hthrown
    exact (login_ne_mismatch (by simpa [setClient] using hpassword client hc) t hthrown).elim
  · exact hlogin

/-- A line that removes nobody, and is none of the commands for members, leaves the
members of all channels. -/
theorem handleLine_members (env : Env) (hnamed : s.Named) (hmembers : s.MembersTraced)
    (hfd : 0 ≤ fd) (hline : OneLine message) (hremoving : s.removing message fd = none)
    (hother : ∀ x, s.getClient fd = some x →
      ∀ verb ∈ [Verb.join, .part, .kick, .mode], ¬ s.Called verb message x) :
    (handleLine env s message fd).Leaves
      fun s' => s'.marks Channel.clients = s.marks Channel.clients := by
  refine handleLine_marks env hline (fun haccepts hverb => ?_) (fun haccepts hverb => ?_)
    fun x verb hx hcalled hwrites => ?_
  · simp only [removing, haccepts, hverb, if_true, Option.map_eq_none_iff] at hremoving
    exact (execQuit_channels hnamed hmembers hfd hremoving).imp fun _ h => marks_of_channels h
  · refine (execUser_channels fun client hc => ?_).imp fun _ h => marks_of_channels h
    by_contra hpassword
    simp [removing, haccepts, hverb, hc, hpassword] at hremoving
  · cases verb with
    | topic => exact execTopic_marks unset_clients hnamed.distinct
    | invite => exact execInvite_marks hnamed.distinct fun _ _ => rfl
    | join | part | kick | mode => exact (hother x hx _ (by decide) hcalled).elim
    | _ => exact absurd hwrites (by decide)

end Server

/-! ## Steps -/

variable {w w' : World} {a : Action} {x : ClientPtr} {line : Str} {name : Str}
  {trace : Run.Trace World Action}

/-- A `JOIN` puts its client behind the members there are, or nowhere. -/
theorem Stepped.follows_join (htidy : Tidy w) (hstep : Stepped w a w')
    (hcalled : w.called .join a = some (x, line)) :
    w.srv.MembersFollow ((w.srv.entering x line).toList.map fun name => .enter name x ())
      w'.srv := by
  have hjoined := hstep.joined htidy hcalled
  unfold Server.entering
  cases hch : w.srv.getChannel (Parser.parse line).function with
  | none =>
      rw [hch] at hjoined
      refine Server.follows_enter fun k => ?_
      unfold Server.membersOf Server.getChannel
      rw [hjoined, List.find?_append]
      by_cases hk : (Parser.parse line).function = k
      · subst hk
        rw [if_pos rfl, show List.find? _ w.srv.channels = none from hch]
        simp [Channel.new, Channel.pushClient]
      · rw [if_neg hk]
        cases hold : List.find? (fun ch => decide (ch.name = k)) w.srv.channels with
        | none => simp [Channel.new, Channel.pushClient, hk]
        | some ch => rfl
  | some ch =>
      rw [hch] at hjoined
      dsimp only at hjoined
      split at hjoined
      · rename_i hadmits
        simp only [hadmits, if_true]
        refine Server.follows_enter fun k => ?_
        have hself := Server.getChannel_self hch
        rw [Server.membersOf_putChannel hself (show (ch.pushClient x).name = ch.name from rfl)
          hjoined]
        by_cases hk : ch.name = k
        · subst hk
          rw [if_pos rfl, if_pos rfl, Server.membersOf_of_getChannel hself]
          rfl
        · rw [if_neg hk, if_neg hk]
      · rename_i hadmits
        simp only [hadmits, if_false]
        exact Server.follows_nil (Server.marks_of_channels hjoined)

/-- Commands for members, other commands, and lines from nobody. -/
theorem Stepped.follows_line {env : Env} (htidy : Tidy w) (hnodup : w.srv.MembersNodup)
    (hmembers : w.srv.MembersTraced) (hstep : Stepped w (.line env) w')
    (hremoves : w.removes (.line env) = none) :
    w.srv.MembersFollow (w.memberEvents (.line env)) w'.srv := by
  have hquiet : (∀ said ∈ w.speaker (.line env), ∀ verb ∈ [Verb.join, .part, .kick, .mode],
      ¬ w.srv.Called verb said.2 said.1) → w.srv.MembersFollow [] w'.srv := by
    intro hother
    cases hstep with
    | @line env fd line lines s hpending hdone =>
        have hline := htidy.lines fd _ hpending line List.mem_cons_self
        simp only [World.removes, hpending] at hremoves
        simp only [World.speaker, hpending, Option.mem_def, Option.map_eq_some_iff] at hother
        have hfd := htidy.source fd _ hpending
        have hleaves := Server.handleLine_members env htidy.named hmembers hfd hline hremoves
          fun x hx verb hverb => hother (x, line) ⟨x, hx, rfl⟩ verb hverb
        rw [hdone, leaves_done] at hleaves
        exact Server.follows_nil hleaves
  unfold World.memberEvents
  rw [hremoves]
  dsimp only
  cases hspeaker : w.speaker (.line env) with
  | none => exact hquiet fun said hsaid => by rw [hspeaker] at hsaid; cases hsaid
  | some said =>
      obtain ⟨x, line⟩ := said
      have hx := Server.getClient_fd htidy.fds (mem_of_speaker hspeaker)
      have hof := fun {verb} (hcalled : w.srv.Called verb line x) =>
        hstep.of_called htidy hspeaker hcalled
      simp only [Option.toList_some, List.flatMap_singleton]
      unfold Server.memberEvents
      by_cases hjoin : w.srv.Called .join line x
      · rw [if_pos hjoin]
        exact hstep.follows_join htidy (World.called_eq_some.mpr ⟨hspeaker, hjoin⟩)
      rw [if_neg hjoin]
      by_cases hpart : w.srv.Called .part line x
      · rw [if_pos hpart]
        exact hof hpart (by decide) (Server.execPart_follows hnodup hx)
      rw [if_neg hpart]
      by_cases hkick : w.srv.Called .kick line x
      · rw [if_pos hkick]
        exact hof hkick (by decide) (Server.execKick_follows hnodup)
      rw [if_neg hkick]
      by_cases hmode : w.srv.Called .mode line x
      · rw [if_pos hmode]
        refine hof hmode (by decide)
          (Server.execMode_follows htidy.named.distinct hnodup fun ch hch => ?_)
        exact Server.executeTo_who_sends env 0 (htidy.named.good ch hch)
      rw [if_neg hmode]
      refine hquiet fun said hsaid verb hverb => ?_
      obtain rfl := Option.some.inj (hspeaker.symm.trans hsaid)
      simp only [List.mem_cons, List.not_mem_nil, or_false] at hverb
      rcases hverb with rfl | rfl | rfl | rfl
      · exact hjoin
      · exact hpart
      · exact hkick
      · exact hmode

/-- **One step.**  It does to the members of channels what its events say. -/
theorem Stepped.follows (htidy : Tidy w) (hnodup : w.srv.MembersNodup)
    (hmembers : w.srv.MembersTraced) (hstep : Stepped w a w') :
    w.srv.MembersFollow (w.memberEvents a) w'.srv := by
  cases hremoves : w.removes a with
  | some removal =>
      obtain ⟨client, k⟩ := removal
      obtain ⟨hclient, hk⟩ := removes_some hremoves
      have haccept : ∀ fd host, a ≠ .accept fd host := by
        rintro fd host rfl
        cases hremoves
      have hhandled := hstep.handled htidy haccept
      rw [hremoves] at hhandled
      have hchannels := hhandled.2.channels
      rw [Server.parted_channels htidy.fds hmembers hclient (htidy.valid client hclient) hk]
        at hchannels
      unfold World.memberEvents
      rw [hremoves]
      dsimp only
      generalize w.srv.entriesDropped client k = entries at hchannels ⊢
      by_cases hnone : entries = 0
      · subst hnone
        rw [if_pos rfl]
        exact Server.follows_nil (Server.marks_of_channels (hchannels.trans (List.map_id _)))
      · rw [if_neg hnone]
        refine Server.follows_leaveAll (fun ch => ?_)
          (fun ch hch => Channel.dropping_clients (hnodup ch hch) hnone) hnodup hchannels
        have halters : ch.Alters (fun _ => True) (ch.dropping client entries) :=
          ch.alters_dropping client entries
        exact halters.name
  | none =>
      cases a with
      | line env => exact hstep.follows_line htidy hnodup hmembers hremoves
      | read fd message =>
          cases hstep with
          | read hphase hidle hpolled hclient =>
              have hsome : message ≠ [] := by
                rintro rfl
                obtain ⟨p, hp⟩ := Server.exists_getClient hclient
                simp [World.removes, hp] at hremoves
              unfold World.memberEvents World.read
              rw [hremoves, if_neg hsome]
              exact Server.follows_nil rfl
      | gather => cases hstep; exact Server.follows_nil rfl
      | accept => cases hstep; exact Server.follows_nil rfl
      | readFails => cases hstep; exact Server.follows_nil rfl

end FtIrc
