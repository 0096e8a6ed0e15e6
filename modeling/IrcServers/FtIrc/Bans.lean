import IrcServers.FtIrc.Marks

/-!
# Bans

`MODE` with `+b` bans the members that have a host name, one after the other,
and the ban that is recorded is the pointer of the first.  The second member of
the host is met with `AlreadyBanException`, which ends the loop, and when nobody
in the channel has the host name nothing is recorded.  A ban holds as long as
`+b` finds exactly one member of the host and the client whose pointer it
records stays connected.
-/

namespace FtIrc

open Utils Outcome

namespace Server

variable {s s' : Server} {ch : Channel} {x p : ClientPtr} {fd : Fd} {name host message : Str}
  {info : ModeInfo} {env : Env} {who : Server → Str → Fd → Result}

/-- What a `MODE` with the letter `b` that passes the guard says: whether it sets
the ban, in which channel, and for which host name. -/
def ban (env : Env) (s : Server) (message : Str) (fd : Fd) : Option (Bool × Str × Str) :=
  (modeCall env message).bind fun info =>
    (s.getChannel info.channel).bind fun ch =>
      if modeKey info = "b".toList ∧ (ch.getOperator s.memory fd).isSome ∧
          ¬ (info.status ∧ info.parameters = []) then
        (split (banMask info.parameters) atSign)[1]?.map fun hostName =>
          (info.status, ch.name, if info.status then hostName else trim hostName)
      else none

/-- A `MODE` of an operator that goes to `Mode::execBan` for the host name. -/
structure BanCalled (s : Server) (env : Env) (message : Str) (fd : Fd) (info : ModeInfo)
    (ch : Channel) (hostName : Str) : Prop where
  call : modeCall env message = some info
  channel : s.getChannel info.channel = some ch
  key : modeKey info = "b".toList
  operator : (ch.getOperator s.memory fd).isSome = true
  notList : ¬ (info.status = true ∧ info.parameters = [])
  mask : (split (banMask info.parameters) atSign)[1]? = some hostName

/-- A change of bans is a `MODE` that its handler gets to see. -/
theorem ban_eq_some {status : Bool} (h : s.ban env message fd = some (status, name, host)) :
    ∃ info ch hostName, s.BanCalled env message fd info ch hostName ∧ info.status = status ∧
      ch.name = name ∧ host = if status then hostName else trim hostName := by
  obtain ⟨info, hcall, h⟩ := Option.bind_eq_some_iff.mp h
  obtain ⟨ch, hch, h⟩ := Option.bind_eq_some_iff.mp h
  split at h
  · rename_i hcond
    obtain ⟨hostName, hmask, heq⟩ := Option.map_eq_some_iff.mp h
    obtain ⟨hstatus, heq⟩ := Prod.mk.inj heq
    obtain ⟨hname, hhost⟩ := Prod.mk.inj heq
    refine ⟨info, ch, hostName, ⟨hcall, hch, hcond.1, hcond.2.1, hcond.2.2, hmask⟩, hstatus, hname,
      ?_⟩
    rw [← hhost, hstatus]
  · cases h

/-- Where a `MODE` of an operator with the letter `b` goes. -/
theorem execMode_eq (hcall : modeCall env message = some info)
    (hch : s.getChannel info.channel = some ch) (hkey : modeKey info = "b".toList)
    (hop : (ch.getOperator s.memory fd).isSome = true) :
    s.execMode env who message fd =
      (s.execBan who ch info fd).catching fun e => e = .notOperator := by
  rw [execMode_eq_execModeKey hcall hch hop, execModeKey_of_ban hkey]

/-- The list of bans, and a mask without a host name, only send. -/
theorem execBan_quiet (hwho : WhoSends who ch.name)
    (h : (info.status = true ∧ info.parameters = []) ∨
      (split (banMask info.parameters) atSign)[1]? = none) :
    (s.execBan who ch info fd).Leaves s.Sends := by
  unfold execBan
  rw [leaves_catching]
  refine .ite (fun _ => .require fun _ _ => leaves_done.mpr rfl) (fun hlist => ?_)
  have hmask := h.resolve_left hlist
  refine .ite (fun _ => ?_) (fun _ => ?_)
  · rw [hmask]
    exact leaves_fault
  · refine (banTells_sends hwho _ _ _ s).andThen fun t ht => ?_
    rw [hmask]
    exact leaves_fault

/-- A `MODE` with the letter `b` that says nothing about a ban only sends. -/
theorem execBan_of_none (hwho : WhoSends who ch.name) (hban : s.ban env message fd = none)
    (hcall : modeCall env message = some info) (hch : s.getChannel info.channel = some ch)
    (hkey : modeKey info = "b".toList) (hop : (ch.getOperator s.memory fd).isSome = true) :
    (s.execBan who ch info fd).Leaves s.Sends := by
  refine execBan_quiet hwho ?_
  by_cases hlist : info.status = true ∧ info.parameters = []
  · exact Or.inl hlist
  · right
    simp only [ban, hcall, hch, Option.bind_some, hkey, hop, hlist, not_false_eq_true,
      and_self, if_true, Option.map_eq_none_iff] at hban
    exact hban

/-- A `-b` takes one ban of the host name away, if there is one. -/
theorem execBan_remove (hwho : WhoSends who ch.name) {hostName : Str}
    (hstatus : ¬ info.status = true)
    (hmask : (split (banMask info.parameters) atSign)[1]? = some hostName) :
    (s.execBan who ch info fd).Leaves fun s' => s.Sends s' ∨
      (s.putChannel { ch with
        bans := ch.bans.eraseP fun p => (s.memory p).hostName = trim hostName }).Sends s' := by
  unfold execBan
  rw [leaves_catching]
  refine .ite (fun hlist => (hstatus hlist.1).elim) (fun _ => .ite (fun h => (hstatus h).elim)
    (fun _ => ?_))
  refine (banTells_sends hwho _ _ _ s).andThen_of_imp (fun _ h => Or.inl h) fun t ht => ?_
  rw [hmask, require_some]
  unfold pardon
  rw [ht.memory]
  split
  · rename_i client hclient
    have hhost : (s.memory client).hostName = trim hostName := by
      simpa using List.find?_some hclient
    unfold Channel.removeBan
    rw [hhost]
    split
    · refine leaves_done.mpr (Or.inr ?_)
      rw [show t = { s with sent := t.sent } from ht]
      rfl
    · exact leaves_thrown.mpr (Or.inl ht)
  · exact .ite (fun _ => leaves_thrown.mpr (Or.inl ht)) (fun _ => leaves_fault)

/-- A `+b` for a host name that no member has records nothing. -/
theorem execBan_nobody (hwho : WhoSends who ch.name) {hostName : Str}
    (hmask : (split (banMask info.parameters) atSign)[1]? = some hostName)
    (hstatus : info.status = true) (hnone : ch.getClients s.memory hostName = []) :
    (s.execBan who ch info fd).Leaves s.Sends := by
  unfold execBan
  rw [leaves_catching]
  refine .ite (fun _ => .require fun _ _ => leaves_done.mpr rfl) (fun _ => ?_)
  dsimp only
  rw [if_pos hstatus, hmask, require_some, hnone, each_nil, andThen_done]
  exact banTells_sends hwho _ _ _ s

/-- A `+b` for a host name that one member has bans that member. -/
theorem execBan_one (hch : s.getChannel ch.name = some ch) (hwho : WhoSends who ch.name)
    {hostName : Str} (hmask : (split (banMask info.parameters) atSign)[1]? = some hostName)
    (hstatus : info.status = true) (hlist : info.parameters ≠ [])
    (hone : ch.getClients s.memory hostName = [p])
    (hnew : ∀ q ∈ ch.bans, (s.memory q).hostName ≠ hostName) :
    (s.execBan who ch info fd).Leaves
      (s.putChannel ({ ch with bans := ch.bans ++ [p] }.without p)).Sends := by
  have hhost : (s.memory p).hostName = hostName :=
    (mem_getClients (hone ▸ List.mem_singleton_self p)).2
  have hadd : ch.addBan s.memory p = .ok ({ ch with bans := ch.bans ++ [p] }.without p) := by
    unfold Channel.addBan
    rw [if_neg, Channel.removeClient_some]
    rw [List.any_eq_true]
    rintro ⟨q, hq, hsame⟩
    exact hnew q hq ((of_decide_eq_true hsame).trans hhost)
  unfold execBan
  rw [leaves_catching, if_neg fun h => hlist h.2]
  dsimp only
  rw [if_pos hstatus, hmask, require_some, hone, each_cons]
  unfold banClient
  rw [hch]
  dsimp only [update]
  rw [hadd]
  dsimp only
  rw [andThen_done, each_nil, andThen_done]
  exact (banTells_sends hwho _ _ _ _).imp fun t ht => ht

/-- Nobody is let in whose host name is banned. -/
theorem host_of_admits {password : Str} (h : s.Admits ch x password) :
    ∀ p ∈ ch.bans, (s.memory x).hostName ≠ (s.memory p).hostName := by
  intro p hp hhost
  have hban : (ch.getBan s.memory (s.memory x).hostName).isSome = true :=
    List.find?_isSome.mpr ⟨p, hp, decide_eq_true hhost.symm⟩
  have hrefuses := h.2
  unfold Channel.refuses at hrefuses
  rw [if_pos hban] at hrefuses
  cases hrefuses

/-- No ban of a channel has the host name of a member. -/
def BansApart (s : Server) : Prop :=
  ∀ ch ∈ s.channels, ∀ p ∈ ch.bans, ∀ q ∈ ch.clients, (s.memory q).hostName ≠ (s.memory p).hostName

end Server

variable {w w' : World} {a : Action}

/-- What a step says about a ban: whether it is set, the channel and the host
name. -/
def World.ban (w : World) : Action → Option (Bool × Str × Str)
  | .line env =>
      (w.called .mode (.line env)).bind fun said =>
        w.srv.ban env said.2 (w.srv.memory said.1).fd
  | _ => none

/-- A `+b` finds its host name banned already, or one member that has it and is
connected; and no client whose pointer is a ban is removed. -/
def BanTakes (w : World) (a : Action) : Prop :=
  (∀ said ∈ w.ban a, said.1 = true → ∀ ch ∈ w.srv.getChannel said.2.1,
    (∃ p ∈ ch.bans, (w.srv.memory p).hostName = said.2.2) ∨
      ∃ p ∈ w.srv.clients, ch.getClients w.srv.memory said.2.2 = [p]) ∧
  ∀ removed ∈ w.removes a, ∀ ch ∈ w.srv.channels, removed.1 ∉ ch.bans

instance (w : World) (a : Action) : Decidable (BanTakes w a) :=
  inferInstanceAs (Decidable ((∀ said ∈ w.ban a, _) ∧ ∀ removed ∈ w.removes a, _))

/-- What a step whose bans take does to the lists of bans. -/
inductive BanEffect (w : World) (a : Action) (w' : World) : Prop
  | kept
      (hmarks : w'.srv.marks Channel.bans = w.srv.marks Channel.bans ∨
        ∃ name, w'.srv.marks Channel.bans =
          w.srv.marks Channel.bans ++ [(name, (Channel.new name).bans)])
      (hset : ∀ name host, w.ban a = some (true, name, host) →
        ∃ p, w.srv.Lists Channel.bans name p ∧ (w.srv.memory p).hostName = host)
  | pardoned {ch : Channel} {host : Str} (hch : ch ∈ w.srv.channels)
      (hban : w.ban a = some (false, ch.name, host))
      (hchannels : w'.srv.channels = (w.srv.putChannel { ch with
        bans := ch.bans.eraseP fun p => (w.srv.memory p).hostName = host }).channels)
  | banned {ch : Channel} {p : ClientPtr} (hch : ch ∈ w.srv.channels) (hp : p ∈ w.srv.clients)
      (hban : w.ban a = some (true, ch.name, (w.srv.memory p).hostName))
      (hone : ch.getClients w.srv.memory (w.srv.memory p).hostName = [p])
      (hchannels : w'.srv.channels = (w.srv.putChannel
        ({ ch with bans := ch.bans ++ [p] }.without p)).channels)

/-- A step that says something about a ban goes to `Mode::execBan`. -/
theorem Stepped.banCalled (htidy : Tidy w) (hstep : Stepped w a w') {status : Bool}
    {name host : Str} (hban : w.ban a = some (status, name, host)) :
    ∃ env line fd info ch hostName, w.srv.BanCalled env line fd info ch hostName ∧
      info.status = status ∧ ch.name = name ∧ host = (if status then hostName else trim hostName) ∧
      ∀ R, (w.srv.execBan (executeTo env 1) ch info fd).Leaves R → R w'.srv := by
  unfold World.ban at hban
  split at hban
  · rename_i env
    obtain ⟨⟨x, line⟩, hcalled, hsays⟩ := Option.bind_eq_some_iff.mp hban
    obtain ⟨info, ch, hostName, hcall, hstatus, hname, hhost⟩ := Server.ban_eq_some hsays
    refine ⟨env, line, _, info, ch, hostName, hcall, hstatus, hname, hhost, fun R hR => ?_⟩
    obtain ⟨hspeaker, haccepts, hverb, hlogin⟩ := World.called_eq_some.mp hcalled
    obtain ⟨_, heq, hdone⟩ := hstep.called hcalled
    cases heq
    have hleaves : (handleLine env w.srv line (w.srv.memory x).fd).Leaves R := by
      rw [Server.handleLine_login env (oneLine_of_speaker htidy hspeaker) haccepts hverb (by decide)
        (Server.getClient_fd htidy.fds (mem_of_speaker hspeaker)) hlogin, leaves_catching]
      dsimp only [Server.dispatchLogin]
      rw [Server.execMode_eq hcall.call hcall.channel hcall.key hcall.operator, leaves_catching]
      exact hR
    rw [hdone, leaves_done] at hleaves
    exact hleaves
  · cases hban

/-- A step that says nothing about a ban leaves the lists. -/
theorem Stepped.bans_of_none (htidy : Tidy w) (hstep : Stepped w a w') (hban : w.ban a = none) :
    w'.srv.marks Channel.bans = w.srv.marks Channel.bans ∨
      ∃ name, w'.srv.marks Channel.bans =
        w.srv.marks Channel.bans ++ [(name, (Channel.new name).bans)] := by
  refine hstep.marks Channel.mark_bans htidy ?_ ?_
  · rintro env x line rfl hcalled
    simp only [World.ban, hcalled, Option.bind_some] at hban
    refine Server.execMode_marks Channel.mark_bans.settings htidy.named.distinct
      Channel.mark_bans.unled env fun info hcall hkey ch hch hop => ?_
    have hgood := htidy.named.good ch (Server.mem_of_getChannel hch)
    exact (Server.execBan_of_none (Server.executeTo_who_sends env 0 hgood) hban hcall hch hkey
      hop).imp fun _ h => h.marks
  · exact fun x line _ => Server.execInvite_marks htidy.named.distinct fun _ _ => rfl

/-- A `-b` takes a ban away, or finds none. -/
theorem Stepped.banEffect_of_remove (htidy : Tidy w) (hstep : Stepped w a w') {name host : Str}
    (hban : w.ban a = some (false, name, host)) : BanEffect w a w' := by
  obtain ⟨env, line, fd, info, ch, hostName, hcall, hstatus, rfl, rfl, hleaves⟩ :=
    hstep.banCalled htidy hban
  have hch := Server.mem_of_getChannel hcall.channel
  have hwho := Server.executeTo_who_sends env 0 (htidy.named.good ch hch)
  rcases hleaves _ (Server.execBan_remove hwho (by simp [hstatus]) hcall.mask) with
    hsends | hsends
  · refine .kept (Or.inl hsends.marks) fun _ _ h => ?_
    rw [hban] at h
    cases h
  · exact .pardoned hch hban hsends.channels

/-- A `+b` that takes bans the one member that has the host name, or finds the
ban. -/
theorem Stepped.banEffect_of_add (htidy : Tidy w) (hstep : Stepped w a w') (htakes : BanTakes w a)
    (hapart : w.srv.BansApart) {name host : Str} (hban : w.ban a = some (true, name, host)) :
    BanEffect w a w' := by
  obtain ⟨env, line, fd, info, ch, hostName, hcall, hstatus, rfl, hhost, hleaves⟩ :=
    hstep.banCalled htidy hban
  obtain rfl : host = hostName := by simpa using hhost
  have hfound := Server.getChannel_self hcall.channel
  have hch := Server.mem_of_getChannel hfound
  have hwho := Server.executeTo_who_sends env 0 (htidy.named.good ch hch)
  by_cases hbanned : ∃ p ∈ ch.bans, (w.srv.memory p).hostName = host
  · -- the members that have the host name are gone already
    obtain ⟨p, hp, hhost⟩ := hbanned
    have hnone : ch.getClients w.srv.memory host = [] :=
      List.filter_eq_nil_iff.mpr fun q hq hsame =>
        hapart ch hch p hp q hq ((of_decide_eq_true hsame).trans hhost.symm)
    have hsends := hleaves _ (Server.execBan_nobody hwho hcall.mask hstatus hnone)
    refine .kept (Or.inl hsends.marks) fun name host h => ?_
    rw [hban] at h
    cases h
    exact ⟨p, ⟨ch, hch, rfl, hp⟩, hhost⟩
  · obtain ⟨p, hp, hone⟩ := (htakes.1 _ hban rfl ch hfound).resolve_left hbanned
    obtain rfl : (w.srv.memory p).hostName = host :=
      (Server.mem_getClients (hone ▸ List.mem_singleton_self p)).2
    have hlist : info.parameters ≠ [] := fun h => hcall.notList ⟨hstatus, h⟩
    have hnew : ∀ q ∈ ch.bans, (w.srv.memory q).hostName ≠ (w.srv.memory p).hostName :=
      fun q hq hsame => hbanned ⟨q, hq, hsame⟩
    have hsends := hleaves _ (Server.execBan_one hfound hwho hcall.mask hstatus hlist hone hnew)
    exact .banned hch hp hban hone hsends.channels

/-- **Bans after a step.** -/
theorem Stepped.banEffect (htidy : Tidy w) (hstep : Stepped w a w') (htakes : BanTakes w a)
    (hapart : w.srv.BansApart) : BanEffect w a w' := by
  cases hban : w.ban a with
  | none =>
      refine .kept (hstep.bans_of_none htidy hban) fun _ _ h => ?_
      rw [hban] at h
      cases h
  | some said =>
      obtain ⟨status, name, host⟩ := said
      cases status with
      | false => exact hstep.banEffect_of_remove htidy hban
      | true => exact hstep.banEffect_of_add htidy htakes hapart hban

/-- No command changes the host name of a client. -/
theorem Server.recordAfter_hostName (s : Server) (message : Str) (c : Client) :
    (s.recordAfter message c).hostName = c.hostName := by
  unfold recordAfter
  split
  · split
    · dsimp only
      split <;> rfl
    · rfl
    · rfl
    · rfl
  · rfl

/-- A client keeps its host name for good. -/
theorem Records.hostName (h : Records w a w') {p : ClientPtr} (hp : p < w.srv.nextPtr) :
    (w'.srv.memory p).hostName = (w.srv.memory p).hostName := by
  by_cases hspeaks : ∃ line, w.speaker a = some (p, line)
  · obtain ⟨line, hspeaker⟩ := hspeaks
    rw [(h.own p line hspeaker).hostName, Server.recordAfter_hostName]
  · exact (h.others p (Or.inl hp) fun line hspeaker => hspeaks ⟨line, hspeaker⟩).hostName

/-- The host name stands banned from the channel: the last `MODE` with the letter
`b` that was executed for both has set the ban. -/
def Standing : Run.Trace World Action → Str → Str → Prop
  | [], _, _ => False
  | (w, a) :: earlier, name, host =>
      w.ban a = some (true, name, host) ∨
        (Standing earlier name host ∧ w.ban a ≠ some (false, name, host))

instance Standing.decidable : ∀ trace name host, Decidable (Standing trace name host)
  | [], _, _ => inferInstanceAs (Decidable False)
  | (_, _) :: earlier, name, host =>
      have : Decidable (Standing earlier name host) := Standing.decidable earlier name host
      inferInstanceAs (Decidable (_ ∨ _))

/-- The bans that stand hold.  The pointers they are kept as belong to connected
clients, so that none of the comparisons reads a client that was deleted. -/
structure BansHold (trace : Run.Trace World Action) (w : World) : Prop where
  members : ∀ name host, Standing trace name host →
    ∀ ch ∈ w.srv.channels, ch.name = name → ∀ p ∈ ch.clients, (w.srv.memory p).hostName ≠ host
  refused : ∀ name host, Standing trace name host →
    ∀ x ∈ w.srv.clients, (w.srv.memory x).hostName = host → ∀ env message, OneLine message →
      w.srv.Called .join message x → (Parser.parse message).function = name →
        ∃ text, handleLine env w.srv message (w.srv.memory x).fd =
          .done (w.srv.send (w.srv.memory x).fd text)
  connected : ∀ ch ∈ w.srv.channels, ∀ p ∈ ch.bans, p ∈ w.srv.clients

/-- What every step whose bans take keeps. -/
structure BansKept (trace : Run.Trace World Action) (w : World) : Prop where
  tidy : Tidy w
  members : ∀ ch ∈ w.srv.channels, ∀ p ∈ ch.clients, p < w.srv.nextPtr
  connected : ∀ ch ∈ w.srv.channels, ∀ p ∈ ch.bans, p ∈ w.srv.clients
  apart : w.srv.BansApart
  standing : ∀ name host, Standing trace name host →
    ∃ p, w.srv.Lists Channel.bans name p ∧ (w.srv.memory p).hostName = host

/-- Nobody is banned at the start. -/
theorem bansKept_start (h : Start w) : BansKept [] w := by
  refine ⟨tidy_start h, ?_, ?_, ?_, fun name host hstands => False.elim hstands⟩
  all_goals
    obtain ⟨password, createdDate, listener, keepsFd, rfl⟩ := h
    exact fun ch hch => by cases hch

/-- A change of bans removes nobody from the server. -/
theorem World.removes_of_ban {said : Bool × Str × Str} (h : w.ban a = some said) :
    w.removes a = none := by
  unfold World.ban at h
  split at h
  · obtain ⟨⟨x, line⟩, hcalled, -⟩ := Option.bind_eq_some_iff.mp h
    exact World.removes_of_called hcalled (by decide)
  · cases h

/-- A ban after a step was one before, or a connected client that the members of
the channel have no host name in common with. -/
theorem BanEffect.bans (h : BanEffect w a w') {ch' : Channel} (hch' : ch' ∈ w'.srv.channels)
    {p : ClientPtr} (hp : p ∈ ch'.bans) :
    w.srv.Lists Channel.bans ch'.name p ∨ p ∈ w.srv.clients ∧ w.removes a = none ∧
      ∀ q ∈ ch'.clients, (w.srv.memory q).hostName ≠ (w.srv.memory p).hostName := by
  have hlists : w'.srv.Lists Channel.bans ch'.name p := ⟨ch', hch', rfl, hp⟩
  cases h with
  | kept hmarks hset => exact Or.inl ((Server.lists_of_marks (fun _ => rfl) hmarks).mp hlists)
  | @pardoned ch host hch hban hchannels =>
      left
      rw [Server.lists_of_channels hchannels, Server.lists_putChannel hch (by rfl)] at hlists
      split at hlists
      · rename_i hname
        exact ⟨ch, hch, hname.symm, List.mem_of_mem_eraseP hlists⟩
      · exact hlists
  | @banned ch client hch hclient hban hone hchannels =>
      rw [hchannels] at hch'
      obtain ⟨old, hold, rfl⟩ := List.mem_map.mp hch'
      have hmember : client ∈ ch.clients :=
        (Server.mem_getClients (hone ▸ List.mem_singleton_self client)).1
      by_cases hsame : old.name = ({ ch with bans := ch.bans ++ [client] }.without client).name
      · rw [if_pos hsame] at hp ⊢
        unfold Channel.without at hp ⊢
        rw [if_pos hmember] at hp ⊢
        rcases List.mem_append.mp hp with hp | hp
        · exact Or.inl ⟨ch, hch, rfl, hp⟩
        · obtain rfl := List.mem_singleton.mp hp
          refine Or.inr ⟨hclient, World.removes_of_ban hban, fun q hq hhost => ?_⟩
          have hfound : q ∈ ch.getClients w.srv.memory (w.srv.memory p).hostName :=
            List.mem_filter.mpr ⟨List.mem_of_mem_erase hq, decide_eq_true hhost⟩
          rw [hone, List.mem_singleton] at hfound
          subst hfound
          -- the member is listed once, so it is gone
          have honce := congrArg (List.count q) hone
          rw [Channel.getClients, List.count_filter (by simp), List.count_singleton_self] at honce
          have hpos := List.count_pos_iff.mpr hq
          rw [List.count_erase_self, honce] at hpos
          exact lt_irrefl _ hpos
      · rw [if_neg hsame] at hp ⊢
        exact Or.inl ⟨old, hold, rfl, hp⟩

/-- A ban is still there after a step, unless a `-b` was for its host name. -/
theorem BanEffect.keeps (h : BanEffect w a w') {name : Str} {p : ClientPtr}
    (hp : w.srv.Lists Channel.bans name p)
    (hpardon : w.ban a ≠ some (false, name, (w.srv.memory p).hostName)) (htidy : Tidy w) :
    w'.srv.Lists Channel.bans name p := by
  cases h with
  | kept hmarks hset => exact (Server.lists_of_marks (fun _ => rfl) hmarks).mpr hp
  | @pardoned ch host hch hban hchannels =>
      rw [Server.lists_of_channels hchannels, Server.lists_putChannel hch (by rfl)]
      split
      · rename_i hname
        rw [hname, Server.lists_iff_mem htidy.named.distinct hch] at hp
        refine (List.mem_eraseP_of_neg ?_).mpr hp
        intro hhost
        exact hpardon (by rw [hban, hname, of_decide_eq_true hhost])
      · exact hp
  | @banned ch client hch hclient hban hone hchannels =>
      have hsame : ({ ch with bans := ch.bans ++ [client] }.without client).name = ch.name :=
        Channel.without_name _ _
      rw [Server.lists_of_channels hchannels, Server.lists_putChannel hch hsame]
      split
      · rename_i hname
        rw [hname, Server.lists_iff_mem htidy.named.distinct hch] at hp
        unfold Channel.without
        split <;> exact List.mem_append_left _ hp
      · exact hp

/-- A `+b` leaves a ban for its host name. -/
theorem BanEffect.sets (h : BanEffect w a w') {name host : Str}
    (hban : w.ban a = some (true, name, host)) :
    ∃ p, (w.srv.Lists Channel.bans name p ∨ p ∈ w.srv.clients) ∧
      w'.srv.Lists Channel.bans name p ∧ (w.srv.memory p).hostName = host := by
  cases h with
  | kept hmarks hset =>
      obtain ⟨p, hp, hhost⟩ := hset name host hban
      exact ⟨p, Or.inl hp, (Server.lists_of_marks (fun _ => rfl) hmarks).mpr hp, hhost⟩
  | @pardoned ch host hch hpardon hchannels =>
      rw [hban] at hpardon
      cases hpardon
  | @banned ch client hch hclient hset hone hchannels =>
      rw [hban] at hset
      cases hset
      have hsame : ({ ch with bans := ch.bans ++ [client] }.without client).name = ch.name :=
        Channel.without_name _ _
      refine ⟨client, Or.inr hclient, ?_, rfl⟩
      rw [Server.lists_of_channels hchannels, Server.lists_putChannel hch hsame, if_pos rfl]
      unfold Channel.without
      split <;> exact List.mem_append_right _ (List.mem_singleton_self client)

/-- **Steps whose bans take keep the bans.** -/
theorem BansKept.stepped {trace : Run.Trace World Action} (h : BansKept trace w)
    (htakes : BanTakes w a) (hstep : Stepped w a w') : BansKept ((w, a) :: trace) w' := by
  have hrecords := hstep.records h.tidy
  have heffect := hstep.banEffect h.tidy htakes h.apart
  have hlisted : ∀ {name p}, w.srv.Lists Channel.bans name p → p ∈ w.srv.clients := by
    rintro name p ⟨ch, hch, -, hp⟩
    exact h.connected ch hch p hp
  have hhost : ∀ {p}, p ∈ w.srv.clients → (w'.srv.memory p).hostName = (w.srv.memory p).hostName :=
    fun hp => hrecords.hostName (h.tidy.fresh _ hp)
  have hmember : ∀ ch' ∈ w'.srv.channels, ∀ p ∈ ch'.clients, p < w.srv.nextPtr := by
    intro ch' hch' p hp
    rcases hstep.members h.tidy hch' hp with ⟨ch, hch, hp⟩ | ⟨line, hspeaker, -⟩
    · exact h.members ch hch p hp
    · exact h.tidy.fresh p (mem_of_speaker hspeaker)
  refine ⟨h.tidy.stepped hstep, fun ch' hch' p hp => ?_, fun ch' hch' p hp => ?_,
    fun ch' hch' p hp q hq => ?_, fun name host hstands => ?_⟩
  · exact (hmember ch' hch' p hp).trans_le (nextPtr_step h.tidy hstep)
  · rcases heffect.bans hch' hp with ⟨ch, hch, -, hp⟩ | ⟨hclient, hnone, -⟩
    · refine hstep.stays h.tidy (h.connected ch hch p hp) fun removed hremoved heq => ?_
      exact htakes.2 removed hremoved ch hch (heq ▸ hp)
    · refine hstep.stays h.tidy hclient fun removed hremoved => ?_
      rw [hnone] at hremoved
      cases hremoved
  · rw [hrecords.hostName (hmember ch' hch' q hq)]
    rcases heffect.bans hch' hp with ⟨ch, hch, hname, hp⟩ | ⟨hclient, -, hothers⟩
    · rw [hhost (h.connected ch hch p hp)]
      by_cases hold : q ∈ ch.clients
      · exact h.apart ch hch p hp q hold
      · -- a client with the host name is not let in
        have hcount : ch.clients.count q < ch'.clients.count q := by
          rw [List.count_eq_zero_of_not_mem hold]
          exact List.count_pos_iff.mpr hq
        obtain ⟨line, -, -, hadmits⟩ := hstep.added h.tidy hch hch' hname.symm hcount
        exact Server.host_of_admits hadmits p hp
    · rw [hhost hclient]
      exact hothers q hq
  · rcases hstands with hset | ⟨hstands, hpardon⟩
    · obtain ⟨p, hlists, hp, rfl⟩ := heffect.sets hset
      exact ⟨p, hp, hhost (hlists.elim hlisted id)⟩
    · obtain ⟨p, hp, rfl⟩ := h.standing name host hstands
      exact ⟨p, heffect.keeps hp hpardon h.tidy, hhost (hlisted hp)⟩

/-- Bans that are kept hold. -/
theorem BansKept.hold {trace : Run.Trace World Action} (h : BansKept trace w) :
    BansHold trace w where
  members := by
    rintro name host hstands ch hch rfl q hq
    obtain ⟨p, hp, rfl⟩ := h.standing ch.name host hstands
    exact h.apart ch hch p ((Server.lists_iff_mem h.tidy.named.distinct hch).mp hp) q hq
  refused := by
    rintro name host hstands x hx hhost env message hline ⟨haccepts, hverb, hlogin⟩ hname
    obtain ⟨p, ⟨ch, hch, rfl, hp⟩, rfl⟩ := h.standing name host hstands
    have hclient := Server.getClient_fd h.tidy.fds hx
    have hfound : w.srv.getChannel (Parser.parse message).function = some ch := by
      rw [hname]
      exact Server.getChannel_of_mem h.tidy.named.distinct hch
    obtain ⟨e, text, hcaught, hattempt⟩ := Server.joinAttempt_refused hclient hfound
      fun hadmits => Server.host_of_admits hadmits p hp hhost
    refine ⟨text, ?_⟩
    rw [Server.handleLine_join env h.tidy.named.distinct hline haccepts hverb hclient hlogin,
      Server.execJoin_eq, hattempt, catching_thrown, if_pos hcaught]
  connected := h.connected

end FtIrc
