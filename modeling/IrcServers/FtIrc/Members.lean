import IrcServers.FtIrc.Dangling
import IrcServers.FtIrc.Joining
import IrcServers.FtIrc.Records

/-!
# Members are listed once

`Channel::addClient` does not look whether the client is a member already, as
the functions for operators, bans and invitations do.  A client that joins a
channel twice is listed twice, gets every message of the channel twice, and is
still a member after it has left once.  Nothing but such a `JOIN` leads there.
-/

namespace FtIrc

open Utils Outcome

namespace Server

variable {s s' s'' : Server} {ch : Channel} {x p : ClientPtr} {fd : Fd} {name message : Str}

/-- Every channel is one from before, without a new member. -/
def Thins (s s' : Server) : Prop := ∀ ch' ∈ s'.channels, ∃ ch ∈ s.channels, ch.Thins ch'

/-- The same channels have no new members. -/
theorem thins_of_channels (h : s'.channels = s.channels) : s.Thins s' :=
  fun ch hch => ⟨ch, h ▸ hch, .refl ch⟩

/-- Nor have channels that are all changed in such a way. -/
theorem thins_of_map {f : Channel → Channel} (h : s'.channels = s.channels.map f)
    (hf : ∀ ch : Channel, ch.Thins (f ch)) : s.Thins s' := by
  intro ch' hch'
  rw [h] at hch'
  obtain ⟨ch, hch, rfl⟩ := List.mem_map.mp hch'
  exact ⟨ch, hch, hf ch⟩

/-- Sending, and writing such a channel back, brings no new member. -/
theorem frame_thins (s : Server) : Frame (fun _ => True) s.Thins where
  sends h hs ch' hch' := by
    rw [show _ = _ from hs] at hch'
    exact h ch' hch'
  putChannel h hch _ hthins old hold := by
    obtain ⟨new, hnew, rfl⟩ := List.mem_map.mp hold
    split
    · obtain ⟨first, hfirst, hthins'⟩ := h _ hch
      exact ⟨first, hfirst, hthins'.trans hthins⟩
    · exact h new hnew

/-- `Client::login` changes no channel. -/
theorem login_channels (s : Server) (x : ClientPtr) :
    (s.login x).Leaves fun s' => s'.channels = s.channels :=
  .ite (fun _ => .ite (fun _ => leaves_done.mpr rfl) (fun _ => leaves_done.mpr rfl))
    (fun _ => leaves_thrown.mpr rfl)

/-- Nor does `NICK`. -/
theorem execNick_channels : (s.execNick message fd).Leaves fun s' => s'.channels = s.channels := by
  refine .require fun client _ => .ite (fun _ => leaves_done.mpr rfl) (fun _ => ?_)
  dsimp only
  generalize hs : (if (s.memory client).nickName ≠ "*".toList then _ else _ : Server) = told
  have htold : told.channels = s.channels := by
    rw [← hs]
    split <;> rfl
  exact .ite (fun _ => (login_channels _ client).imp fun _ h => h.trans htold)
    (fun _ => leaves_done.mpr htold)

/-- Nor does `PASS`. -/
theorem execPass_channels : (s.execPass message fd).Leaves fun s' => s'.channels = s.channels :=
  .require fun _ _ => leaves_done.mpr rfl

/-- The channels after a removal. -/
theorem thins_removeClient (s : Server) (fd : Fd) : s.Thins (s.removeClient fd) :=
  thins_of_map (s.channels_removeClient fd) fun ch => ch.thins_removeClient _

/-- `USER` may take its client off the channels. -/
theorem execUser_thins : (s.execUser message fd).Leaves s.Thins := by
  refine .require fun user _ => .require fun client _ => ?_
  have hlogin := login_channels (s.setClient client fun c =>
    { c with userName := user.1, realName := user.2 }) client
  split
  · rename_i s' hthrown
    rw [hthrown, leaves_thrown] at hlogin
    refine leaves_done.mpr fun ch' hch' => ?_
    obtain ⟨ch, hch, hthins⟩ := thins_removeClient s' fd ch' hch'
    exact ⟨ch, hlogin ▸ hch, hthins⟩
  · exact hlogin.imp fun _ h => thins_of_channels h

/-- `QUIT` does. -/
theorem execQuit_thins (hnamed : s.Named) : (s.execQuit message fd).Leaves s.Thins := by
  refine (execQuit_leaves hnamed message fd).imp fun s' h => ?_
  refine thins_of_map (h.2.channels.trans ((channels_removeClient _ fd).trans List.map_map))
    fun ch => ?_
  have hquit : ch.Thins (s.quitFrom fd ch) := by
    unfold quitFrom
    split
    · exact ch.thins_removeClient _
    · exact .refl ch
  exact hquit.trans (Channel.thins_removeClient _ _)

/-- A `JOIN` that `Command::execJoin` gets to see. -/
def JoinCalled (s : Server) (message : Str) (x : ClientPtr) : Prop :=
  Checker.accepts message = true ∧ verbOf (commandOf message) = .join ∧ (s.memory x).login = true

instance (s : Server) (message : Str) (x : ClientPtr) : Decidable (s.JoinCalled message x) :=
  inferInstanceAs (Decidable (_ ∧ _ ∧ _))

/-- No line but a `JOIN` makes anyone a member. -/
theorem handleLine_thins (env : Env) (hnamed : s.Named) (hline : OneLine message)
    (hjoin : ∀ x, s.getClient fd = some x → ¬ s.JoinCalled message x) :
    (handleLine env s message fd).Leaves s.Thins := by
  unfold handleLine
  rw [hline.executeTo, handle, leaves_catching]
  by_cases haccepts : Checker.accepts message = true
  · rw [check_of_accepts s fd haccepts, andThen_done]
    unfold dispatch
    cases hverb : verbOf (commandOf message) with
    | quit => exact execQuit_thins hnamed
    | user => exact execUser_thins
    | nick => exact execNick_channels.imp fun _ h => thins_of_channels h
    | pass => exact execPass_channels.imp fun _ h => thins_of_channels h
    | join =>
        refine .require fun client hc => .ite (fun hlogin => ?_) (fun _ => ?_)
        · exact (hjoin client hc ⟨haccepts, hverb, hlogin⟩).elim
        · exact leaves_done.mpr (thins_of_channels rfl)
    | privmsg | part | who | notice | mode | kick | invite | topic | whois | unknown =>
        refine .require fun client _ => .ite (fun _ => ?_) (fun _ => ?_)
        · exact (frame_thins s).dispatchLogin (thins_of_channels rfl) env hnamed
            (fun _ hname => executeTo_who_sends env 0 hname) (by decide) fun _ _ => trivial
        · exact leaves_done.mpr (thins_of_channels rfl)
  · rw [check_andThen_of_not_accepts s fd haccepts]
    exact (check_sends s message fd).imp fun _ h => (frame_thins s).sends (thins_of_channels rfl) h

/-- Every client is in the members of a channel at most once. -/
def MembersNodup (s : Server) : Prop := ∀ ch ∈ s.channels, ch.clients.Nodup

/-- Members that are listed once stay so when nobody joins. -/
theorem Thins.membersNodup (h : s.Thins s') (hnodup : s.MembersNodup) : s'.MembersNodup := by
  intro ch' hch'
  obtain ⟨ch, hch, hthins⟩ := h ch' hch'
  exact (hnodup ch hch).sublist hthins.clients

/-- A `JOIN` of a client that is a member already and that nothing keeps out. -/
def Rejoins (s : Server) (message : Str) (x : ClientPtr) : Prop :=
  s.JoinCalled message x ∧ ∃ ch ∈ s.getChannel (Parser.parse message).function,
    x ∈ ch.clients ∧ s.Admits ch x (Parser.parse message).value

instance (s : Server) (message : Str) (x : ClientPtr) : Decidable (s.Rejoins message x) :=
  inferInstanceAs (Decidable (_ ∧ _))

/-- Joining lists the members once more, unless it lists one twice. -/
theorem execJoin_membersNodup (hx : s.getClient fd = some x) (hnodup : s.MembersNodup)
    (hdone : s.execJoin message fd = .done s') :
    s'.MembersNodup ↔ ∀ ch ∈ s.getChannel (Parser.parse message).function,
      ¬ (x ∈ ch.clients ∧ s.Admits ch x (Parser.parse message).value) := by
  rw [execJoin_eq] at hdone
  cases hch : s.getChannel (Parser.parse message).function with
  | none =>
      obtain ⟨text, hattempt⟩ := joinAttempt_created hx hch
      rw [hattempt, catching_done] at hdone
      cases hdone
      refine iff_of_true (fun ch hmem => ?_) (fun ch hmem => by cases hmem)
      rcases List.mem_append.mp hmem with hmem | hmem
      · exact hnodup ch hmem
      · rw [List.mem_singleton.mp hmem]
        simp [Channel.pushClient, Channel.new]
  | some ch =>
      by_cases hadmits : s.Admits ch x (Parser.parse message).value
      · obtain ⟨messages, hattempt⟩ := joinAttempt_admitted hx hch hadmits
        rw [hattempt, catching_done] at hdone
        cases hdone
        have hpushed : ((ch.pushClient x).clients).Nodup ↔ x ∉ ch.clients := by
          simp only [Channel.pushClient]
          rw [List.nodup_append_comm, List.singleton_append, List.nodup_cons]
          exact and_iff_left (hnodup ch (mem_of_getChannel hch))
        constructor
        · intro hall found hfound hboth
          cases hfound
          have hname := name_of_getChannel hch
          have hput := getChannel_putChannel hch (show (ch.pushClient x).name = _ from hname)
          exact hpushed.mp (hall _ (mem_of_getChannel hput)) hboth.1
        · intro hnone old hold
          obtain ⟨new, hnew, rfl⟩ := List.mem_map.mp hold
          split
          · exact hpushed.mpr fun hmem => hnone ch rfl ⟨hmem, hadmits⟩
          · exact hnodup new hnew
      · obtain ⟨e, text, hcaught, hattempt⟩ := joinAttempt_refused hx hch hadmits
        rw [hattempt, catching_thrown, if_pos hcaught] at hdone
        cases hdone
        refine iff_of_true hnodup fun found hfound hboth => ?_
        cases hfound
        exact hadmits hboth.2

/-- **Members after a line.**  They are listed once, unless the line made a
member join. -/
theorem handleLine_membersNodup (env : Env) (hnamed : s.Named) (hline : OneLine message)
    (hnodup : s.MembersNodup) (hdone : handleLine env s message fd = .done s') :
    s'.MembersNodup ↔ ∀ x ∈ s.getClient fd, ¬ s.Rejoins message x := by
  by_cases hjoin : ∃ x, s.getClient fd = some x ∧ s.JoinCalled message x
  · obtain ⟨x, hx, hcalled⟩ := hjoin
    rw [handleLine_join env hnamed.distinct hline hcalled.1 hcalled.2.1 hx hcalled.2.2] at hdone
    rw [execJoin_membersNodup hx hnodup hdone, hx]
    constructor
    · intro hall y hy hrejoins
      cases hy
      obtain ⟨-, ch, hch, hboth⟩ := hrejoins
      exact hall ch hch hboth
    · intro hall ch hch hboth
      exact hall x rfl ⟨hcalled, ch, hch, hboth⟩
  · have hthins : s.Thins s' := by
      have hleaves : (handleLine env s message fd).Leaves s.Thins :=
        handleLine_thins env hnamed hline fun x hx hcalled => hjoin ⟨x, hx, hcalled⟩
      rw [hdone] at hleaves
      exact leaves_done.mp hleaves
    exact iff_of_true (hthins.membersNodup hnodup) fun x hx hrejoins =>
      hjoin ⟨x, hx, hrejoins.1⟩

end Server

/-- The line that a step handles does not make a member join once more. -/
def JoinsOnce (w : World) (a : Action) : Prop :=
  ∀ said ∈ w.speaker a, ¬ w.srv.Rejoins said.2 said.1

instance (w : World) (a : Action) : Decidable (JoinsOnce w a) :=
  inferInstanceAs (Decidable (∀ said ∈ w.speaker a, _))

variable {w w' : World} {a : Action}

/-- From a state in which members are listed once, a step leads to such a state
just when it makes no member join once more. -/
theorem membersNodup_step (htidy : Tidy w) (hnodup : w.srv.MembersNodup)
    (hstep : Stepped w a w') : w'.srv.MembersNodup ↔ JoinsOnce w a := by
  have hquiet : ∀ {w' : World} {a : Action}, w.speaker a = none → w.srv.Thins w'.srv →
      (w'.srv.MembersNodup ↔ JoinsOnce w a) := by
    intro w' a hnone hthins
    refine iff_of_true (hthins.membersNodup hnodup) fun said hsaid => ?_
    rw [hnone] at hsaid
    cases hsaid
  cases hstep with
  | gather hidle => exact hquiet rfl (Server.thins_of_channels rfl)
  | accept hphase hlistener hnew => exact hquiet rfl (Server.thins_of_channels rfl)
  | @read fd message hphase hidle hpolled hclient =>
      refine hquiet rfl ?_
      unfold World.read
      dsimp only
      split
      · exact Server.thins_removeClient _ _
      · exact Server.thins_of_channels rfl
  | readFails hphase hidle => exact hquiet rfl (Server.thins_of_channels rfl)
  | @line env fd line lines s hpending hdone =>
      have hline := htidy.lines fd _ hpending line List.mem_cons_self
      have hspeaker : w.speaker (.line env) =
          (w.srv.getClient fd).map fun p => (p, line) := by
        simp only [World.speaker, hpending]
      rw [Server.handleLine_membersNodup env htidy.named hline hnodup hdone, JoinsOnce, hspeaker]
      constructor
      · intro hall said hsaid
        obtain ⟨x, hx, rfl⟩ := Option.map_eq_some_iff.mp hsaid
        exact hall x hx
      · intro hall x hx
        exact hall (x, line) (Option.map_eq_some_iff.mpr ⟨x, hx, rfl⟩)

namespace Server

variable {s s' : Server} {ch : Channel} {x p : ClientPtr} {fd : Fd} {message : Str}

/-- **Channels after a line.**  A channel is one from before without a new
member, or has the client of a `JOIN` added. -/
theorem handleLine_channels (env : Env) (hnamed : s.Named) (hline : OneLine message)
    (hdone : handleLine env s message fd = .done s') {ch' : Channel} (hch' : ch' ∈ s'.channels) :
    (∃ ch ∈ s.channels, ch.Thins ch') ∨ ∃ x, s.getClient fd = some x ∧ s.JoinCalled message x ∧
      ∃ ch, ch' = ch.pushClient x ∧
        (ch ∈ s.channels ∨ ch = Channel.new (Parser.parse message).function) := by
  by_cases hjoin : ∃ x, s.getClient fd = some x ∧ s.JoinCalled message x
  · obtain ⟨x, hx, hcalled⟩ := hjoin
    rw [handleLine_join env hnamed.distinct hline hcalled.1 hcalled.2.1 hx hcalled.2.2,
      execJoin_eq] at hdone
    rcases joinAttempt_cases hnamed.distinct hx message with ⟨e, text, hcaught, h⟩ | ⟨_, h, hjoins⟩
    · rw [h, catching_thrown, if_pos hcaught] at hdone
      cases hdone
      exact Or.inl ⟨ch', hch', .refl ch'⟩
    · rw [h, catching_done] at hdone
      cases hdone
      rcases hjoins.channels with ⟨pre, ch, post, hsplit, -, hafter⟩ | ⟨-, hafter⟩
      · rw [hafter] at hch'
        rcases List.mem_append.mp hch' with hmem | hmem
        · exact Or.inl ⟨ch', by simp [hsplit, hmem], .refl ch'⟩
        · rcases List.mem_cons.mp hmem with rfl | hmem
          · exact Or.inr ⟨x, hx, hcalled, ch, (pushClient_eq ch x).symm, Or.inl (by simp [hsplit])⟩
          · exact Or.inl ⟨ch', by simp [hsplit, hmem], .refl ch'⟩
      · rw [hafter] at hch'
        rcases List.mem_append.mp hch' with hmem | hmem
        · exact Or.inl ⟨ch', hmem, .refl ch'⟩
        · refine Or.inr ⟨x, hx, hcalled, Channel.new (Parser.parse message).function, ?_,
            Or.inr rfl⟩
          rw [List.mem_singleton.mp hmem, pushClient_eq]
          rfl
  · have hleaves : (handleLine env s message fd).Leaves s.Thins :=
      handleLine_thins env hnamed hline fun x hx hcalled => hjoin ⟨x, hx, hcalled⟩
    rw [hdone, leaves_done] at hleaves
    exact Or.inl (hleaves ch' hch')

end Server

/-- **Channels after a step.** -/
theorem Stepped.channels (htidy : Tidy w) (hstep : Stepped w a w') {ch' : Channel}
    (hch' : ch' ∈ w'.srv.channels) :
    (∃ ch ∈ w.srv.channels, ch.Thins ch') ∨
      ∃ x line, w.speaker a = some (x, line) ∧ w.srv.JoinCalled line x ∧
        ∃ ch, ch' = ch.pushClient x ∧
          (ch ∈ w.srv.channels ∨ ch = Channel.new (Parser.parse line).function) := by
  cases hstep with
  | gather hidle => exact Or.inl ⟨ch', hch', .refl ch'⟩
  | accept hphase hlistener hnew => exact Or.inl ⟨ch', hch', .refl ch'⟩
  | @read fd message hphase hidle hpolled hclient =>
      unfold World.read at hch'
      dsimp only at hch'
      split at hch'
      · exact Or.inl (Server.thins_removeClient _ _ ch' hch')
      · exact Or.inl ⟨ch', hch', .refl ch'⟩
  | readFails hphase hidle => exact Or.inl ⟨ch', hch', .refl ch'⟩
  | @line env fd line lines s hpending hdone =>
      have hline := htidy.lines fd _ hpending line List.mem_cons_self
      refine (Server.handleLine_channels env htidy.named hline hdone hch').imp_right fun h => ?_
      obtain ⟨x, hx, hcalled, hpushed⟩ := h
      refine ⟨x, line, ?_, hcalled, hpushed⟩
      simp only [World.speaker, hpending, hx, Option.map_some]

/-- **Who becomes a member.**  Only a logged-in client, by its own `JOIN`. -/
theorem Stepped.members (htidy : Tidy w) (hstep : Stepped w a w') {ch' : Channel}
    (hch' : ch' ∈ w'.srv.channels) {p : ClientPtr} (hp : p ∈ ch'.clients) :
    (∃ ch ∈ w.srv.channels, p ∈ ch.clients) ∨
      ∃ line, w.speaker a = some (p, line) ∧ w.srv.JoinCalled line p := by
  rcases hstep.channels htidy hch' with ⟨ch, hch, hthins⟩ |
    ⟨x, line, hspeaker, hcalled, ch, rfl, hch⟩
  · exact Or.inl ⟨ch, hch, hthins.clients.subset hp⟩
  · rcases List.mem_append.mp hp with hp | hp
    · rcases hch with hch | rfl
      · exact Or.inl ⟨ch, hch, hp⟩
      · cases hp
    · rw [List.mem_singleton.mp hp]
      exact Or.inr ⟨line, hspeaker, hcalled⟩

/-- An entry of a client listed once outlasts the removal only where the memory
overwrites the descriptor: a kept one would have had the entry dropped. -/
theorem Server.leftFd_of_outlasting {s : Server} {ch : Channel} {p : ClientPtr} {k : Nat}
    (hnodup : ch.clients.Nodup) (hp : p ∈ (ch.dropping p (s.entriesDropped p k)).clients) :
    s.leftFd p = noFd := by
  have hcount := Channel.count_dropping p (s.entriesDropped p k) ch
  have honce := List.nodup_iff_count_le_one.mp hnodup p
  have hpos := List.count_pos_iff.mpr hp
  have hover : s.keepsFd p = false := by
    by_contra hkept
    rw [Server.entriesDropped, if_pos (by simpa using hkept)] at hcount hpos
    omega
  rw [Server.leftFd, hover]
  rfl

/-- As long as members are listed once, those who are deleted are listed only with
their descriptors overwritten. -/
theorem membersTraced_step (htidy : Tidy w) (htraced : Traced w) (hnodup : w.srv.MembersNodup)
    (hmembers : w.srv.MembersTraced) (hstep : Stepped w a w') : w'.srv.MembersTraced := by
  have hold : ∀ ch' ∈ w'.srv.channels, ∀ p ∈ ch'.clients,
      p ∈ w.srv.clients ∨ p < w.srv.nextPtr ∧ (w.srv.memory p).fd = noFd := by
    intro ch' hch' p hp
    rcases hstep.members htidy hch' hp with ⟨ch, hch, hp⟩ | ⟨line, hspeaker, -⟩
    · exact (hmembers ch hch p hp).imp_right fun hfd => ⟨htraced.fresh p ⟨ch, hch, Or.inl hp⟩, hfd⟩
    · exact Or.inl (mem_of_speaker hspeaker)
  rcases hstep.accept_or_handled htidy with ⟨fd, hostName, rfl, rfl⟩ | hhandled
  · intro ch' hch' p hp
    refine (hold ch' hch' p hp).imp (List.mem_append_left _) fun hleft => ?_
    rw [Server.addClient_memory hleft.1]
    exact hleft.2
  · have hin : ∀ client k, w.removes a = some (client, k) → client ∈ w.srv.clients :=
      fun client k hremoves => (removes_some hremoves).1
    intro ch' hch' p hp
    rcases hold ch' hch' p hp with hclient | ⟨hfresh, hfd⟩
    · by_cases hremoved : ∃ k, w.removes a = some (p, k)
      · obtain ⟨k, hremoves⟩ := hremoved
        have hk := (removes_some hremoves).2
        refine (hhandled.connected_or_left htidy.fds hin hclient).imp_right fun hleft => ?_
        rw [hremoves] at hhandled
        rw [hhandled.2.channels, Server.parted_channels htidy.fds hmembers hclient
          (htidy.valid p hclient) hk] at hch'
        obtain ⟨ch, hch, rfl⟩ := List.mem_map.mp hch'
        exact hleft.trans (Server.leftFd_of_outlasting (hnodup ch hch) hp)
      · refine Or.inl (hstep.stays htidy hclient fun removed hremoves heq => hremoved ?_)
        exact ⟨removed.2, heq ▸ hremoves⟩
    · by_cases hclient : p ∈ w.srv.clients
      · exact absurd (htidy.valid p hclient) (by rw [hfd]; decide)
      · refine Or.inr ((hhandled.kept_fd htidy.fds hin fun k hremoves => ?_).trans hfd)
        exact hclient (hin p k hremoves)

namespace Server

variable {s : Server} {ch : Channel} {x p : ClientPtr} {fd : Fd} {message : Str}

/-- The messages with the same text to all members but one. -/
def tellOthers (s : Server) (ch : Channel) (x : ClientPtr) (text : Str) : List (Fd × Str) :=
  (ch.clients.filter (· ≠ x)).map fun p => ((s.memory p).fd, text)

/-- What follows when members are listed once: no other member has the descriptor
of a connected one, a channel message goes once to every other member, and a
client that has left is no member. -/
structure MembersOnce (s : Server) : Prop where
  once : ∀ ch ∈ s.channels, ch.clients.Nodup
  delivered : ∀ x ∈ s.clients, ∀ message info ch, Parser.privateMessage message = some info →
    s.getClientByNickName info.target = none → s.getChannel info.target = some ch →
      (∀ p ∈ ch.clients, ∀ q ∈ s.clients, (s.memory p).fd = (s.memory q).fd → p = q) ∧
      (∃ text, s.execPrivMsg message (s.memory x).fd = .done (s.sendAll (s.tellOthers ch x text))) ∧
      ∃ text, s.execNotice message (s.memory x).fd = .done (s.sendAll (s.tellOthers ch x text))
  parted : ∀ x ∈ s.clients, ∀ message ch,
    s.getChannel (Parser.parse message).function = some ch →
      ∃ s' ch', s.execPart message (s.memory x).fd = .done s' ∧
        s'.getChannel ch.name = some ch' ∧ x ∉ ch'.clients
  kicked : ∀ x ∈ s.clients, ∀ message info reason ch target,
    kickParse message = some (info, reason) → s.getChannel info.function = some ch →
      (ch.getOperator s.memory (s.memory x).fd).isSome →
        ch.getClientByNickName s.memory info.value = some target →
          ∃ s' ch', s.execKick message (s.memory x).fd = .done s' ∧
            s'.getChannel ch.name = some ch' ∧ target ∉ ch'.clients

/-- A member that was listed once is none after its departure. -/
theorem not_mem_without (h : ch.clients.Nodup) (p : ClientPtr) : p ∉ (ch.without p).clients := by
  unfold Channel.without
  split
  · exact h.not_mem_erase
  · assumption

/-- The descriptors other than that of `x` are those of the other members. -/
theorem others_of_members (hself : ∀ p ∈ ch.clients, (s.memory p).fd = (s.memory x).fd → p = x)
    (text : Str) :
    (((s.fdsOf ch.clients).filter (· ≠ (s.memory x).fd)).map fun fd => (fd, text)) =
      s.tellOthers ch x text := by
  have hfilter : (s.fdsOf ch.clients).filter (· ≠ (s.memory x).fd) =
      s.fdsOf (ch.clients.filter (· ≠ x)) := by
    unfold fdsOf
    rw [List.filter_map]
    congr 1
    apply List.filter_congr
    intro p hp
    have hiff : (s.memory p).fd = (s.memory x).fd ↔ p = x :=
      ⟨hself p hp, fun heq => by rw [heq]⟩
    simp [hiff]
  rw [hfilter]
  simp only [fdsOf, tellOthers, List.map_map]
  rfl

/-- A text for a channel goes to every member with another descriptor, so to everybody
but its sender. -/
theorem relay_others (hself : ∀ p ∈ ch.clients, (s.memory p).fd = (s.memory x).fd → p = x)
    {target : Str}
    (hnick : s.getClientByNickName target = none) (hchannel : s.getChannel target = some ch)
    (text : Str) (toSelf : Bool) :
    s.relay (s.memory x).fd target text toSelf = s.sendAll (s.tellOthers ch x text) := by
  unfold relay
  rw [hnick, hchannel]
  dsimp only
  rw [others_of_members hself]

/-- Members that are listed once are told once, and leave for good. -/
theorem membersOnce_of_nodup (hfds : (s.fdsOf s.clients).Nodup)
    (hvalid : ∀ p ∈ s.clients, 0 ≤ (s.memory p).fd) (hnodup : s.MembersNodup)
    (hmembers : s.MembersTraced) : s.MembersOnce where
  once := hnodup
  delivered := by
    intro x hx message info ch hinfo hnick hchannel
    have hmem := mem_of_getChannel hchannel
    have hclient := getClient_fd hfds hx
    have hself : ∀ p ∈ ch.clients, ∀ q ∈ s.clients, (s.memory p).fd = (s.memory q).fd → p = q :=
      fun p hp q hq => hmembers.eq_of_fd hfds hq (hvalid q hq) hmem hp
    refine ⟨hself, ?_, ?_⟩
    · unfold execPrivMsg
      rw [hclient, hinfo, require_some, require_some,
        relay_others (fun p hp => hself p hp x hx) hnick hchannel]
      exact ⟨_, rfl⟩
    · unfold execNotice
      rw [hclient, hinfo, require_some, require_some,
        relay_others (fun p hp => hself p hp x hx) hnick hchannel]
      exact ⟨_, rfl⟩
  parted := by
    intro x hx message ch hch
    unfold execPart
    rw [getClient_fd hfds hx, require_some]
    dsimp only
    rw [hch]
    have hname := (ch.thins_without x).name.trans (name_of_getChannel hch)
    refine ⟨_, ch.without x, rfl, ?_, not_mem_without (hnodup ch (mem_of_getChannel hch)) x⟩
    rw [Channel.removeClient_some, name_of_getChannel hch]
    exact getChannel_putChannel hch hname
  kicked := by
    intro x hx message info reason ch target hparse hch hoperator htarget
    unfold execKick
    rw [hparse, require_some]
    dsimp only
    rw [hch, require_some, if_neg (Channel.passes_guard_iff.mpr hoperator), htarget]
    have hname := (ch.thins_without target).name.trans (name_of_getChannel hch)
    refine ⟨_, ch.without target, rfl, ?_,
      not_mem_without (hnodup ch (mem_of_getChannel hch)) target⟩
    rw [Channel.removeClient_some, name_of_getChannel hch]
    exact getChannel_putChannel hch hname

end Server

/-- There are no members at the start. -/
theorem members_start (h : Start w) : w.srv.MembersNodup ∧ w.srv.MembersTraced := by
  obtain ⟨password, createdDate, listener, keepsFd, rfl⟩ := h
  refine ⟨?_, ?_⟩ <;> exact fun ch hch => by cases hch

/-- The members of channels are listed once, and those who are deleted have their
descriptors overwritten. -/
structure Rostered (w : World) : Prop where
  tidy : Tidy w
  held : Traced w
  nodup : w.srv.MembersNodup
  members : w.srv.MembersTraced

/-- The members are in order at the start. -/
theorem rostered_start (h : Start w) : Rostered w :=
  ⟨tidy_start h, traced_start h, (members_start h).1, (members_start h).2⟩

/-- They stay in order when nobody joins twice. -/
theorem Rostered.stepped (h : Rostered w) (honce : JoinsOnce w a) (hstep : Stepped w a w') :
    Rostered w' where
  tidy := h.tidy.stepped hstep
  held := h.held.stepped h.tidy hstep
  nodup := (membersNodup_step h.tidy h.nodup hstep).mpr honce
  members := membersTraced_step h.tidy h.held h.nodup h.members hstep

/-- They are in order in every state of such a run. -/
theorem rostered {trace : Run.Trace World Action} (run : Steps trace w)
    (honce : Run.Meets JoinsOnce trace) : Rostered w :=
  run.invariant_of_meets Rostered (fun _ => rostered_start)
    (fun _ _ _ h hcond hstep => h.stepped hcond (stepped_of_step hstep)) honce

/-- Then a message goes to each of them once. -/
theorem Rostered.once (h : Rostered w) : w.srv.MembersOnce :=
  Server.membersOnce_of_nodup h.tidy.fds h.tidy.valid h.nodup h.members

/-- **Members are listed once.**  In every state of a run every client is a
member of every channel at most once, with what follows from it for channel
messages and departures, if and only if no step of the run makes a member join
once more. -/
theorem members_once_iff {trace : Run.Trace World Action} (run : Steps trace w) :
    Run.Throughout (fun w => w.srv.MembersOnce) trace w ↔ Run.Meets JoinsOnce trace := by
  have hkeep : ∀ w a w', Tidy w → step w a = some w' → Tidy w' :=
    fun _ _ _ htidy hstep => htidy.stepped (stepped_of_step hstep)
  have hexact : ∀ w a w', Tidy w → w.srv.MembersNodup → step w a = some w' →
      (w'.srv.MembersNodup ↔ JoinsOnce w a) :=
    fun _ _ _ htidy hnodup hstep => membersNodup_step htidy hnodup (stepped_of_step hstep)
  have hiff := run.throughout_iff_meets Tidy (fun w => w.srv.MembersNodup) (fun _ => tidy_start)
    hkeep (fun w hstart => (members_start hstart).1) hexact
  constructor
  · intro h
    exact hiff.mp ⟨h.1.once, fun entry hmem => (h.2 entry hmem).once⟩
  · intro hmeets
    have hall := run.throughout_of_meets Rostered (fun _ => rostered_start)
      (fun _ _ _ h hcond hstep => h.stepped hcond (stepped_of_step hstep)) hmeets
    exact ⟨hall.1.once, fun entry hmem => (hall.2 entry hmem).once⟩

/-- A run that meets the condition: a client joins a channel, leaves and joins
again. -/
theorem members_once_iff_again : ∃ trace w, Steps trace w ∧
    w.srv.channels.map Channel.clients = [[0]] ∧
    Run.Throughout (fun w => w.srv.MembersOnce) trace w := by
  obtain ⟨trace, w, run, hmeets, htest⟩ := Run.exists_steps_meeting step JoinsOnce start_pw
    ([.gather, .accept 5 "h".toList, .gather] ++
      packet 5 ["PASS pw", "NICK a", "USER a a a :n", "JOIN #c", "PART #c :x", "JOIN #c"])
    (fun w => w.srv.channels.map Channel.clients = [[0]]) (by decide +kernel)
  exact ⟨trace, w, run, of_decide_eq_true htest, (members_once_iff run).mpr hmeets⟩

/-- A client that joins `#c` twice is listed twice. -/
theorem joined_twice : ¬ ∀ trace w, Steps trace w → w.srv.MembersOnce := by
  intro hall
  obtain ⟨trace, w, run, htest⟩ := Run.exists_steps_of_perform step start_pw
    ([.gather, .accept 5 "h".toList, .gather] ++
      packet 5 ["PASS pw", "NICK a", "USER a a a :n", "JOIN #c", "JOIN #c"])
    (fun w => w.srv.channels.map Channel.clients = [[0, 0]]) (by decide +kernel)
  obtain ⟨ch, hch, hclients⟩ :=
    List.mem_map.mp (of_decide_eq_true htest ▸ List.mem_singleton_self [0, 0])
  have hnodup := (hall trace w run).once ch hch
  rw [hclients] at hnodup
  exact absurd hnodup (by decide)

end FtIrc
