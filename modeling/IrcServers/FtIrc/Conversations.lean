import IrcServers.FtIrc.Marks
import IrcServers.Hub

/-!
# What is said on a channel

A channel of this server is a hub as well.  Both `PRIVMSG` and `NOTICE` pass a text on
to the members but the sender, whether the sender is a member or not.  A nickname comes
first, though: when a client has the channel's name for its nickname, the text is that
client's alone.
-/

namespace FtIrc

open Outcome

/-- The descriptors of those on a channel.  Deleted clients that are still listed
have none. -/
def World.audience (w : World) (name : Str) : List Fd :=
  ((w.srv.getChannel name).map fun ch =>
    (w.srv.fdsOf ch.clients).filter fun fd => fd ≠ noFd).getD []

namespace Server

/-- The text that `PRIVMSG` relays. -/
def privmsgText (s : Server) (x : ClientPtr) (info : ReciveMessage) : Str :=
  ":".toList ++ (s.memory x).nickName ++ " PRIVMSG ".toList ++ info.target ++ " :".toList ++
    info.message ++ crlf

/-- The text that `NOTICE` relays. -/
def noticeText (s : Server) (x : ClientPtr) (info : ReciveMessage) : Str :=
  (s.memory x).source ++ "0 NOTICE ".toList ++ info.target ++ " :".toList ++ info.message ++ crlf

/-- What a line says on a channel. -/
def saying (s : Server) (name : Str) (x : ClientPtr) (line : Str) : Option Str :=
  (Parser.privateMessage line).bind fun info =>
    if info.target = name ∧ (s.getClientByNickName name).isNone then
      if s.Called .privmsg line x then some (s.privmsgText x info)
      else if s.Called .notice line x then some (s.noticeText x info)
      else none
    else none

end Server

/-- What is said on a channel in a step, and on which descriptor. -/
def spoken (name : Str) (w : World) (a : Action) : List (Fd × Str) :=
  match w.speaker a with
  | some (x, line) =>
      ((w.srv.saying name x line).map fun text => ((w.srv.memory x).fd, text)).toList
  | none => []

/-- What a step in which something is said on a channel sends to descriptors. -/
def copies (name : Str) (w : World) (a : Action) : List (Fd × Str) :=
  match spoken name w a, step w a with
  | _ :: _, some next => (next.srv.sent.drop w.srv.sent.length).filter fun m => m.1 ≠ noFd
  | _, _ => []

namespace Server

variable {s s' : Server} {x : ClientPtr} {fd : Fd} {name line text : Str}

/-- A line that says something on a channel sends it to the other members. -/
theorem handleLine_saying (env : Env) (hline : OneLine line) (hx : s.getClient fd = some x)
    (hsaying : s.saying name x line = some text) (hdone : handleLine env s line fd = .done s') :
    s'.sent = s.sent ++
      ((((s.getChannel name).map fun ch => s.fdsOf ch.clients).getD []).filter
        fun target => target ≠ fd).map fun target => (target, text) := by
  have hrelay : ∀ toSelf, s.getClientByNickName name = none → (s.relay fd name text toSelf).sent =
      s.sent ++ ((((s.getChannel name).map fun ch => s.fdsOf ch.clients).getD []).filter
        fun target => target ≠ fd).map fun target => (target, text) := by
    intro toSelf hnick
    unfold relay
    rw [hnick]
    cases s.getChannel name with
    | none => simp
    | some ch => rfl
  obtain ⟨info, hinfo, htext⟩ := Option.bind_eq_some_iff.mp hsaying
  split at htext
  · rename_i htarget
    obtain ⟨rfl, hnick⟩ := htarget
    have hnick := Option.isNone_iff_eq_none.mp hnick
    split at htext
    · rename_i hcalled
      obtain ⟨haccepts, hverb, hlogin⟩ := hcalled
      cases htext
      rw [handleLine_login env hline haccepts hverb (by decide) hx hlogin] at hdone
      simp only [dispatchLogin, execPrivMsg, hx, hinfo, require_some, catching_done] at hdone
      cases hdone
      exact hrelay true hnick
    · split at htext
      · rename_i hcalled
        obtain ⟨haccepts, hverb, hlogin⟩ := hcalled
        cases htext
        rw [handleLine_login env hline haccepts hverb (by decide) hx hlogin] at hdone
        simp only [dispatchLogin, execNotice, hx, hinfo, require_some, catching_done] at hdone
        cases hdone
        exact hrelay false hnick
      · cases htext
  · cases htext

end Server

section Runs

variable {past trace : Run.Trace World Action} {first w w' : World} {a : Action}

/-- Those on a channel have different descriptors. -/
theorem Rostered.audience_nodup (h : Rostered w) (name : Str) : (w.audience name).Nodup := by
  unfold World.audience
  cases hch : w.srv.getChannel name with
  | none => exact List.nodup_nil
  | some ch =>
      have hmem := Server.mem_of_getChannel hch
      -- whoever has a descriptor is connected
      have hclient : ∀ p ∈ ch.clients.filter fun p => (w.srv.memory p).fd ≠ noFd,
          p ∈ w.srv.clients := fun p hp =>
        (h.members ch hmem p (List.mem_of_mem_filter hp)).resolve_right
          (by simpa using List.of_mem_filter hp)
      have hfds : (w.srv.fdsOf ch.clients).filter (fun fd => fd ≠ noFd) =
          w.srv.fdsOf (ch.clients.filter fun p => (w.srv.memory p).fd ≠ noFd) := List.filter_map
      show ((w.srv.fdsOf ch.clients).filter fun fd => fd ≠ noFd).Nodup
      rw [hfds]
      refine List.Nodup.map_on (fun p hp q hq heq => ?_) ((h.nodup ch hmem).filter _)
      exact Server.eq_of_fd h.tidy.fds (hclient p hp) (hclient q hq) heq

/-- **One step.**  What a step sends of a channel is what is said there, to the others. -/
theorem Rostered.copies_eq (h : Rostered w) (hstep : step w a = some w') (name : Str) :
    copies name w a = (spoken name w a).flatMap fun m =>
      ((w.audience name).filter fun fd => fd ≠ m.1).map fun fd => (fd, m.2) := by
  cases hspeaker : w.speaker a with
  | none => simp [copies, spoken, hspeaker]
  | some said =>
      obtain ⟨x, line⟩ := said
      cases hsaying : w.srv.saying name x line with
      | none => simp [copies, spoken, hspeaker, hsaying]
      | some text =>
          have hspoken : spoken name w a = [((w.srv.memory x).fd, text)] := by
            simp [spoken, hspeaker, hsaying]
          cases stepped_of_step hstep with
          | @line env fd line' lines s hpending hdone =>
              simp only [World.speaker, hpending] at hspeaker
              obtain ⟨x', hx, heq⟩ := Option.map_eq_some_iff.mp hspeaker
              cases heq
              have hline := h.tidy.lines fd _ hpending line List.mem_cons_self
              have hsent := Server.handleLine_saying env hline hx hsaying hdone
              rw [copies, hspoken, hstep]
              dsimp only
              rw [hsent, List.drop_left, List.flatMap_singleton, Server.fd_of_getClient hx,
                List.filter_map]
              unfold World.audience
              cases hch : w.srv.getChannel name with
              | none => rfl
              | some ch =>
                  refine congrArg _ ?_
                  exact List.filter_comm _ _ _
          | gather | accept | read | readFails => cases hspeaker

/-- The server passes on what is said on a channel. -/
theorem passes (name : Str) : Hub.Passes (Run.guarded step JoinsOnce)
    (Run.Reachable (Run.guarded step JoinsOnce) Start)
    (Hub.stepEvents (Run.guarded step JoinsOnce) (fun w => w.audience name) (spoken name))
    (fun w => {fd | fd ∈ w.audience name}) (copies name) := by
  have hrostered : ∀ w, Run.Reachable (Run.guarded step JoinsOnce) Start w → Rostered w := by
    rintro w ⟨trace, run⟩
    exact rostered run.of_guarded.1 run.of_guarded.2
  refine .of_parties ?_ (fun w hw => (hrostered w hw).audience_nodup name) ?_
  · rintro w a next ⟨trace, run⟩ hstep
    exact ⟨_, run.cons hstep⟩
  · intro w a next hw hstep
    exact (hrostered w hw).copies_eq (Run.guarded_eq_some.mp hstep).2 name

/-- **Channels.**  Take a run in which no member joins a channel once more.  While a
client is on a channel it is sent all that the others say there, each message once, in
order, and nothing else of what is written to the channel; while it is not, it is sent
nothing of it. -/
theorem members_hear_channel (run : Steps past first)
    (more : Run.Steps step (· = first) trace w) (honce : Run.Meets JoinsOnce (trace ++ past))
    (name : Str) (fd : Fd) :
    (Run.Throughout (fun w => fd ∈ w.audience name) trace w →
      Hub.handedTo (Run.eventsOf (copies name) trace) fd =
        ((Run.eventsOf (spoken name) trace).filter fun m => m.1 ≠ fd).map Prod.snd) ∧
    (Run.Throughout (fun w => fd ∉ w.audience name) trace w →
      Hub.handedTo (Run.eventsOf (copies name) trace) fd = []) := by
  have hpast : Run.Meets JoinsOnce past := fun entry hmem =>
    honce entry (List.mem_append_right _ hmem)
  have hmore : Run.Meets JoinsOnce trace := fun entry hmem =>
    honce entry (List.mem_append_left _ hmem)
  have hfirst : Run.Reachable (Run.guarded step JoinsOnce) Start first :=
    ⟨past, run.to_guarded hpast⟩
  exact ⟨(passes name).handed_throughout hfirst (more.to_guarded hmore),
    (passes name).handed_never hfirst (more.to_guarded hmore)⟩

/-- Two clients are on a channel, and a third one writes to it as well. -/
theorem members_hear_channel_three : ∃ past first trace w, Steps past first ∧
    Run.Steps step (· = first) trace w ∧
    Hub.handedTo (Run.eventsOf (copies "#c".toList) trace) 6 =
      [":a PRIVMSG #c :one\r\n".toList, ":c!c@0 NOTICE #c :three\r\n".toList] := by
  obtain ⟨past, first, run, hpast, htest⟩ := Run.exists_steps_meeting step JoinsOnce start_pw
    ([.gather, .accept 5 "h".toList, .gather, .accept 6 "i".toList, .gather,
        .accept 7 "j".toList, .gather] ++
      packet 5 ["PASS pw", "NICK a", "USER a a a :n", "JOIN #c"] ++
      packet 6 ["PASS pw", "NICK b", "USER b b b :n", "JOIN #c"] ++
      packet 7 ["PASS pw", "NICK c", "USER c c c :n"])
    (fun first => (Run.record step (packet 5 ["PRIVMSG #c :one", "PART #c :x"] ++
        packet 6 ["PRIVMSG #c :two"] ++ packet 7 ["NOTICE #c :three"])
        ([], first)).any fun recorded =>
      (∀ entry ∈ recorded.1, JoinsOnce entry.1 entry.2) ∧
      (6 ∈ recorded.2.audience "#c".toList ∧
        ∀ entry ∈ recorded.1, 6 ∈ entry.1.audience "#c".toList) ∧
      Run.eventsOf (spoken "#c".toList) recorded.1 =
        [(5, ":a PRIVMSG #c :one\r\n".toList), (6, ":b PRIVMSG #c :two\r\n".toList),
          (7, ":c!c@0 NOTICE #c :three\r\n".toList)]) (by decide +kernel)
  obtain ⟨⟨trace, w⟩, hrecorded, htest⟩ := (Option.any_eq_true _ _).mp htest
  obtain ⟨hmore, hon, hspoken⟩ := of_decide_eq_true htest
  have hnil : Run.Steps step (· = first) [] first := .nil rfl
  have more := hnil.record hrecorded
  have hall := (members_hear_channel run more (fun entry hmem => (List.mem_append.mp hmem).elim
    (hmore entry) (hpast entry)) "#c".toList 6).1 hon
  rw [hspoken] at hall
  exact ⟨past, first, trace, w, run, more, hall⟩

end Runs

end FtIrc
