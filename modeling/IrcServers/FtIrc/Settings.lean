import IrcServers.FtIrc.Marks
import IrcServers.Registry

/-!
# The settings of channels

The user limit, the invite-only flag, the password and the topic of a channel are
written by its operators: by `MODE` with the letters `l`, `i`, `k` and `t`, and by
`TOPIC`.  `JOIN` creates a channel with nothing set, and none is removed again, not even
when the last member leaves.  So the channels with their settings are a registry, whose
history can be read off the lines that have been handled.
-/

namespace FtIrc

open Utils Outcome

/-- What the operators of a channel set. -/
@[ext] structure Settings where
  limit : Nat
  inviteOnly : Bool
  password : Str
  topic : Str
deriving DecidableEq

/-- What a new channel has. -/
def Settings.unset : Settings := ⟨nonLimited, false, [], []⟩

/-- The settings of a channel. -/
def Channel.settings (ch : Channel) : Settings :=
  ⟨ch.limit, ch.inviteOnly, ch.password, ch.topic⟩

/-- Members and operators are no part of the settings. -/
theorem Channel.unlisted_settings : Channel.Unlisted Channel.settings := fun _ _ _ => rfl

namespace Server

/-- What a `MODE` that goes to the handler of its letter writes.  `Mode::execLimit`
writes in the round of each member, so not without members. -/
def modeWrite (env : Env) (ch : Channel) (info : ModeInfo) : Option (Settings → Settings) :=
  if modeKey info = "l".toList then
    if ch.clients = [] then none
    else if info.status then
      some fun c => { c with limit := (ch.setLimit (toInt env.junkInt info.parameters)).limit }
    else some fun c => { c with limit := nonLimited }
  else if modeKey info = "i".toList then some fun c => { c with inviteOnly := info.status }
  else if modeKey info = "k".toList then some fun c => { c with password := info.parameters }
  else if modeKey info = "t".toList then some fun c => { c with topic := info.parameters }
  else none

/-- The channel that a `JOIN` creates. -/
def creation (s : Server) (message : Str) : Option (Registry.Event Str Settings) :=
  if (s.getChannel (Parser.parse message).function).isNone then
    some (.create (Parser.parse message).function)
  else none

/-- What a `MODE` sets. -/
def modeSetting (env : Env) (s : Server) (message : Str) (fd : Fd) :
    Option (Registry.Event Str Settings) :=
  (modeCall env message).bind fun info =>
    (s.getChannel info.channel).bind fun ch =>
      if (ch.getOperator s.memory fd).isSome then (modeWrite env ch info).map (.write ch.name)
      else none

/-- What a `TOPIC` sets. -/
def topicSetting (s : Server) (message : Str) (fd : Fd) : Option (Registry.Event Str Settings) :=
  (s.getChannel (Parser.parse message).function).bind fun ch =>
    if (ch.getOperator s.memory fd).isSome ∧ (Parser.parse message).value ≠ [] then
      (split message colon)[1]?.map fun value => .write ch.name fun c => { c with topic := value }
    else none

/-- What a line of `x` does to the registry of channels. -/
def settingEvent (env : Env) (s : Server) (x : ClientPtr) (line : Str) :
    Option (Registry.Event Str Settings) :=
  if s.Called .join line x then s.creation line
  else if s.Called .mode line x then s.modeSetting env line (s.memory x).fd
  else if s.Called .topic line x then s.topicSetting line (s.memory x).fd
  else none

end Server

/-- What a step does to the registry of channels. -/
def World.settingEvent (w : World) : Action → Option (Registry.Event Str Settings)
  | .line env => (w.speaker (.line env)).bind fun said => w.srv.settingEvent env said.1 said.2
  | _ => none

/-- The creations and settings of a run. -/
def settingHistory (trace : Run.Trace World Action) : List (Registry.Event Str Settings) :=
  Run.eventsOf (fun w a => (w.settingEvent a).toList) trace

namespace Server

variable {s s' : Server} {ch ch' : Channel} {fd : Fd} {message : Str} {info : ModeInfo} {env : Env}
  {who : Server → Str → Fd → Result}

/-- The channels with their settings. -/
abbrev registry (s : Server) : List (Str × Settings) := s.marks Channel.settings

/-- The server has the channels and settings of `s` after the event. -/
def Registers (s : Server) (event : Option (Registry.Event Str Settings)) (s' : Server) : Prop :=
  s'.registry = Registry.replay .unset event.toList s.registry

theorem registers_none : s.Registers none s' ↔ s'.registry = s.registry := Iff.rfl

/-- A channel that is written back with other settings. -/
theorem registers_putChannel {f : Settings → Settings}
    (hdistinct : (s.channels.map Channel.name).Nodup) (hch : ch ∈ s.channels) (ch' : Channel)
    (hname : ch'.name = ch.name) (hsettings : ch'.settings = f ch.settings)
    (hsends : (s.putChannel ch').Sends s') :
    s.Registers (some (.write ch.name f)) s' := by
  unfold Registers
  rw [registry, hsends.marks]
  unfold registry marks putChannel
  simp only [Registry.replay, Option.toList_some, List.foldl_cons, List.foldl_nil, Registry.apply,
    List.map_map]
  refine List.map_congr_left fun old hold => ?_
  rw [Function.comp_apply, Function.comp_apply]
  by_cases hold' : old.name = ch.name
  · obtain rfl := List.inj_on_of_nodup_map hdistinct hold hch hold'
    rw [if_pos hname.symm, if_pos (show (old.marked Channel.settings).1 = old.name from rfl)]
    exact Prod.ext hname hsettings
  · rw [if_neg fun heq => hold' (heq.trans hname),
      if_neg (show (old.marked Channel.settings).1 ≠ ch.name from hold')]

section Commands

variable (hdistinct : (s.channels.map Channel.name).Nodup)
include hdistinct

/-- A change of the limit is recorded as it is stored. -/
theorem execLimit_registers (hch : ch ∈ s.channels) (hkey : modeKey info = "l".toList) :
    s.Registers ((modeWrite env ch info).map (.write ch.name)) (s.execLimit env ch info) := by
  unfold modeWrite execLimit
  rw [if_pos hkey]
  by_cases hmembers : ch.clients = []
  · rw [if_pos hmembers]
    split <;> rfl
  · rw [if_neg hmembers]
    split
    · exact registers_putChannel hdistinct hch (ch.setLimit (toInt env.junkInt info.parameters))
        rfl rfl rfl
    · exact registers_putChannel hdistinct hch { ch with limit := nonLimited } rfl rfl rfl

/-- So is a change of any mode; bans and operators are no settings. -/
theorem execModeKey_registers (hch : ch ∈ s.channels) (hwho : WhoSends who ch.name) :
    (s.execModeKey env who ch info fd).Leaves
      (s.Registers ((modeWrite env ch info).map (.write ch.name))) := by
  unfold execModeKey
  refine .ite (fun hkey => ?_) (fun hop => .ite (fun hkey => ?_) (fun hban => .ite (fun hkey => ?_)
    (fun hlimit => .ite (fun hkey => ?_) (fun hinvite => .ite (fun hkey => ?_)
      (fun hpassword => .ite (fun hkey => ?_) (fun htopic => ?_))))))
  · have hnone : modeWrite env ch info = none := by simp [modeWrite, modeKey, hkey]
    rw [hnone]
    exact execOperator_marks Channel.unlisted_settings.unled hdistinct hch
  · have hnone : modeWrite env ch info = none := by simp [modeWrite, modeKey, hkey]
    rw [hnone]
    exact execBan_marks Channel.unlisted_settings hdistinct hch hwho fun _ _ => rfl
  · exact leaves_done.mpr (execLimit_registers hdistinct hch hkey)
  · have hsome : modeWrite env ch info = some fun c => { c with inviteOnly := info.status } := by
      simp [modeWrite, modeKey, hkey]
    rw [hsome]
    exact leaves_done.mpr (registers_putChannel hdistinct hch
      { ch with inviteOnly := info.status } rfl rfl rfl)
  · have hsome : modeWrite env ch info = some fun c => { c with password := info.parameters } := by
      simp [modeWrite, modeKey, hkey]
    rw [hsome]
    exact leaves_done.mpr (registers_putChannel hdistinct hch
      { ch with password := info.parameters } rfl rfl rfl)
  · have hsome : modeWrite env ch info = some fun c => { c with topic := info.parameters } := by
      simp [modeWrite, modeKey, hkey]
    rw [hsome]
    exact leaves_done.mpr (registers_putChannel hdistinct hch
      { ch with topic := info.parameters } rfl rfl rfl)
  · have hnone : modeWrite env ch info = none := by
      unfold modeWrite modeKey
      rw [if_neg hlimit, if_neg hinvite, if_neg hpassword, if_neg htopic]
    rw [hnone]
    exact leaves_done.mpr rfl

/-- `MODE` sets what its letter says, when an operator gives it. -/
theorem execMode_registers (hwho : ∀ ch ∈ s.channels, WhoSends who ch.name) :
    (s.execMode env who message fd).Leaves (s.Registers (s.modeSetting env message fd)) := by
  unfold modeSetting
  cases hcall : modeCall env message with
  | none =>
      rw [execMode_of_none hcall]
      exact leaves_done.mpr rfl
  | some info =>
      rw [execMode_of_some hcall, leaves_catching, Option.bind_some]
      refine .require fun ch hch => ?_
      rw [hch, Option.bind_some]
      have hmem := mem_of_getChannel hch
      refine .ite (fun hguard => ?_) (fun hguard => ?_)
      · rw [if_neg fun hop => Channel.passes_guard_iff.mpr hop hguard]
        exact throwNotOperator_marks s fd _
      · rw [if_pos (Channel.passes_guard_iff.mp hguard)]
        exact execModeKey_registers hdistinct hmem (hwho ch hmem)

/-- `TOPIC` sets the text behind its colon, when an operator gives one. -/
theorem execTopic_registers :
    (s.execTopic message fd).Leaves (s.Registers (s.topicSetting message fd)) := by
  unfold topicSetting execTopic
  rw [leaves_catching]
  refine .require fun ch hch => ?_
  rw [hch, Option.bind_some]
  refine .ite (fun hguard => ?_) (fun hguard => .ite (fun hempty => ?_) (fun hvalue => ?_))
  · rw [if_neg fun h => Channel.passes_guard_iff.mpr h.1 hguard]
    exact throwNotOperator_marks s fd _
  · rw [if_neg fun h => h.2 hempty]
    exact .require fun _ _ => leaves_done.mpr rfl
  · rw [if_pos ⟨Channel.passes_guard_iff.mp hguard, hvalue⟩]
    refine .require fun value hsplit => leaves_done.mpr ?_
    rw [hsplit, Option.map_some]
    exact registers_putChannel hdistinct (mem_of_getChannel hch) { ch with topic := value }
      rfl rfl rfl

end Commands

end Server

variable {w w' : World} {a : Action} {env : Env} {x : ClientPtr} {line : Str}
  {trace : Run.Trace World Action}

/-- A `JOIN` creates its channel, or leaves the settings. -/
theorem Stepped.registers_join (htidy : Tidy w) (hstep : Stepped w a w')
    (hcalled : w.called .join a = some (x, line)) :
    w.srv.Registers (w.srv.creation line) w'.srv := by
  have hjoined := hstep.joined htidy hcalled
  unfold Server.creation
  cases hch : w.srv.getChannel (Parser.parse line).function with
  | none =>
      rw [hch] at hjoined
      unfold Server.Registers Server.registry Server.marks
      rw [hjoined, List.map_append]
      rfl
  | some ch =>
      rw [hch] at hjoined
      dsimp only at hjoined
      rw [Option.isNone_some, if_neg Bool.false_ne_true]
      split at hjoined
      · exact (Server.marks_of_channels hjoined).trans (Server.marks_putChannel
          htidy.named.distinct rfl (Server.mem_of_getChannel hch)
          (congrArg (Prod.mk ch.name) (Channel.unlisted_settings ch _ _)))
      · exact Server.marks_of_channels hjoined

/-- A step that is no `JOIN`, `MODE` or `TOPIC` leaves the settings. -/
theorem Stepped.registers_none (htidy : Tidy w) (hstep : Stepped w a w')
    (hjoin : w.called .join a = none) (hmode : w.called .mode a = none)
    (htopic : w.called .topic a = none) : w.srv.Registers none w'.srv := by
  refine hstep.marks_of_not_join Channel.unlisted_settings htidy hjoin ?_ ?_ ?_
  · intro env x line _ hcalled
    rw [hmode] at hcalled
    cases hcalled
  · intro x line hcalled
    rw [htopic] at hcalled
    cases hcalled
  · exact fun x line _ => Server.execInvite_marks htidy.named.distinct fun _ _ => rfl

/-- **One step.**  It does to the registry what its event says. -/
theorem Stepped.registers (htidy : Tidy w) (hstep : Stepped w a w') :
    w.srv.Registers (w.settingEvent a) w'.srv := by
  cases hspeaker : w.speaker a with
  | none =>
      have hnone : w.settingEvent a = none := by
        cases a with
        | line env => rw [World.settingEvent, hspeaker, Option.bind_none]
        | gather | accept | read | readFails => rfl
      have hcalled : ∀ verb, w.called verb a = none := fun verb => by
        rw [World.called, hspeaker, Option.filter_none]
      rw [hnone]
      exact hstep.registers_none htidy (hcalled _) (hcalled _) (hcalled _)
  | some said =>
      obtain ⟨x, line⟩ := said
      cases a with
      | line env =>
          rw [World.settingEvent, hspeaker, Option.bind_some]
          unfold Server.settingEvent
          dsimp only
          split
          · rename_i hjoin
            exact hstep.registers_join htidy (World.called_eq_some.mpr ⟨hspeaker, hjoin⟩)
          · rename_i hjoin
            split
            · rename_i hmode
              refine hstep.of_called htidy hspeaker hmode (by decide)
                (Server.execMode_registers htidy.named.distinct fun ch hch => ?_)
              exact Server.executeTo_who_sends env 0 (htidy.named.good ch hch)
            · rename_i hmode
              split
              · rename_i htopic
                exact hstep.of_called htidy hspeaker htopic (by decide)
                  (Server.execTopic_registers htidy.named.distinct)
              · rename_i htopic
                exact hstep.registers_none htidy (World.called_of_speaker hspeaker hjoin)
                  (World.called_of_speaker hspeaker hmode)
                  (World.called_of_speaker hspeaker htopic)
      | gather | accept | read | readFails => cases hspeaker

/-- The registry is what its history makes of an empty one. -/
theorem registry_eq_replay (run : Steps trace w) :
    w.srv.registry = Registry.replay .unset (settingHistory trace) [] := by
  induction run with
  | nil hstart =>
      obtain ⟨password, createdDate, listener, keepsFd, rfl⟩ := hstart
      rfl
  | @cons trace w a next run hstep ih =>
      have hregisters := (stepped_of_step hstep).registers (tidy run)
      unfold Server.Registers at hregisters
      rw [hregisters, ih]
      exact (List.foldl_append ..).symm

/-- **Settings.**  The channels are those that a `JOIN` has created, each once, in the
order of creation; none is gone.  A channel has the limit, the invite-only flag, the
password and the topic that its operators have set since then, each as it was set last. -/
theorem settings_last_set (run : Steps trace w) :
    w.srv.channels.map Channel.name = Registry.created (settingHistory trace) ∧
    (Registry.created (settingHistory trace)).Nodup ∧
    ∀ ch ∈ w.srv.channels, ∃ before after,
      settingHistory trace = before ++ .create ch.name :: after ∧
        ch.settings = Registry.written ch.name after .unset := by
  have hreplay := registry_eq_replay run
  have hnames : w.srv.channels.map Channel.name = Registry.created (settingHistory trace) := by
    rw [← Server.names_of_marks Channel.settings, ← Server.registry, hreplay,
      Registry.names_replay, List.map_nil, List.nil_append]
  refine ⟨hnames, hnames ▸ (tidy run).named.distinct, fun ch hch => ?_⟩
  have hrow : (ch.name, ch.settings) ∈ w.srv.registry := List.mem_map.mpr ⟨ch, hch, rfl⟩
  rw [hreplay] at hrow
  rcases Registry.mem_replay_iff.mp hrow with ⟨_, hnil, -⟩ | hcreated
  · cases hnil
  · exact hcreated

/-- Two channels are created; one has its topic set twice, a limit and a password, and
its last member leaves. -/
theorem settings_last_set_two : ∃ trace w, Steps trace w ∧ (settingHistory trace).length = 6 ∧
    w.srv.channels.map Channel.name = ["#c".toList, "#d".toList] ∧
    Registry.created (settingHistory trace) = ["#c".toList, "#d".toList] ∧
    ∃ ch ∈ w.srv.channels, ch.clients = [] ∧
      ch.settings = ⟨4, false, "k".toList, "new".toList⟩ ∧
      ∃ before after, settingHistory trace = before ++ .create ch.name :: after ∧
        ch.settings = Registry.written ch.name after .unset := by
  obtain ⟨trace, w, run, htest⟩ := Run.exists_steps_of_record step start_pw
    ([.gather, .accept 5 "h".toList, .gather] ++
      packet 5 ["PASS pw", "NICK a", "USER a a a :n", "JOIN #c", "MODE #c +l 4", "TOPIC #c :old",
        "JOIN #d", "MODE #c +k k", "TOPIC #c :new", "PART #c :x"])
    (fun trace w => (settingHistory trace).length = 6 ∧
      w.srv.channels.map Channel.name = ["#c".toList, "#d".toList] ∧
      ∃ ch ∈ w.srv.channels, ch.clients = [] ∧
        ch.settings = ⟨4, false, "k".toList, "new".toList⟩) (by decide +kernel)
  obtain ⟨hlength, hnames, ch, hch, hempty, hsettings⟩ := of_decide_eq_true htest
  obtain ⟨hcreated, -, hset⟩ := settings_last_set run
  exact ⟨trace, w, run, hlength, hnames, hcreated.symm.trans hnames, ch, hch, hempty, hsettings,
    hset ch hch⟩

end FtIrc
