import IrcServers.FtIrc.Endings
import IrcServers.FtIrc.Members

/-!
# Bans and invitations of channels

The lists `_bans` and `_invites` of a channel are written by one command each,
`MODE` with the letter `b` and `INVITE`.  A `Mark` is a part of a channel that no
other command writes.  The names of the channels with such a part are the same
after every line that is not the command of the part, up to a channel that a
`JOIN` creates.  What a `JOIN` does to the members, as a fact about steps, stands
at the end.
-/

namespace FtIrc

open Utils Outcome

namespace Channel

variable {β : Type*} {part : Channel → β} {ch ch' : Channel} {p : ClientPtr}
  {memory : ClientPtr → Client}

/-- A part of channels that members and operators do not belong to. -/
def Unlisted (part : Channel → β) : Prop :=
  ∀ ch clients operators, part { ch with clients := clients, operators := operators } = part ch

/-- A part of channels that operators do not belong to. -/
def Unled (part : Channel → β) : Prop :=
  ∀ ch operators, part { ch with operators := operators } = part ch

/-- A part of channels that settings do not belong to. -/
def Unset (part : Channel → β) : Prop :=
  ∀ ch limit inviteOnly password topic,
    part { ch with
      limit := limit, inviteOnly := inviteOnly, password := password, topic := topic } = part ch

/-- What members do not belong to, operators do not either. -/
theorem Unlisted.unled (h : Unlisted part) : Unled part := fun ch operators =>
  h ch ch.clients operators

/-- A part of channels that neither members, operators nor settings belong to. -/
structure Mark (part : Channel → β) : Prop where
  lists : ∀ ch clients operators,
    part { ch with clients := clients, operators := operators } = part ch
  settings : ∀ ch limit inviteOnly password topic,
    part { ch with
      limit := limit, inviteOnly := inviteOnly, password := password, topic := topic } = part ch

/-- A mark has no operators in it. -/
theorem Mark.unled (h : Mark part) : Unled part := Unlisted.unled h.lists

/-- The bans are a mark. -/
theorem mark_bans : Mark Channel.bans := ⟨fun _ _ _ => rfl, fun _ _ _ _ _ => rfl⟩

/-- So are the invitations. -/
theorem mark_invites : Mark Channel.invites := ⟨fun _ _ _ => rfl, fun _ _ _ _ _ => rfl⟩

/-- The part of the channel together with its name. -/
def marked (part : Channel → β) (ch : Channel) : Str × β := (ch.name, part ch)

/-- Removing a member leaves such a part alone. -/
theorem Unlisted.removeClient (h : Unlisted part) (ch : Channel) (client : Option ClientPtr) :
    (ch.removeClient memory client).marked part = ch.marked part := by
  cases client with
  | none => rfl
  | some p =>
      rw [removeClient_some, without]
      split
      · exact congrArg (Prod.mk ch.name) (h ch _ _)
      · rfl

/-- So does a new operator. -/
theorem Unled.addOperator (h : Unled part) (hok : ch.addOperator p = .ok ch') :
    ch'.marked part = ch.marked part := by
  unfold Channel.addOperator at hok
  split at hok
  · cases hok
  · cases hok
    exact congrArg (Prod.mk ch.name) (h ch _)

/-- So does the end of one. -/
theorem Unled.removeOperator (h : Unled part) {client : Option ClientPtr}
    (hok : ch.removeOperator client = .ok ch') : ch'.marked part = ch.marked part := by
  cases client with
  | none => cases hok
  | some p =>
      simp only [Channel.removeOperator] at hok
      split at hok
      · cases hok
        exact congrArg (Prod.mk ch.name) (h ch _)
      · cases hok

end Channel

namespace Server

variable {β : Type*} {part : Channel → β} {s s' : Server} {ch ch' : Channel} {client : ClientPtr}
  {fd : Fd} {name message : Str} {info : ModeInfo}

/-- The channels by name, each with that part of it. -/
def marks (part : Channel → β) (s : Server) : List (Str × β) := s.channels.map (Channel.marked part)

/-- The marks are those of the channels. -/
theorem marks_of_channels (h : s'.channels = s.channels) : s'.marks part = s.marks part := by
  unfold marks
  rw [h]

/-- Sending changes no mark. -/
theorem Sends.marks (h : s.Sends s') : s'.marks part = s.marks part :=
  marks_of_channels h.channels

/-- A change of all channels that leaves each mark alone leaves the marks alone. -/
theorem marks_map {f : Channel → Channel} (hchannels : s'.channels = s.channels.map f)
    (hf : ∀ ch, (f ch).marked part = ch.marked part) : s'.marks part = s.marks part := by
  unfold marks
  rw [hchannels, List.map_map]
  exact List.map_congr_left fun ch _ => hf ch

/-- The names of the marks are those of the channels. -/
theorem names_of_marks (part : Channel → β) (s : Server) :
    (s.marks part).map Prod.fst = s.channels.map Channel.name := by
  unfold marks
  rw [List.map_map]
  rfl

/-- A channel is written back with the same part. -/
theorem marks_putChannel {t : Server} (hdistinct : (s.channels.map Channel.name).Nodup)
    (h : t.marks part = s.marks part) (hch : ch ∈ t.channels)
    (hsame : ch'.marked part = ch.marked part) : (t.putChannel ch').marks part = s.marks part := by
  have hdistinct' : (t.channels.map Channel.name).Nodup := by
    rw [← names_of_marks part, h, names_of_marks]
    exact hdistinct
  have hname : ch'.name = ch.name := congrArg Prod.fst hsame
  rw [← h]
  unfold marks putChannel
  rw [List.map_map]
  refine List.map_congr_left fun old hold => ?_
  rw [Function.comp_apply]
  split
  · rename_i heq
    rw [List.inj_on_of_nodup_map hdistinct' hold hch (heq.trans hname), hsame]
  · rfl

/-- A channel of this name has the client in the list. -/
def Lists (list : Channel → List ClientPtr) (s : Server) (name : Str) (x : ClientPtr) : Prop :=
  ∃ ch ∈ s.channels, ch.name = name ∧ x ∈ list ch

/-- Who is on a list of a channel can be told from the marks. -/
theorem lists_iff_marks {list : Channel → List ClientPtr} {x : ClientPtr} :
    s.Lists list name x ↔ ∃ mark ∈ s.marks list, mark.1 = name ∧ x ∈ mark.2 := by
  unfold Lists marks
  simp only [List.mem_map, exists_exists_and_eq_and]
  rfl

/-- Who is listed follows from the marks, and a new channel lists nobody. -/
theorem lists_of_marks {list : Channel → List ClientPtr} {x : ClientPtr}
    (hnew : ∀ name, list (Channel.new name) = [])
    (h : s'.marks list = s.marks list ∨
      ∃ new, s'.marks list = s.marks list ++ [(new, list (Channel.new new))]) :
    s'.Lists list name x ↔ s.Lists list name x := by
  rw [lists_iff_marks, lists_iff_marks]
  rcases h with h | ⟨new, h⟩
  · rw [h]
  · rw [h, hnew]
    constructor
    · rintro ⟨mark, hmark, hname, hx⟩
      rcases List.mem_append.mp hmark with hmark | hmark
      · exact ⟨mark, hmark, hname, hx⟩
      · rw [List.mem_singleton.mp hmark] at hx
        cases hx
    · rintro ⟨mark, hmark, hmarked⟩
      exact ⟨mark, List.mem_append_left _ hmark, hmarked⟩

/-- It depends on the channels only. -/
theorem lists_of_channels {list : Channel → List ClientPtr} {x : ClientPtr}
    (h : s'.channels = s.channels) : s'.Lists list name x ↔ s.Lists list name x := by
  unfold Lists
  rw [h]

/-- Whom a channel lists, by its name. -/
theorem lists_iff_mem {list : Channel → List ClientPtr} {x : ClientPtr}
    (hdistinct : (s.channels.map Channel.name).Nodup) (hch : ch ∈ s.channels) :
    s.Lists list ch.name x ↔ x ∈ list ch := by
  constructor
  · rintro ⟨found, hfound, hname, hx⟩
    rwa [List.inj_on_of_nodup_map hdistinct hfound hch hname] at hx
  · exact fun hx => ⟨ch, hch, rfl, hx⟩

/-- Who is listed after one channel has been written back. -/
theorem lists_putChannel {list : Channel → List ClientPtr} {x : ClientPtr}
    (hch : ch ∈ s.channels) (hname : ch'.name = ch.name) :
    (s.putChannel ch').Lists list name x ↔
      if name = ch.name then x ∈ list ch' else s.Lists list name x := by
  have hput : ch' ∈ (s.putChannel ch').channels := List.mem_map.mpr ⟨ch, hch, if_pos hname.symm⟩
  constructor
  · rintro ⟨old, hold, rfl, hx⟩
    obtain ⟨new, hnew, rfl⟩ := List.mem_map.mp hold
    split at hx
    · rename_i heq
      rw [if_pos heq, if_pos hname]
      exact hx
    · rename_i hne
      rw [if_neg hne, if_neg fun heq => hne (heq.trans hname.symm)]
      exact ⟨new, hnew, rfl, hx⟩
  · intro h
    split at h
    · rename_i heq
      exact ⟨ch', hput, hname.trans heq.symm, h⟩
    · rename_i hne
      obtain ⟨old, hold, rfl, hx⟩ := h
      refine ⟨old, List.mem_map.mpr ⟨old, hold, if_neg fun heq => hne ?_⟩, rfl, hx⟩
      exact heq.trans hname

/-! ## Commands behind the login test -/

/-- Relaying a text sends messages only. -/
theorem relay_sends (s : Server) (fd : Fd) (target text : Str) (toSelf : Bool) :
    s.Sends (s.relay fd target text toSelf) := by
  unfold relay
  split
  · dsimp only
    split <;> rfl
  · split <;> rfl

/-- What a command that only sends leaves. -/
theorem throwClient_marks (s : Server) (fd : Fd) (e : Exception) (text : Str) :
    (s.throwClient fd e text).Leaves fun s' => s'.marks part = s.marks part :=
  leaves_thrown.mpr (marks_of_channels rfl)

/-- A refusal changes no mark. -/
theorem throwNotOperator_marks (s : Server) (fd : Fd) (name : Str) :
    (s.throwNotOperator fd name).Leaves fun s' => s'.marks part = s.marks part :=
  .require fun _ _ => throwClient_marks _ _ _ _

/-- A channel that is written back with the same mark changes none. -/
theorem update_marks (hdistinct : (s.channels.map Channel.name).Nodup) (hch : ch ∈ s.channels)
    {changed : Except Exception Channel} {next : Channel → Server → Result}
    (hsame : ∀ ch', changed = .ok ch' → ch'.marked part = ch.marked part)
    (hnext : ∀ ch' s', (next ch' s').Leaves s'.Sends) :
    (s.update changed next).Leaves fun s' => s'.marks part = s.marks part := by
  cases changed with
  | ok ch' =>
      exact (hnext ch' (s.putChannel ch')).imp fun s' hs =>
        hs.marks.trans (marks_putChannel hdistinct rfl hch (hsame ch' rfl))
  | error e => exact leaves_thrown.mpr rfl

/-- A command behind the login test that its handler gets to see. -/
def Called (s : Server) (verb : Verb) (message : Str) (x : ClientPtr) : Prop :=
  Checker.accepts message = true ∧ verbOf (commandOf message) = verb ∧ (s.memory x).login = true

instance (s : Server) (verb : Verb) (message : Str) (x : ClientPtr) :
    Decidable (s.Called verb message x) := inferInstanceAs (Decidable (_ ∧ _ ∧ _))

/-- The removal of a client changes no part without members. -/
theorem removeClient_marks (hlists : Channel.Unlisted part) (s : Server) (fd : Fd) :
    (s.removeClient fd).marks part = s.marks part :=
  marks_map (s.channels_removeClient fd) fun ch => hlists.removeClient ch _

/-- So `USER` changes none, whether it removes its client or not. -/
theorem execUser_marks (hlists : Channel.Unlisted part) :
    (s.execUser message fd).Leaves fun s' => s'.marks part = s.marks part := by
  refine .require fun user _ => .require fun client _ => ?_
  have hlogin := login_channels (s.setClient client fun c =>
    { c with userName := user.1, realName := user.2 }) client
  split
  · rename_i t hthrown
    rw [hthrown, leaves_thrown] at hlogin
    exact leaves_done.mpr ((removeClient_marks hlists t fd).trans (marks_of_channels hlogin))
  · exact hlogin.imp fun _ h => marks_of_channels h

/-- Nor does `QUIT`. -/
theorem execQuit_marks (hlists : Channel.Unlisted part) (hnamed : s.Named) :
    (s.execQuit message fd).Leaves fun s' => s'.marks part = s.marks part := by
  refine (execQuit_leaves hnamed message fd).imp fun s' h => ?_
  rw [marks_of_channels h.2.channels, removeClient_marks hlists]
  refine marks_map rfl fun ch => ?_
  unfold quitFrom
  split
  · exact hlists.removeClient ch _
  · rfl

/-- `INVITE` writes no other part than the invitations. -/
theorem execInvite_marks (hdistinct : (s.channels.map Channel.name).Nodup)
    (hinvites : ∀ ch invites, part { ch with invites := invites } = part ch) :
    (s.execInvite message fd).Leaves fun s' => s'.marks part = s.marks part := by
  unfold execInvite
  rw [leaves_catching]
  dsimp only
  split
  · exact throwClient_marks _ _ _ _
  · rename_i ch hch
    refine .ite (fun _ => throwNotOperator_marks _ _ _) (fun _ => ?_)
    split
    · exact throwClient_marks _ _ _ _
    · refine update_marks hdistinct (mem_of_getChannel hch) (fun ch' hok => ?_)
        fun _ _ => leaves_done.mpr rfl
      unfold Channel.addInvite at hok
      split at hok
      · cases hok
      · cases hok
        exact congrArg (Prod.mk ch.name) (hinvites ch _)

/-- The commands behind the login test that write channels. -/
def writers : List Verb := [.join, .part, .mode, .kick, .invite, .topic]

/-- The other commands behind the login test only send. -/
theorem dispatchLogin_marks {who : Server → Str → Fd → Result} (env : Env) {verb : Verb}
    (hwrites : verb ∈ writers → (s.dispatchLogin env who client message fd verb).Leaves
      fun s' => s'.marks part = s.marks part) :
    (s.dispatchLogin env who client message fd verb).Leaves
      fun s' => s'.marks part = s.marks part := by
  cases verb with
  | privmsg =>
      exact .require fun _ _ => .require fun _ _ =>
        leaves_done.mpr (relay_sends s fd _ _ true).marks
  | notice =>
      exact .require fun _ _ => .require fun _ _ =>
        leaves_done.mpr (relay_sends s fd _ _ false).marks
  | who => exact execWho_sends.imp fun _ hs => hs.marks
  | whois => exact execWhois_sends.imp fun _ hs => hs.marks
  | join | part | mode | kick | invite | topic => exact hwrites (by decide)
  | quit | nick | user | pass | unknown => exact throwClient_marks _ _ _ _

/-- **Marks after a line.**  A line leaves them, if `QUIT`, `USER` and the commands
that write channels do. -/
theorem handleLine_marks (env : Env) (hline : OneLine message)
    (hquit : Checker.accepts message = true → verbOf (commandOf message) = .quit →
      (s.execQuit message fd).Leaves fun s' => s'.marks part = s.marks part)
    (huser : Checker.accepts message = true → verbOf (commandOf message) = .user →
      (s.execUser message fd).Leaves fun s' => s'.marks part = s.marks part)
    (hwrites : ∀ x verb, s.getClient fd = some x → s.Called verb message x → verb ∈ writers →
      (s.dispatchLogin env (executeTo env 1) x message fd verb).Leaves
        fun s' => s'.marks part = s.marks part) :
    (handleLine env s message fd).Leaves fun s' => s'.marks part = s.marks part := by
  unfold handleLine
  rw [hline.executeTo, handle, leaves_catching]
  by_cases haccepts : Checker.accepts message = true
  · rw [check_of_accepts s fd haccepts, andThen_done]
    unfold dispatch
    cases hverb : verbOf (commandOf message) with
    | quit => exact hquit haccepts hverb
    | user => exact huser haccepts hverb
    | nick => exact execNick_channels.imp fun _ h => marks_of_channels h
    | pass => exact execPass_channels.imp fun _ h => marks_of_channels h
    | privmsg | join | part | who | notice | mode | kick | invite | topic | whois | unknown =>
        refine .require fun x hx => .ite (fun hlogin => ?_) (fun _ => leaves_done.mpr rfl)
        exact dispatchLogin_marks env (hwrites x _ hx ⟨haccepts, hverb, hlogin⟩)
  · rw [check_andThen_of_not_accepts s fd haccepts]
    exact (check_sends s message fd).imp fun _ h => h.marks

section Commands

variable (hlists : Channel.Unlisted part) (hdistinct : (s.channels.map Channel.name).Nodup)
include hlists hdistinct

/-- Nor does `PART`, which takes a member off. -/
theorem execPart_marks :
    (s.execPart message fd).Leaves fun s' => s'.marks part = s.marks part := by
  refine .require fun client _ => ?_
  dsimp only
  split
  · rename_i ch hch
    refine leaves_done.mpr (marks_putChannel (t := s.broadcast ch.clients _) hdistinct rfl
      (mem_of_getChannel hch) (hlists.removeClient ch _))
  · exact leaves_done.mpr rfl

/-- Nor does `KICK`. -/
theorem execKick_marks :
    (s.execKick message fd).Leaves fun s' => s'.marks part = s.marks part := by
  refine .require fun parsed _ => ?_
  dsimp only
  rw [leaves_catching]
  refine .require fun ch hch => .ite (fun _ => throwNotOperator_marks _ _ _) (fun _ => ?_)
  split
  · exact throwClient_marks _ _ _ _
  · exact leaves_done.mpr (marks_putChannel (t := s.broadcast ch.clients _) hdistinct rfl
      (mem_of_getChannel hch) (hlists.removeClient ch _))

/-- `MODE` with the letter `b` writes no other part than the bans. -/
theorem execBan_marks {who : Server → Str → Fd → Result} (hch : ch ∈ s.channels)
    (hwho : WhoSends who ch.name) (hbans : ∀ ch bans, part { ch with bans := bans } = part ch) :
    (s.execBan who ch info fd).Leaves fun s' => s'.marks part = s.marks part := by
  have hban : ∀ client (t : Server), t.marks part = s.marks part →
      (t.banClient ch.name client).Leaves fun s' => s'.marks part = s.marks part := by
    intro client t ht
    unfold banClient
    split
    · exact leaves_done.mpr ht
    · rename_i old hold
      have hnames : (t.channels.map Channel.name).Nodup := by
        rw [← names_of_marks part, ht, names_of_marks]
        exact hdistinct
      rw [← ht]
      refine update_marks hnames (mem_of_getChannel hold) (fun ch' hok => ?_)
        fun _ _ => leaves_done.mpr rfl
      unfold Channel.addBan at hok
      split at hok
      · cases hok
      · cases hok
        exact (hlists.removeClient _ _).trans (congrArg (Prod.mk old.name) (hbans old _))
  have hpardon : ∀ hostName (t : Server), s.Sends t →
      (t.pardon ch hostName).Leaves fun s' => s'.marks part = s.marks part := by
    intro hostName t ht
    unfold pardon
    split
    · rw [← ht.marks]
      refine update_marks (ht.channels ▸ hdistinct) (ht.channels ▸ hch) (fun ch' hok => ?_)
        fun _ _ => leaves_done.mpr rfl
      unfold Channel.removeBan at hok
      split at hok
      · cases hok
        exact congrArg (Prod.mk ch.name) (hbans ch _)
      · cases hok
    · exact .ite (fun _ => leaves_thrown.mpr ht.marks) (fun _ => leaves_fault)
  unfold execBan
  rw [leaves_catching]
  refine .ite (fun _ => .require fun _ _ => leaves_done.mpr rfl) (fun _ => ?_)
  refine .ite (fun _ => .require fun hostName _ => ?_) (fun _ => ?_)
  · refine Leaves.andThen (.each (fun client _ t ht => hban client t ht) rfl) fun t ht => ?_
    exact (banTells_sends hwho _ _ _ t).imp fun _ h => h.marks.trans ht
  · exact (banTells_sends hwho _ _ _ s).andThen_of_imp (fun _ h => h.marks) fun t ht =>
      .require fun hostName _ => hpardon _ t ht

end Commands

/-- Nor does a change of operators. -/
theorem execOperator_marks (hled : Channel.Unled part)
    (hdistinct : (s.channels.map Channel.name).Nodup) (hch : ch ∈ s.channels) :
    (s.execOperator ch info).Leaves fun s' => s'.marks part = s.marks part := by
  unfold execOperator
  rw [leaves_catching]
  dsimp only
  refine .ite (fun _ => .require fun client _ => ?_) (fun _ => ?_)
  · exact update_marks hdistinct hch (fun _ hok => hled.addOperator hok)
      fun _ _ => leaves_done.mpr rfl
  · exact update_marks hdistinct hch (fun _ hok => hled.removeOperator hok)
      fun _ _ => .require fun _ _ => leaves_done.mpr rfl

section Settings

variable (hset : Channel.Unset part) (hdistinct : (s.channels.map Channel.name).Nodup)
include hset hdistinct

/-- Settings of a channel are written back. -/
theorem settings_marks {t : Server} (h : s.Sends t) (hch : ch ∈ s.channels) (limit : Nat)
    (inviteOnly : Bool) (password topic : Str) :
    (t.putChannel { ch with
      limit := limit, inviteOnly := inviteOnly, password := password, topic := topic }).marks part =
      s.marks part := by
  exact marks_putChannel hdistinct h.marks (h.channels ▸ hch)
    (congrArg (Prod.mk ch.name) (hset ch limit inviteOnly password topic))

/-- A part that settings do not belong to is not changed by `TOPIC`. -/
theorem execTopic_marks :
    (s.execTopic message fd).Leaves fun s' => s'.marks part = s.marks part := by
  unfold execTopic
  rw [leaves_catching]
  refine .require fun ch hch => .ite (fun _ => throwNotOperator_marks _ _ _) (fun _ => ?_)
  refine .ite (fun _ => .require fun _ _ => ?_) (fun _ => .require fun value _ => ?_)
  · exact leaves_done.mpr (marks_of_channels rfl)
  · exact leaves_done.mpr (settings_marks hset hdistinct (.refl s) (mem_of_getChannel hch)
      ch.limit ch.inviteOnly ch.password value)

/-- Nor is it changed by a limit. -/
theorem execLimit_marks (env : Env) (hch : ch ∈ s.channels) :
    (s.execLimit env ch info).marks part = s.marks part := by
  have hput := fun sent limit => settings_marks (t := { s with sent := sent }) hset hdistinct rfl
    hch limit ch.inviteOnly ch.password ch.topic
  unfold execLimit
  split <;> dsimp only <;> split
  · exact marks_of_channels rfl
  · exact hput _ _
  · exact marks_of_channels rfl
  · exact hput _ _

/-- `MODE` with any letter but `b`. -/
theorem execModeKey_marks (hled : Channel.Unled part) {who : Server → Str → Fd → Result}
    (env : Env) (hch : ch ∈ s.channels) (hban : modeKey info ≠ "b".toList) :
    (s.execModeKey env who ch info fd).Leaves fun s' => s'.marks part = s.marks part := by
  have hput := settings_marks hset hdistinct (.refl s) hch
  unfold execModeKey
  refine .ite (fun _ => execOperator_marks hled hdistinct hch) (fun _ => ?_)
  refine .ite (fun hkey => (hban hkey).elim) (fun _ => ?_)
  refine .ite (fun _ => leaves_done.mpr (execLimit_marks hset hdistinct env hch)) (fun _ => ?_)
  refine .ite (fun _ => ?_) (fun _ => .ite (fun _ => ?_)
    (fun _ => .ite (fun _ => ?_) (fun _ => leaves_done.mpr rfl)))
  · exact leaves_done.mpr (hput ch.limit info.status ch.password ch.topic)
  · exact leaves_done.mpr (hput ch.limit ch.inviteOnly info.parameters ch.topic)
  · exact leaves_done.mpr (hput ch.limit ch.inviteOnly ch.password info.parameters)

/-- `MODE`, as long as the channel keeps its part when the letter is `b`. -/
theorem execMode_marks (hled : Channel.Unled part) {who : Server → Str → Fd → Result} (env : Env)
    (hban : ∀ info, modeCall env message = some info → modeKey info = "b".toList →
      ∀ ch, s.getChannel info.channel = some ch → (ch.getOperator s.memory fd).isSome = true →
        (s.execBan who ch info fd).Leaves fun s' => s'.marks part = s.marks part) :
    (s.execMode env who message fd).Leaves fun s' => s'.marks part = s.marks part := by
  refine leaves_execMode rfl (fun name => throwNotOperator_marks s fd name)
    fun info ch hcall hch hop => ?_
  by_cases hkey : modeKey info = "b".toList
  · rw [execModeKey_of_ban hkey]
    exact hban info hcall hkey ch hch hop
  · exact execModeKey_marks hset hdistinct hled env (mem_of_getChannel hch) hkey

end Settings

/-- `JOIN` makes at most a new channel. -/
theorem execJoin_marks (hlists : Channel.Unlisted part)
    (hdistinct : (s.channels.map Channel.name).Nodup) (hx : s.getClient fd = some client)
    (hdone : s.execJoin message fd = .done s') :
    s'.marks part = s.marks part ∨
      ∃ name, s'.marks part = s.marks part ++ [(name, part (Channel.new name))] := by
  rw [execJoin_eq] at hdone
  rcases joinAttempt_cases hdistinct hx message with ⟨e, text, hcaught, h⟩ | ⟨_, h, hjoins⟩
  · rw [h, catching_thrown, if_pos hcaught] at hdone
    cases hdone
    exact Or.inl rfl
  · rw [h, catching_done] at hdone
    cases hdone
    unfold marks
    rcases hjoins.channels with ⟨pre, ch, post, hsplit, -, hafter⟩ | ⟨-, hafter⟩
    · left
      rw [hafter, hsplit, List.map_append, List.map_append, List.map_cons, List.map_cons]
      congr 2
      exact congrArg (Prod.mk ch.name) (hlists ch _ _)
    · right
      refine ⟨(Parser.parse message).function, ?_⟩
      rw [hafter, List.map_append, List.map_singleton]
      congr 2
      exact congrArg (Prod.mk _) (hlists (Channel.new _) _ _)

end Server

/-! ## Steps -/

variable {w w' : World} {a : Action}

/-- The commands that a step hands to their handlers. -/
def World.called (w : World) (verb : Verb) (a : Action) : Option (ClientPtr × Str) :=
  (w.speaker a).filter fun said => w.srv.Called verb said.2 said.1

/-- A command is called when its line is handled and its handler gets to see it. -/
theorem World.called_eq_some {verb : Verb} {x : ClientPtr} {line : Str} :
    w.called verb a = some (x, line) ↔
      w.speaker a = some (x, line) ∧ w.srv.Called verb line x := by
  unfold called
  rw [Option.filter_eq_some_iff, decide_eq_true_eq]

/-- A command that is called is handled. -/
theorem Stepped.called (hstep : Stepped w a w') {verb : Verb} {x : ClientPtr} {line : Str}
    (h : w.called verb a = some (x, line)) :
    ∃ env, a = .line env ∧ handleLine env w.srv line (w.srv.memory x).fd = .done w'.srv := by
  obtain ⟨hspeaker, -⟩ := World.called_eq_some.mp h
  cases hstep with
  | @line env fd line' lines s hpending hdone =>
      simp only [World.speaker, hpending] at hspeaker
      obtain ⟨q, hq, heq⟩ := Option.map_eq_some_iff.mp hspeaker
      cases heq
      exact ⟨env, rfl, (Server.fd_of_getClient hq).symm ▸ hdone⟩
  | _ => cases hspeaker

/-- A command behind the login test removes nobody. -/
theorem World.removes_of_called {verb : Verb} {x : ClientPtr} {line : Str}
    (h : w.called verb a = some (x, line)) (hverb : verb ∉ [.quit, .user]) :
    w.removes a = none := by
  obtain ⟨hspeaker, -, rfl, -⟩ := World.called_eq_some.mp h
  unfold World.speaker at hspeaker
  split at hspeaker
  · split at hspeaker
    · rename_i hpending
      obtain ⟨q, -, heq⟩ := Option.map_eq_some_iff.mp hspeaker
      cases heq
      simp only [World.removes, hpending, Server.removing]
      split
      · split
        · rename_i hquit
          exact (hverb (by simp [hquit])).elim
        · rename_i huser
          exact (hverb (by simp [huser])).elim
        · rfl
      · rfl
    · cases hspeaker
  · cases hspeaker

section Marks

variable {β : Type*} {part : Channel → β}

/-- **Marks after a step.**  A step leaves them, unless it is a `JOIN` or a command
that writes the part. -/
theorem Stepped.marks_of_not_join (hlists : Channel.Unlisted part) (htidy : Tidy w)
    (hstep : Stepped w a w') (hjoin : w.called .join a = none)
    (hmode : ∀ env x line, a = .line env → w.called .mode a = some (x, line) →
      (w.srv.execMode env (executeTo env 1) line (w.srv.memory x).fd).Leaves
        fun s' => s'.marks part = w.srv.marks part)
    (htopic : ∀ x line, w.called .topic a = some (x, line) →
      (w.srv.execTopic line (w.srv.memory x).fd).Leaves
        fun s' => s'.marks part = w.srv.marks part)
    (hinvite : ∀ x line, w.called .invite a = some (x, line) →
      (w.srv.execInvite line (w.srv.memory x).fd).Leaves
        fun s' => s'.marks part = w.srv.marks part) :
    w'.srv.marks part = w.srv.marks part := by
  cases hstep with
  | gather hidle => rfl
  | accept hphase hlistener hnew => rfl
  | @read fd message hphase hidle hpolled hclient =>
      unfold World.read
      dsimp only
      split
      · exact Server.removeClient_marks hlists _ _
      · rfl
  | readFails hphase hidle => rfl
  | @line env fd line lines s hpending hdone =>
      have hline := htidy.lines fd _ hpending line List.mem_cons_self
      have hcalled : ∀ {verb x}, w.srv.getClient fd = some x → w.srv.Called verb line x →
          w.called verb (.line env) = some (x, line) := by
        intro verb x hx hverb
        refine World.called_eq_some.mpr ⟨?_, hverb⟩
        simp only [World.speaker, hpending, hx, Option.map_some]
      have hleaves : (handleLine env w.srv line fd).Leaves
          fun s' => s'.marks part = w.srv.marks part := by
        refine Server.handleLine_marks env hline
          (fun _ _ => Server.execQuit_marks hlists htidy.named)
          (fun _ _ => Server.execUser_marks hlists) fun x verb hx hverb hwrites => ?_
        cases verb with
        | join =>
            rw [hcalled hx hverb] at hjoin
            cases hjoin
        | part => exact Server.execPart_marks hlists htidy.named.distinct
        | kick => exact Server.execKick_marks hlists htidy.named.distinct
        | mode => exact Server.fd_of_getClient hx ▸ hmode env x line rfl (hcalled hx hverb)
        | topic => exact Server.fd_of_getClient hx ▸ htopic x line (hcalled hx hverb)
        | invite => exact Server.fd_of_getClient hx ▸ hinvite x line (hcalled hx hverb)
        | _ => exact absurd hwrites (by decide)
      rw [hdone, leaves_done] at hleaves
      exact hleaves

/-- A step leaves marks up to a new channel, unless it is the command that writes
the part. -/
theorem Stepped.marks (hmark : Channel.Mark part) (htidy : Tidy w) (hstep : Stepped w a w')
    (hmode : ∀ env x line, a = .line env → w.called .mode a = some (x, line) →
      (w.srv.execMode env (executeTo env 1) line (w.srv.memory x).fd).Leaves
        fun s' => s'.marks part = w.srv.marks part)
    (hinvite : ∀ x line, w.called .invite a = some (x, line) →
      (w.srv.execInvite line (w.srv.memory x).fd).Leaves
        fun s' => s'.marks part = w.srv.marks part) :
    w'.srv.marks part = w.srv.marks part ∨
      ∃ name, w'.srv.marks part = w.srv.marks part ++ [(name, part (Channel.new name))] := by
  cases hjoin : w.called .join a with
  | none =>
      refine Or.inl (hstep.marks_of_not_join hmark.lists htidy hjoin hmode (fun x line _ => ?_)
        hinvite)
      exact Server.execTopic_marks hmark.settings htidy.named.distinct
  | some said =>
      obtain ⟨hspeaker, haccepts, hverb, hlogin⟩ := World.called_eq_some.mp hjoin
      have hx := Server.getClient_fd htidy.fds (mem_of_speaker hspeaker)
      obtain ⟨env, -, hdone⟩ := hstep.called hjoin
      rw [Server.handleLine_join env htidy.named.distinct (oneLine_of_speaker htidy hspeaker)
        haccepts hverb hx hlogin] at hdone
      exact Server.execJoin_marks hmark.lists htidy.named.distinct hx hdone

end Marks

variable {x : ClientPtr} {line : Str}

/-- A line that the handler does not get to see calls nothing. -/
theorem World.called_of_speaker {verb : Verb} (h : w.speaker a = some (x, line))
    (hverb : ¬ w.srv.Called verb line x) : w.called verb a = none := by
  unfold World.called
  rw [h, Option.filter_some, if_neg (by simpa using hverb)]

/-- A command behind the login test leaves what its handler leaves. -/
theorem Stepped.of_called {env : Env} (htidy : Tidy w) (hstep : Stepped w (.line env) w')
    (hspeaker : w.speaker (.line env) = some (x, line)) {verb : Verb}
    (hcalled : w.srv.Called verb line x) (hverb : verb ∉ [.quit, .user, .nick, .pass])
    {R : Server → Prop}
    (hR : (w.srv.dispatchLogin env (executeTo env 1) x line (w.srv.memory x).fd verb).Leaves R) :
    R w'.srv := by
  obtain ⟨env', ha, hdone⟩ := hstep.called (World.called_eq_some.mpr ⟨hspeaker, hcalled⟩)
  cases ha
  rw [Server.handleLine_login env (oneLine_of_speaker htidy hspeaker) hcalled.1 hcalled.2.1 hverb
    (Server.getClient_fd htidy.fds (mem_of_speaker hspeaker)) hcalled.2.2] at hdone
  have hleaves : ((w.srv.dispatchLogin env (executeTo env 1) x line (w.srv.memory x).fd
    verb).catching caughtByExecute).Leaves R := leaves_catching.mpr hR
  rw [hdone, leaves_done] at hleaves
  exact hleaves

/-- The channels after a `JOIN`. -/
theorem Stepped.joined (htidy : Tidy w) (hstep : Stepped w a w')
    (hcalled : w.called .join a = some (x, line)) :
    w'.srv.channels =
      match w.srv.getChannel (Parser.parse line).function with
      | none => w.srv.channels ++ [(Channel.new (Parser.parse line).function).pushClient x]
      | some ch =>
          if w.srv.Admits ch x (Parser.parse line).value then
            (w.srv.putChannel (ch.pushClient x)).channels
          else w.srv.channels := by
  obtain ⟨hspeaker, haccepts, hverb, hlogin⟩ := World.called_eq_some.mp hcalled
  have hx := Server.getClient_fd htidy.fds (mem_of_speaker hspeaker)
  obtain ⟨env, -, hdone⟩ := hstep.called hcalled
  rw [Server.handleLine_join env htidy.named.distinct (oneLine_of_speaker htidy hspeaker) haccepts
    hverb hx hlogin, Server.execJoin_eq] at hdone
  cases hch : w.srv.getChannel (Parser.parse line).function with
  | none =>
      obtain ⟨text, hattempt⟩ := Server.joinAttempt_created hx hch
      rw [hattempt, catching_done] at hdone
      rw [← Outcome.done.inj hdone]
      rfl
  | some ch =>
      dsimp only
      by_cases hadmits : w.srv.Admits ch x (Parser.parse line).value
      · obtain ⟨messages, hattempt⟩ := Server.joinAttempt_admitted hx hch hadmits
        rw [hattempt, catching_done] at hdone
        rw [if_pos hadmits, ← Outcome.done.inj hdone]
        rfl
      · obtain ⟨e, text, hcaught, hattempt⟩ := Server.joinAttempt_refused hx hch hadmits
        rw [hattempt, catching_thrown, if_pos hcaught] at hdone
        rw [if_neg hadmits, ← Outcome.done.inj hdone]
        rfl

/-- **Who is added.**  A client has one more entry in a channel only after its own
`JOIN` to that channel, when nothing keeps it out. -/
theorem Stepped.added (htidy : Tidy w) (hstep : Stepped w a w') {ch ch' : Channel}
    (hch : ch ∈ w.srv.channels) (hch' : ch' ∈ w'.srv.channels) (hname : ch'.name = ch.name)
    (hcount : ch.clients.count x < ch'.clients.count x) :
    ∃ line, w.called .join a = some (x, line) ∧
      w.srv.getChannel (Parser.parse line).function = some ch ∧
        w.srv.Admits ch x (Parser.parse line).value := by
  have hsame : ∀ old ∈ w.srv.channels, old.name = ch.name → old = ch := fun old hold heq =>
    List.inj_on_of_nodup_map htidy.named.distinct hold hch heq
  have hnew : ch' ∉ w.srv.channels := by
    intro hold
    rw [hsame ch' hold hname] at hcount
    exact lt_irrefl _ hcount
  rcases hstep.channels htidy hch' with ⟨old, hold, hthins⟩ | ⟨p, line, hspeaker, hverb, -⟩
  · have hle := hthins.clients.count_le x
    rw [hsame old hold (hthins.name.symm.trans hname)] at hle
    exact absurd hcount (not_lt.mpr hle)
  · have hcalled : w.called .join a = some (p, line) := World.called_eq_some.mpr ⟨hspeaker, hverb⟩
    rw [hstep.joined htidy hcalled] at hch'
    cases hfound : w.srv.getChannel (Parser.parse line).function with
    | none =>
        rw [hfound] at hch'
        rcases List.mem_append.mp hch' with hold | hcreated
        · exact (hnew hold).elim
        · rw [List.mem_singleton.mp hcreated] at hname
          have hother := List.find?_eq_none.mp hfound ch hch
          exact absurd (decide_eq_true hname.symm) hother
    | some found =>
        rw [hfound] at hch'
        dsimp only at hch'
        split at hch'
        · rename_i hadmits
          obtain ⟨old, hold, rfl⟩ := List.mem_map.mp hch'
          by_cases heq : old.name = (found.pushClient p).name
          · rw [if_pos heq] at hname hcount
            obtain rfl := hsame found (Server.mem_of_getChannel hfound) hname
            obtain rfl : p = x := by
              by_contra hne
              simp [Channel.pushClient, hne] at hcount
            exact ⟨line, hcalled, hfound, hadmits⟩
          · rw [if_neg heq] at hnew
            exact (hnew hold).elim
        · exact (hnew hch').elim

end FtIrc
