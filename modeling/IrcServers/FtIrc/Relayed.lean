import IrcServers.FtIrc.Plain
import IrcServers.FtIrc.Endings

/-!
# Line breaks that clients supply

Command lines are cut at CRLF pairs only, and a lone line keeps its CRLF, so the
words of a line can have line breaks.  `PRIVMSG`, `NOTICE` and `KICK` trim them
from the ends of a text, `TOPIC`, `QUIT` and `USER` do not.  `Supplies` says
which texts of a line the server stores for others to see, or relays to others;
as long as none of them has a line break, what others are sent is lines.
-/

namespace FtIrc

open Utils Text Outcome

namespace Server

/-- A member of the channel other than the client on `fd`. -/
def Others (s : Server) (fd : Fd) (ch : Channel) : Prop := ∃ p ∈ ch.clients, (s.memory p).fd ≠ fd

/-- A text for this target reaches a client other than the one on `fd`. -/
def Reaches (s : Server) (fd : Fd) (target : Str) : Prop :=
  (∃ client ∈ s.getClientByNickName target, (s.memory client).fd ≠ fd) ∨
    s.getClientByNickName target = none ∧ ∃ ch ∈ s.getChannel target, s.Others fd ch

/-- A change of mode that stores its parameters for others to see, or relays
them. -/
def ModeSupplies (s : Server) (fd : Fd) (ch : Channel) (info : ModeInfo) : Prop :=
  modeKey info = "k".toList ∨
    (s.Others fd ch ∧
      (modeKey info = "b".toList ∨ modeKey info = "i".toList ∨
        info.status = true ∧ (modeKey info = "l".toList ∨ modeKey info = "t".toList)))

/-- The texts that a command behind the login test supplies have no line
break. -/
def LoginUnbroken (env : Env) (s : Server) (message : Str) (fd : Fd) : Verb → Prop
  | .privmsg | .notice =>
      ∀ info ∈ Parser.privateMessage message, s.Reaches fd info.target → Unbroken info.message
  | .join =>
      s.getChannel (Parser.parse message).function = none →
        Unbroken (Parser.parse message).function
  | .mode =>
      ∀ info ∈ modeCall env message, ∀ ch ∈ s.getChannel info.channel,
        (ch.getOperator s.memory fd).isSome = true → s.ModeSupplies fd ch info →
          Unbroken info.parameters
  | .kick =>
      ∀ parsed ∈ kickParse message, ∀ ch ∈ s.getChannel parsed.1.function,
        (ch.getOperator s.memory fd).isSome = true →
          (ch.getClientByNickName s.memory parsed.1.value).isSome = true → s.Others fd ch →
            Unbroken parsed.2
  | .topic =>
      ∀ ch ∈ s.getChannel (Parser.parse message).function,
        (ch.getOperator s.memory fd).isSome = true → (Parser.parse message).value ≠ [] →
          s.Others fd ch → ∀ text ∈ (split message colon)[1]?, Unbroken text
  | _ => True

/-- The texts that a command supplies have no line break. -/
def VerbUnbroken (env : Env) (s : Server) (message : Str) (fd : Fd) : Verb → Prop
  | .quit => s.quitTold fd ≠ [] → ∀ text ∈ (split message colon)[1]?, Unbroken text
  | .user => ∀ user ∈ Parser.userParse message, Unbroken user.1 ∧ Unbroken user.2
  | .nick =>
      s.getClientByNickName (Parser.parse message).function = none →
        Unbroken (Parser.parse message).function
  | .pass => True
  | verb =>
      ∀ client ∈ s.getClient fd, (s.memory client).login = true →
        s.LoginUnbroken env message fd verb

/-- The texts of a line that its handling stores for others to see, or relays to
others, have no line break. -/
def LineUnbroken (env : Env) (s : Server) (message : Str) (fd : Fd) : Prop :=
  Checker.accepts message = true → s.VerbUnbroken env message fd (verbOf (commandOf message))

section Decide

variable (env : Env) (s : Server) (message : Str) (fd : Fd)

instance (ch : Channel) : Decidable (s.Others fd ch) := inferInstanceAs (Decidable (∃ _ ∈ _, _))

instance (target : Str) : Decidable (s.Reaches fd target) := inferInstanceAs (Decidable (_ ∨ _ ∧ _))

instance (ch : Channel) (info : ModeInfo) : Decidable (s.ModeSupplies fd ch info) :=
  inferInstanceAs (Decidable (_ ∨ _))

instance : (verb : Verb) → Decidable (s.LoginUnbroken env message fd verb)
  | .privmsg | .notice => inferInstanceAs (Decidable (∀ info ∈ Parser.privateMessage message, _))
  | .join => inferInstanceAs (Decidable (_ → Unbroken _))
  | .mode => inferInstanceAs (Decidable (∀ info ∈ modeCall env message, _))
  | .kick => inferInstanceAs (Decidable (∀ parsed ∈ kickParse message, _))
  | .topic => inferInstanceAs (Decidable (∀ ch ∈ s.getChannel _, _))
  | .quit | .nick | .user | .pass | .unknown | .part | .who | .invite | .whois => .isTrue trivial

instance : (verb : Verb) → Decidable (s.VerbUnbroken env message fd verb)
  | .quit => inferInstanceAs (Decidable (_ → ∀ text ∈ (split message colon)[1]?, _))
  | .user => inferInstanceAs (Decidable (∀ user ∈ Parser.userParse message, _))
  | .nick => inferInstanceAs (Decidable (_ → Unbroken _))
  | .pass => .isTrue trivial
  | .unknown | .privmsg | .notice | .join | .part | .who | .mode | .kick | .invite | .topic
  | .whois => inferInstanceAs (Decidable (∀ client ∈ s.getClient fd, _))

instance : Decidable (s.LineUnbroken env message fd) := inferInstanceAs (Decidable (_ → _))

end Decide

variable {s s' : Server} {ch : Channel} {fd : Fd} {message : Str} {client : ClientPtr}
  {info : ModeInfo} {own : Option Fd}

/-- A member with another descriptor is one of the others. -/
theorem others_of_mem {p : ClientPtr} (hp : p ∈ ch.clients)
    (hother : some fd ≠ some (s.memory p).fd) : s.Others fd ch :=
  ⟨p, hp, fun heq => hother (congrArg some heq.symm)⟩

/-- The refusal goes to the one who asked. -/
theorem throwNotOperator_relays (h : s.Plain) (fd : Fd) (name : Str) :
    (s.throwNotOperator fd name).Leaves (s.Relays (some fd)) :=
  .require fun _ _ => (Relays.refl h).throwClient _ _

/-- So does the answer to an unknown command. -/
theorem unknownCommand_relays (h : s.Plain) (fd : Fd) (text : Str) :
    (Checker.unknownCommand s fd text).Leaves (s.Relays (some fd)) :=
  .require fun _ _ => (Relays.refl h).throwClient _ _

/-- So does whatever the checker says. -/
theorem check_relays (h : s.Plain) (message : Str) (fd : Fd) :
    (Checker.check s message fd).Leaves (s.Relays (some fd)) := by
  unfold Checker.check
  refine .ite (fun _ => ?_) (fun _ => unknownCommand_relays h fd _)
  split
  · exact leaves_thrown.mpr (.refl h)
  · exact .ite (fun _ => unknownCommand_relays h fd _) (fun _ => leaves_done.mpr (.refl h))

/-- The greeting goes to the client itself. -/
theorem login_relays (h : s.Relays (some fd) s') (hfd : (s'.memory client).fd = fd) :
    (s'.login client).Leaves (s.Relays (some fd)) := by
  unfold login
  refine .ite (fun _ => .ite (fun _ => leaves_done.mpr h) (fun _ => ?_)) (fun _ => ?_)
  · have hp := h.plain.memory client
    refine leaves_done.mpr ((h.sendAllOwn ?_).setClient ?_)
    · simp [hfd]
    · exact ⟨hp.nickName, hp.userName, hp.realName, hp.hostName⟩
  · exact hfd ▸ (hfd.symm ▸ h).throwClient _ _

/-- `USER` stores a user name and a real name that have no line break. -/
theorem execUser_relays (h : s.Plain)
    (htext : ∀ user, Parser.userParse message = some user → Unbroken user.1 ∧ Unbroken user.2) :
    (s.execUser message fd).Leaves (s.Relays (some fd)) := by
  refine .require fun user huser => .require fun client hc => ?_
  obtain ⟨huserName, hrealName⟩ := htext user huser
  have hp := h.memory client
  have hset : s.Relays (some fd) (s.setClient client fun c =>
      { c with userName := user.1, realName := user.2 }) :=
    (Relays.refl h).setClient ⟨hp.nickName, huserName, hrealName, hp.hostName⟩
  have hlogin : ((s.setClient client fun c =>
      { c with userName := user.1, realName := user.2 }).login client).Leaves
      (s.Relays (some fd)) :=
    login_relays hset (by simpa [setClient] using fd_of_getClient hc)
  split
  · rename_i s' hthrown
    rw [hthrown] at hlogin
    exact leaves_done.mpr ((leaves_thrown.mp hlogin).removeClient fd)
  · exact hlogin

/-- `NICK` stores a free nickname, which has none. -/
theorem execNick_relays (h : s.Plain)
    (htext : s.getClientByNickName (Parser.parse message).function = none →
      Unbroken (Parser.parse message).function) :
    (s.execNick message fd).Leaves (s.Relays (some fd)) := by
  refine .require fun client hc => .ite (fun _ => ?_) (fun hfree => ?_)
  · have hp := h.memory client
    exact leaves_done.mpr (((Relays.refl h).sendOwn _).setClient
      ⟨hp.nickName, hp.userName, hp.realName, hp.hostName⟩)
  · have hname := htext (by simpa using hfree)
    have hp := h.memory client
    have hset : s.Relays (some fd) (s.setClient client fun c =>
        { c with nickName := (Parser.parse message).function }) :=
      (Relays.refl h).setClient ⟨hname, hp.userName, hp.realName, hp.hostName⟩
    dsimp only
    generalize hs : (if (s.memory client).nickName ≠ "*".toList then _ else _ : Server) = s'
    have htold : s.Relays (some fd) s' ∧ (s'.memory client).fd = fd := by
      rw [← hs]
      split
      · refine ⟨hset.sendAll fun entry hmem _ => ?_, ?_⟩
        · obtain ⟨target, -, rfl⟩ := List.mem_map.mp hmem
          exact Unbroken.line (by simp [hp.nickName, hname])
        · simpa [sendAll, setClient] using fd_of_getClient hc
      · exact ⟨hset, by simpa [setClient] using fd_of_getClient hc⟩
    have hq := htold.1.plain.memory client
    refine .ite (fun _ => ?_) (fun _ => leaves_done.mpr htold.1)
    refine login_relays (htold.1.setClient ⟨hname, hq.userName, hq.realName, hq.hostName⟩) ?_
    simpa [setClient] using htold.2

/-- `PASS` stores a password that nobody is told. -/
theorem execPass_relays (h : s.Plain) : (s.execPass message fd).Leaves (s.Relays (some fd)) := by
  refine .require fun client _ => ?_
  have hp := h.memory client
  exact leaves_done.mpr ((Relays.refl h).setClient
    ⟨hp.nickName, hp.userName, hp.realName, hp.hostName⟩)

/-- A text is relayed only where it reaches another client. -/
theorem relay_relays (h : s.Plain) {target text : Str}
    (htext : s.Reaches fd target → ProtocolLine text) (toSelf : Bool) :
    s.Relays (some fd) (s.relay fd target text toSelf) := by
  unfold relay
  split
  · rename_i client hclient
    have hreaches : some fd ≠ some (s.memory client).fd → s.Reaches fd target :=
      fun hother => Or.inl ⟨client, hclient, fun heq => hother (congrArg some heq.symm)⟩
    dsimp only
    split
    · exact (Relays.refl h).send fun hother => htext (hreaches hother)
    · exact .refl h
  · rename_i hnone
    split
    · rename_i ch hch
      refine (Relays.refl h).sendAll fun entry hmem _ => ?_
      obtain ⟨target', htarget, rfl⟩ := List.mem_map.mp hmem
      obtain ⟨hin, hother⟩ := List.mem_filter.mp htarget
      obtain ⟨p, hp, rfl⟩ := List.mem_map.mp hin
      exact htext (Or.inr ⟨hnone, ch, hch, p, hp, by simpa using hother⟩)
    · exact .refl h

/-- The nickname of a client has no line break. -/
theorem Plain.getClientByNickName (h : s.Plain) {name : Str}
    (hc : s.getClientByNickName name = some client) : Unbroken name := by
  have hname : (s.memory client).nickName = name := by simpa using List.find?_some hc
  exact hname ▸ (h.memory client).nickName

/-- So a name by which a member is found has none. -/
theorem Plain.member (h : s.Plain) {name : Str}
    (hc : ch.getClientByNickName s.memory name = some client) : Unbroken name := by
  have hname : (s.memory client).nickName = name := by simpa using List.find?_some hc
  exact hname ▸ (h.memory client).nickName

/-- Nor has a name by which a channel is found. -/
theorem Plain.of_getChannel (h : s.Plain) {name : Str} (hch : s.getChannel name = some ch) :
    Unbroken name :=
  name_of_getChannel hch ▸ (h.getChannel hch).name

/-- A target that a text reaches is the name of a client or of a channel. -/
theorem Reaches.unbroken (h : s.Plain) {target : Str} (hreaches : s.Reaches fd target) :
    Unbroken target := by
  rcases hreaches with ⟨client, hc, -⟩ | ⟨-, ch, hch, -⟩
  · exact h.getClientByNickName hc
  · exact h.of_getChannel hch

/-- `PRIVMSG` relays a text that has no line break if anybody hears it. -/
theorem execPrivMsg_relays (h : s.Plain)
    (htext : ∀ info, Parser.privateMessage message = some info → s.Reaches fd info.target →
      Unbroken info.message) :
    (s.execPrivMsg message fd).Leaves (s.Relays (some fd)) := by
  refine .require fun client _ => .require fun info hinfo => leaves_done.mpr ?_
  refine relay_relays h (fun hreaches => Unbroken.line ?_) true
  simp [(h.memory client).nickName, hreaches.unbroken h, htext info hinfo hreaches]

/-- So does `NOTICE`. -/
theorem execNotice_relays (h : s.Plain)
    (htext : ∀ info, Parser.privateMessage message = some info → s.Reaches fd info.target →
      Unbroken info.message) :
    (s.execNotice message fd).Leaves (s.Relays (some fd)) := by
  refine .require fun info hinfo => .require fun client _ => leaves_done.mpr ?_
  refine relay_relays h (fun hreaches => Unbroken.line ?_) false
  simp [(h.memory client).source, hreaches.unbroken h, htext info hinfo hreaches]

/-- The members are told the name of the channel and its modes. -/
theorem joinTell_relays (h : s.Relays own s') {sender : Client} (hsender : sender.Plain)
    {name : Str} (hname : Unbroken name) (ch : Channel) :
    s.Relays own (s'.joinTell ch sender name) := by
  refine h.sendAll fun entry hmem _ => ?_
  obtain ⟨p, -, rfl⟩ := List.mem_map.mp hmem
  refine Unbroken.line ?_
  simp only [unbroken_append, hsender.source, hsender.shownHost, hname]
  decide

/-- A `JOIN` that creates a channel names it without a line break. -/
theorem execJoin_relays (h : s.Plain)
    (htext : s.getChannel (Parser.parse message).function = none →
      Unbroken (Parser.parse message).function) :
    (s.execJoin message fd).Leaves (s.Relays (some fd)) := by
  unfold execJoin
  rw [leaves_catching]
  dsimp only
  split
  · rename_i ch hch
    refine .ite (fun _ => (Relays.refl h).throwClient _ _) (fun _ => .require fun client hc => ?_)
    split
    · exact fd_of_getClient hc ▸ (Relays.refl h).throwClient _ _
    · exact leaves_done.mpr (joinTell_relays
        ((Relays.refl h).putChannel ((h.getChannel hch).pushClient client)) (h.memory client)
        (h.of_getChannel hch) _)
  · rename_i hnew
    refine .require fun client hc => leaves_done.mpr (Relays.sendOwn ?_ _)
    have hchannel : (Channel.new (Parser.parse message).function).Plain :=
      ⟨htext hnew, unbroken_nil⟩
    exact (Relays.refl h).addChannel (hchannel.pushClient client)

/-- `PART` tells the members who leaves. -/
theorem execPart_relays (h : s.Plain) : (s.execPart message fd).Leaves (s.Relays (some fd)) := by
  unfold execPart
  refine .require fun client hc => ?_
  dsimp only
  split
  · rename_i ch hch
    have hline : Unbroken (":".toList ++ (s.memory client).nickName ++ " PART ".toList ++
        (Parser.parse message).function) := by
      simp [(h.memory client).nickName, h.of_getChannel hch]
    refine leaves_done.mpr (((Relays.refl h).broadcast fun _ _ _ => hline.line).putChannel ?_)
    exact (h.getChannel hch).removeClient _
  · exact leaves_done.mpr (.refl h)

/-- The list of nicknames is one line. -/
theorem Plain.clientNames (h : s.Plain) (ch : Channel) : Unbroken (s.clientNames ch) := by
  unfold Server.clientNames
  refine List.foldlRecOn _ _ unbroken_nil fun names hnames entry _ => ?_
  simp [hnames, (h.memory entry.1).nickName]

/-- Whatever a `WHO` shows is stored. -/
theorem execWho_relays (h : s.Plain) : (s.execWho message fd).Leaves (s.Relays none) := by
  unfold execWho
  dsimp only
  split
  · rename_i ch hch
    refine .require fun member _ => leaves_done.mpr ((Relays.refl h).sendAll fun entry hmem _ => ?_)
    have hp := h.memory member
    have hc := h.getChannel hch
    simp only [List.mem_append, List.mem_cons, List.mem_map, List.not_mem_nil, or_false] at hmem
    rcases hmem with (rfl | rfl | rfl | ⟨p, -, rfl⟩) | rfl
    · exact Unbroken.line (by simp [h.name, hp.nickName, hc.name, h.clientNames])
    · exact Unbroken.line (by simp [h.name, hp.nickName, hc.name])
    · exact Unbroken.line (by simp [h.name, hp.nickName, hc.name, hc.getModes])
    · have hother := h.memory p
      refine Unbroken.line ?_
      simp only [unbroken_append, h.name, hp.nickName, hc.name, hother.userName, hother.shownHost,
        hother.nickName, hother.realName]
      decide
    · exact Unbroken.line (by simp [h.name, hp.nickName, hc.name])
  · exact leaves_done.mpr ((Relays.refl h).send fun _ => Unbroken.line (by simp [h.name]))

/-- `WHOIS` answers the one who asks. -/
theorem execWhois_relays (h : s.Plain) : (s.execWhois message fd).Leaves (s.Relays (some fd)) := by
  have hown : ∀ client, s.getClient fd = some client → (s.memory client).fd = fd :=
    fun client hc => fd_of_getClient hc
  unfold execWhois
  dsimp only
  split
  · refine .require fun client hc => ?_
    split
    · refine leaves_done.mpr ((Relays.refl h).sendAllOwn fun entry hmem => ?_)
      simp only [List.mem_append, List.mem_map, List.mem_singleton] at hmem
      rcases hmem with ⟨p, -, rfl⟩ | rfl <;> exact hown client hc
    · exact leaves_done.mpr ((Relays.refl h).sendOwn _)
  · split
    · refine .require fun client hc => leaves_done.mpr ((Relays.refl h).sendAllOwn ?_)
      intro entry hmem
      simp only [List.mem_cons, List.not_mem_nil, or_false] at hmem
      rcases hmem with rfl | rfl <;> exact hown client hc
    · exact leaves_done.mpr (.refl h)

/-- `KICK` tells the members a reason without a line break. -/
theorem execKick_relays (h : s.Plain)
    (htext : ∀ parsed, kickParse message = some parsed →
      ∀ ch, s.getChannel parsed.1.function = some ch →
        (ch.getOperator s.memory fd).isSome = true →
          (ch.getClientByNickName s.memory parsed.1.value).isSome = true → s.Others fd ch →
            Unbroken parsed.2) :
    (s.execKick message fd).Leaves (s.Relays (some fd)) := by
  refine .require fun parsed hparsed => ?_
  dsimp only
  rw [leaves_catching]
  refine .require fun ch hch => .ite (fun _ => throwNotOperator_relays h fd _) (fun hguard => ?_)
  have hop := Channel.passes_guard_iff.mp hguard
  have hc := h.getChannel hch
  split
  · exact (Relays.refl h).throwClient _ _
  · rename_i target htarget
    have hvalue := h.member htarget
    refine leaves_done.mpr (((Relays.refl h).broadcast fun p hp hother => ?_).putChannel
      (hc.removeClient _))
    have hreason := htext parsed hparsed ch hch hop (by simp [htarget]) (others_of_mem hp hother)
    exact Unbroken.line (by simp [h.name, hc.name, hvalue, hreason])

/-- `INVITE` tells the invited client the names. -/
theorem execInvite_relays (h : s.Plain) :
    (s.execInvite message fd).Leaves (s.Relays (some fd)) := by
  unfold execInvite
  rw [leaves_catching]
  dsimp only
  split
  · exact (Relays.refl h).throwClient _ _
  · rename_i ch hch
    have hc := h.getChannel hch
    refine .ite (fun _ => throwNotOperator_relays h fd _) (fun _ => ?_)
    split
    · exact (Relays.refl h).throwClient _ _
    · rename_i target htarget
      have hvalue := h.of_getChannel hch
      cases hok : ch.addInvite target with
      | error e => exact leaves_thrown.mpr (.refl h)
      | ok ch' =>
          have hplain := hc.addInvite hok
          have hline : Unbroken (":".toList ++ s.name ++ " INVITE ".toList ++ ch'.name ++
              " ".toList ++ (Parser.parse message).value) := by
            simp [h.name, hplain.name, hvalue]
          exact leaves_done.mpr
            (((Relays.refl h).putChannel hplain).broadcast fun _ _ _ => hline.line)

/-- `TOPIC` tells the members a topic without a line break. -/
theorem execTopic_relays (h : s.Plain)
    (htext : ∀ ch, s.getChannel (Parser.parse message).function = some ch →
      (ch.getOperator s.memory fd).isSome = true → (Parser.parse message).value ≠ [] →
        s.Others fd ch → ∀ text, (split message colon)[1]? = some text → Unbroken text) :
    (s.execTopic message fd).Leaves (s.Relays (some fd)) := by
  unfold execTopic
  rw [leaves_catching]
  refine .require fun ch hch => .ite (fun _ => throwNotOperator_relays h fd _) (fun hguard => ?_)
  have hop := Channel.passes_guard_iff.mp hguard
  have hc := h.getChannel hch
  refine .ite (fun _ => .require fun _ _ => ?_) (fun hvalue => .require fun text hword => ?_)
  · exact leaves_done.mpr ((Relays.refl h).sendOwn _)
  · have hset : s.Relays (some fd) (s.putChannel { ch with topic := text }) :=
      (Relays.refl h).putChannel (hc.of_eq rfl rfl)
    refine leaves_done.mpr (hset.broadcast fun p hp hother => Unbroken.line ?_)
    have hline := htext ch hch hop hvalue (others_of_mem hp hother) text hword
    simp [h.name, hc.name, hline]

/-- The loops of `Command::execQuit`: the text that stands behind the next colon
has no line break if any member is told. -/
structure Telling (s : Server) (fd : Fd) (told : Server × Str) : Prop where
  relays : s.Relays (some fd) told.1
  memory : told.1.memory = s.memory
  text : s.quitTold fd ≠ [] → ∀ text, (split told.2 colon)[1]? = some text → Unbroken text

/-- Who is told has the text behind the colon, which has no line break. -/
theorem quitTell_telling {target : Fd} {told : Server × Str} (h : s.Telling fd told)
    (htold : target ≠ fd → s.quitTold fd ≠ []) :
    (quitTell fd target told).Leaves (s.Telling fd) := by
  unfold quitTell
  refine .ite (fun hother => .require fun text hword => .require fun client _ => ?_)
    (fun _ => leaves_done.mpr h)
  have htext := h.text (htold hother) text hword
  refine leaves_done.mpr
    ⟨h.relays.send fun _ => Unbroken.line ?_, h.memory, fun _ piece hpiece => ?_⟩
  · simp [(h.relays.plain.memory client).nickName, htext]
  · have hinfix : piece <:+: text := infix_of_mem_cutTrim (List.mem_of_getElem? hpiece)
    exact htext.of_subset hinfix.subset

/-- So have the members of one more channel. -/
theorem quitChannel_telling (hch : ch ∈ s.channels) {told : Server × Str} (h : s.Telling fd told)
    (hplain : s.Plain) : (quitChannel fd ch told).Leaves (s.Telling fd) := by
  unfold quitChannel
  rw [h.memory]
  refine .ite (fun hmember => ?_) (fun _ => leaves_done.mpr h)
  have hloop : (Outcome.each (quitTell fd) (told.1.fdsOf ch.clients) told).Leaves
      (s.Telling fd) := by
    refine .each (fun target htarget after hafter => quitTell_telling hafter fun hother => ?_) h
    have hin : target ∈ s.quitTold fd := by
      refine List.mem_flatMap.mpr ⟨ch, hch, ?_⟩
      rw [if_pos hmember, List.mem_filter]
      refine ⟨?_, by simpa using hother⟩
      unfold fdsOf at htarget ⊢
      rwa [h.memory] at htarget
    exact List.ne_nil_of_mem hin
  refine hloop.andThen fun after hafter => leaves_done.mpr ?_
  exact ⟨hafter.relays.putChannel ((hplain.channels ch hch).removeClient _), hafter.memory,
    hafter.text⟩

/-- `QUIT` tells the members a text without a line break. -/
theorem execQuit_relays (h : s.Plain)
    (htext : s.quitTold fd ≠ [] → ∀ text, (split message colon)[1]? = some text →
      Unbroken text) :
    (s.execQuit message fd).Leaves (s.Relays (some fd)) := by
  have hloop : (Outcome.each (quitChannel fd) s.channels (s, message)).Leaves (s.Telling fd) :=
    .each (fun ch hch _ htold => quitChannel_telling hch htold h) ⟨.refl h, rfl, htext⟩
  have hsent : (forgetMessage (Outcome.each (quitChannel fd) s.channels (s, message))).Leaves
      (s.Relays (some fd)) := forgetMessage_leaves (hloop.imp fun _ htold => htold.relays)
  exact hsent.andThen fun s' hs => leaves_done.mpr (hs.removeClient fd)

section Modes

variable {who : Server → Str → Fd → Result} {flag parameters : Str}

/-- The nickname of a new operator is that of a member. -/
theorem execOperator_relays (h : s.Plain) (hc : ch.Plain) :
    (s.execOperator ch info).Leaves (s.Relays own) := by
  have htell : ∀ {s'} (client : ClientPtr) (flag : String), Unbroken flag.toList →
      Unbroken info.parameters → s.Relays own s' →
      s.Relays own (s'.broadcast ch.clients ((s'.memory client).source ++ " MODE ".toList ++
        ch.name ++ flag.toList ++ info.parameters ++ crlf)) := by
    intro s' client flag hflag hparameters hs
    refine hs.broadcast fun _ _ _ => Unbroken.line ?_
    simp only [unbroken_append]
    exact ⟨⟨⟨⟨(hs.plain.memory client).source, by decide⟩, hc.name⟩, hflag⟩, hparameters⟩
  unfold execOperator
  rw [leaves_catching]
  dsimp only
  refine .ite (fun _ => .require fun client hclient => ?_) (fun _ => ?_)
  · exact (Relays.refl h).update (fun _ hok => hc.addOperator hok) fun _ _ hs =>
      leaves_done.mpr (htell client " +o " (by decide) (h.member hclient) hs)
  · exact (Relays.refl h).update (fun _ hok => hc.removeOperator hok) fun _ s' hs =>
      .require fun client hclient =>
        leaves_done.mpr (htell client " -o " (by decide) (hs.plain.member hclient) hs)

/-- A `WHO` for this channel sends only lines. -/
def WhoRelays (who : Server → Str → Fd → Result) (name : Str) : Prop :=
  ∀ s fd, s.Plain → (who s (whoMessage name) fd).Leaves (s.Relays none)

/-- The nested `WHO` answers with lines, to whomever it is made for. -/
theorem executeTo_who_relays (env : Env) (depth : Nat) {name : Str} (hname : ChannelName name) :
    WhoRelays (executeTo env (depth + 1)) name := by
  intro s fd h
  rw [hname.oneLine_who.executeTo]
  unfold handle
  rw [leaves_catching, hname.check_who]
  have hdispatch : ∀ s', s.Relays none s' →
      (s'.dispatch env (executeTo env depth) (whoMessage name) fd).Leaves (s.Relays none) := by
    intro s' hs
    unfold dispatch
    rw [hname.commandOf_who]
    exact .require fun client _ => .ite
      (fun _ => (execWho_relays hs.plain).imp fun _ hwho => hs.trans hwho)
      (fun _ => leaves_done.mpr hs)
  split
  · refine Leaves.andThen ?_ hdispatch
    refine .require fun client _ => leaves_thrown.mpr ((Relays.refl h).send fun _ => ?_)
    have hcode : Unbroken (Nat.toDigits 10 421) := by decide
    exact Unbroken.line (by
      simp [errUnknownCommand, Exception.errorCode, h.name, (h.memory client).nickName, hcode])
  · split
    · exact hdispatch s (.refl h)
    · exact leaves_thrown.mpr (.refl h)

/-- A message to every member, in its own name. -/
theorem modeTell_relays (h : s.Relays own s') (hc : ch.Plain) {text : Str}
    (htext : ∀ p ∈ ch.clients, own ≠ some (s'.memory p).fd → Unbroken text) :
    s.Relays own (s'.modeTell ch text) := by
  refine h.sendAll fun entry hmem hother => ?_
  obtain ⟨p, hp, rfl⟩ := List.mem_map.mp hmem
  exact Unbroken.line (by simp [(h.plain.memory p).source, hc.name, htext p hp hother])

/-- What the loops of `Command::execBan` keep: the members told are members of
the channel as it was. -/
structure Banning (s : Server) (own : Option Fd) (ch : Channel) (s' : Server) : Prop where
  relays : s.Relays own s'
  memory : s'.memory = s.memory
  members : ∀ ch', s'.getChannel ch.name = some ch' → ch'.clients ⊆ ch.clients

/-- A ban tells nobody and takes no member on. -/
theorem banClient_banning (h : s.Banning own ch s') :
    (s'.banClient ch.name client).Leaves (s.Banning own ch) := by
  unfold banClient
  split
  · exact leaves_done.mpr h
  · rename_i found hfound
    have hc := h.relays.plain.getChannel hfound
    cases hok : found.addBan s'.memory client with
    | error e => exact leaves_thrown.mpr h
    | ok ch' =>
        have hplain := hc.addBan hok
        have hput := h.relays.putChannel hplain
        have hline : Unbroken (":".toList ++ s'.name ++ " KICK ".toList ++ found.name ++
            " ".toList ++ (s'.memory client).nickName ++ " :You are banned".toList) := by
          simp [h.relays.plain.name, hc.name, (h.relays.plain.memory client).nickName]
        have halters : found.Alters (fun _ => True) ch' := Channel.alters_addBan trivial hok
        refine leaves_done.mpr ⟨hput.send fun _ => hline.line, h.memory, fun after hafter => ?_⟩
        have hstored : (s'.putChannel ch').getChannel ch.name = some ch' :=
          getChannel_putChannel hfound (halters.name.trans (name_of_getChannel hfound))
        obtain rfl : ch' = after := Option.some.inj (hstored.symm.trans hafter)
        intro p hp
        refine h.members found hfound ?_
        unfold Channel.addBan at hok
        split at hok
        · cases hok
        · cases hok
          rw [Channel.removeClient_some] at hp
          unfold Channel.without at hp
          split at hp
          · exact List.mem_of_mem_erase hp
          · exact hp

/-- A member is told of the ban, and who is left on the channel. -/
theorem banTell_relays (hwho : WhoRelays who ch.name) (hsends : WhoSends who ch.name)
    (hc : ch.Plain) (h : s.Relays own s' ∧ s'.memory = s.memory) (hflag : Unbroken flag)
    (htext : own ≠ some (s.memory client).fd → Unbroken parameters) :
    (s'.banTell who ch.name flag parameters client).Leaves
      fun s'' => s.Relays own s'' ∧ s''.memory = s.memory := by
  obtain ⟨hrelays, hmemory⟩ := h
  unfold banTell
  dsimp only
  rw [hmemory]
  have htold : s.Relays own (s'.send (s.memory client).fd ((s.memory client).source ++
      " MODE ".toList ++ ch.name ++ flag ++ parameters ++ crlf)) := by
    refine hrelays.send fun hother => Unbroken.line ?_
    have hsource := (hrelays.plain.memory client).source
    rw [hmemory] at hsource
    simp [hsource, hc.name, hflag, htext hother]
  intro after hafter
  have hrest := hwho _ _ htold.plain after hafter
  exact ⟨htold.trans hrest.of_none, ((hsends _ _ after hafter).memory).trans hmemory⟩

/-- A change of bans tells the members the host name. -/
theorem execBan_relays (h : s.Plain) (hc : ch.Plain) (hch : s.getChannel ch.name = some ch)
    (hwho : WhoRelays who ch.name) (hsends : WhoSends who ch.name)
    (htext : s.Others fd ch → Unbroken info.parameters) :
    (s.execBan who ch info fd).Leaves (s.Relays (some fd)) := by
  have hmask : ∀ p ∈ ch.clients, some fd ≠ some (s.memory p).fd →
      Unbroken (banMask info.parameters) := by
    intro p hp hother
    have hparameters := htext (others_of_mem hp hother)
    unfold banMask
    split
    · exact hparameters
    · exact unbroken_append.mpr ⟨by decide, hparameters⟩
  have htell : ∀ (flag : Str) (clients : List ClientPtr) (s' : Server), Unbroken flag →
      clients ⊆ ch.clients → s.Relays (some fd) s' ∧ s'.memory = s.memory →
      (Outcome.each (banTell who ch.name flag (banMask info.parameters)) clients s').Leaves
        fun s'' => s.Relays (some fd) s'' ∧ s''.memory = s.memory := by
    intro flag clients s' hflag hsub hs
    exact .each (fun p hp _ hs' => banTell_relays hwho hsends hc hs' hflag (hmask p (hsub hp))) hs
  unfold execBan
  rw [leaves_catching]
  refine .ite (fun _ => .require fun client _ => ?_) (fun _ => ?_)
  · refine leaves_done.mpr ((Relays.refl h).sendAllOwn fun entry hmem => ?_)
    rcases List.mem_append.mp hmem with hmem | hmem
    · obtain ⟨p, -, rfl⟩ := List.mem_map.mp hmem
      rfl
    · rw [List.mem_singleton.mp hmem]
  · refine .ite (fun _ => .require fun hostName _ => ?_) (fun _ => ?_)
    · have hstart : s.Banning (some fd) ch s := by
        refine ⟨.refl h, rfl, fun ch' hch' => ?_⟩
        rw [Option.some.inj (hch.symm.trans hch')]
        exact List.Subset.refl _
      refine Leaves.andThen_of_imp (.each (fun _ _ _ hs => banClient_banning hs) hstart)
        (fun _ hs => hs.relays) fun s' hs => ?_
      refine (htell _ _ s' (by decide) ?_ ⟨hs.relays, hs.memory⟩).imp fun _ hs' => hs'.1
      cases hafter : s'.getChannel ch.name with
      | none => exact List.nil_subset _
      | some ch' => exact hs.members ch' hafter
    · refine (htell _ _ s (by decide) (List.Subset.refl _) ⟨.refl h, rfl⟩).andThen_of_imp
        (fun _ hs => hs.1) fun s' hs => .require fun hostName _ => ?_
      unfold pardon
      split
      · exact hs.1.update (fun _ hok => hc.removeBan hok) fun _ _ hs' => leaves_done.mpr hs'
      · exact .ite (fun _ => leaves_thrown.mpr hs.1) (fun _ => leaves_fault)

/-- A change of the limit tells them the limit. -/
theorem execLimit_relays (env : Env) (h : s.Plain) (hc : ch.Plain)
    (htext : s.Others fd ch → info.status = true → Unbroken info.parameters) :
    s.Relays (some fd) (s.execLimit env ch info) := by
  unfold execLimit
  split
  · rename_i hstatus
    have htold : s.Relays (some fd) (s.modeTell ch (" +l ".toList ++ info.parameters)) := by
      refine modeTell_relays (.refl h) hc fun p hp hother => ?_
      have hparameters := htext (others_of_mem hp hother) hstatus
      simp [hparameters]
    dsimp only
    split
    · exact htold
    · exact htold.putChannel (hc.of_eq rfl rfl)
  · have htold : s.Relays (some fd) (s.sendAll (ch.clients.zipIdx.map fun entry =>
        ((s.memory entry.1).fd, (s.memory entry.1).source ++ " MODE ".toList ++ ch.name ++
          " -l ".toList ++
          Utils.toString (if entry.2 = 0 then ch.getLimit else nonLimited) ++ crlf))) := by
      refine (Relays.refl h).sendAll fun entry hmem _ => ?_
      obtain ⟨pair, -, rfl⟩ := List.mem_map.mp hmem
      refine Unbroken.line ?_
      simp only [unbroken_append]
      exact ⟨⟨⟨⟨(h.memory pair.1).source, by decide⟩, hc.name⟩, by decide⟩, unbroken_toString _⟩
    dsimp only
    split
    · exact htold
    · exact htold.putChannel (hc.of_eq rfl rfl)

/-- A change of a mode tells them its parameters. -/
theorem execModeKey_relays (env : Env) (h : s.Plain) (hc : ch.Plain)
    (hch : s.getChannel ch.name = some ch) (hwho : WhoRelays who ch.name)
    (hsends : WhoSends who ch.name)
    (htext : s.ModeSupplies fd ch info → Unbroken info.parameters) :
    (s.execModeKey env who ch info fd).Leaves (s.Relays (some fd)) := by
  unfold execModeKey
  refine .ite (fun _ => execOperator_relays h hc) (fun _ => ?_)
  refine .ite (fun hb => ?_) (fun _ => .ite (fun hl => ?_) (fun _ => .ite (fun hi => ?_) (fun _ =>
    .ite (fun hk => ?_) (fun _ => .ite (fun ht => ?_) (fun _ => leaves_done.mpr (.refl h))))))
  · exact execBan_relays h hc hch hwho hsends fun hmore => htext (Or.inr ⟨hmore, Or.inl hb⟩)
  · exact leaves_done.mpr (execLimit_relays env h hc fun hmore hstatus =>
      htext (Or.inr ⟨hmore, Or.inr (Or.inr ⟨hstatus, Or.inl hl⟩)⟩))
  · have hset : s.Relays (some fd) (s.putChannel { ch with inviteOnly := info.status }) :=
      (Relays.refl h).putChannel (hc.of_eq rfl rfl)
    refine leaves_done.mpr (modeTell_relays hset hc fun p hp hne => ?_)
    have hparameters := htext (Or.inr ⟨others_of_mem hp hne, Or.inr (Or.inl hi)⟩)
    have hflag : ∀ status : Bool, Unbroken (if status then " +i ".toList else " -i ".toList) := by
      decide
    exact unbroken_append.mpr ⟨hflag info.status, hparameters⟩
  · have hparameters := htext (Or.inl hk)
    have hset : { ch with password := info.parameters }.Plain := ⟨hc.name, hparameters⟩
    refine leaves_done.mpr (modeTell_relays ((Relays.refl h).putChannel hset) hc fun _ _ _ => ?_)
    have hflag : ∀ status : Bool, Unbroken (if status then " +k ".toList else " -k ".toList) := by
      decide
    exact unbroken_append.mpr ⟨hflag info.status, hparameters⟩
  · have hset : s.Relays (some fd) (s.putChannel { ch with topic := info.parameters }) :=
      (Relays.refl h).putChannel (hc.of_eq rfl rfl)
    refine leaves_done.mpr (hset.broadcast fun p hp hne => Unbroken.line ?_)
    have hend : Unbroken (if info.status then " :".toList ++ info.parameters
        else " :No topic is set".toList) := by
      refine unbroken_ite.mpr ⟨fun hstatus => ?_, fun _ => by decide⟩
      have hparameters := htext
        (Or.inr ⟨others_of_mem hp hne, Or.inr (Or.inr ⟨hstatus, Or.inr ht⟩)⟩)
      exact unbroken_append.mpr ⟨by decide, hparameters⟩
    simp only [unbroken_append]
    exact ⟨⟨⟨⟨by decide, h.name⟩, by decide⟩, hc.name⟩, hend⟩

/-- `MODE` does so for an operator, and answers anybody else. -/
theorem execMode_relays (env : Env) (h : s.Plain)
    (hwho : ∀ ch ∈ s.channels, WhoRelays who ch.name ∧ WhoSends who ch.name)
    (htext : ∀ info, modeCall env message = some info →
      ∀ ch, s.getChannel info.channel = some ch → (ch.getOperator s.memory fd).isSome = true →
        s.ModeSupplies fd ch info → Unbroken info.parameters) :
    (s.execMode env who message fd).Leaves (s.Relays (some fd)) := by
  refine leaves_execMode (.refl h) (fun name => throwNotOperator_relays h fd name)
    fun info ch hcall hch hop => ?_
  obtain ⟨hrelays, hsends⟩ := hwho ch (mem_of_getChannel hch)
  exact execModeKey_relays env h (h.getChannel hch) (getChannel_self hch) hrelays hsends
    (htext info hcall ch hch hop)

end Modes

/-- Each command behind the login test relays lines, if its texts are unbroken. -/
theorem dispatchLogin_relays {who : Server → Str → Fd → Result} (env : Env) (h : s.Plain)
    (hwho : ∀ ch ∈ s.channels, WhoRelays who ch.name ∧ WhoSends who ch.name) (verb : Verb)
    (htext : s.LoginUnbroken env message fd verb) (client : ClientPtr) :
    (s.dispatchLogin env who client message fd verb).Leaves (s.Relays (some fd)) := by
  cases verb with
  | privmsg => exact execPrivMsg_relays h htext
  | notice => exact execNotice_relays h htext
  | join => exact execJoin_relays h htext
  | part => exact execPart_relays h
  | who => exact (execWho_relays h).imp fun _ hs => hs.of_none
  | mode => exact execMode_relays env h hwho htext
  | kick => exact execKick_relays h htext
  | invite => exact execInvite_relays h
  | topic => exact execTopic_relays h htext
  | whois => exact execWhois_relays h
  | quit | nick | user | pass | unknown => exact (Relays.refl h).throwClient _ _

/-- **One line.**  If the texts it supplies have no line break, others are sent
lines only, and no stored text gets a line break. -/
theorem handle_relays {who : Server → Str → Fd → Result} (env : Env) (h : s.Plain)
    (hwho : ∀ ch ∈ s.channels, WhoRelays who ch.name ∧ WhoSends who ch.name)
    (htext : s.LineUnbroken env message fd) :
    (s.handle env who message fd).Leaves (s.Relays (some fd)) := by
  unfold handle
  rw [leaves_catching]
  by_cases haccepts : Checker.accepts message = true
  · rw [check_of_accepts s fd haccepts, andThen_done]
    have hverb := htext haccepts
    unfold dispatch
    generalize verbOf (commandOf message) = verb at hverb
    cases verb with
    | quit => exact execQuit_relays h hverb
    | user => exact execUser_relays h hverb
    | nick => exact execNick_relays h hverb
    | pass => exact execPass_relays h
    | _ =>
        exact .require fun client hc => .ite
          (fun hlogin => dispatchLogin_relays env h hwho _ (hverb client hc hlogin) client)
          (fun _ => leaves_done.mpr (.refl h))
  · rw [check_andThen_of_not_accepts s fd haccepts]
    exact check_relays h message fd

/-- So does the handling of a line, with exceptions and all. -/
theorem handleLine_relays (env : Env) (hnamed : s.Named) (h : s.Plain) (hline : OneLine message)
    (htext : s.LineUnbroken env message fd) :
    (handleLine env s message fd).Leaves (s.Relays (some fd)) := by
  rw [handleLine, hline.executeTo]
  refine handle_relays env h (fun ch hch => ?_) htext
  have hname := hnamed.good ch hch
  exact ⟨executeTo_who_relays env 0 hname, executeTo_who_sends env 0 hname⟩

end Server

/-- The texts that come with a step and that others may be told have no line
break: the host name of a new connection, and what a line supplies. -/
def SuppliesUnbroken (w : World) : Action → Prop
  | .accept _ hostName => Unbroken hostName
  | .line env => ∀ entry ∈ w.pending, ∀ line ∈ entry.2.head?, w.srv.LineUnbroken env line entry.1
  | .gather | .read _ _ | .readFails _ => True

instance (w : World) : (a : Action) → Decidable (SuppliesUnbroken w a)
  | .accept _ hostName => inferInstanceAs (Decidable (Unbroken hostName))
  | .line _ => inferInstanceAs (Decidable (∀ entry ∈ w.pending, _))
  | .gather | .read _ _ | .readFails _ => .isTrue trivial

variable {trace : Run.Trace World Action} {w w' : World} {a : Action}

/-- At the start there are no texts but those of the server. -/
theorem plain_start (h : Start w) : w.srv.Plain := by
  obtain ⟨password, createdDate, listener, keepsFd, rfl⟩ := h
  have hname : Unbroken defaultName := by decide
  have hnew : (Client.new 0 []).Plain := ⟨by decide, by decide, by decide, by decide⟩
  exact ⟨hname, fun _ => hnew, fun ch hch => by cases hch⟩

/-- A step that supplies no line break stores none. -/
theorem plain_step (htidy : Tidy w) (hplain : w.srv.Plain) (hcond : SuppliesUnbroken w a)
    (hstep : step w a = some w') : w'.srv.Plain := by
  cases stepped_of_step hstep with
  | gather hidle => exact hplain
  | @accept fd hostName hphase hlistener hnew =>
      refine ⟨hplain.name, fun p => ?_, hplain.channels⟩
      have hstar : Unbroken "*".toList := by decide
      have hclient : (Client.new fd hostName).Plain := ⟨hstar, hstar, hstar, hcond⟩
      by_cases hp : p = w.srv.nextPtr
      · subst hp
        simpa [Server.addClient] using hclient
      · simpa [Server.addClient, hp] using hplain.memory p
  | @read fd message hphase hidle hpolled hclient =>
      have hremoved : w.srv.Relays none (w.srv.removeClient fd) :=
        (Server.Relays.refl hplain).removeClient fd
      unfold World.read
      split
      · exact hremoved.plain
      · exact hplain
  | readFails hphase hidle => exact hplain
  | @line env fd line lines s hpending hdone =>
      have hline := htidy.lines fd _ hpending line List.mem_cons_self
      have hleaves := Server.handleLine_relays env htidy.named hplain hline
        (hcond _ hpending line rfl)
      rw [hdone] at hleaves
      exact (leaves_done.mp hleaves).plain

/-- No stored text gets a line break in a run that meets the condition. -/
theorem plain_of_meets (run : Steps trace w) (hmeets : Run.Meets SuppliesUnbroken trace) :
    w.srv.Plain := by
  have hboth : Tidy w ∧ w.srv.Plain :=
    run.invariant_of_meets (fun w => Tidy w ∧ w.srv.Plain)
      (fun _ h => ⟨tidy_start h, plain_start h⟩)
      (fun _ _ _ h hcond hstep =>
        ⟨h.1.stepped (stepped_of_step hstep), plain_step h.1 h.2 hcond hstep⟩) hmeets
  exact hboth.2

/-- **What others are sent.**  In a run in which no text that others may be told
comes with a line break, whatever the handling of the next such line sends to
another descriptor is one line of the protocol. -/
theorem relayed_on_one_line (run : Steps trace w) (hmeets : Run.Meets SuppliesUnbroken trace)
    {env : Env} {fd : Fd} {line : Str} {lines : List Str}
    (hpending : w.pending = some (fd, line :: lines)) (hnext : SuppliesUnbroken w (.line env)) :
    (handleLine env w.srv line fd).Leaves fun s' =>
      ∃ messages, s'.sent = w.srv.sent ++ messages ∧
        ∀ message ∈ messages, message.1 ≠ fd → ProtocolLine message.2 := by
  have htidy := tidy run
  have hline := htidy.lines fd _ hpending line List.mem_cons_self
  refine (Server.handleLine_relays env htidy.named (plain_of_meets run hmeets) hline
    (hnext _ hpending line rfl)).imp fun s' hs => ?_
  obtain ⟨messages, hsent, hlines⟩ := hs.sent
  exact ⟨messages, hsent, fun message hmem hother =>
    hlines message hmem fun heq => hother (Option.some.inj heq).symm⟩

/-- A text to a channel reaches its other member. -/
theorem relayed_on_one_line_privmsg : ∃ trace w s', Steps trace w ∧
    handleLine Env.calm w.srv "PRIVMSG #c :hi\r\n".toList 5 = .done s' ∧
    (6, ":a PRIVMSG #c :hi\r\n".toList) ∈ s'.sent ∧
    ∃ messages, s'.sent = w.srv.sent ++ messages ∧
      ∀ message ∈ messages, message.1 ≠ 5 → ProtocolLine message.2 := by
  obtain ⟨trace, w, run, hmeets, htest⟩ := Run.exists_steps_meeting step SuppliesUnbroken start_pw
    ([.gather, .accept 5 "h".toList, .gather, .accept 6 "i".toList, .gather] ++
      packet 5 ["PASS pw", "NICK a", "USER a a a :n", "JOIN #c"] ++
      packet 6 ["PASS pw", "NICK b", "USER b b b :n", "JOIN #c"] ++
      [.read 5 "PRIVMSG #c :hi\r\n".toList])
    (fun w => w.pending = some (5, ["PRIVMSG #c :hi\r\n".toList]) ∧
      SuppliesUnbroken w (.line Env.calm) ∧
      (handleLine Env.calm w.srv "PRIVMSG #c :hi\r\n".toList 5).ending = .returned ∧
      (handleLine Env.calm w.srv "PRIVMSG #c :hi\r\n".toList 5).state?.any fun s' =>
        (6, ":a PRIVMSG #c :hi\r\n".toList) ∈ s'.sent) (by decide +kernel)
  obtain ⟨hpending, hnext, hreturned, hsent⟩ := of_decide_eq_true htest
  obtain ⟨s', hdone⟩ := ending_eq_returned.mp hreturned
  have hleaves := relayed_on_one_line run hmeets hpending hnext
  rw [hdone] at hsent hleaves
  exact ⟨trace, w, s', run, hdone, of_decide_eq_true hsent, hleaves s' rfl⟩

/-- A topic keeps the CRLF of the line that sets it, so the other members are
sent an empty line after it. -/
theorem topic_relays_line_break :
    ¬ ∀ trace w env fd line lines, Steps trace w → w.pending = some (fd, line :: lines) →
      (handleLine env w.srv line fd).Leaves fun s' =>
        ∃ messages, s'.sent = w.srv.sent ++ messages ∧
          ∀ message ∈ messages, message.1 ≠ fd → ProtocolLine message.2 := by
  intro hall
  obtain ⟨trace, w, run, htest⟩ := Run.exists_steps_of_perform step start_pw
    ([.gather, .accept 5 "h".toList, .gather, .accept 6 "i".toList, .gather] ++
      packet 5 ["PASS pw", "NICK a", "USER a a a :n", "JOIN #c"] ++
      packet 6 ["PASS pw", "NICK b", "USER b b b :n", "JOIN #c"] ++
      [.read 5 "TOPIC #c :x\r\n".toList])
    (fun w => w.pending = some (5, ["TOPIC #c :x\r\n".toList]) ∧
      (handleLine Env.calm w.srv "TOPIC #c :x\r\n".toList 5).state?.any fun s' =>
        (s'.sent.drop w.srv.sent.length).contains
          (6, ":irc.ft_messenger.net TOPIC #c :x\r\n\r\n".toList)) (by decide +kernel)
  obtain ⟨hpending, hsent⟩ := of_decide_eq_true htest
  obtain ⟨s', hstate, hmem⟩ := (Option.any_eq_true _ _).mp hsent
  obtain ⟨messages, hnew, hlines⟩ := hall trace w Env.calm 5 _ [] run hpending s' hstate
  rw [hnew, List.drop_left] at hmem
  obtain ⟨body, hbody, htext⟩ := hlines _ (List.contains_iff_mem.mp hmem) (by decide)
  have hsame : ":irc.ft_messenger.net TOPIC #c :x\r\n".toList = body :=
    List.append_cancel_right (show _ ++ crlf = body ++ crlf from htext)
  rw [← hsame] at hbody
  exact absurd hbody (by decide)

end FtIrc
