import Mathlib.Algebra.Group.Nat.Defs
import IrcServers.FtIrc.Authority
import IrcServers.FtIrc.Parameters

/-!
# The modes that keep clients out

`Mode.cpp` has one handler for each of the letters `i`, `k` and `l`.  A handler
takes the sign and the text that `Parser::modeParse` makes of the words behind
the sign and the letter; what the check has seen is another text.  The password
is set to that text whatever the sign, and the limit to the number at its start.
-/

namespace FtIrc

open Utils Text Outcome

/-- What may keep a client out of a channel, besides a ban. -/
inductive Restriction where
  | inviteOnly | key | limit
deriving DecidableEq

/-- The letter of its mode. -/
def Restriction.letter : Restriction → Char
  | .inviteOnly => 'i'
  | .key => 'k'
  | .limit => 'l'

/-- The text that `Parser::modeParse` takes for the parameters of a mode. -/
def modeText (message : Str) : Str :=
  match (split message space).drop 3 with
  | [] => []
  | [first, second] => trim first ++ trim second
  | first :: _ => trim first

namespace Channel

/-- The channel without a restriction. -/
def lift (ch : Channel) : Restriction → Channel
  | .inviteOnly => { ch with inviteOnly := false }
  | .key => { ch with password := [] }
  | .limit => { ch with limit := nonLimited }

/-- The channel after the handler of a restriction. -/
def restrict (ch : Channel) (env : Env) (f : Restriction) (status : Bool) (text : Str) : Channel :=
  match f with
  | .inviteOnly => { ch with inviteOnly := status }
  | .key => { ch with password := text }
  | .limit =>
      if status then ch.setLimit (toInt env.junkInt text) else { ch with limit := nonLimited }

variable {ch : Channel} {env : Env} {f : Restriction} {status : Bool} {text : Str}

/-- A restriction is all that its handler changes. -/
theorem restrict_rest :
    ch.restrict env f status text = { ch with
      limit := (ch.restrict env f status text).limit
      inviteOnly := (ch.restrict env f status text).inviteOnly
      password := (ch.restrict env f status text).password } := by
  cases f with
  | inviteOnly => rfl
  | key => rfl
  | limit => cases status <;> rfl

/-- The channel keeps its name. -/
theorem restrict_name : (ch.restrict env f status text).name = ch.name := by
  rw [restrict_rest]

/-- It keeps it without a restriction too. -/
theorem lift_name : (ch.lift f).name = ch.name := by
  cases f <;> rfl

/-- Taking a restriction off forgets how it was set. -/
theorem lift_restrict : (ch.restrict env f status text).lift f = ch.lift f := by
  cases f with
  | inviteOnly => rfl
  | key => rfl
  | limit => cases status <;> rfl

/-- A minus takes the restriction off, but a password only when there is no text
behind it. -/
theorem restrict_minus_iff :
    ((ch.restrict env f false text).limit = (ch.lift f).limit ∧
      (ch.restrict env f false text).inviteOnly = (ch.lift f).inviteOnly ∧
      (ch.restrict env f false text).password = (ch.lift f).password) ↔ (f = .key → text = []) := by
  cases f with
  | inviteOnly => simp [restrict, lift]
  | key => simp [restrict, lift]
  | limit => simp [restrict, lift]

/-- A minus lifts the restriction; that of a key asks for no text. -/
theorem restrict_minus (h : f = .key → text = []) : ch.restrict env f false text = ch.lift f := by
  obtain ⟨hlimit, hinviteOnly, hpassword⟩ := restrict_minus_iff.mpr h
  rw [restrict_rest, hlimit, hinviteOnly, hpassword]
  cases f with
  | inviteOnly => rfl
  | key => rfl
  | limit => rfl

end Channel

/-- A `MODE` that the checker has let through, with a channel, a sign, a letter
and what is checked behind them. -/
structure ModeSaid (message name : Str) (sign letter : Char) (text : Str) : Prop where
  line : OneLine message
  accepts : Checker.accepts message = true
  verb : verbOf (commandOf message) = .mode
  channel : trim (firstOf (Checker.formatOf message)) = name
  mode : restOf (Checker.formatOf message) = sign :: letter :: text

namespace ModeSaid

variable {message name text : Str} {sign letter : Char}

/-- The checker has let the mode through. -/
theorem checked (h : ModeSaid message name sign letter text) :
    Checker.checkOnlyMode (Checker.formatOf message) = true := by
  obtain ⟨hspace, herror, -⟩ := Server.accepts_iff.mp h.accepts
  rw [getCommand_eq_commandOf hspace, h.verb] at herror
  exact eq_true_of_no_error herror

/-- There is a space behind the name. -/
theorem mem_space (h : ModeSaid message name sign letter text) :
    ' ' ∈ Checker.formatOf message := by
  by_contra hspace
  have hmode := h.mode
  rw [restOf_of_not_mem hspace] at hmode
  cases hmode

/-- The sign and the letter are known ones. -/
theorem sign_letter (h : ModeSaid message name sign letter text) :
    (sign = '+' ∨ sign = '-') ∧ letter ∈ ['o', 'i', 'b', 'k', 't', 'l'] := by
  obtain ⟨_, _, _, hmode, hsign, hletter⟩ := (Checker.checkOnlyMode_spec h.checked).2 h.mem_space
  rw [h.mode] at hmode
  cases hmode
  exact ⟨hsign, hletter⟩

/-- The name starts with a `#`. -/
theorem head (h : ModeSaid message name sign letter text) : name.head? = some '#' := by
  obtain ⟨command, before, format, after, hlaid⟩ := exists_laid h.accepts
  have hchecked := h.checked
  rw [hlaid.formatOf_eq] at hchecked
  have hfirst := head?_of_firstOf (Checker.checkOnlyMode_spec hchecked).1
  rw [← h.channel, hlaid.formatOf_eq, head?_trim_firstOf hlaid.trimmed, hfirst]

/-- What `Mode::Execute` reads, with no space too many behind the command. -/
theorem exists_info (h : ModeSaid message name sign letter text) (hadjacent : Adjacent message)
    (env : Env) : ∃ info, Server.modeCall env message = some info ∧ info.channel = name ∧
      info.status = decide (sign = '+') ∧ info.key = [letter] ∧
        info.parameters = modeText message := by
  obtain ⟨command, before, format, after, hlaid⟩ := exists_laid h.accepts
  obtain ⟨hsign, hletter⟩ := h.sign_letter
  have hmode := h.mode
  have hspace := h.mem_space
  have hname := h.channel
  rw [hlaid.formatOf_eq] at hmode hspace hname
  obtain ⟨words, hwords⟩ :=
    hlaid.exists_words (hlaid.adjacent_iff.mp hadjacent) hspace (by simp [hmode])
  have hflags : firstOf (restOf format ++ after) =
      sign :: letter :: firstOf (text ++ after) := by
    rw [hmode]
    refine firstOf_flags ?_ ?_
    · rintro rfl
      simp at hsign
    · rintro rfl
      simp at hletter
  have hcontains : contains space message = true := by
    rw [hlaid.text]
    exact contains_space_append hlaid.oneWord _
  unfold Server.modeCall Parser.modeParse modeText
  rw [if_neg (by simp [hcontains, hwords]), hwords, hflags]
  refine ⟨_, rfl, ?_, ?_, rfl, rfl⟩
  · dsimp only
    rw [trim_spaces_append hlaid.before, hname]
  · simp

end ModeSaid

namespace Server

variable {s s' : Server} {ch : Channel} {x : ClientPtr} {fd : Fd} {message text : Str}
  {sign : Char} {f : Restriction} {info : ModeInfo}

/-- The handlers of the restrictions. -/
def execRestriction (env : Env) (s : Server) (ch : Channel) (info : ModeInfo) :
    Restriction → Server
  | .inviteOnly => s.execInviteOnly ch info
  | .key => s.execKey ch info
  | .limit => s.execLimit env ch info

/-- The letter of a restriction calls its handler. -/
theorem execModeKey_restriction {who : Server → Str → Fd → Result} (env : Env)
    (hkey : info.key = [f.letter]) :
    s.execModeKey env who ch info fd = .done (s.execRestriction env ch info f) := by
  cases f with
  | inviteOnly => simp [execModeKey, execRestriction, hkey, Restriction.letter, toLower]
  | key => simp [execModeKey, execRestriction, hkey, Restriction.letter, toLower]
  | limit => simp [execModeKey, execRestriction, hkey, Restriction.letter, toLower]

/-- Each handler writes the channel back.  `Mode::execLimit` does it once for
every member, so there has to be one. -/
theorem execRestriction_sends (env : Env) (hmembers : ch.clients ≠ []) :
    (s.putChannel (ch.restrict env f info.status info.parameters)).Sends
      (s.execRestriction env ch info f) := by
  cases f with
  | inviteOnly => rfl
  | key => rfl
  | limit =>
      unfold execRestriction execLimit Channel.restrict
      cases info.status with
      | true =>
          simp only [if_true, if_neg hmembers]
          rfl
      | false =>
          simp only [Bool.false_eq_true, if_false, if_neg hmembers]
          rfl

/-- **A mode of an operator.**  The channel gets the restriction that the sign and
the parser's text say, and otherwise messages are sent. -/
theorem handleLine_restriction (env : Env)
    (hsaid : ModeSaid message ch.name sign f.letter text) (hadjacent : Adjacent message)
    (hx : s.getClient fd = some x) (hlogin : (s.memory x).login = true)
    (hch : s.getChannel ch.name = some ch)
    (hop : (ch.getOperator s.memory fd).isSome = true) (hmembers : ch.clients ≠ []) :
    ∃ s', handleLine env s message fd = .done s' ∧
      s'.getChannel ch.name =
        some (ch.restrict env f (decide (sign = '+')) (modeText message)) ∧
      s'.memory = s.memory ∧ s'.clients = s.clients := by
  obtain ⟨info, hcall, hchannel, hstatus, hkey, hparameters⟩ := hsaid.exists_info hadjacent env
  have hdone := handleLine_mode env hsaid.line hsaid.accepts hsaid.verb hcall hx hlogin
    (hchannel.symm ▸ hch) hop (execModeKey_restriction env hkey)
  have hsends : (s.putChannel (ch.restrict env f info.status info.parameters)).Sends
      (s.execRestriction env ch info f) := execRestriction_sends env hmembers
  refine ⟨_, hdone, ?_, hsends.memory, ?_⟩
  · rw [hsends.getChannel, ← hstatus, ← hparameters]
    exact getChannel_putChannel hch Channel.restrict_name
  · rw [show s.execRestriction env ch info f = _ from hsends]
    rfl

/-! ## The number of a limit -/

/-- There is no number in white space. -/
theorem leadingInt_blank (h : text.dropWhile isspace = []) : leadingInt text = 0 := by
  unfold leadingInt
  rw [h]
  rfl

/-- The `int` that is read, stored as a `size_t`.  It is the number meant, and not
a negative one seen as a large one, just when the number in the text is that
number or both are too large for an `int`. -/
theorem setLimit_toInt_iff (number : Int) :
    (∀ junk, ((ch.setLimit (toInt junk text)).limit : Int) = number ∧ 0 < number ∧
        (ch.setLimit (toInt junk text)).limit < 2 ^ 63) ↔
      0 < number ∧ min (2 ^ 31 - 1) (leadingInt text) = number := by
  unfold Channel.setLimit toInt
  by_cases hblank : text.dropWhile isspace = []
  · rw [leadingInt_blank hblank]
    simp only [if_pos hblank]
    constructor
    · intro h
      have hzero := h 0
      omega
    · intro h
      omega
  · simp only [if_neg hblank, forall_const]
    omega

/-- The limit of the channel is set to the number, which is positive, and not to
a negative number seen as a `size_t`, whatever indeterminate values there are. -/
def SetsLimit (s : Server) (message : Str) (fd : Fd) (name : Str) (number : Int) : Prop :=
  ∀ env, ∃ s' ch', handleLine env s message fd = .done s' ∧ s'.getChannel name = some ch' ∧
    (ch'.limit : Int) = number ∧ 0 < number ∧ ch'.limit < 2 ^ 63

/-- The number in the checked text is positive, and the text that the parser takes
has the same number at its start, up to the greatest `int`. -/
def NumberRead (message text : Str) : Prop :=
  Adjacent message ∧ 0 < leadingInt text ∧
    min (2 ^ 31 - 1) (leadingInt (modeText message)) = leadingInt text

instance (message text : Str) : Decidable (NumberRead message text) :=
  inferInstanceAs (Decidable (_ ∧ _ ∧ _))

/-- The limit becomes the number that is read, if that is positive. -/
theorem setsLimit_iff (hsaid : ModeSaid message ch.name '+' 'l' text)
    (hadjacent : Adjacent message) (hx : s.getClient fd = some x)
    (hlogin : (s.memory x).login = true) (hch : s.getChannel ch.name = some ch)
    (hop : (ch.getOperator s.memory fd).isSome = true) (hmembers : ch.clients ≠ [])
    (number : Int) :
    s.SetsLimit message fd ch.name number ↔
      0 < number ∧ min (2 ^ 31 - 1) (leadingInt (modeText message)) = number := by
  have hset : ∀ env, ∃ s', handleLine env s message fd = .done s' ∧
      s'.getChannel ch.name = some (ch.setLimit (toInt env.junkInt (modeText message))) := by
    intro env
    obtain ⟨s', hdone, hafter, -⟩ := handleLine_restriction (f := .limit) env hsaid hadjacent hx
      hlogin hch hop hmembers
    exact ⟨s', hdone, hafter⟩
  rw [← setLimit_toInt_iff]
  constructor
  · intro h junk
    obtain ⟨s', hdone, hafter⟩ := hset ⟨'\x00', junk⟩
    obtain ⟨s'', ch', hdone', hafter', hlimit⟩ := h ⟨'\x00', junk⟩
    rw [hdone] at hdone'
    cases hdone'
    rw [hafter] at hafter'
    cases hafter'
    exact hlimit
  · intro h env
    obtain ⟨s', hdone, hafter⟩ := hset env
    exact ⟨s', _, hdone, hafter, h env.junkInt⟩

/-- With a space too many behind the command, the channel of a `MODE` is an empty
word. -/
theorem channel_of_not_adjacent (haccepts : Checker.accepts message = true)
    (hnot : ¬ Adjacent message) {env : Env} (hcall : modeCall env message = some info) :
    info.channel = [] := by
  obtain ⟨command, before, format, after, hlaid⟩ := exists_laid haccepts
  have hblank : ' ' ∈ before := not_not.mp (mt hlaid.adjacent_iff.mpr hnot)
  obtain ⟨blank, more, hbefore, hone⟩ := List.eq_append_cons_of_mem hblank
  have hsplit := hlaid.split_message
  rw [show before ++ format ++ after = blank ++ ' ' :: (more ++ format ++ after) by simp [hbefore],
    split_append hone] at hsplit
  generalize split (more ++ format ++ after) space = words at hsplit
  unfold modeCall Parser.modeParse at hcall
  rw [hsplit] at hcall
  split at hcall
  · cases hcall
  · cases words with
    | nil => cases hcall
    | cons flags words =>
        cases hcall
        exact trim_eq_nil fun c hc => hlaid.before c (hbefore ▸ List.mem_append_left _ hc)

/-- A `MODE` writes the channel that it names. -/
theorem execMode_touches_call {who : Server → Str → Fd → Result} (env : Env) (hnamed : s.Named)
    (hwho : ∀ name, ChannelName name → WhoSends who name) {name : Str}
    (hcall : ∀ info, modeCall env message = some info → info.channel = name) :
    (s.execMode env who message fd).Leaves (s.Touches (· = name)) := by
  have hframe := frame_touches s (· = name)
  refine leaves_execMode (.refl s) (hframe.throwNotOperator (.refl s) fd)
    fun info ch hinfo hch _ => ?_
  have hmem := mem_of_getChannel hch
  have hname : ch.name = name := (name_of_getChannel hch).trans (hcall info hinfo)
  exact hframe.execModeKey (.refl s) env hmem hname (hwho _ (hnamed.good ch hmem))

/-- Such a `MODE` leaves the channel alone that the checker has seen. -/
theorem handleLine_not_adjacent (env : Env) {name : Str} {letter : Char} (hnamed : s.Named)
    (hsaid : ModeSaid message name sign letter text) (hnot : ¬ Adjacent message)
    (hx : s.getClient fd = some x) (hlogin : (s.memory x).login = true)
    (hdone : handleLine env s message fd = .done s') :
    s'.getChannel name = s.getChannel name := by
  rw [handleLine_login env hsaid.line hsaid.accepts hsaid.verb (by decide) hx hlogin] at hdone
  have htouches : (s.execMode env (executeTo env 1) message fd).Leaves (s.Touches (· = [])) :=
    execMode_touches_call env hnamed (fun _ hname => executeTo_who_sends env 0 hname)
      fun info hcall => channel_of_not_adjacent hsaid.accepts hnot hcall
  have hafter := leaves_catching.mpr htouches s' (congrArg Outcome.state? hdone)
  apply hafter.others
  rintro rfl
  cases hsaid.head

end Server

variable {trace : Run.Trace World Action} {w : World} {x : ClientPtr} {ch : Channel}
  {message text : Str}

/-- An operator is a member. -/
theorem clients_ne_nil (hled : ch.Led) {memory : ClientPtr → Client} {fd : Fd}
    (hop : (ch.getOperator memory fd).isSome = true) : ch.clients ≠ [] := by
  obtain ⟨p, hp, -⟩ := List.find?_isSome.mp hop
  exact List.ne_nil_of_mem (hled.members p hp)

/-- **The limit that was checked.**  An operator's `+l` sets the limit to the
number that was checked if the number is positive and the parser takes a text
with the same number; and if it does so otherwise, then because the limit was
that number before. -/
theorem limit_set_iff (run : Steps trace w) (hx : x ∈ w.srv.clients)
    (hlogin : (w.srv.memory x).login = true) (hch : ch ∈ w.srv.channels)
    (hop : (ch.getOperator w.srv.memory (w.srv.memory x).fd).isSome = true)
    (hsaid : ModeSaid message ch.name '+' 'l' text) :
    (Server.NumberRead message text →
      w.srv.SetsLimit message (w.srv.memory x).fd ch.name (leadingInt text)) ∧
    (w.srv.SetsLimit message (w.srv.memory x).fd ch.name (leadingInt text) →
      Server.NumberRead message text ∨ (ch.limit : Int) = leadingInt text) := by
  have htidy := tidy run
  have hclient := Server.getClient_fd htidy.fds hx
  have hfound := Server.getChannel_of_mem htidy.named.distinct hch
  have hmembers := clients_ne_nil (htidy.led ch hch) hop
  have hexact := fun hadjacent => Server.setsLimit_iff hsaid hadjacent hclient hlogin hfound hop
    hmembers (leadingInt text)
  constructor
  · rintro ⟨hadjacent, hread⟩
    exact (hexact hadjacent).mpr hread
  · intro hsets
    by_cases hadjacent : Adjacent message
    · exact Or.inl ⟨hadjacent, (hexact hadjacent).mp hsets⟩
    · obtain ⟨s', ch', hdone, hafter, hlimit, -⟩ := hsets Env.calm
      rw [Server.handleLine_not_adjacent Env.calm htidy.named hsaid hadjacent hclient hlogin hdone,
        hfound] at hafter
      cases hafter
      exact Or.inr hlimit

example : ¬ Server.NumberRead "MODE #c +l5".toList "5".toList ∧
    ¬ Server.NumberRead "MODE #c +l -1".toList " -1".toList := by decide

/-- An operator alone in a channel, as the tests of these modes use it. -/
theorem exists_operated (lines : List String) (p : World → Bool)
    (h : ((Run.perform step ([.gather, .accept 5 "h".toList, .gather] ++
        packet 5 (["PASS pw", "NICK a", "USER a a a :n", "JOIN #c"] ++ lines))
      (initial "pw".toList [] 3 overwritten)).any fun w => (0 ∈ w.srv.clients ∧
        (w.srv.memory 0).fd = 5 ∧ (w.srv.memory 0).login = true ∧
        w.srv.channels.map (fun ch => (ch.name, ch.operators)) = [("#c".toList, [0])]) ∧
        p w = true) = true) :
    ∃ trace w ch, Steps trace w ∧ 0 ∈ w.srv.clients ∧ (w.srv.memory 0).fd = 5 ∧
      (w.srv.memory 0).login = true ∧ ch ∈ w.srv.channels ∧ ch.name = "#c".toList ∧
      (ch.getOperator w.srv.memory (w.srv.memory 0).fd).isSome = true ∧ p w = true := by
  obtain ⟨trace, w, run, htest⟩ := Run.exists_steps_of_perform step start_pw _ _ h
  obtain ⟨⟨hmem, hfd, hlogin, hchannels⟩, hp⟩ := of_decide_eq_true htest
  obtain ⟨ch, hch, hvalues⟩ := List.mem_map.mp (hchannels ▸ List.mem_singleton_self _)
  obtain ⟨hname, hoperators⟩ := Prod.mk.inj hvalues
  refine ⟨trace, w, ch, run, hmem, hfd, hlogin, hch, hname, ?_, hp⟩
  exact List.find?_isSome.mpr ⟨0, by simp [hoperators], by simp⟩

/-- The limit is set to 12. -/
theorem limit_set_iff_twelve : ∃ trace w, Steps trace w ∧
    w.srv.SetsLimit "MODE #c +l 12".toList 5 "#c".toList 12 := by
  obtain ⟨trace, w, ch, run, hmem, hfd, hlogin, hch, hname, hop, -⟩ :=
    exists_operated [] (fun _ => true) (by decide +kernel)
  have hsaid : ModeSaid "MODE #c +l 12".toList ch.name '+' 'l' " 12".toList :=
    ⟨by unfold OneLine; decide, by decide, by decide, by rw [hname]; decide, by decide⟩
  have hsets := (limit_set_iff run hmem hlogin hch hop hsaid).1 (by decide)
  rw [hname, hfd] at hsets
  exact ⟨trace, w, run, hsets⟩

/-- The number 5 is checked, and the limit is set to 56. -/
theorem limit_of_two_words : ¬ ∀ trace w x ch message text, Steps trace w →
    x ∈ w.srv.clients → (w.srv.memory x).login = true → ch ∈ w.srv.channels →
    (ch.getOperator w.srv.memory (w.srv.memory x).fd).isSome = true →
    ModeSaid message ch.name '+' 'l' text →
    w.srv.SetsLimit message (w.srv.memory x).fd ch.name (leadingInt text) := by
  intro hall
  obtain ⟨trace, w, ch, run, hmem, hfd, hlogin, hch, hname, hop, htest⟩ :=
    exists_operated [] (fun w => (handleLine Env.calm w.srv "MODE #c +l 5 6".toList 5).state?.any
      fun s' => (s'.getChannel "#c".toList).map Channel.limit = some 56) (by decide +kernel)
  have hsaid : ModeSaid "MODE #c +l 5 6".toList ch.name '+' 'l' " 5 6".toList :=
    ⟨by unfold OneLine; decide, by decide, by decide, by rw [hname]; decide, by decide⟩
  obtain ⟨s', ch', hdone, hafter, hlimit, -⟩ :=
    hall trace w 0 ch _ _ run hmem hlogin hch hop hsaid Env.calm
  rw [hfd] at hdone
  rw [hdone, ← hname] at htest
  have hset := of_decide_eq_true htest
  rw [hafter, Option.map_some, Option.some.injEq] at hset
  rw [hset] at hlimit
  exact absurd hlimit (by decide)

/-! ## Minus undoes plus -/

namespace Server

variable {s s' : Server} {fd : Fd}

/-- How a `JOIN` ends depends on the clients and on the channel that it names. -/
theorem joinAttempt_ending_congr {join : Str} (hmemory : s'.memory = s.memory)
    (hclients : s'.clients = s.clients)
    (hchannel : s'.getChannel (Parser.parse join).function =
      s.getChannel (Parser.parse join).function) :
    (s'.joinAttempt join fd).ending = (s.joinAttempt join fd).ending := by
  have hclient : s'.getClient fd = s.getClient fd := by
    unfold getClient
    rw [hclients, hmemory]
  unfold joinAttempt
  dsimp only
  rw [hchannel, hclient, hmemory]
  cases s.getChannel (Parser.parse join).function with
  | none => cases s.getClient fd <;> rfl
  | some ch =>
      dsimp only
      split
      · rfl
      · cases s.getClient fd with
        | none => rfl
        | some client =>
            rw [require_some, require_some]
            cases ch.refuses s.memory client <;> rfl

/-- After a plus and a minus of an operator the channel is the one without the
restriction, unless the minus is for a password and has a text. -/
theorem lifted_after {s₁ s₂ : Server} {env env' : Env} {plus message text text' : Str}
    {f : Restriction} (hplus : ModeSaid plus ch.name '+' f.letter text')
    (hplusAdjacent : Adjacent plus) (hminus : ModeSaid message ch.name '-' f.letter text)
    (hadjacent : Adjacent message) (hx : s.getClient fd = some x)
    (hlogin : (s.memory x).login = true) (hch : s.getChannel ch.name = some ch)
    (hop : (ch.getOperator s.memory fd).isSome = true) (hmembers : ch.clients ≠ [])
    (htext : f = .key → modeText message = [])
    (hdone₁ : handleLine env s plus fd = .done s₁)
    (hdone₂ : handleLine env' s₁ message fd = .done s₂) :
    s₂.getChannel ch.name = some (ch.lift f) ∧ s₂.memory = s.memory ∧ s₂.clients = s.clients := by
  obtain ⟨_, hdone, hafter₁, hmemory₁, hclients₁⟩ := handleLine_restriction env hplus
    hplusAdjacent hx hlogin hch hop hmembers
  rw [hdone₁] at hdone
  cases hdone
  generalize hch₁ : ch.restrict env f (decide ('+' = '+')) (modeText plus) = ch₁ at hafter₁
  have hname : ch₁.name = ch.name := by rw [← hch₁, Channel.restrict_name]
  have hlists : ch₁.operators = ch.operators ∧ ch₁.clients = ch.clients := by
    rw [← hch₁, Channel.restrict_rest]
    exact ⟨rfl, rfl⟩
  have hlift : ch₁.lift f = ch.lift f := by rw [← hch₁, Channel.lift_restrict]
  rw [← hname] at hminus hafter₁
  -- the plus changes the restriction only, so that the minus is an operator's too
  have hx₁ : s₁.getClient fd = some x := by
    unfold getClient
    rw [hclients₁, hmemory₁]
    exact hx
  have hop₁ : (ch₁.getOperator s₁.memory fd).isSome = true := by
    unfold Channel.getOperator
    rw [hlists.1, hmemory₁]
    exact hop
  obtain ⟨_, hdone, hafter₂, hmemory₂, hclients₂⟩ := handleLine_restriction env' hminus
    hadjacent hx₁ (hmemory₁ ▸ hlogin) hafter₁ hop₁ (hlists.2 ▸ hmembers)
  rw [hdone₂] at hdone
  cases hdone
  rw [show decide ('-' = '+') = false from rfl, Channel.restrict_minus htext, hlift,
    hname] at hafter₂
  exact ⟨hafter₂, hmemory₂.trans hmemory₁, hclients₂.trans hclients₁⟩

/-- The restriction is off and the others are as they were, and whoever may join
then is who may join the channel that never had the restriction, when a plus is
undone. -/
def Undoes (s : Server) (message : Str) (fd : Fd) (ch : Channel) (f : Restriction) : Prop :=
  (∀ env, ∃ s' ch', handleLine env s message fd = .done s' ∧ s'.getChannel ch.name = some ch' ∧
    ch'.limit = (ch.lift f).limit ∧ ch'.inviteOnly = (ch.lift f).inviteOnly ∧
    ch'.password = (ch.lift f).password) ∧
  ∀ env plus text s₁, ModeSaid plus ch.name '+' f.letter text → Adjacent plus →
    handleLine env s plus fd = .done s₁ →
    ∀ env s₂, handleLine env s₁ message fd = .done s₂ →
    ∀ join joining, (Parser.parse join).function = ch.name →
      ((s₂.joinAttempt join joining).ending = .returned ↔
        ((s.putChannel (ch.lift f)).joinAttempt join joining).ending = .returned)

end Server

/-- **Minus undoes plus.**  A minus of an operator takes the restriction off, leaves
the others, and undoes every plus of the operator, just when it is not for a
password with a text behind it: that text becomes the password. -/
theorem minus_undoes_plus_iff (run : Steps trace w) (hx : x ∈ w.srv.clients)
    (hlogin : (w.srv.memory x).login = true) (hch : ch ∈ w.srv.channels)
    (hop : (ch.getOperator w.srv.memory (w.srv.memory x).fd).isSome = true) {f : Restriction}
    (hsaid : ModeSaid message ch.name '-' f.letter text) (hadjacent : Adjacent message) :
    w.srv.Undoes message (w.srv.memory x).fd ch f ↔ (f = .key → modeText message = []) := by
  have htidy := tidy run
  have hclient := Server.getClient_fd htidy.fds hx
  have hfound := Server.getChannel_of_mem htidy.named.distinct hch
  have hmembers := clients_ne_nil (htidy.led ch hch) hop
  constructor
  · rintro ⟨hoff, -⟩
    obtain ⟨s', ch', hdone, hafter, hsame⟩ := hoff Env.calm
    obtain ⟨s'', hdone', hafter', -⟩ := Server.handleLine_restriction Env.calm hsaid hadjacent
      hclient hlogin hfound hop hmembers
    rw [hdone] at hdone'
    cases hdone'
    rw [hafter'] at hafter
    cases hafter
    exact Channel.restrict_minus_iff.mp hsame
  · intro htext
    refine ⟨fun env => ?_, ?_⟩
    · obtain ⟨s', hdone, hafter, -⟩ := Server.handleLine_restriction env hsaid hadjacent hclient
        hlogin hfound hop hmembers
      refine ⟨s', ch.lift f, hdone, ?_, rfl, rfl, rfl⟩
      rw [hafter, ← Channel.restrict_minus htext]
      rfl
    · intro env plus plusText s₁ hplus hplusAdjacent hdone₁ env' s₂ hdone₂ join joining hjoin
      obtain ⟨hafter, hmemory, hclients⟩ := Server.lifted_after hplus hplusAdjacent hsaid hadjacent
        hclient hlogin hfound hop hmembers htext hdone₁ hdone₂
      have hsame : (s₂.joinAttempt join joining).ending =
          ((w.srv.putChannel (ch.lift f)).joinAttempt join joining).ending := by
        refine Server.joinAttempt_ending_congr hmemory hclients ?_
        rw [hjoin, hafter]
        exact (Server.getChannel_putChannel hfound Channel.lift_name).symm
      rw [hsame]

/-- A password is set and taken off. -/
theorem minus_undoes_plus_iff_key : ∃ trace w ch, Steps trace w ∧ ch.password = "a".toList ∧
    w.srv.Undoes "MODE #c -k".toList 5 ch .key := by
  obtain ⟨trace, w, ch, run, hmem, hfd, hlogin, hch, hname, hop, htest⟩ :=
    exists_operated ["MODE #c +k a"]
      (fun w => w.srv.channels.all fun ch => ch.password = "a".toList) (by decide +kernel)
  have hpassword := of_decide_eq_true (List.all_eq_true.mp htest ch hch)
  have hsaid : ModeSaid "MODE #c -k".toList ch.name '-' Restriction.key.letter [] :=
    ⟨by unfold OneLine; decide, by decide, by decide, by rw [hname]; decide, by decide⟩
  refine ⟨trace, w, ch, run, hpassword, hfd ▸ ?_⟩
  exact (minus_undoes_plus_iff run hmem hlogin hch hop hsaid (by decide)).mpr
    fun _ => by decide

/-- `MODE #c -k foo` sets the password `foo`. -/
theorem minus_sets_password : ¬ ∀ trace w x ch message text f, Steps trace w →
    x ∈ w.srv.clients → (w.srv.memory x).login = true → ch ∈ w.srv.channels →
    (ch.getOperator w.srv.memory (w.srv.memory x).fd).isSome = true →
    ModeSaid message ch.name '-' (Restriction.letter f) text → Adjacent message →
    w.srv.Undoes message (w.srv.memory x).fd ch f := by
  intro hall
  obtain ⟨trace, w, ch, run, hmem, hfd, hlogin, hch, hname, hop, htest⟩ :=
    exists_operated [] (fun w => (handleLine Env.calm w.srv "MODE #c -k foo".toList 5).state?.any
      fun s' => (s'.getChannel "#c".toList).map Channel.password = some "foo".toList)
      (by decide +kernel)
  have hsaid : ModeSaid "MODE #c -k foo".toList ch.name '-' Restriction.key.letter " foo".toList :=
    ⟨by unfold OneLine; decide, by decide, by decide, by rw [hname]; decide, by decide⟩
  obtain ⟨s', ch', hdone, hafter, -, -, hpassword⟩ :=
    (hall trace w 0 ch _ _ .key run hmem hlogin hch hop hsaid (by decide)).1 Env.calm
  rw [hfd] at hdone
  rw [hdone, ← hname] at htest
  have hset := of_decide_eq_true htest
  rw [hafter, Option.map_some, Option.some.injEq, hpassword] at hset
  cases hset

end FtIrc
