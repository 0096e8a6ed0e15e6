import IrcServers.FtIrc.Messages
import IrcServers.FtIrc.LineEnds

/-!
# Batches of lines

`Command::Execute` hands the lines of a message with several lines to itself
without their line breaks, and stops at the first empty one; a message of one
line keeps its CRLF.  `Uniform` names the lines that are handled alike with and
without it, and lines that are, and are not empty, may be sent in one message or
in several.
-/

namespace FtIrc

open Utils Text Outcome

namespace Server

/-- `PRIVMSG` or `NOTICE` sends something for this target. -/
def Heard (s : Server) (fd : Fd) (target : Str) (toSelf : Bool) : Prop :=
  (∃ client ∈ s.getClientByNickName target, toSelf = true ∨ (s.memory client).fd ≠ fd) ∨
    s.getClientByNickName target = none ∧
      ∃ ch ∈ s.getChannel target, ∃ p ∈ ch.clients, (s.memory p).fd ≠ fd

/-- The texts of `PRIVMSG` and `NOTICE` are read alike, or nobody hears them. -/
def TextUniform (s : Server) (line : Str) (fd : Fd) (toSelf : Bool) : Prop :=
  line.getLast? = some ' ' →
    4 ≤ wordCount line ∧
      ∀ info ∈ Parser.privateMessage line, ¬ s.Heard fd info.target toSelf

/-- The lines of the commands behind the login test that a CRLF at their end makes
no difference to. -/
def LoginUniform (s : Server) (line : Str) (fd : Fd) : Verb → Prop
  | .privmsg => s.TextUniform line fd true
  | .notice => s.TextUniform line fd false
  | .join =>
      Trails line → ∀ ch ∈ s.getChannel (Parser.parse line).function, ch.password ≠ [] →
        ch.password ≠ (Parser.parse line).value ∧
          ch.password ≠ (Parser.parse line).value ++ " ".toList
  | .mode =>
      line.getLast? = some ' ' →
        (wordCount line = 3 → s.Operated fd (Parser.parse line).function) ∧
          (wordCount line = 6 → s.Operated fd (Parser.parse line).function →
            ∀ second ∈ (split line space)[4]?, trim second = [])
  | .kick =>
      if contains colon line then
        (split (line ++ crlf) colon).length = 2 → line.getLast? ≠ some ':'
      else Trails line → ¬ s.Operated fd (Parser.parse line).function
  | .invite => ¬ Trails line
  | .topic =>
      (split (line ++ crlf) colon).length = 2 → ¬ s.Operated fd (Parser.parse line).function
  | _ => True

/-- A CRLF at the end of the line makes no difference. -/
def Uniform (s : Server) (line : Str) (fd : Fd) : Prop :=
  Checker.accepts line = true →
    match verbOf (commandOf line) with
    | .user => wordCount line ≠ 5
    | .quit | .nick | .pass => True
    | verb =>
        ∀ client ∈ s.getClient fd, (s.memory client).login = true → s.LoginUniform line fd verb

section Handlers

variable {s : Server} {line : Str} {fd : Fd}

/-- A text that nobody hears changes nothing. -/
theorem relay_of_not_heard {target : Str} {toSelf : Bool} (h : ¬ s.Heard fd target toSelf)
    (text : Str) : s.relay fd target text toSelf = s := by
  unfold Heard at h
  push Not at h
  obtain ⟨hself, hothers⟩ := h
  unfold relay
  split
  · rename_i client hclient
    obtain ⟨hnot, hfd⟩ := hself client hclient
    exact if_neg (by simp [hnot, hfd])
  · rename_i hnone
    split
    · rename_i ch hch
      have hempty : (s.fdsOf ch.clients).filter (· ≠ fd) = [] := by
        rw [List.filter_eq_nil_iff]
        intro target' htarget
        obtain ⟨p, hp, rfl⟩ := List.mem_map.mp htarget
        simpa using hothers hnone ch hch p hp
      rw [hempty]
      simp [sendAll]
    · rfl

/-- What is read for a `PRIVMSG` that nobody hears is of no account. -/
theorem privateMessage_cases (hline : line ≠ []) {toSelf : Bool}
    (h : s.TextUniform line fd toSelf) :
    Parser.privateMessage (line ++ crlf) = Parser.privateMessage line ∨
      ∃ info info', Parser.privateMessage line = some info ∧
        Parser.privateMessage (line ++ crlf) = some info' ∧
          ¬ s.Heard fd info.target toSelf ∧ ¬ s.Heard fd info'.target toSelf := by
  by_cases hends : line.getLast? = some ' '
  · obtain ⟨hcount, hsilent⟩ := h hends
    obtain ⟨info, info', hinfo, hinfo', htarget⟩ := privateMessage_target hcount
    have hnot := hsilent info hinfo
    exact Or.inr ⟨info, info', hinfo, hinfo', hnot, htarget ▸ hnot⟩
  · exact Or.inl (privateMessage_crlf hline hends)

/-- `PRIVMSG` relays the same text, or to nobody. -/
theorem execPrivMsg_crlf (hline : line ≠ []) (h : s.TextUniform line fd true) :
    s.execPrivMsg (line ++ crlf) fd = s.execPrivMsg line fd := by
  unfold execPrivMsg
  rcases privateMessage_cases hline h with hsame | ⟨info, info', hinfo, hinfo', hnot, hnot'⟩
  · rw [hsame]
  · rw [hinfo, hinfo']
    simp only [require_some, relay_of_not_heard hnot, relay_of_not_heard hnot']

/-- So does `NOTICE`. -/
theorem execNotice_crlf (hline : line ≠ []) (h : s.TextUniform line fd false) :
    s.execNotice (line ++ crlf) fd = s.execNotice line fd := by
  unfold execNotice
  rcases privateMessage_cases hline h with hsame | ⟨info, info', hinfo, hinfo', hnot, hnot'⟩
  · rw [hsame]
  · rw [hinfo, hinfo']
    simp only [require_some, relay_of_not_heard hnot, relay_of_not_heard hnot']

/-- `JOIN` reads the same channel, and a password that makes no difference. -/
theorem execJoin_crlf (hspace : contains space line = true)
    (h : Trails line → ∀ ch ∈ s.getChannel (Parser.parse line).function, ch.password ≠ [] →
      ch.password ≠ (Parser.parse line).value ∧
        ch.password ≠ (Parser.parse line).value ++ " ".toList) :
    s.execJoin (line ++ crlf) fd = s.execJoin line fd := by
  obtain ⟨hfunction, hvalue⟩ := parse_crlf hspace
  unfold execJoin
  dsimp only
  rw [hfunction, hvalue]
  cases hch : s.getChannel (Parser.parse line).function with
  | none => rfl
  | some ch =>
      dsimp only
      by_cases htrails : Trails line
      · by_cases hpassword : ch.password = []
        · simp [hpassword]
        · obtain ⟨hvalue, hspaced⟩ := h htrails ch hch hpassword
          rw [if_pos htrails, if_pos ⟨hpassword, hspaced⟩, if_pos ⟨hpassword, hvalue⟩]
      · rw [if_neg htrails, List.append_nil]

/-- What follows the lookup of an operator does not matter to other clients. -/
theorem guarded_congr {name : Str} {ch : Channel} (hch : s.getChannel name = some ch)
    (hnot : ¬ s.Operated fd name) : (ch.getOperator s.memory fd).isNone = true := by
  by_contra hsome
  exact hnot ⟨ch, hch, Channel.passes_guard_iff.mp hsome⟩

/-- `KICK` reads the same member and reason, or is refused. -/
theorem execKick_crlf (hspace : contains space line = true)
    (h : if contains colon line then
        (split (line ++ crlf) colon).length = 2 → line.getLast? ≠ some ':'
      else Trails line → ¬ s.Operated fd (Parser.parse line).function) :
    s.execKick (line ++ crlf) fd = s.execKick line fd := by
  unfold execKick
  by_cases hcolon : contains colon line = true
  · rw [if_pos hcolon] at h
    rw [kickParse_crlf hcolon h]
  · rw [if_neg hcolon] at h
    have hcolon' : ¬ contains colon (line ++ crlf) = true := by
      rwa [show colon = [':'] from rfl, contains_crlf (by decide)]
    obtain ⟨hfunction, -⟩ := parse_crlf hspace
    by_cases htrails : Trails line
    · unfold kickParse
      rw [if_neg hcolon, if_neg hcolon']
      simp only [require_some, hfunction]
      cases hch : s.getChannel (Parser.parse line).function with
      | none => rfl
      | some ch =>
          simp only [require_some, if_pos (guarded_congr hch (h htrails))]
    · unfold kickParse
      rw [if_neg hcolon, if_neg hcolon']
      simp only [require_some, hfunction, value_crlf hspace htrails]

/-- `INVITE` reads the same nickname and channel. -/
theorem execInvite_crlf (hspace : contains space line = true) (h : ¬ Trails line) :
    s.execInvite (line ++ crlf) fd = s.execInvite line fd := by
  unfold execInvite
  simp only [function_crlf hspace, value_crlf hspace h]

/-- `TOPIC` is refused, or shows the topic in either case. -/
theorem execTopic_crlf (hspace : contains space (trim line) = true)
    (hformat : contains space (Checker.formatOf line) = true)
    (h : (split (line ++ crlf) colon).length = 2 →
      ¬ s.Operated fd (Parser.parse line).function) :
    s.execTopic (line ++ crlf) fd = s.execTopic line fd := by
  have hvalue := value_ne_nil hspace hformat
  have hvalue' : (Parser.parse (line ++ crlf)).value ≠ [] := by
    apply value_ne_nil
    · rwa [trim_crlf]
    · rwa [formatOf_crlf]
  unfold execTopic
  simp only [function_crlf (contains_of_trim hspace), hvalue, hvalue', if_false]
  cases hch : s.getChannel (Parser.parse line).function with
  | none => rfl
  | some ch =>
      by_cases hlength : (split (line ++ crlf) colon).length = 2
      · simp only [require_some, if_pos (guarded_congr hch (h hlength))]
      · rw [piece_crlf hlength]

section Mode

variable {who : Server → Str → Fd → Result} {message : Str} {info : ModeInfo}

/-- The CRLF as the third word is a mode with an unknown letter. -/
theorem modeCall_three (env : Env) (hspace : contains space line = true)
    (hends : line.getLast? = some ' ') (hcount : wordCount line = 3) :
    modeCall env line = none ∧
      ∃ info, modeCall env (line ++ crlf) = some info ∧ modeKey info ∉ modeLetters := by
  obtain ⟨init, last, -, hlast, hwords, hcrlf⟩ := exists_words line
  obtain rfl : last = [] := hlast.mpr (Or.inr hends)
  have hspace' := contains_space_crlf hspace
  rw [wordCount, hcrlf] at hcount
  obtain ⟨command, channel, rfl⟩ : ∃ command channel, init = [command, channel] :=
    List.length_eq_two.mp (by simpa using hcount)
  have hnewline : toLower ['\n'] ∉ modeLetters := by decide
  unfold modeCall Parser.modeParse
  rw [hspace, hspace', hwords, hcrlf]
  exact ⟨rfl, _, rfl, hnewline⟩

/-- A `MODE` with three words is read. -/
theorem modeCall_isSome (env : Env) (hspace : contains space message = true)
    (hwords : 3 ≤ (split message space).length) : (modeCall env message).isSome = true := by
  unfold modeCall
  rw [if_neg (by simp [hspace, hwords])]
  exact modeParse_isSome.mpr hwords

/-- A mode with an unknown letter does nothing, for an operator. -/
theorem execMode_three (env : Env) (hspace : contains space line = true)
    (hends : line.getLast? = some ' ') (hcount : wordCount line = 3)
    (hoperated : s.Operated fd (Parser.parse line).function) :
    s.execMode env who (line ++ crlf) fd = s.execMode env who line fd := by
  obtain ⟨hnone, info, hsome, hother⟩ := modeCall_three env hspace hends hcount
  obtain ⟨ch, hch, hop⟩ := hoperated
  have hguard := Channel.passes_guard_iff.mpr hop
  rw [execMode_of_none hnone, execMode_of_some hsome, channel_of_modeCall hsome,
    function_crlf hspace, hch, require_some, if_neg hguard, execModeKey_other env hother]
  rfl

/-- The parameters of a mode do not matter to a client that is no operator. -/
theorem execMode_six (env : Env) (hspace : contains space line = true)
    (hends : line.getLast? = some ' ') (hcount : wordCount line = 6)
    (hnot : ¬ s.Operated fd (Parser.parse line).function) :
    s.execMode env who (line ++ crlf) fd = s.execMode env who line fd := by
  have hspace' := contains_space_crlf hspace
  obtain ⟨init, last, -, hlast, hwords, hcrlf⟩ := exists_words line
  obtain rfl : last = [] := hlast.mpr (Or.inr hends)
  rw [wordCount, hcrlf] at hcount
  have hlength : init.length = 5 := by simpa using hcount
  obtain ⟨info, hinfo⟩ := Option.isSome_iff_exists.mp
    (modeCall_isSome env hspace (by rw [hwords, if_pos rfl]; omega))
  obtain ⟨info', hinfo'⟩ := Option.isSome_iff_exists.mp
    (modeCall_isSome env hspace' (by rw [hcrlf, List.length_append]; omega))
  rw [execMode_of_some hinfo, execMode_of_some hinfo', channel_of_modeCall hinfo,
    channel_of_modeCall hinfo', function_crlf hspace]
  cases hch : s.getChannel (Parser.parse line).function with
  | none => rfl
  | some ch =>
      have hguard := guarded_congr hch hnot
      rw [require_some, require_some, if_pos hguard, if_pos hguard]

/-- Modes that are read alike, or both ignored, are handled alike. -/
theorem execMode_alike (env : Env)
    (h : Option.Rel Alike (modeCall env line) (modeCall env (line ++ crlf))) :
    s.execMode env who (line ++ crlf) fd = s.execMode env who line fd := by
  cases hcall : modeCall env line with
  | none =>
      rw [hcall] at h
      cases hcall' : modeCall env (line ++ crlf) with
      | none => rw [execMode_of_none hcall, execMode_of_none hcall']
      | some info' =>
          rw [hcall'] at h
          cases h
  | some info =>
      rw [hcall] at h
      cases hcall' : modeCall env (line ++ crlf) with
      | none =>
          rw [hcall'] at h
          cases h
      | some info' =>
          rw [hcall'] at h
          cases h with
          | some halike =>
              rw [execMode_of_some hcall, execMode_of_some hcall', halike.channel]
              simp only [halike.execModeKey env]

/-- `MODE` is read alike, or refused. -/
theorem execMode_crlf (env : Env) (hspace : contains space line = true)
    (h : line.getLast? = some ' ' →
      (wordCount line = 3 → s.Operated fd (Parser.parse line).function) ∧
        (wordCount line = 6 → s.Operated fd (Parser.parse line).function →
          ∀ second ∈ (split line space)[4]?, trim second = [])) :
    s.execMode env who (line ++ crlf) fd = s.execMode env who line fd := by
  by_cases hthree : line.getLast? = some ' ' ∧ wordCount line = 3
  · obtain ⟨hends, hcount⟩ := hthree
    exact execMode_three env hspace hends hcount ((h hends).1 hcount)
  by_cases hsix : line.getLast? = some ' ' ∧ wordCount line = 6 ∧
      ¬ s.Operated fd (Parser.parse line).function
  · obtain ⟨hends, hcount, hnot⟩ := hsix
    exact execMode_six env hspace hends hcount hnot
  refine execMode_alike env (modeCall_crlf env hspace fun hends => ?_)
  refine ⟨fun hcount => hthree ⟨hends, hcount⟩, fun hcount => ?_⟩
  have hoperated : s.Operated fd (Parser.parse line).function := by
    by_contra hnot
    exact hsix ⟨hends, hcount, hnot⟩
  exact (h hends).2 hcount hoperated

end Mode

/-- `USER` reads the same names. -/
theorem execUser_crlf (h : wordCount line ≠ 5) :
    s.execUser (line ++ crlf) fd = s.execUser line fd := by
  unfold execUser
  rw [userParse_crlf h]

/-- A uniform line of any command behind the login test is handled alike. -/
theorem dispatchLogin_crlf (env : Env) {who : Server → Str → Fd → Result} (client : ClientPtr)
    (haccepts : Checker.accepts line = true)
    (h : s.LoginUniform line fd (verbOf (commandOf line))) :
    s.dispatchLogin env who client (line ++ crlf) fd (verbOf (commandOf line)) =
      s.dispatchLogin env who client line fd (verbOf (commandOf line)) := by
  obtain ⟨htrimmed, hformat, -⟩ := accepts_iff.mp haccepts
  have hspace := contains_of_trim htrimmed
  have hline : line ≠ [] := ne_nil_of_contains hspace
  have hcommand := (command_crlf hspace).2
  rw [getCommand_eq_commandOf htrimmed] at hformat
  generalize verbOf (commandOf line) = verb at h hformat
  cases verb with
  | privmsg => exact execPrivMsg_crlf hline h
  | notice => exact execNotice_crlf hline h
  | join => exact execJoin_crlf hspace h
  | part => simp only [dispatchLogin, execPart, function_crlf hspace]
  | who => simp only [dispatchLogin, execWho, function_crlf hspace]
  | whois => simp only [dispatchLogin, execWhois, function_crlf hspace]
  | mode => exact execMode_crlf env hspace h
  | kick => exact execKick_crlf hspace h
  | invite => exact execInvite_crlf hspace h
  | topic =>
      have hchecked : Checker.checkOnlyChannelAndMessage (Checker.formatOf line) = true := by
        simpa [Checker.formatError] using hformat
      refine execTopic_crlf htrimmed ?_ h
      unfold Checker.checkOnlyChannelAndMessage at hchecked
      cases hfind : find space (Checker.formatOf line) with
      | none =>
          rw [hfind] at hchecked
          cases hchecked
      | some index => rw [contains, hfind, Option.isSome_some]
  | quit | nick | user | pass | unknown => simp only [dispatchLogin, hcommand]

/-- **One line, with and without its CRLF.** -/
theorem handle_crlf (env : Env) {who : Server → Str → Fd → Result}
    (hconnected : fd ∈ s.fdsOf s.clients) (hstays : s.removing line fd = none)
    (h : s.Uniform line fd) : s.handle env who (line ++ crlf) fd = s.handle env who line fd := by
  obtain ⟨client, hclient⟩ := exists_getClient hconnected
  obtain ⟨-, hcheck⟩ := check_crlf s line fd
  unfold handle
  rw [hcheck]
  by_cases haccepts : Checker.accepts line = true
  · rw [check_of_accepts s fd haccepts, andThen_done, andThen_done]
    have hspace := contains_of_trim (accepts_iff.mp haccepts).1
    have huniform := h haccepts
    have hlogin : s.LoginUniform line fd (verbOf (commandOf line)) →
        s.dispatchLogin env who client (line ++ crlf) fd (verbOf (commandOf line)) =
          s.dispatchLogin env who client line fd (verbOf (commandOf line)) :=
      dispatchLogin_crlf env client haccepts
    unfold removing at hstays
    rw [if_pos haccepts] at hstays
    unfold dispatch
    rw [(command_crlf hspace).2]
    generalize verbOf (commandOf line) = verb at huniform hstays hlogin
    congr 1
    cases verb with
    | quit =>
        rw [hclient] at hstays
        cases hstays
    | user => exact execUser_crlf huniform
    | nick => simp only [execNick, function_crlf hspace]
    | pass => simp only [execPass, function_crlf hspace]
    | _ =>
        dsimp only
        rw [hclient, require_some, require_some]
        by_cases hlogged : (s.memory client).login = true
        · rw [if_pos hlogged, if_pos hlogged]
          exact hlogin (huniform client hclient hlogged)
        · rw [if_neg hlogged, if_neg hlogged]
  · rw [check_andThen_of_not_accepts s fd haccepts, check_andThen_of_not_accepts s fd haccepts]

end Handlers

/-- The condition holds of every line where the lines before it have left the
server, each handled with its CRLF. -/
def InTurn (env : Env) (fd : Fd) (cond : Server → Str → Prop) : List Str → Server → Prop
  | [], _ => True
  | line :: lines, s =>
      cond s line ∧
        ∀ s', execute env s (line ++ crlf) fd = .done s' → InTurn env fd cond lines s'

variable {s : Server} {fd : Fd} {line : Str}

/-- A lone line and its CRLF is handled as one line. -/
theorem execute_line (env : Env) (hnamed : s.Named) (hline : find crlf line = none) (fd : Fd) :
    execute env s (line ++ crlf) fd = s.handle env (executeTo env 1) (line ++ crlf) fd := by
  have hone := oneLine_append_crlf hline
  rw [execute_eq_each env hnamed, show linesOf (line ++ crlf) = [line ++ crlf] from if_pos hone,
    Outcome.each_cons, handleLine, hone.executeTo]
  cases s.handle env (executeTo env 1) (line ++ crlf) fd <;> rfl

/-- The pieces of a message are the lines it was put together from. -/
theorem split_lines {lines : List Str} (h : ∀ line ∈ lines, find crlf line = none) :
    split (lines.flatMap fun line => line ++ crlf) crlf = lines := by
  induction lines with
  | nil => rfl
  | cons line lines ih =>
      rw [List.flatMap_cons, split_append_crlf (h line List.mem_cons_self),
        ih fun line hmem => h line (List.mem_cons_of_mem _ hmem)]

/-- Lines that are handled alike may be handled without their CRLF. -/
theorem each_crlf (env : Env) {lines : List Str} (hnamed : s.Named)
    (hconnected : fd ∈ s.fdsOf s.clients) (hlines : ∀ line ∈ lines, find crlf line = none)
    (hstays : InTurn env fd (fun s line => s.removing line fd = none) lines s)
    (huniform : InTurn env fd (fun s line => line ≠ [] ∧ s.Uniform line fd) lines s) :
    Outcome.each (fun line s => handleLine env s line fd) (lines.takeWhile (· ≠ [])) s =
      Outcome.each (fun line s => execute env s (line ++ crlf) fd) lines s := by
  induction lines generalizing s with
  | nil => rfl
  | cons line lines ih =>
      obtain ⟨hstay, hstays⟩ := hstays
      obtain ⟨⟨hne, huni⟩, huniform⟩ := huniform
      have hfind := hlines line List.mem_cons_self
      have hone := oneLine_of_find hne hfind
      have hsame : execute env s (line ++ crlf) fd = handleLine env s line fd := by
        rw [execute_line env hnamed hfind, handle_crlf env hconnected hstay huni, handleLine,
          hone.executeTo]
      rw [List.takeWhile_cons_of_pos (by simpa using hne), Outcome.each_cons, Outcome.each_cons,
        hsame]
      cases hdone : handleLine env s line fd with
      | thrown e s' => rfl
      | fault f => rfl
      | done s' =>
          have hleaves := handleLine_leaves env hnamed hone fd
          rw [hdone, leaves_done, hstay] at hleaves
          have hkeeps : s.Keeps s' := hleaves
          have hdone' := hsame.trans hdone
          have hrest : ∀ line ∈ lines, find crlf line = none := fun line hmem =>
            hlines line (List.mem_cons_of_mem _ hmem)
          refine ih (hkeeps.named hnamed) ?_ hrest (hstays s' hdone') (huniform s' hdone')
          rw [fdsOf_congr hkeeps.fd, hkeeps.same]
          exact hconnected

end Server

variable {trace : Run.Trace World Action} {w : World}

/-- **Batches.**  In every reachable state, one call of `Command::Execute` for
some lines does what a call for each line does, if there is at most one line, or
no line is empty and each, where the lines before it have left the server, is
read alike with its CRLF. -/
theorem batch_eq_sequence (run : Steps trace w) (env : Env) {fd : Fd} {lines : List Str}
    (hconnected : fd ∈ w.srv.fdsOf w.srv.clients)
    (hlines : ∀ line ∈ lines, '\r' ∉ line ∧ '\n' ∉ line)
    (hstays : Server.InTurn env fd (fun s line => s.removing line fd = none) lines w.srv)
    (huniform : lines.length ≤ 1 ∨
      Server.InTurn env fd (fun s line => line ≠ [] ∧ s.Uniform line fd) lines w.srv) :
    execute env w.srv (lines.flatMap fun line => line ++ crlf) fd =
      Outcome.each (fun line s => execute env s (line ++ crlf) fd) lines w.srv := by
  have hnamed := (tidy run).named
  have hfind : ∀ line ∈ lines, find crlf line = none := by
    intro line hmem
    refine find_eq_none_iff.mpr fun hin => (hlines line hmem).1 (hin.subset ?_)
    simp [crlf]
  rcases lines with _ | ⟨first, _ | ⟨second, lines⟩⟩
  · rfl
  · rw [List.flatMap_singleton, Outcome.each_cons]
    cases execute env w.srv (first ++ crlf) fd <;> rfl
  · have hinTurn := huniform.resolve_left (by simp)
    rw [Server.execute_eq_each env hnamed, ← Server.each_crlf env hnamed hconnected hfind hstays
      hinTurn]
    unfold linesOf
    rw [Server.split_lines hfind, if_neg (by simp)]

/-- A line that is neither a `QUIT` nor a `USER` removes nobody. -/
theorem removing_eq_none {s : Server} {line : Str} (fd : Fd)
    (hquit : verbOf (commandOf line) ≠ .quit) (huser : verbOf (commandOf line) ≠ .user) :
    s.removing line fd = none := by
  unfold Server.removing
  split
  · generalize verbOf (commandOf line) = verb at hquit huser
    cases verb <;> first | rfl | contradiction
  · rfl

/-- A client joins a channel and talks to it. -/
theorem batch_eq_sequence_join : ∃ trace w, Steps trace w ∧ w.srv.clients = [0] ∧
    execute Env.calm w.srv "JOIN #c\r\nPRIVMSG #c :hi there\r\n".toList 5 =
      Outcome.each (fun line s => execute Env.calm s (line ++ crlf) 5)
        ["JOIN #c".toList, "PRIVMSG #c :hi there".toList] w.srv := by
  obtain ⟨trace, w, run, htest⟩ := Run.exists_steps_of_perform step start_pw
    ([.gather, .accept 5 "h".toList, .gather] ++ packet 5 ["PASS pw", "NICK a", "USER a a a :n"])
    (fun w => w.srv.clients = [0] ∧ 5 ∈ w.srv.fdsOf w.srv.clients) (by decide +kernel)
  obtain ⟨hclients, hconnected⟩ := of_decide_eq_true htest
  refine ⟨trace, w, run, hclients, ?_⟩
  have hjoin : ∀ s : Server, s.Uniform "JOIN #c".toList 5 := by
    intro s _ client _ _ htrails
    exact absurd htrails (by decide)
  have htext : ∀ s : Server, s.Uniform "PRIVMSG #c :hi there".toList 5 := by
    intro s _ client _ _ hends
    exact absurd hends (by decide)
  have hlines : ∀ line ∈ ["JOIN #c".toList, "PRIVMSG #c :hi there".toList],
      '\r' ∉ line ∧ '\n' ∉ line := by decide
  refine batch_eq_sequence run Env.calm hconnected hlines ?_ (Or.inr ?_)
  · exact ⟨removing_eq_none 5 (by decide) (by decide), fun _ _ =>
      ⟨removing_eq_none 5 (by decide) (by decide), fun _ _ => trivial⟩⟩
  · exact ⟨⟨by decide, hjoin w.srv⟩, fun s _ => ⟨⟨by decide, htext s⟩, fun _ _ => trivial⟩⟩

/-- A lone `TOPIC` stores the CRLF of its line, a batched one does not. -/
theorem batched_topic_differs :
    ¬ ∀ trace w env fd (lines : List Str), Steps trace w → fd ∈ w.srv.fdsOf w.srv.clients →
      (∀ line ∈ lines, '\r' ∉ line ∧ '\n' ∉ line) →
      Server.InTurn env fd (fun s line => s.removing line fd = none) lines w.srv →
      execute env w.srv (lines.flatMap fun line => line ++ crlf) fd =
        Outcome.each (fun line s => execute env s (line ++ crlf) fd) lines w.srv := by
  intro hall
  obtain ⟨trace, w, run, htest⟩ := Run.exists_steps_of_perform step start_pw
    ([.gather, .accept 5 "h".toList, .gather] ++
      packet 5 ["PASS pw", "NICK a", "USER a a a :n", "JOIN #c"])
    (fun w => 5 ∈ w.srv.fdsOf w.srv.clients ∧
      (execute Env.calm w.srv "TOPIC #c :x\r\nPASS y\r\n".toList 5).state?.map
        (fun s => s.channels.map Channel.topic) ≠
      (Outcome.each (fun line s => execute Env.calm s (line ++ crlf) 5)
        ["TOPIC #c :x".toList, "PASS y".toList] w.srv).state?.map
          fun s => s.channels.map Channel.topic) (by decide +kernel)
  obtain ⟨hconnected, hdiffer⟩ := of_decide_eq_true htest
  have hstays : Server.InTurn Env.calm 5 (fun s line => s.removing line 5 = none)
      ["TOPIC #c :x".toList, "PASS y".toList] w.srv :=
    ⟨removing_eq_none 5 (by decide) (by decide), fun _ _ =>
      ⟨removing_eq_none 5 (by decide) (by decide), fun _ _ => trivial⟩⟩
  exact hdiffer (congrArg (fun outcome => outcome.state?.map fun s => s.channels.map Channel.topic)
    (hall trace w Env.calm 5 _ run hconnected (by decide) hstays))

end FtIrc
