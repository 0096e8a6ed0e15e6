import IrcServers.FtIrc.LineEnds
import IrcServers.FtIrc.Login
import IrcServers.FtIrc.Members
import IrcServers.FtIrc.Nicknames

/-!
# Checked and extracted parameters

The check looks at the trimmed parameters, the parsers at words of the message
as it stands.  A second space behind the command makes the first parameter an
empty word; at the end of a message it makes a word more, which `INVITE` joins
to the channel and `MODE` reads as sign and letter; and `KICK` cuts the message
at its first colon, which may stand inside the name of the channel.
-/

namespace FtIrc

open Utils Text Outcome

/-- A channel parameter that is the checked one, up to white space around it. -/
structure ChannelAgrees (checked extracted : Str) : Prop where
  same : extracted = trim checked
  hash : extracted.head? = some '#'
  noSpace : ' ' ∉ extracted

/-- A nickname parameter that is the checked one, up to white space around it. -/
structure NickAgrees (checked extracted : Str) : Prop where
  same : extracted = trim checked
  nonempty : extracted ≠ []
  noHash : extracted.head? ≠ some '#'

/-- The sign and the letter at the start of the checked text. -/
def ModeAgrees (checked : Str) (info : ModeInfo) : Prop :=
  ∃ sign letter more, checked = sign :: letter :: more ∧ (sign = '+' ∨ sign = '-') ∧
    info.status = decide (sign = '+') ∧ info.key = [letter]

/-- What the handler of a command extracts is what was checked. -/
def ParametersAgree (env : Env) (message : Str) : Verb → Prop
  | .who | .join | .part | .topic =>
      ChannelAgrees (firstOf (Checker.formatOf message)) (Parser.parse message).function
  | .nick => NickAgrees (firstOf (Checker.formatOf message)) (Parser.parse message).function
  | .kick =>
      ChannelAgrees (firstOf (Checker.formatOf message)) (Parser.parse message).function ∧
        ∀ parsed ∈ Server.kickParse message,
          ChannelAgrees (firstOf (Checker.formatOf message)) parsed.1.function
  | .invite =>
      NickAgrees (firstOf (Checker.formatOf message)) (Parser.parse message).function ∧
        ChannelAgrees (restOf (Checker.formatOf message)) (Parser.parse message).value
  | .mode =>
      ∀ info ∈ Server.modeCall env message,
        ChannelAgrees (firstOf (Checker.formatOf message)) info.channel ∧
          ModeAgrees (restOf (Checker.formatOf message)) info
  | _ => True

/-- No space but the one behind the command stands before the parameters. -/
def Adjacent (message : Str) : Prop := ' ' ∉ (restOf message).takeWhile isspace

/-- In the white space at the end of the message, no space comes before the last
character. -/
def EndsOnce (message : Str) : Prop := ' ' ∉ (message.rtakeWhile isspace).dropLast

instance (message : Str) : Decidable (Adjacent message) := inferInstanceAs (Decidable (_ ∉ _))

instance (message : Str) : Decidable (EndsOnce message) := inferInstanceAs (Decidable (_ ∉ _))

/-- The spaces of a message, and the colons of a `KICK`, are where the handler of
its command expects them. -/
def Spaced (message : Str) : Verb → Prop
  | .who | .join | .part | .topic | .nick => Adjacent message
  | .kick => Adjacent message ∧ ':' ∉ firstOf (restOf message)
  | .invite => Adjacent message ∧ EndsOnce message
  | .mode => Adjacent message ∧ (' ' ∈ trim (restOf message) ∨ EndsOnce message)
  | _ => True

namespace Laid

variable {message command before format after : Str}

/-- The white space before the parameters is found. -/
theorem takeWhile_isspace (h : Laid message command before format after) :
    (restOf message).takeWhile isspace = before := by
  obtain ⟨c, rest, hformat, hc⟩ := h.head
  rw [h.restOf_eq, List.append_assoc, List.takeWhile_append_of_pos h.before, hformat,
    List.cons_append, List.takeWhile_cons_of_neg (by simp [hc]), List.append_nil]

/-- The parameters stand behind one space just when there is no other one before them.
-/
theorem adjacent_iff (h : Laid message command before format after) :
    Adjacent message ↔ ' ' ∉ before := by
  unfold Adjacent
  rw [h.takeWhile_isspace]

/-- The white space at the end is found. -/
theorem rtakeWhile_isspace (h : Laid message command before format after) :
    message.rtakeWhile isspace = after := by
  obtain ⟨init, c, hformat, hc⟩ := last_of_trimmed h.trimmed h.nonempty
  rw [h.text, hformat]
  unfold List.rtakeWhile
  simp only [List.reverse_append, List.reverse_cons, List.nil_append,
    List.append_assoc, List.cons_append]
  rw [List.takeWhile_append_of_pos (by simpa using h.after),
    List.takeWhile_cons_of_neg (by simp [hc]), List.append_nil, List.reverse_reverse]

/-- A message ends once if at most its last character is a space. -/
theorem endsOnce_iff (h : Laid message command before format after) :
    EndsOnce message ↔ ' ' ∉ after.dropLast := by
  unfold EndsOnce
  rw [h.rtakeWhile_isspace]

/-- What is left by trimming are the parameters. -/
theorem trim_restOf (h : Laid message command before format after) :
    trim (restOf message) = format := by
  rw [h.restOf_eq, trim_append_spaces _ h.after, trim_spaces_append h.before, h.trimmed]

/-- A channel that is checked and then trimmed is the same up to white space. -/
theorem channelAgrees_trim (h : Laid message command before format after)
    (hhead : format.head? = some '#') :
    ChannelAgrees (firstOf format) (trim (firstOf format)) :=
  ⟨rfl, (head?_trim_firstOf h.trimmed).trans hhead,
    fun hin => space_not_mem_firstOf format ((infix_of_trim _).subset hin)⟩

/-- The first parameter of a command that takes a channel. -/
theorem channelAgrees_iff (h : Laid message command before format after)
    (hhead : format.head? = some '#') :
    ChannelAgrees (firstOf format) (Parser.parse message).function ↔ Adjacent message := by
  rw [h.adjacent_iff, h.function_eq]
  constructor
  · intro hagrees hspace
    rw [if_pos hspace] at hagrees
    cases hagrees.hash
  · intro hspace
    rw [if_neg hspace]
    exact h.channelAgrees_trim hhead

/-- The first parameter of a command that takes a nickname. -/
theorem nickAgrees_iff (h : Laid message command before format after)
    (hhead : format.head? ≠ some '#') :
    NickAgrees (firstOf format) (Parser.parse message).function ↔ Adjacent message := by
  rw [h.adjacent_iff, h.function_eq]
  constructor
  · intro hagrees hspace
    rw [if_pos hspace] at hagrees
    exact hagrees.nonempty rfl
  · intro hspace
    rw [if_neg hspace]
    have hfirst := head?_trim_firstOf h.trimmed
    refine ⟨rfl, fun hempty => ?_, fun hhash => hhead (hfirst.symm.trans hhash)⟩
    rw [hempty, List.head?_nil, eq_comm, List.head?_eq_none_iff] at hfirst
    exact h.nonempty hfirst

/-- A text that has no space, with white space behind it: it is the first word,
and there are more just when a space comes before the last character. -/
theorem split_append_spaces {text : Str} (htext : ' ' ∉ text) (hne : text ≠ []) (after : Str) :
    ∃ tail words, tail <+: after ∧ split (text ++ after) space = (text ++ tail) :: words ∧
      (words = [] ↔ ' ' ∉ after.dropLast) := by
  by_cases hspace : ' ' ∈ after
  · obtain ⟨tail, rest, rfl, htail⟩ := List.eq_append_cons_of_mem hspace
    refine ⟨tail, split rest space, List.prefix_append _ _, ?_, ?_⟩
    · rw [← List.append_assoc, split_append (by simp [htext, htail])]
    · by_cases hrest : rest = []
      · subst hrest
        refine iff_of_true rfl ?_
        rw [List.dropLast_concat]
        exact htail
      · refine iff_of_false (cutTrim_ne_nil (by decide) hrest) (not_not.mpr ?_)
        rw [List.dropLast_append_cons, List.dropLast_cons_of_ne_nil hrest]
        simp
  · refine ⟨after, [], List.prefix_rfl, ?_, ?_⟩
    · rw [split_of_not_mem (by simp [htext, hspace]),
        if_neg (List.append_ne_nil_of_left_ne_nil hne after)]
    · exact iff_of_true rfl fun hin => hspace (List.dropLast_subset after hin)

/-- More than one word joined has a space. -/
theorem space_mem_joinTrimmed {first : Str} {words : List Str} (h : words ≠ []) :
    ' ' ∈ joinTrimmed (first :: words) := by
  have hlast := List.dropLast_append_getLast h
  rw [← hlast, ← List.cons_append, joinTrimmed_append]
  simp

/-- A single word is only trimmed. -/
theorem joinTrimmed_singleton (word : Str) : joinTrimmed [word] = trim word :=
  joinTrimmed_append [] word

/-- The text behind the second word. -/
theorem value_append {command word : Str} (hcommand : ' ' ∉ command) (hword : ' ' ∉ word)
    (rest : Str) : (Parser.parse (command ++ ' ' :: (word ++ ' ' :: rest))).value =
      joinTrimmed (split rest space) := by
  unfold Parser.parse
  rw [if_pos (contains_space_append hcommand _), split_append hcommand, split_append hword]

/-- **`INVITE`.** -/
theorem invite_agrees_iff (h : Laid message command before format after)
    (hcheck : Checker.checkOnlyNickAndChannelName format = true) :
    NickAgrees (firstOf format) (Parser.parse message).function ∧
        ChannelAgrees (restOf format) (Parser.parse message).value ↔
      Adjacent message ∧ EndsOnce message := by
  obtain ⟨hhead, hspace, hchannel, hone⟩ := Checker.checkOnlyNickAndChannelName_iff.mp hcheck
  rw [h.nickAgrees_iff hhead]
  refine and_congr_right fun hadjacent => ?_
  have hblank : ' ' ∉ before := h.adjacent_iff.mp hadjacent
  have hvalue : (Parser.parse message).value =
      joinTrimmed (split (restOf format ++ after) space) := by
    have hmessage : message = command ++ ' ' :: ((before ++ firstOf format) ++
        ' ' :: (restOf format ++ after)) := by
      rw [h.text]
      conv_lhs => rw [eq_firstOf_append hspace]
      simp
    rw [hmessage, value_append h.oneWord (by simp [hblank, space_not_mem_firstOf])]
  have hne : restOf format ≠ [] := by
    intro hempty
    rw [hempty] at hchannel
    cases hchannel
  obtain ⟨tail, words, htail, hsplit, hwords⟩ := split_append_spaces hone hne after
  rw [h.endsOnce_iff, ← hwords, hvalue, hsplit]
  constructor
  · intro hagrees
    by_contra hmore
    exact hagrees.noSpace (space_mem_joinTrimmed hmore)
  · rintro rfl
    rw [joinTrimmed_singleton, trim_append_spaces _ fun c hc => h.after c (htail.subset hc)]
    refine ⟨rfl, ?_, fun hin => hone ((infix_of_trim _).subset hin)⟩
    obtain ⟨more, hmore⟩ : ∃ more, restOf format = '#' :: more :=
      ⟨_, List.eq_cons_of_mem_head? hchannel⟩
    rw [hmore, head?_trim, List.dropWhile_cons_of_neg (by decide)]
    rfl

/-- What `Mode::Execute` reads of a message with three words. -/
theorem exists_modeCall (env : Env) {first flags : Str} {more : List Str}
    (hwords : split message space = command :: first :: flags :: more)
    (hspace : contains space message = true) :
    ∃ info, Server.modeCall env message = some info ∧ info.channel = trim first ∧
      info.status = decide (flags.head? = some '+') ∧
        ∀ sign letter rest, flags = sign :: letter :: rest → info.key = [letter] := by
  unfold Server.modeCall Parser.modeParse
  rw [if_neg (by simp [hspace, hwords]), hwords]
  refine ⟨_, rfl, rfl, rfl, ?_⟩
  rintro sign letter rest rfl
  rfl

/-- The first word of a text that is not empty comes first. -/
theorem exists_split {text : Str} (h : text ≠ []) :
    ∃ more, split text space = firstOf text :: more := by
  have hne : split text space ≠ [] := cutTrim_ne_nil (by decide) h
  obtain ⟨first, more, hsplit⟩ := List.exists_cons_of_ne_nil hne
  have hhead := headD_split text
  rw [hsplit] at hhead
  exact ⟨more, hhead ▸ hsplit⟩

/-- The words of a message are its command and those behind it. -/
theorem split_message (h : Laid message command before format after) :
    split message space = command :: split (before ++ format ++ after) space := by
  rw [h.text, split_append h.oneWord]

/-- The words of a message with two parameters or more. -/
theorem exists_words (h : Laid message command before format after) (hblank : ' ' ∉ before)
    (hspace : ' ' ∈ format) (hne : restOf format ≠ []) :
    ∃ words, split message space =
      command :: (before ++ firstOf format) :: firstOf (restOf format ++ after) :: words := by
  have hrest : before ++ format ++ after = (before ++ firstOf format) ++
      ' ' :: (restOf format ++ after) := by
    conv_lhs => rw [eq_firstOf_append hspace]
    simp
  obtain ⟨words, hwords⟩ := exists_split (show restOf format ++ after ≠ [] by simp [hne])
  refine ⟨words, ?_⟩
  rw [h.split_message, hrest, split_append (by simp [hblank, space_not_mem_firstOf]), hwords]

/-- **`MODE`.** -/
theorem mode_agrees_iff (h : Laid message command before format after) (env : Env)
    (hcheck : Checker.checkOnlyMode format = true) :
    (∀ info ∈ Server.modeCall env message, ChannelAgrees (firstOf format) info.channel ∧
        ModeAgrees (restOf format) info) ↔
      Adjacent message ∧ (' ' ∈ format ∨ EndsOnce message) := by
  obtain ⟨hfirst, hmode⟩ := Checker.checkOnlyMode_spec hcheck
  have hhead := head?_of_firstOf hfirst
  have hcontains : contains space message = true := by
    rw [h.text]
    exact contains_space_append h.oneWord _
  have hsplit := h.split_message
  by_cases hblank : ' ' ∈ before
  · -- the first word is white space
    obtain ⟨blank, more, hbefore, hone⟩ := List.eq_append_cons_of_mem hblank
    have hrest : before ++ format ++ after = blank ++ ' ' :: (more ++ format ++ after) := by
      simp [hbefore]
    obtain ⟨words, hwords⟩ :=
      exists_split (show more ++ format ++ after ≠ [] by simp [h.nonempty])
    rw [hrest, split_append hone, hwords] at hsplit
    obtain ⟨info, hinfo, hchannel, -⟩ := exists_modeCall env hsplit hcontains
    refine iff_of_false (fun hall => ?_) (fun hspaced => h.adjacent_iff.mp hspaced.1 hblank)
    have hhash := (hall info hinfo).1.hash
    rw [hchannel, trim_eq_nil fun c hc => h.before c (hbefore ▸ List.mem_append_left _ hc)] at hhash
    cases hhash
  · have hadjacent := h.adjacent_iff.mpr hblank
    by_cases hspace : ' ' ∈ format
    · refine iff_of_true (fun info hinfo => ?_) ⟨hadjacent, Or.inl hspace⟩
      obtain ⟨sign, letter, text, hrestOf, hsign, hletter⟩ := hmode hspace
      obtain ⟨words, hwords⟩ := h.exists_words hblank hspace (by simp [hrestOf])
      obtain ⟨info', hinfo', hchannel, hstatus, hkey⟩ := exists_modeCall env hwords hcontains
      obtain rfl : info' = info := Option.some.inj (hinfo'.symm.trans hinfo)
      have hflags : firstOf (restOf format ++ after) =
          sign :: letter :: firstOf (text ++ after) := by
        rw [hrestOf]
        refine firstOf_flags ?_ ?_
        · rintro rfl
          simp at hsign
        · rintro rfl
          simp at hletter
      refine ⟨?_, sign, letter, text, hrestOf, hsign, ?_, hkey sign letter _ hflags⟩
      · rw [hchannel, trim_spaces_append h.before]
        exact h.channelAgrees_trim hhead
      · rw [hstatus, hflags]
        simp
    · -- the check has seen no second word
      obtain ⟨tail, words, -, hrest, hwords⟩ :=
        split_append_spaces (show ' ' ∉ before ++ format by simp [hblank, hspace])
          (List.append_ne_nil_of_right_ne_nil before h.nonempty) after
      rw [hrest] at hsplit
      rw [h.endsOnce_iff, ← hwords, or_iff_right hspace, and_iff_right hadjacent]
      cases words with
      | nil =>
          refine iff_of_true (fun info hinfo => ?_) rfl
          unfold Server.modeCall at hinfo
          rw [if_pos (Or.inr (by simp [hsplit]))] at hinfo
          cases hinfo
      | cons flags more =>
          refine iff_of_false (fun hall => ?_) (List.cons_ne_nil _ _)
          obtain ⟨info, hinfo, -⟩ := exists_modeCall env hsplit hcontains
          obtain ⟨sign, letter, text, hrestOf, -⟩ := (hall info hinfo).2
          rw [restOf_of_not_mem hspace] at hrestOf
          cases hrestOf

/-- `KICK` parses what stands before the first colon again. -/
theorem kickParse_cut {text : Str} (h : ':' ∉ text) (rest : Str) :
    (∀ parsed ∈ Server.kickParse (text ++ ':' :: rest), parsed.1 = Parser.parse (trim text)) ∧
      (rest ≠ [] → ∃ parsed, Server.kickParse (text ++ ':' :: rest) = some parsed) := by
  have hcontains : contains colon (text ++ ':' :: rest) = true := by
    have hfind : find colon (text ++ ':' :: rest) = some text.length := find_singleton_append h rest
    rw [contains, hfind]
    rfl
  have hcut : split (text ++ ':' :: rest) colon = text :: split rest colon :=
    cutTrim_singleton_append h rest
  unfold Server.kickParse
  rw [if_pos hcontains, hcut]
  cases hsplit : split rest colon with
  | nil =>
      refine ⟨fun parsed hparsed => (by cases hparsed), fun hne => ?_⟩
      exact (cutTrim_ne_nil (by decide) hne hsplit).elim
  | cons reason more =>
      refine ⟨fun parsed hparsed => ?_, fun _ => ⟨_, rfl⟩⟩
      rw [← Option.some.inj hparsed]

/-- The parameters start with `#`, so that a colon in them is not the first
character of the message behind the command. -/
theorem trim_ne_nil_of_restOf (h : Laid message command before format after)
    (hhead : format.head? = some '#') {text rest : Str}
    (hrest : restOf message = text ++ ':' :: rest) : trim text ≠ [] := by
  intro hblank
  have hformat := h.trim_restOf
  rw [hrest, trim_spaces_append (isspace_of_trim_eq_nil hblank)] at hformat
  have hstart := head?_trim (':' :: rest)
  rw [hformat, hhead, List.dropWhile_cons_of_neg (by decide)] at hstart
  cases hstart

/-- A colon in the word that is read is one in the word that was checked. -/
theorem colon_mem_firstOf (h : Laid message command before format after)
    (hadjacent : Adjacent message) (hspace : ' ' ∈ format) (hin : ':' ∈ firstOf (restOf message)) :
    ':' ∈ firstOf format := by
  rw [h.restOf_eq, List.append_assoc, firstOf_append_of_not_mem (h.adjacent_iff.mp hadjacent),
    firstOf_append_of_mem hspace] at hin
  refine (List.mem_append.mp hin).resolve_left fun hbefore => ?_
  exact absurd (h.before _ hbefore) (by decide)

/-- **`KICK`.** -/
theorem kick_agrees_iff (h : Laid message command before format after) (hcommand : ':' ∉ command)
    (hcheck : Checker.checkOnlyChannelAndMessage format = true) :
    ChannelAgrees (firstOf format) (Parser.parse message).function ∧
        (∀ parsed ∈ Server.kickParse message,
          ChannelAgrees (firstOf format) parsed.1.function) ↔
      Adjacent message ∧ ':' ∉ firstOf (restOf message) := by
  obtain ⟨hspace, hfirst⟩ := Checker.checkOnlyChannelAndMessage_iff.mp hcheck
  have hhead := head?_of_firstOf hfirst
  rw [h.channelAgrees_iff hhead]
  refine and_congr_right fun hadjacent => ?_
  have hagrees := (h.channelAgrees_iff hhead).mpr hadjacent
  have hfunction : (Parser.parse message).function = trim (firstOf (restOf message)) := by
    rw [h.restOf_eq, h.text, function_append h.oneWord]
  have hmessage : message = command ++ ' ' :: restOf message := by
    rw [h.restOf_eq]
    exact h.text
  by_cases hcolon : ':' ∈ restOf message
  · obtain ⟨text, rest, hrest, htext⟩ := List.eq_append_cons_of_mem hcolon
    have hnot : ':' ∉ command ++ ' ' :: text := by simp [hcommand, htext]
    have hcut : message = (command ++ ' ' :: text) ++ ':' :: rest := by
      rw [hmessage, hrest]
      simp
    obtain ⟨hparsed, hsome⟩ := kickParse_cut hnot rest
    rw [← hcut] at hparsed hsome
    obtain ⟨_, _, hlaid⟩ :=
      exists_laid_of_text h.oneWord h.starts (h.trim_ne_nil_of_restOf hhead hrest)
    have hextracted : ∀ parsed ∈ Server.kickParse message,
        parsed.1.function = trim (firstOf text) := by
      intro parsed hmem
      rw [hparsed parsed hmem, hlaid.function_trim, function_append h.oneWord]
    by_cases hword : ' ' ∈ text
    · have hsame : firstOf (restOf message) = firstOf text := by
        rw [hrest, firstOf_append_of_mem hword]
      refine iff_of_true (fun parsed hmem => ?_) ?_
      · rw [hextracted parsed hmem, ← hsame, ← hfunction]
        exact hagrees
      · rw [hsame]
        exact fun hin => htext ((List.takeWhile_prefix _).subset hin)
    · have hin : ':' ∈ firstOf (restOf message) := by
        rw [hrest, firstOf_append_of_not_mem hword]
        simp [firstOf]
      refine iff_of_false (fun hall => ?_) (not_not.mpr hin)
      have hspaceRest : ' ' ∈ restOf message := by
        rw [h.restOf_eq]
        simp [hspace]
      have hrest' : rest ≠ [] := by
        rintro rfl
        rw [hrest] at hspaceRest
        simp [hword] at hspaceRest
      obtain ⟨parsed, hsome⟩ := hsome hrest'
      have hsame := (hall parsed hsome).same
      rw [hextracted parsed hsome, firstOf_of_not_mem hword] at hsame
      have hchecked := h.colon_mem_firstOf hadjacent hspace hin
      have hkept : ':' ∈ trim text := hsame ▸ mem_trim hchecked (by decide)
      exact htext ((infix_of_trim text).subset hkept)
  · have hnone : contains colon message = false := by
      have hnot : ':' ∉ message := by
        rw [hmessage]
        simp [hcommand, hcolon]
      have hfind : find colon message = none := find_singleton_eq_none.mpr hnot
      rw [contains, hfind]
      rfl
    refine iff_of_true (fun parsed hmem => ?_) fun hin =>
      hcolon ((List.takeWhile_prefix _).subset hin)
    unfold Server.kickParse at hmem
    rw [hnone] at hmem
    rw [← Option.some.inj hmem]
    exact hagrees

end Laid

/-- A check that raises nothing has passed. -/
theorem eq_true_of_no_error {checked : Bool} {e : Exception}
    (h : (if checked then none else some e) = none) : checked = true := by
  cases checked
  · cases h
  · rfl

/-- **Agreement.**  The handler of an accepted message extracts what was checked
just when the spaces are where it expects them. -/
theorem parametersAgree_iff (env : Env) {message : Str}
    (haccepts : Checker.accepts message = true) :
    ParametersAgree env message (verbOf (commandOf message)) ↔
      Spaced message (verbOf (commandOf message)) := by
  obtain ⟨command, before, format, after, hlaid⟩ := exists_laid haccepts
  obtain ⟨hspace, herror, hknown⟩ := Server.accepts_iff.mp haccepts
  rw [getCommand_eq_commandOf hspace] at herror hknown
  have hcommand : ':' ∉ command := by
    rw [hlaid.text, commandOf_append hlaid.oneWord] at hknown
    exact colon_not_mem_of_verb hknown
  generalize verbOf (commandOf message) = verb at herror
  unfold Checker.formatError at herror
  unfold ParametersAgree Spaced
  rw [hlaid.formatOf_eq] at herror
  rw [hlaid.formatOf_eq, hlaid.trim_restOf]
  cases verb with
  | who =>
      have hcheck := Checker.checkOnlyChannel_iff.mp (eq_true_of_no_error herror)
      exact hlaid.channelAgrees_iff hcheck.1
  | join => exact hlaid.channelAgrees_iff (of_decide_eq_true (eq_true_of_no_error herror))
  | part | topic =>
      have hcheck := Checker.checkOnlyChannelAndMessage_iff.mp (eq_true_of_no_error herror)
      exact hlaid.channelAgrees_iff (head?_of_firstOf hcheck.2)
  | nick =>
      have hcheck := Checker.checkOnlyNickName_iff.mp (eq_true_of_no_error herror)
      exact hlaid.nickAgrees_iff hcheck.1
  | kick => exact hlaid.kick_agrees_iff hcommand (eq_true_of_no_error herror)
  | invite => exact hlaid.invite_agrees_iff (eq_true_of_no_error herror)
  | mode => exact hlaid.mode_agrees_iff env (eq_true_of_no_error herror)
  | quit | privmsg | user | pass | notice | whois | unknown => rfl

/-- The second word of an accepted message is empty when a space too many stands
before it. -/
theorem function_eq_nil_iff {message : Str} (haccepts : Checker.accepts message = true) :
    (Parser.parse message).function = [] ↔ ¬ Adjacent message := by
  obtain ⟨command, before, format, after, hlaid⟩ := exists_laid haccepts
  rw [hlaid.function_eq, hlaid.adjacent_iff, not_not]
  split
  · rename_i hspace
    exact iff_of_true rfl hspace
  · rename_i hspace
    refine iff_of_false (fun hempty => ?_) hspace
    have hfirst := head?_trim_firstOf hlaid.trimmed
    rw [hempty, List.head?_nil, eq_comm, List.head?_eq_none_iff] at hfirst
    exact hlaid.nonempty hfirst

namespace Server

variable {s s' : Server} {x : ClientPtr} {fd : Fd} {message : Str}

/-- Channels have names that start with `#`, and connected clients have nicknames. -/
structure WellNamed (s : Server) : Prop where
  channels : ∀ ch ∈ s.channels, ch.name.head? = some '#'
  clients : ∀ p ∈ s.clients, (s.memory p).nickName ≠ []

/-- The line may set a nickname or create a channel. -/
def NameCalled (s : Server) (message : Str) (x : ClientPtr) : Prop :=
  NickCalled message ∨ s.JoinCalled message x

instance (s : Server) (message : Str) (x : ClientPtr) : Decidable (s.NameCalled message x) :=
  inferInstanceAs (Decidable (_ ∨ _))

/-- A line that may set a name is an accepted one. -/
theorem NameCalled.accepts (h : s.NameCalled message x) : Checker.accepts message = true :=
  h.elim And.left And.left

/-- No client is found by the empty nickname. -/
theorem WellNamed.getClient_nil (h : s.WellNamed) : s.getClientByNickName [] = none :=
  List.find?_eq_none.mpr fun p hp => by simpa using h.clients p hp

/-- No channel is found by the empty name. -/
theorem WellNamed.getChannel_nil (h : s.WellNamed) : s.getChannel [] = none := by
  refine List.find?_eq_none.mpr fun ch hch => ?_
  have hhead := h.channels ch hch
  rw [decide_eq_true_eq]
  intro hname
  rw [hname] at hhead
  cases hhead

/-- A `JOIN` for a channel that does not exist creates it. -/
theorem handleLine_creates (env : Env) (hdistinct : (s.channels.map Channel.name).Nodup)
    (hline : OneLine message) (hcalled : s.JoinCalled message x) (hx : s.getClient fd = some x)
    (hnone : s.getChannel (Parser.parse message).function = none)
    (hdone : handleLine env s message fd = .done s') :
    ∃ ch ∈ s'.channels, ch.name = (Parser.parse message).function := by
  obtain ⟨text, hattempt⟩ := joinAttempt_created hx hnone
  rw [handleLine_join env hdistinct hline hcalled.1 hcalled.2.1 hx hcalled.2.2, execJoin_eq,
    hattempt, catching_done] at hdone
  cases hdone
  exact ⟨_, List.mem_append_right _ (List.mem_singleton_self _), rfl⟩

end Server

/-- The line that a step handles sets no empty name. -/
def NamesAdjacent (w : World) (a : Action) : Prop :=
  ∀ said ∈ w.speaker a, w.srv.NameCalled said.2 said.1 → Adjacent said.2

instance (w : World) (a : Action) : Decidable (NamesAdjacent w a) :=
  inferInstanceAs (Decidable (∀ said ∈ w.speaker a, _))

variable {w w' : World} {a : Action}

/-- The channels keep their names, and a new one has the name in the `JOIN`. -/
theorem channels_wellNamed (htidy : Tidy w) (h : w.srv.WellNamed) (hstep : Stepped w a w')
    (hadjacent : NamesAdjacent w a) : ∀ ch ∈ w'.srv.channels, ch.name.head? = some '#' := by
  intro ch' hch'
  rcases hstep.channels htidy hch' with ⟨ch, hch, hthins⟩ |
    ⟨x, line, hspeaker, hcalled, ch, rfl, hch⟩
  · rw [hthins.name]
    exact h.channels ch hch
  · rcases hch with hch | rfl
    · exact h.channels ch hch
    · have hne := mt (function_eq_nil_iff hcalled.1).mp
        (not_not.mpr (hadjacent (x, line) hspeaker (Or.inr hcalled)))
      have hcommand := getCommand_eq_commandOf (Server.accepts_iff.mp hcalled.1).1
      exact (hashed_function hcalled.1 (hcommand ▸ hcalled.2.1)).resolve_left hne

/-- The clients keep their nicknames, or get the one in their `NICK`. -/
theorem clients_wellNamed (htidy : Tidy w) (h : w.srv.WellNamed) (hstep : Stepped w a w')
    (hadjacent : NamesAdjacent w a) : ∀ p ∈ w'.srv.clients, (w'.srv.memory p).nickName ≠ [] := by
  intro p hp
  have hrecords := hstep.records htidy
  rcases mem_clients_step htidy hstep hp with hp | ⟨-, -, fd, hostName, hnew⟩
  · by_cases hspeaks : ∃ line, w.speaker a = some (p, line)
    · obtain ⟨line, hspeaker⟩ := hspeaks
      rw [(hrecords.own p line hspeaker).nickName]
      rcases w.srv.nickName_recordAfter line (w.srv.memory p) with hsame | ⟨hcalled, hfree⟩
      · rw [hsame]
        exact h.clients p hp
      · rw [Server.nickName_of_nickCalled hcalled hfree]
        exact mt (function_eq_nil_iff hcalled.1).mp
          (not_not.mpr (hadjacent (p, line) hspeaker (Or.inl hcalled)))
    · rw [(hrecords.others p (Or.inl (htidy.fresh p hp))
        fun line heq => hspeaks ⟨line, heq⟩).nickName]
      exact h.clients p hp
  · rw [hnew]
    exact List.cons_ne_nil '*' []

/-- From a state with such names, a step leads to one just when it sets no empty
name. -/
theorem wellNamed_step (htidy : Tidy w) (h : w.srv.WellNamed) (hstep : Stepped w a w') :
    w'.srv.WellNamed ↔ NamesAdjacent w a := by
  refine ⟨fun hnext said hsaid hcalled => ?_, fun hadjacent =>
    ⟨channels_wellNamed htidy h hstep hadjacent, clients_wellNamed htidy h hstep hadjacent⟩⟩
  by_contra hnot
  obtain ⟨x, line⟩ := said
  have hempty := (function_eq_nil_iff hcalled.accepts).mpr hnot
  rcases hcalled with hcalled | hcalled
  · have hmem := mem_of_nick_or_pass htidy hstep hsaid (Or.inl hcalled.2)
    refine hnext.clients x hmem ?_
    have hfree : w.srv.getClientByNickName (Parser.parse line).function = none :=
      hempty ▸ h.getClient_nil
    rw [((hstep.records htidy).own x line hsaid).nickName,
      Server.nickName_of_nickCalled hcalled hfree, hempty]
  · have hnone : w.srv.getChannel (Parser.parse line).function = none := hempty ▸ h.getChannel_nil
    cases hstep with
    | @line env fd first lines s hpending hdone =>
        have hline := htidy.lines fd _ hpending first List.mem_cons_self
        simp only [World.speaker, hpending] at hsaid
        obtain ⟨y, hy, heq⟩ := Option.map_eq_some_iff.mp hsaid
        cases heq
        obtain ⟨ch, hch, hname⟩ := Server.handleLine_creates env htidy.named.distinct hline hcalled
          hy hnone hdone
        have hhead := hnext.channels ch hch
        rw [hname, hempty] at hhead
        cases hhead
    | _ => cases hsaid

/-- **Checker and parser.**  An accepted message has its parameters extracted as
they were checked if and only if its spaces are where its handler expects them;
and in every state of a run the channels have names that start with `#` and the
clients have nicknames, if and only if no step of the run sets an empty name. -/
theorem parameters_agree_iff {trace : Run.Trace World Action} (run : Steps trace w) :
    (∀ env message fd, (Checker.check w.srv message fd).ending = .returned →
      (ParametersAgree env message (verbOf (commandOf message)) ↔
        Spaced message (verbOf (commandOf message)))) ∧
    (Run.Throughout (fun w => w.srv.WellNamed) trace w ↔ Run.Meets NamesAdjacent trace) := by
  constructor
  · intro env message fd hcheck
    apply parametersAgree_iff
    by_contra hnot
    exact Server.check_of_not_accepts w.srv fd hnot hcheck
  · refine run.throughout_iff_meets Tidy (fun w => w.srv.WellNamed) (fun _ => tidy_start)
      (fun _ _ _ htidy hstep => htidy.stepped (stepped_of_step hstep)) (fun w hstart => ?_)
      fun _ _ _ htidy h hstep => wellNamed_step htidy h (stepped_of_step hstep)
    obtain ⟨password, createdDate, listener, keepsFd, rfl⟩ := hstart
    exact ⟨fun ch hch => (by cases hch), fun p hp => (by cases hp)⟩

/-- An operator, whose nickname and channel have names, invites someone. -/
theorem parameters_agree_iff_invite : ∃ trace w, Steps trace w ∧
    w.srv.channels.map Channel.name = ["#c".toList] ∧
    (Checker.check w.srv "INVITE b #c".toList 5).ending = .returned ∧
    ParametersAgree Env.calm "INVITE b #c".toList .invite ∧
    Run.Throughout (fun w => w.srv.WellNamed) trace w := by
  obtain ⟨trace, w, run, hmeets, htest⟩ := Run.exists_steps_meeting step NamesAdjacent start_pw
    ([.gather, .accept 5 "h".toList, .gather] ++
      packet 5 ["PASS pw", "NICK a", "USER a a a :n", "JOIN #c"])
    (fun w => w.srv.channels.map Channel.name = ["#c".toList] ∧
      (Checker.check w.srv "INVITE b #c".toList 5).ending = .returned) (by decide +kernel)
  obtain ⟨hnames, hcheck⟩ := of_decide_eq_true htest
  obtain ⟨hagrees, hthroughout⟩ := parameters_agree_iff run
  have hverb : verbOf (commandOf "INVITE b #c".toList) = .invite := by decide
  have hinvite := hagrees Env.calm _ 5 hcheck
  rw [hverb] at hinvite
  have hspaced : Spaced "INVITE b #c".toList .invite := ⟨by decide, by decide⟩
  exact ⟨trace, w, run, hnames, hcheck, hinvite.mpr hspaced, hthroughout.mpr hmeets⟩

/-- Two spaces behind the command: the check sees `#c` and `b`, but the channel
that is created and the nickname that is set are empty. -/
theorem names_behind_two_spaces : ∃ trace w, Steps trace w ∧
    (Checker.check w.srv "JOIN  #c".toList 5).ending = .returned ∧
    ¬ ParametersAgree Env.calm "JOIN  #c".toList .join ∧
    (Checker.check w.srv "NICK  b".toList 5).ending = .returned ∧
    ¬ ParametersAgree Env.calm "NICK  b".toList .nick ∧
    w.srv.channels.map Channel.name = [[]] ∧
    w.srv.clients.map (fun p => (w.srv.memory p).nickName) = [[]] := by
  obtain ⟨trace, w, run, htest⟩ := Run.exists_steps_of_perform step start_pw
    ([.gather, .accept 5 "h".toList, .gather] ++
      packet 5 ["PASS pw", "NICK a", "USER a a a :n", "JOIN  #c", "NICK  b"])
    (fun w => (Checker.check w.srv "JOIN  #c".toList 5).ending = .returned ∧
      (Checker.check w.srv "NICK  b".toList 5).ending = .returned ∧
      w.srv.channels.map Channel.name = [[]] ∧
      w.srv.clients.map (fun p => (w.srv.memory p).nickName) = [[]]) (by decide +kernel)
  obtain ⟨hjoin, hnick, hchannels, hclients⟩ := of_decide_eq_true htest
  refine ⟨trace, w, run, hjoin, fun hagrees => ?_, hnick, fun hagrees => ?_, hchannels, hclients⟩
  · exact absurd hagrees.hash (by decide)
  · exact hagrees.nonempty (by decide)

end FtIrc
