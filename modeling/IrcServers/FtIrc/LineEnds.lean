import IrcServers.FtIrc.ChannelNames
import IrcServers.FtIrc.Endings

/-!
# Words of a line that keeps its CRLF

A message of one line reaches the handlers with its CRLF.  The checks trim it
away, and so does whatever trims the last word.  Three things can make a
difference: a word that is taken as it is, a CRLF that is a word of its own
because the line ends with a space, and one that is all that follows a colon.
-/

namespace FtIrc

open Utils Text Outcome

/-- The words of a line without and with its CRLF. -/
theorem exists_words (line : Str) :
    ∃ init last, ' ' ∉ last ∧ (last = [] ↔ line = [] ∨ line.getLast? = some ' ') ∧
      split line space = (if last = [] then init else init ++ [last]) ∧
        split (line ++ crlf) space = init ++ [last ++ crlf] :=
  cutTrim_append (by decide) (by decide) line

/-- A CRLF is trimmed off. -/
theorem trim_crlf (text : Str) : trim (text ++ crlf) = trim text :=
  trim_append_spaces text (by simp [crlf, isspace])

/-- It contains no other character. -/
theorem contains_crlf {d : Char} (hd : d ∉ crlf) (line : Str) :
    contains [d] (line ++ crlf) = contains [d] line := by
  have hmem : ∀ text : Str, contains [d] text = true ↔ d ∈ text := by
    intro text
    rw [contains, Option.isSome_iff_ne_none, ne_eq, find_singleton_eq_none, not_not]
  rw [Bool.eq_iff_iff, hmem, hmem, List.mem_append]
  simp [hd]

/-- So a line with a space has one with its CRLF too. -/
theorem contains_space_crlf {line : Str} (h : contains space line = true) :
    contains space (line ++ crlf) = true :=
  (contains_crlf (d := ' ') (by decide) line).trans h

/-- A line with some character in it is not empty. -/
theorem ne_nil_of_contains {d : Char} {line : Str} (h : contains [d] line = true) : line ≠ [] := by
  rintro rfl
  cases h

/-- All words but the last one are followed by a space. -/
theorem joinTrimmed_append (words : List Str) (word : Str) :
    joinTrimmed (words ++ [word]) = words.flatMap (fun w => trim w ++ " ".toList) ++ trim word := by
  have hloop : ∀ (words : List Str) (k n : Nat) (text : Str), k + words.length ≤ n →
      (words.zipIdx k).foldl (fun text entry =>
        text ++ trim entry.1 ++ (if entry.2 ≠ n then " ".toList else [])) text =
        text ++ words.flatMap (fun w => trim w ++ " ".toList) := by
    intro words
    induction words with
    | nil => simp
    | cons w words ih =>
        intro k n text hn
        simp only [List.length_cons] at hn
        rw [List.zipIdx_cons, List.foldl_cons, ih (k + 1) n _ (by omega), if_pos (by simp; omega)]
        simp
  unfold joinTrimmed
  rw [List.zipIdx_append, List.foldl_append, List.length_append, List.length_singleton,
    Nat.add_sub_cancel, hloop words 0 words.length [] (by omega)]
  simp

/-- A CRLF behind the last word is trimmed away, and one that is a word of its
own adds a space. -/
theorem joinTrimmed_crlf (words : List Str) (last : Str) :
    joinTrimmed (words ++ [last ++ crlf]) =
      joinTrimmed (if last = [] then words else words ++ [last]) ++
        (if last = [] ∧ words ≠ [] then " ".toList else []) := by
  rw [joinTrimmed_append, trim_crlf]
  by_cases hlast : last = []
  · subst hlast
    rcases List.eq_nil_or_concat words with rfl | ⟨front, word, rfl⟩
    · rfl
    · rw [if_pos rfl, List.concat_eq_append, joinTrimmed_append, if_pos (by simp)]
      have hnil : trim [] = [] := rfl
      simp [hnil]
  · rw [if_neg hlast, joinTrimmed_append, if_neg (by simp [hlast])]
    simp

/-- The number of words of a line that keeps its CRLF. -/
def wordCount (line : Str) : Nat := (split (line ++ crlf) space).length

/-- The CRLF of the line is a word of its own, and the third or a later one behind
the command. -/
def Trails (line : Str) : Prop := line.getLast? = some ' ' ∧ 4 ≤ wordCount line

instance (line : Str) : Decidable (Trails line) := inferInstanceAs (Decidable (_ ∧ _))

/-- The CRLF is a word of its own behind a last word that is empty. -/
theorem trails_iff {line last : Str} {init : List Str} (hline : line ≠ [])
    (hends : last = [] ↔ line = [] ∨ line.getLast? = some ' ')
    (hcrlf : split (line ++ crlf) space = init ++ [last ++ crlf]) :
    Trails line ↔ last = [] ∧ 3 ≤ init.length := by
  unfold Trails wordCount
  rw [hcrlf, hends, or_iff_right hline]
  simp

/-- What `Parser::parse` reads from a line with its CRLF. -/
theorem parse_crlf {line : Str} (hspace : contains space line = true) :
    (Parser.parse (line ++ crlf)).function = (Parser.parse line).function ∧
      (Parser.parse (line ++ crlf)).value =
        (Parser.parse line).value ++ (if Trails line then " ".toList else []) := by
  obtain ⟨init, last, -, hends, hwords, hcrlf⟩ := exists_words line
  have hspace' := contains_space_crlf hspace
  have hline : line ≠ [] := ne_nil_of_contains hspace
  have htrails := trails_iff hline hends hcrlf
  unfold Parser.parse
  simp only [hspace, hspace', if_true, hwords, hcrlf, htrails]
  rcases init with _ | ⟨command, _ | ⟨function, words⟩⟩
  · by_cases hlast : last = [] <;> simp [hlast]
  · have htrim := trim_crlf last
    have hjoin : joinTrimmed [] = [] := rfl
    by_cases hlast : last = []
    · subst hlast
      have hblank : trim crlf = [] := by decide
      simp [hblank, hjoin]
    · simp [hlast, htrim, hjoin]
  · have hjoin := joinTrimmed_crlf words last
    by_cases hlast : last = []
    · subst hlast
      simp only [List.cons_append, hjoin]
      simp [Nat.one_le_iff_ne_zero]
    · simp [hlast, hjoin]

/-- The parameter is read alike with the CRLF. -/
theorem function_crlf {line : Str} (hspace : contains space line = true) :
    (Parser.parse (line ++ crlf)).function = (Parser.parse line).function :=
  (parse_crlf hspace).1

/-- So is what stands behind it, unless the CRLF is a word of its own there. -/
theorem value_crlf {line : Str} (hspace : contains space line = true) (h : ¬ Trails line) :
    (Parser.parse (line ++ crlf)).value = (Parser.parse line).value := by
  rw [(parse_crlf hspace).2, if_neg h, List.append_nil]

/-- Up to a colon and white space, the text of a `PRIVMSG` is the same. -/
theorem privateMessage_crlf {line : Str} (hline : line ≠ []) (h : line.getLast? ≠ some ' ') :
    Parser.privateMessage (line ++ crlf) = Parser.privateMessage line := by
  obtain ⟨init, last, -, hends, hwords, hcrlf⟩ := exists_words line
  have hlast : last ≠ [] := by simp [hends, hline, h]
  unfold Parser.privateMessage
  rw [hwords, hcrlf, if_neg hlast]
  match init with
  | [] => rfl
  | [_] => rfl
  | [_, target] =>
      have hjoin : ∀ word : Str, joinTrimmed [word ++ crlf] = joinTrimmed [word] := by
        intro word
        have htrimmed := joinTrimmed_append [] (word ++ crlf)
        rw [trim_crlf, ← joinTrimmed_append] at htrimmed
        exact htrimmed
      obtain ⟨c, rest, rfl⟩ := List.exists_cons_of_ne_nil hlast
      by_cases hcolon : c = ':'
      · simp [hcolon, hjoin]
      · simpa [hcolon] using hjoin (c :: rest)
  | _ :: target :: word :: words =>
      have hjoin : ∀ first : Str, joinTrimmed (first :: (words ++ [last ++ crlf])) =
          joinTrimmed (first :: (words ++ [last])) := by
        intro first
        have htrimmed := joinTrimmed_crlf (first :: words) last
        simpa [hlast] using htrimmed
      simp [hjoin]

/-- The target of a `PRIVMSG` is the same when there is a text. -/
theorem privateMessage_target {line : Str} (h : 4 ≤ wordCount line) :
    ∃ info info', Parser.privateMessage line = some info ∧
      Parser.privateMessage (line ++ crlf) = some info' ∧ info'.target = info.target := by
  obtain ⟨init, last, -, hends, hwords, hcrlf⟩ := exists_words line
  have hlength : 3 ≤ init.length := by
    rw [wordCount, hcrlf] at h
    simpa using h
  unfold Parser.privateMessage
  rw [hwords, hcrlf]
  match init with
  | _ :: target :: word :: words =>
      by_cases hlast : last = []
      · simp [hlast]
      · simp [hlast]

/-- `USER` reads the CRLF only as part of the fifth word. -/
theorem userParse_crlf {line : Str} (h : wordCount line ≠ 5) :
    Parser.userParse (line ++ crlf) = Parser.userParse line := by
  obtain ⟨init, last, -, -, hwords, hcrlf⟩ := exists_words line
  have hlength : init.length ≠ 4 := by
    rw [wordCount, hcrlf] at h
    simpa using h
  unfold Parser.userParse
  rw [hwords, hcrlf]
  match init with
  | [_, _, _, _] => exact (hlength rfl).elim
  | [] | [_] | [_, _] | [_, _, _] | _ :: _ :: _ :: _ :: _ :: _ =>
      by_cases hlast : last = [] <;> simp [hlast]

/-- What stands after the colons of a line, when it is not all that follows the
only colon. -/
theorem piece_crlf {line : Str} (h : (split (line ++ crlf) colon).length ≠ 2) :
    (split (line ++ crlf) colon)[1]? = (split line colon)[1]? := by
  obtain ⟨init, last, -, -, hpieces, hcrlf⟩ :=
    cutTrim_append (show ':' ∉ crlf by decide) (show crlf ≠ [] by decide) line
  have hpieces' : split line colon = _ := hpieces
  have hcrlf' : split (line ++ crlf) colon = _ := hcrlf
  rw [hcrlf'] at h ⊢
  rw [hpieces']
  match init with
  | [_] => exact (h rfl).elim
  | [] | _ :: _ :: _ => by_cases hlast : last = [] <;> simp [hlast]

section Checks

variable {line : Str}

/-- The checker looks at the same text. -/
theorem formatOf_crlf (line : Str) :
    Checker.formatOf (line ++ crlf) = Checker.formatOf line := by
  unfold Checker.formatOf
  rw [trim_crlf]

/-- So it says the same. -/
theorem formatError_crlf (line : Str) :
    Checker.formatError (line ++ crlf) = Checker.formatError line := by
  funext verb
  cases verb <;> simp only [Checker.formatError, formatOf_crlf, trim_crlf]

/-- The command is the same for the checker and for the handlers. -/
theorem command_crlf (hspace : contains space line = true) :
    Checker.getCommand (line ++ crlf) = Checker.getCommand line ∧
      commandOf (line ++ crlf) = commandOf line := by
  obtain ⟨command, rest, hcommand, rfl⟩ := exists_command hspace
  rw [List.append_assoc, List.cons_append, getCommand_append hcommand, getCommand_append hcommand,
    commandOf_append hcommand, commandOf_append hcommand]
  exact ⟨rfl, rfl⟩

/-- The checks trim the message first. -/
theorem check_crlf (s : Server) (line : Str) (fd : Fd) :
    Checker.accepts (line ++ crlf) = Checker.accepts line ∧
      Checker.check s (line ++ crlf) fd = Checker.check s line fd := by
  unfold Checker.accepts Checker.check
  rw [trim_crlf, formatError_crlf]
  by_cases hspace : contains space (trim line) = true
  · rw [(command_crlf (contains_of_trim hspace)).1]
    exact ⟨rfl, rfl⟩
  · simp [hspace]

/-- Trimmed words that join to nothing are white space. -/
theorem trim_of_joinTrimmed {words : List Str} (h : joinTrimmed words = []) :
    ∀ word ∈ words, trim word = [] := by
  rcases List.eq_nil_or_concat words with rfl | ⟨front, word, rfl⟩
  · simp
  · rw [List.concat_eq_append, joinTrimmed_append, List.append_eq_nil_iff] at h
    obtain ⟨hfront, hword⟩ := h
    cases front with
    | nil => simpa using hword
    | cons first front => simp at hfront

/-- A message without a value has two words. -/
theorem exists_two_words {command rest : Str} (hcommand : ' ' ∉ command)
    (h : (Parser.parse (command ++ ' ' :: rest)).value = []) :
    ∃ word, ' ' ∉ word ∧ trim (command ++ ' ' :: rest) = trim (command ++ ' ' :: word) := by
  by_cases hmem : ' ' ∈ rest
  · obtain ⟨word, tail, rfl, hword⟩ := List.eq_append_cons_of_mem hmem
    have hwords : split (command ++ ' ' :: (word ++ ' ' :: tail)) space =
        command :: word :: split tail space :=
      (cutTrim_singleton_append hcommand _).trans
        (congrArg _ (cutTrim_singleton_append hword tail))
    have hvalue : joinTrimmed (split tail space) = [] := by
      unfold Parser.parse at h
      rw [if_pos (contains_space_append hcommand _), hwords] at h
      exact h
    have htail : ∀ c ∈ ' ' :: tail, isspace c = true := by
      intro c hc
      rcases List.mem_cons.mp hc with rfl | hc
      · decide
      · rcases eq_or_mem_of_cutTrim (d := ' ') hc with rfl | ⟨piece, hpiece, hin⟩
        · decide
        · exact isspace_of_trim_eq_nil (trim_of_joinTrimmed hvalue piece hpiece) c hin
    refine ⟨word, hword, ?_⟩
    rw [← List.cons_append, ← List.append_assoc]
    exact trim_append_spaces _ htail
  · exact ⟨rest, hmem, rfl⟩

/-- A message whose checked text has a space has a value. -/
theorem value_ne_nil {message : Str} (hspace : contains space (trim message) = true)
    (hformat : contains space (Checker.formatOf message) = true) :
    (Parser.parse message).value ≠ [] := by
  intro hvalue
  obtain ⟨command, rest, hcommand, rfl⟩ := exists_command (contains_of_trim hspace)
  obtain ⟨word, hword, htrim⟩ := exists_two_words hcommand hvalue
  obtain ⟨first, tail, hfirst, hwords⟩ := exists_command hspace
  have hone : (trim (command ++ ' ' :: rest)).count ' ' ≤ 1 := by
    rw [htrim]
    refine ((infix_of_trim _).sublist.count_le ' ').trans ?_
    rw [List.count_append, List.count_cons_self, List.count_eq_zero_of_not_mem hcommand,
      List.count_eq_zero_of_not_mem hword]
  have htail : ' ' ∉ tail := by
    rw [hwords, List.count_append, List.count_cons_self] at hone
    exact List.count_eq_zero.mp (by omega)
  have hcut : split (trim (command ++ ' ' :: rest)) space =
      first :: if tail = [] then [] else [tail] := by
    rw [hwords]
    exact (cutTrim_singleton_append hfirst tail).trans
      (congrArg _ (cutTrim_of_find_none (find_singleton_eq_none.mpr htail)))
  have hnone : ∀ text : Str, ' ' ∉ text → contains space text = false := by
    intro text htext
    simp [contains, space, find_singleton_eq_none.mpr htext]
  unfold Checker.formatOf at hformat
  rw [hcut] at hformat
  by_cases hempty : tail = []
  · rw [if_pos hempty] at hformat
    cases hformat
  · rw [if_neg hempty] at hformat
    simp only [List.foldl_nil] at hformat
    rw [hnone _ fun hin => htail ((infix_of_trim tail).subset hin)] at hformat
    cases hformat

end Checks

namespace Server

/-- A `KICK` with a colon reads the same, unless the CRLF is all the reason. -/
theorem kickParse_crlf {line : Str} (hcolon : contains colon line = true)
    (h : (split (line ++ crlf) colon).length = 2 → line.getLast? ≠ some ':') :
    kickParse (line ++ crlf) = kickParse line := by
  obtain ⟨init, last, -, hends, hpieces, hcrlf⟩ :=
    cutTrim_append (show ':' ∉ crlf by decide) (show crlf ≠ [] by decide) line
  have hpieces' : split line colon = _ := hpieces
  have hcrlf' : split (line ++ crlf) colon = _ := hcrlf
  have hline : line ≠ [] := ne_nil_of_contains hcolon
  have hcolon' : contains colon (line ++ crlf) = true :=
    (contains_crlf (d := ':') (by decide) line).trans hcolon
  rw [hcrlf'] at h
  unfold kickParse
  rw [if_pos hcolon, if_pos hcolon', hcrlf', hpieces']
  match init with
  | [command] =>
      have hlast : last ≠ [] := by simpa [hends, hline] using h
      simp [hlast, trim_crlf]
  | [] | _ :: _ :: _ => by_cases hlast : last = [] <;> simp [hlast]

section Modes

/-- The letters that `Mode::Execute` knows. -/
def modeLetters : List Str := ["o", "b", "l", "i", "k", "t"].map String.toList

/-- Two readings of a `MODE` message that are executed alike. -/
structure Alike (info info' : ModeInfo) : Prop where
  channel : info'.channel = info.channel
  status : info'.status = info.status
  parameters : info'.parameters = info.parameters
  key : info'.key = info.key ∨ modeKey info ∉ modeLetters ∧ modeKey info' ∉ modeLetters

/-- A mode is read like itself. -/
theorem Alike.refl (info : ModeInfo) : Alike info info := ⟨rfl, rfl, rfl, Or.inl rfl⟩

variable {s : Server} {ch : Channel} {info info' : ModeInfo} {fd : Fd}
  {who : Server → Str → Fd → Result}

/-- A mode with another letter does nothing. -/
theorem execModeKey_other (env : Env)
    (h : modeKey info ∉ modeLetters) : s.execModeKey env who ch info fd = .done s := by
  simp only [modeLetters, List.map_cons, List.map_nil, List.mem_cons, List.not_mem_nil, not_or,
    or_false] at h
  obtain ⟨ho, hb, hl, hi, hk, ht⟩ := h
  unfold execModeKey
  unfold modeKey at ho hb hl hi hk ht
  rw [if_neg ho, if_neg hb, if_neg hl, if_neg hi, if_neg hk, if_neg ht]

/-- Modes that are read alike are handled alike. -/
theorem Alike.execModeKey (h : Alike info info') (env : Env) :
    s.execModeKey env who ch info' fd = s.execModeKey env who ch info fd := by
  rcases h.key with hkey | ⟨hother, hother'⟩
  · have hsame : info' = info := by
      obtain ⟨channel, status, key, parameters⟩ := info
      obtain ⟨channel', status', key', parameters'⟩ := info'
      obtain ⟨rfl, rfl, rfl, -⟩ := h
      obtain rfl : key' = key := hkey
      rfl
    rw [hsame]
  · rw [execModeKey_other env hother, execModeKey_other env hother']

/-- The channel of a `MODE` message is its second word. -/
theorem channel_of_modeCall {env : Env} {message : Str} (h : modeCall env message = some info) :
    info.channel = (Parser.parse message).function := by
  unfold modeCall at h
  split at h
  · cases h
  · rename_i hwords
    push Not at hwords
    unfold Parser.modeParse at h
    unfold Parser.parse
    rw [if_pos (by simpa using hwords.1)]
    split at h
    · rename_i hsplit
      cases h
      rw [hsplit]
    · cases h

/-- A `MODE` message reads alike, unless the CRLF is its third word, or makes the
second of two parameters one of three. -/
theorem modeCall_crlf (env : Env) {line : Str} (hspace : contains space line = true)
    (h : line.getLast? = some ' ' → wordCount line ≠ 3 ∧
      (wordCount line = 6 → ∀ second ∈ (split line space)[4]?, trim second = [])) :
    Option.Rel Alike (modeCall env line) (modeCall env (line ++ crlf)) := by
  obtain ⟨init, last, -, hends, hwords, hcrlf⟩ := exists_words line
  have hspace' := contains_space_crlf hspace
  have hline : line ≠ [] := ne_nil_of_contains hspace
  have hends' : last = [] ↔ line.getLast? = some ' ' := by simp [hends, hline]
  have hblank : trim crlf = [] := by decide
  have htrim := trim_crlf last
  rw [← hends', wordCount, hcrlf, hwords] at h
  unfold modeCall Parser.modeParse
  rw [hspace, hspace', hwords, hcrlf]
  match init with
  | [] => by_cases hlast : last = [] <;> simp [hlast]
  | [_] => by_cases hlast : last = [] <;> simp [hlast]
  | [_, channel] =>
      have hlast : last ≠ [] := by simpa using h
      obtain ⟨c, rest, rfl⟩ := List.exists_cons_of_ne_nil hlast
      cases rest with
      | nil =>
          have hzero : toLower ['\x00'] ∉ modeLetters := by decide
          have hreturn : toLower ['\r'] ∉ modeLetters := by decide
          exact .some ⟨rfl, rfl, rfl, Or.inr ⟨hzero, hreturn⟩⟩
      | cons d rest => exact .some ⟨rfl, rfl, rfl, Or.inl rfl⟩
  | [_, channel, flags] =>
      by_cases hlast : last = []
      · simp only [hlast]
        exact .some ⟨rfl, rfl, by simpa using hblank, Or.inl rfl⟩
      · simp only [hlast]
        exact .some ⟨rfl, rfl, by simpa using htrim, Or.inl rfl⟩
  | [_, channel, flags, first] =>
      by_cases hlast : last = []
      · simp only [hlast]
        exact .some ⟨rfl, rfl, by simpa using hblank, Or.inl rfl⟩
      · simp only [hlast]
        exact .some ⟨rfl, rfl, by simpa using htrim, Or.inl rfl⟩
  | [_, channel, flags, first, second] =>
      by_cases hlast : last = []
      · have hsecond : trim second = [] := by simpa [hlast] using h
        simp only [hlast]
        exact .some ⟨rfl, rfl, by simp [hsecond], Or.inl rfl⟩
      · simp only [hlast]
        exact .some ⟨rfl, rfl, rfl, Or.inl rfl⟩
  | _ :: channel :: flags :: first :: second :: third :: words =>
      by_cases hlast : last = []
      · simp only [hlast]
        exact .some (.refl _)
      · simp only [hlast]
        exact .some (.refl _)

end Modes

end Server

end FtIrc
