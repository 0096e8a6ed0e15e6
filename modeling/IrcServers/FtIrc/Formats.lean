import IrcServers.FtIrc.Touched

/-!
# What the check reads of a message

`Checker::check` joins the words behind the command and trims the result.  For a
message that it accepts this is the message without its command and the white
space around its parameters: `Laid` takes such a message apart.  The parsers
take words of the message as it stands instead.
-/

namespace FtIrc

open Utils Text Outcome

/-- The text before the first space. -/
def firstOf (text : Str) : Str := text.takeWhile fun c => c ≠ ' '

/-- The text behind the first space. -/
def restOf (text : Str) : Str := (text.dropWhile fun c => c ≠ ' ').drop 1

/-- The first word has no space. -/
theorem space_not_mem_firstOf (text : Str) : ' ' ∉ firstOf text := fun h => by
  simpa using List.mem_takeWhile_imp h

/-- A word with a space behind it is the first one. -/
theorem firstOf_append {word : Str} (h : ' ' ∉ word) (rest : Str) :
    firstOf (word ++ ' ' :: rest) = word := by
  unfold firstOf
  rw [List.takeWhile_append_of_pos (by grind)]
  simp

/-- What follows that space is the rest. -/
theorem restOf_append {word : Str} (h : ' ' ∉ word) (rest : Str) :
    restOf (word ++ ' ' :: rest) = rest := by
  unfold restOf
  rw [List.dropWhile_append_of_pos (by grind)]
  simp

/-- Behind the first space nothing matters to the first word. -/
theorem firstOf_append_of_mem {text : Str} (h : ' ' ∈ text) (rest : Str) :
    firstOf (text ++ rest) = firstOf text := by
  obtain ⟨word, more, rfl, hword⟩ := List.eq_append_cons_of_mem h
  rw [List.append_assoc, List.cons_append, firstOf_append hword, firstOf_append hword]

/-- A text without a space is the start of the first word. -/
theorem firstOf_append_of_not_mem {text : Str} (h : ' ' ∉ text) (rest : Str) :
    firstOf (text ++ rest) = text ++ firstOf rest :=
  List.takeWhile_append_of_pos (by grind)

/-- A text without a space is its only word. -/
theorem firstOf_of_not_mem {text : Str} (h : ' ' ∉ text) : firstOf text = text :=
  List.takeWhile_eq_self_iff.mpr (by grind)

/-- Nothing follows it. -/
theorem restOf_of_not_mem {text : Str} (h : ' ' ∉ text) : restOf text = [] := by
  unfold restOf
  rw [List.dropWhile_eq_nil_iff.mpr (by grind)]
  rfl

/-- The sign and the letter at the start of a text are the start of its first
word. -/
theorem firstOf_flags {sign letter : Char} {text : Str} (hsign : sign ≠ ' ')
    (hletter : letter ≠ ' ') :
    firstOf (sign :: letter :: text) = sign :: letter :: firstOf text := by
  simp [firstOf, hsign, hletter]

/-- A text starts as its first word does. -/
theorem head?_of_firstOf {text : Str} {c : Char} (h : (firstOf text).head? = some c) :
    text.head? = some c := by
  obtain ⟨more, hmore⟩ : firstOf text <+: text := List.takeWhile_prefix _
  rw [← hmore, List.head?_append, h]
  rfl

/-- A text with a space, cut at the first one. -/
theorem eq_firstOf_append {text : Str} (h : ' ' ∈ text) :
    text = firstOf text ++ ' ' :: restOf text := by
  obtain ⟨word, rest, rfl, hword⟩ := List.eq_append_cons_of_mem h
  rw [firstOf_append hword, restOf_append hword]

/-- The test looks for a space. -/
theorem contains_space_iff {text : Str} : contains space text = true ↔ ' ' ∈ text := by
  have hnone : find space text = none ↔ ' ' ∉ text := find_singleton_eq_none
  rw [contains, ← not_iff_not, ← hnone]
  simp

/-- The words of a text. -/
theorem split_append {word : Str} (h : ' ' ∉ word) (rest : Str) :
    split (word ++ ' ' :: rest) space = word :: split rest space :=
  cutTrim_singleton_append h rest

/-- A text without a space has one word, or none if it is empty. -/
theorem split_of_not_mem {text : Str} (h : ' ' ∉ text) :
    split text space = if text = [] then [] else [text] :=
  cutTrim_of_find_none (find_singleton_eq_none.mpr h)

/-- The first word of a text. -/
theorem headD_split (text : Str) : (split text space).headD [] = firstOf text := by
  by_cases hspace : ' ' ∈ text
  · conv_lhs => rw [eq_firstOf_append hspace, split_append (space_not_mem_firstOf text)]
    rfl
  · rw [split_of_not_mem hspace, firstOf_of_not_mem hspace]
    split
    · rename_i hempty
      rw [hempty]
      rfl
    · rfl

/-- A text with a space, cut at the first one. -/
theorem exists_command {message : Str} (h : contains space message = true) :
    ∃ command rest, ' ' ∉ command ∧ message = command ++ ' ' :: rest :=
  ⟨_, _, space_not_mem_firstOf message, eq_firstOf_append (contains_space_iff.mp h)⟩

/-- The second word of a message. -/
theorem function_append {command : Str} (h : ' ' ∉ command) (rest : Str) :
    (Parser.parse (command ++ ' ' :: rest)).function = trim (firstOf rest) := by
  unfold Parser.parse
  rw [if_pos (contains_space_append h rest), split_append h, ← headD_split]
  cases split rest space <;> rfl

/-- Joining the words again gives the text, unless it ends in a space. -/
theorem join_words {text : Str} (hne : text ≠ []) (hlast : text.getLast? ≠ some ' ') :
    ∃ first words, split text space = first :: words ∧
      ∀ before, words.foldl (fun text word => text ++ (" ".toList ++ word)) (before ++ first) =
        before ++ text := by
  induction hlen : text.length using Nat.strong_induction_on generalizing text with
  | _ n ih =>
      by_cases hspace : ' ' ∈ text
      · obtain ⟨word, rest, rfl, hword⟩ := List.eq_append_cons_of_mem hspace
        have hrest : rest ≠ [] := by
          rintro rfl
          simp at hlast
        have hlast' : rest.getLast? ≠ some ' ' := by
          rw [List.getLast?_append, List.getLast?_cons] at hlast
          simpa [List.getLast?_eq_some_getLast hrest] using hlast
        obtain ⟨first, words, hsplit, hjoin⟩ :=
          ih rest.length (by rw [← hlen]; simp only [List.length_append, List.length_cons]; omega)
            hrest hlast' rfl
        refine ⟨word, first :: words, by rw [split_append hword, hsplit], fun before => ?_⟩
        have hnext := hjoin (before ++ word ++ " ".toList)
        simp only [List.append_assoc] at hnext
        rw [List.foldl_cons, List.append_assoc, hnext]
        rfl
      · exact ⟨text, [], by rw [split_of_not_mem hspace, if_neg hne], fun before => rfl⟩

/-- The names of commands are words of capital letters. -/
theorem isUpper_of_verb {command : Str} (h : verbOf command ≠ .unknown) :
    command ≠ [] ∧ ∀ c ∈ command, c.isUpper = true := by
  by_contra hnot
  have hne : ∀ name : Str, name ≠ [] → name.all Char.isUpper = true → command ≠ name :=
    fun name hname hall heq => hnot ⟨heq ▸ hname, heq ▸ List.all_eq_true.mp hall⟩
  apply h
  unfold verbOf
  repeat rw [if_neg (hne _ (by decide) (by decide))]

/-- White space has no upper case. -/
theorem toUpper_of_isspace {c : Char} (h : isspace c = true) :
    c.toUpper = c ∧ c.isUpper = false := by
  simp only [isspace, Bool.or_eq_true, decide_eq_true_eq] at h
  rcases h with ((((rfl | rfl) | rfl) | rfl) | rfl) | rfl <;> decide

/-- A command does not start with white space. -/
theorem head_of_verb {command : Str} (h : verbOf (toUpper command) ≠ .unknown) :
    ∃ c, command.head? = some c ∧ isspace c = false := by
  obtain ⟨hne, hupper⟩ := isUpper_of_verb h
  cases command with
  | nil => exact (hne rfl).elim
  | cons c rest =>
      refine ⟨c, rfl, Bool.not_eq_true _ ▸ fun hspace => ?_⟩
      obtain ⟨hsame, hnot⟩ := toUpper_of_isspace hspace
      have hc := hupper c.toUpper List.mem_cons_self
      rw [hsame, hnot] at hc
      cases hc

/-- There is no colon in a command. -/
theorem colon_not_mem_of_verb {command : Str} (h : verbOf (toUpper command) ≠ .unknown) :
    ':' ∉ command := by
  intro hin
  have hc := (isUpper_of_verb h).2 _ (List.mem_map_of_mem (f := Char.toUpper) hin)
  exact absurd hc (by decide)

/-- White space before a text. -/
theorem trim_spaces_append {before : Str} (h : ∀ c ∈ before, isspace c = true) (text : Str) :
    trim (before ++ text) = trim text := by
  unfold trim
  rw [List.dropWhile_append_of_pos h]

/-- Nothing is left of white space. -/
theorem trim_eq_nil {text : Str} (h : ∀ c ∈ text, isspace c = true) : trim text = [] := by
  unfold trim
  rw [List.dropWhile_eq_nil_iff.mpr h]
  rfl

/-- A text and the white space around it. -/
theorem exists_trim (text : Str) : ∃ before after, (∀ c ∈ before, isspace c = true) ∧
    (∀ c ∈ after, isspace c = true) ∧ text = before ++ trim text ++ after := by
  refine ⟨text.takeWhile isspace, (text.dropWhile isspace).rtakeWhile isspace,
    fun c => List.mem_takeWhile_imp, fun c => List.mem_rtakeWhile_imp, ?_⟩
  unfold trim
  rw [List.append_assoc, List.rdropWhile_append_rtakeWhile, List.takeWhile_append_dropWhile]

/-- Only white space is trimmed away. -/
theorem mem_trim {text : Str} {c : Char} (h : c ∈ text) (hc : isspace c = false) :
    c ∈ trim text := by
  obtain ⟨before, after, hbefore, hafter, htext⟩ := exists_trim text
  have hspaces : ∀ spaces : Str, (∀ d ∈ spaces, isspace d = true) → c ∉ spaces := by
    intro spaces hall hmem
    rw [hall c hmem] at hc
    cases hc
  rw [htext] at h
  rcases List.mem_append.mp h with h | h
  · exact (List.mem_append.mp h).resolve_left (hspaces before hbefore)
  · exact (hspaces after hafter h).elim

/-- A trimmed text starts with a character that is not white space. -/
theorem head_of_trimmed {text : Str} (htrim : trim text = text) (hne : text ≠ []) :
    ∃ c rest, text = c :: rest ∧ isspace c = false := by
  obtain ⟨c, rest, rfl⟩ := List.exists_cons_of_ne_nil hne
  have hself := dropWhile_trim (c :: rest)
  rw [htrim, List.dropWhile_eq_self_iff] at hself
  exact ⟨c, rest, rfl, Bool.not_eq_true _ ▸ hself (Nat.succ_pos _)⟩

/-- And it ends with one. -/
theorem last_of_trimmed {text : Str} (htrim : trim text = text) (hne : text ≠ []) :
    ∃ init c, text = init ++ [c] ∧ isspace c = false := by
  have hself := List.rdropWhile_idempotent isspace (text.dropWhile isspace)
  rw [show (text.dropWhile isspace).rdropWhile isspace = text from htrim,
    List.rdropWhile_eq_self_iff] at hself
  exact ⟨text.dropLast, text.getLast hne, (List.dropLast_append_getLast hne).symm,
    Bool.not_eq_true _ ▸ hself hne⟩

/-- The first word of a trimmed text is not blank. -/
theorem head?_trim_firstOf {text : Str} (htrim : trim text = text) :
    (trim (firstOf text)).head? = text.head? := by
  by_cases hne : text = []
  · rw [hne]
    rfl
  · obtain ⟨c, rest, rfl, hc⟩ := head_of_trimmed htrim hne
    have hspace : c ≠ ' ' := by
      rintro rfl
      cases hc
    have hfirst : firstOf (c :: rest) = c :: firstOf rest :=
      List.takeWhile_cons_of_pos (by simpa using hspace)
    rw [hfirst, head?_trim, List.dropWhile_cons_of_neg (by simp [hc])]
    rfl

/-- White space behind a text changes its first word by white space at most. -/
theorem trim_firstOf_append (text : Str) {after : Str} (hafter : ∀ c ∈ after, isspace c = true) :
    trim (firstOf (text ++ after)) = trim (firstOf text) := by
  by_cases hspace : ' ' ∈ text
  · rw [firstOf_append_of_mem hspace]
  · rw [firstOf_append_of_not_mem hspace, firstOf_of_not_mem hspace]
    exact trim_append_spaces text fun c hc => hafter c ((List.takeWhile_prefix _).subset hc)

/-- A message: its command, the white space before its parameters, the parameters
without the white space around them, and the white space at the end. -/
structure Laid (message command before format after : Str) : Prop where
  text : message = command ++ ' ' :: (before ++ format ++ after)
  oneWord : ' ' ∉ command
  starts : ∃ c, command.head? = some c ∧ isspace c = false
  before : ∀ c ∈ before, isspace c = true
  after : ∀ c ∈ after, isspace c = true
  trimmed : trim format = format
  nonempty : format ≠ []

/-- A command with something else than white space behind it is laid out so. -/
theorem exists_laid_of_text {command rest : Str} (hcommand : ' ' ∉ command)
    (hstarts : ∃ c, command.head? = some c ∧ isspace c = false) (hne : trim rest ≠ []) :
    ∃ before after, Laid (command ++ ' ' :: rest) command before (trim rest) after := by
  obtain ⟨before, after, hbefore, hafter, hrest⟩ := exists_trim rest
  exact ⟨before, after, by rw [← hrest], hcommand, hstarts, hbefore, hafter, trim_trim rest, hne⟩

/-- Every message that is accepted is laid out so. -/
theorem exists_laid {message : Str} (haccepts : Checker.accepts message = true) :
    ∃ command before format after, Laid message command before format after := by
  obtain ⟨hspace, -, hknown⟩ := Server.accepts_iff.mp haccepts
  have hmem := contains_space_iff.mp hspace
  have hmessage := eq_firstOf_append ((infix_of_trim message).subset hmem)
  have hcommand := space_not_mem_firstOf message
  generalize firstOf message = command at hmessage hcommand
  generalize restOf message = rest at hmessage
  subst hmessage
  have hstarts : ∃ c, command.head? = some c ∧ isspace c = false := by
    rw [getCommand_append hcommand] at hknown
    exact head_of_verb hknown
  have hne : trim rest ≠ [] := by
    intro hblank
    have hspaces : ∀ c ∈ ' ' :: rest, isspace c = true := by
      intro c hc
      rcases List.mem_cons.mp hc with rfl | hc
      · rfl
      · exact isspace_of_trim_eq_nil hblank c hc
    rw [trim_append_spaces command hspaces] at hmem
    exact hcommand ((infix_of_trim command).subset hmem)
  obtain ⟨before, after, hlaid⟩ := exists_laid_of_text hcommand hstarts hne
  exact ⟨command, before, trim rest, after, hlaid⟩

namespace Laid

variable {message command before format after : Str}

/-- Behind the command stand the parameters and the white space around them. -/
theorem restOf_eq (h : Laid message command before format after) :
    restOf message = before ++ format ++ after := by
  rw [h.text, restOf_append h.oneWord]

/-- The parameters start with something else than white space. -/
theorem head (h : Laid message command before format after) :
    ∃ c rest, format = c :: rest ∧ isspace c = false :=
  head_of_trimmed h.trimmed h.nonempty

/-- Trimming takes away what stands behind the parameters. -/
theorem trim_message (h : Laid message command before format after) :
    trim message = command ++ ' ' :: (before ++ format) := by
  have hassoc : message = command ++ ' ' :: before ++ format ++ after := by
    rw [h.text]
    simp
  obtain ⟨c, hc, hcspace⟩ := h.starts
  obtain ⟨rest, rfl⟩ : ∃ rest, command = c :: rest := ⟨_, List.eq_cons_of_mem_head? hc⟩
  have hleft : (c :: rest ++ ' ' :: before ++ format).dropWhile isspace =
      c :: rest ++ ' ' :: before ++ format := List.dropWhile_cons_of_neg (by simp [hcspace])
  rw [hassoc, trim_append_spaces _ h.after]
  unfold trim
  rw [hleft, rdropWhile_append h.nonempty h.trimmed]
  simp

/-- **What is checked.** -/
theorem formatOf_eq (h : Laid message command before format after) :
    Checker.formatOf message = format := by
  obtain ⟨init, c, hformat, hc⟩ := last_of_trimmed h.trimmed h.nonempty
  have hlast : (before ++ format).getLast? ≠ some ' ' := by
    rw [hformat, ← List.append_assoc, List.getLast?_concat]
    rintro heq
    rw [Option.some.inj heq] at hc
    cases hc
  obtain ⟨first, words, hwords, hjoin⟩ :=
    join_words (List.append_ne_nil_of_right_ne_nil before h.nonempty) hlast
  have hjoined := hjoin []
  rw [List.nil_append, List.nil_append] at hjoined
  unfold Checker.formatOf
  rw [h.trim_message, split_append h.oneWord, hwords]
  dsimp only
  rw [hjoined, trim_spaces_append h.before, h.trimmed]

/-- **The second word.**  It is the first word of the format, unless there is a
space too many before it. -/
theorem function_eq (h : Laid message command before format after) :
    (Parser.parse message).function = if ' ' ∈ before then [] else trim (firstOf format) := by
  rw [h.text, function_append h.oneWord]
  split
  · rename_i hspace
    obtain ⟨blank, more, rfl, hblank⟩ := List.eq_append_cons_of_mem hspace
    simp only [List.append_assoc, List.cons_append]
    rw [firstOf_append hblank]
    exact trim_eq_nil fun c hc => h.before c (List.mem_append_left _ hc)
  · rename_i hspace
    rw [List.append_assoc, firstOf_append_of_not_mem hspace, trim_spaces_append h.before,
      trim_firstOf_append _ h.after]

/-- Trimming the message does not change its second word. -/
theorem function_trim (h : Laid message command before format after) :
    (Parser.parse (trim message)).function = (Parser.parse message).function := by
  rw [h.trim_message, h.text, function_append h.oneWord, function_append h.oneWord,
    trim_firstOf_append _ h.after]

end Laid

/-- A text with a space, as `find` and `substr` cut it. -/
theorem find_space_of_mem {text : Str} (h : ' ' ∈ text) : ∃ index, find space text = some index ∧
    text.take index = firstOf text ∧ text.drop (index + 1) = restOf text := by
  obtain ⟨word, rest, rfl, hword⟩ := List.eq_append_cons_of_mem h
  refine ⟨word.length, find_singleton_append hword rest, ?_, ?_⟩
  · rw [firstOf_append hword, List.take_left]
  · rw [restOf_append hword]
    simp

/-- No space is found where there is none. -/
theorem find_space_of_not_mem {text : Str} (h : ' ' ∉ text) : find space text = none :=
  find_singleton_eq_none.mpr h

/-- The negated test asks that there be no space. -/
theorem not_contains_space_iff {text : Str} : (!contains space text) = true ↔ ' ' ∉ text := by
  rw [Bool.not_eq_true', ← Bool.not_eq_true, contains_space_iff]

namespace Checker

variable {format : Str}

/-- `checkOnlyChannel` asks for one word, with a `#`. -/
theorem checkOnlyChannel_iff :
    checkOnlyChannel format = true ↔ format.head? = some '#' ∧ ' ' ∉ format := by
  rw [checkOnlyChannel, Bool.and_eq_true, decide_eq_true_eq, not_contains_space_iff]

/-- `checkOnlyNickName` asks for one word, without a `#`. -/
theorem checkOnlyNickName_iff :
    checkOnlyNickName format = true ↔ format.head? ≠ some '#' ∧ ' ' ∉ format := by
  rw [checkOnlyNickName, Bool.and_eq_true, decide_eq_true_eq, not_contains_space_iff]

/-- `checkOnlyNickAndChannelName` asks for two words, the second one with a `#`. -/
theorem checkOnlyNickAndChannelName_iff : checkOnlyNickAndChannelName format = true ↔
    format.head? ≠ some '#' ∧ ' ' ∈ format ∧ (restOf format).head? = some '#' ∧
      ' ' ∉ restOf format := by
  unfold checkOnlyNickAndChannelName
  by_cases hhead : format.head? = some '#'
  · simp [hhead]
  · rw [if_neg hhead]
    by_cases hspace : ' ' ∈ format
    · obtain ⟨index, hfind, htake, hdrop⟩ := find_space_of_mem hspace
      rw [hfind]
      dsimp only
      rw [htake, hdrop, Bool.and_eq_true, Bool.and_eq_true, decide_eq_true_eq,
        not_contains_space_iff, not_contains_space_iff]
      simp [hhead, hspace, space_not_mem_firstOf]
    · rw [find_space_of_not_mem hspace]
      simp [hspace]

/-- `checkOnlyChannelAndMessage` asks for two words or more, the first one with a `#`.
-/
theorem checkOnlyChannelAndMessage_iff : checkOnlyChannelAndMessage format = true ↔
    ' ' ∈ format ∧ (firstOf format).head? = some '#' := by
  unfold checkOnlyChannelAndMessage
  by_cases hspace : ' ' ∈ format
  · obtain ⟨index, hfind, htake, -⟩ := find_space_of_mem hspace
    rw [hfind]
    dsimp only
    rw [htake, Bool.and_eq_true, decide_eq_true_eq, not_contains_space_iff]
    simp [hspace, space_not_mem_firstOf]
  · rw [find_space_of_not_mem hspace]
    simp [hspace]

/-- A sign and a letter stand behind the channel of a `MODE`, if anything does. -/
theorem checkOnlyMode_spec (h : checkOnlyMode format = true) :
    (firstOf format).head? = some '#' ∧ (' ' ∈ format → ∃ sign letter more,
      restOf format = sign :: letter :: more ∧ (sign = '+' ∨ sign = '-') ∧
        letter ∈ ['o', 'i', 'b', 'k', 't', 'l']) := by
  unfold checkOnlyMode at h
  by_cases hspace : ' ' ∈ format
  · obtain ⟨index, hfind, htake, hdrop⟩ := find_space_of_mem hspace
    rw [hfind] at h
    dsimp only at h
    rw [htake, hdrop] at h
    by_cases hhead : (firstOf format).head? = some '#'
    · refine ⟨hhead, fun _ => ?_⟩
      rw [if_neg (not_not.mpr hhead)] at h
      by_cases hsign : (restOf format).head? ≠ some '+' ∧ (restOf format).head? ≠ some '-'
      · rw [if_pos hsign] at h
        cases h
      · rw [if_neg hsign] at h
        by_cases hletter : (restOf format)[1]? ∉ ['o', 'i', 'b', 'k', 't', 'l'].map some
        · rw [if_pos hletter] at h
          cases h
        · cases hmode : restOf format with
          | nil => simp [hmode] at hsign
          | cons sign more =>
              cases more with
              | nil => simp [hmode] at hletter
              | cons letter more =>
                  rw [hmode] at hsign hletter
                  refine ⟨sign, letter, more, rfl, ?_, ?_⟩
                  · simp only [List.head?_cons, ne_eq, Option.some.injEq] at hsign
                    tauto
                  · have hmem := not_not.mp hletter
                    obtain ⟨c, hc, heq⟩ := List.mem_map.mp hmem
                    obtain rfl : c = letter := Option.some.inj heq
                    exact hc
    · rw [if_pos hhead] at h
      cases h
  · rw [find_space_of_not_mem hspace] at h
    rw [firstOf_of_not_mem hspace]
    exact ⟨of_decide_eq_true h, fun hmem => (hspace hmem).elim⟩

end Checker

end FtIrc
