import IrcServers.FtIrc.Modes
import IrcServers.FtIrc.Nicknames
import IrcServers.FtIrc.Plain

/-!
# Trailing texts

`TOPIC`, `KICK`, `QUIT`, `PRIVMSG` and `NOTICE` end with a text behind a colon.
The first three take the piece between the first two colons of the message,
`QUIT` from what it took before for each member it tells; the last two join the
words of the text again, each trimmed.  A line that is alone in its message has
its CRLF still, which stays in a topic and in a farewell.
-/

namespace FtIrc

open Utils Text Outcome

/-! ## Texts up to a colon -/

/-- The text before the first colon. -/
def upTo (text : Str) : Str := text.takeWhile fun c => c ≠ ':'

/-- There is no colon before the first one. -/
theorem colon_not_mem_upTo (text : Str) : ':' ∉ upTo text := fun h => by
  simpa using List.mem_takeWhile_imp h

/-- A text without a colon ends at the colon behind it. -/
theorem upTo_append {word : Str} (h : ':' ∉ word) (rest : Str) :
    upTo (word ++ ':' :: rest) = word := by
  unfold upTo
  rw [List.takeWhile_append_of_pos (by grind)]
  simp

/-- A text without a colon is all before one. -/
theorem upTo_of_not_mem {text : Str} (h : ':' ∉ text) : upTo text = text :=
  List.takeWhile_eq_self_iff.mpr (by grind)

/-- Behind the first colon nothing matters. -/
theorem upTo_append_of_mem {text : Str} (h : ':' ∈ text) (rest : Str) :
    upTo (text ++ rest) = upTo text := by
  obtain ⟨word, more, rfl, hword⟩ := List.eq_append_cons_of_mem h
  rw [List.append_assoc, List.cons_append, upTo_append hword, upTo_append hword]

/-- A text with something behind it, up to the first colon. -/
theorem upTo_append_eq_iff {text tail : Str} (htail : ':' ∉ tail) :
    upTo (text ++ tail) = text ↔ ':' ∉ text ∧ tail = [] := by
  by_cases hcolon : ':' ∈ text
  · refine iff_of_false (fun h => ?_) fun h => h.1 hcolon
    rw [upTo_append_of_mem hcolon] at h
    exact colon_not_mem_upTo text (h.symm ▸ hcolon)
  · rw [upTo_of_not_mem (by simp [hcolon, htail])]
    simp [hcolon]

/-- The first piece of a text that is cut at its colons. -/
theorem exists_split_colon {text : Str} (h : text ≠ []) :
    ∃ more, split text colon = upTo text :: more := by
  by_cases hcolon : ':' ∈ text
  · obtain ⟨word, rest, rfl, hword⟩ := List.eq_append_cons_of_mem hcolon
    have hcut : split (word ++ ':' :: rest) colon = word :: split rest colon :=
      cutTrim_singleton_append hword rest
    exact ⟨_, by rw [hcut, upTo_append hword]⟩
  · have hcut : split text colon = if text = [] then [] else [text] :=
      cutTrim_of_find_none (find_singleton_eq_none.mpr hcolon)
    exact ⟨[], by rw [hcut, if_neg h, upTo_of_not_mem hcolon]⟩

/-- The piece behind the first colon. -/
theorem split_colon_second {before : Str} (h : ':' ∉ before) (rest : Str) :
    (split (before ++ ':' :: rest) colon)[1]? = if rest = [] then none else some (upTo rest) := by
  have hcut : split (before ++ ':' :: rest) colon = before :: split rest colon :=
    cutTrim_singleton_append h rest
  rw [hcut, List.getElem?_cons_succ]
  by_cases hrest : rest = []
  · subst hrest
    rfl
  · obtain ⟨more, hmore⟩ := exists_split_colon hrest
    rw [if_neg hrest, hmore]
    rfl

/-! ## Lines with a trailing text -/

/-- What may stand behind a line: nothing, or its line break. -/
def LineEnd (tail : Str) : Prop := tail = [] ∨ tail = crlf

/-- The end of a line is white space. -/
theorem LineEnd.isspace {tail : Str} (h : LineEnd tail) : ∀ c ∈ tail, isspace c = true := by
  rcases h with rfl | rfl
  · simp
  · simp [crlf, Utils.isspace]

/-- It has no colon. -/
theorem LineEnd.colon_not_mem {tail : Str} (h : LineEnd tail) : ':' ∉ tail := by
  rcases h with rfl | rfl <;> decide

/-- Nor has it a space. -/
theorem LineEnd.space_not_mem {tail : Str} (h : LineEnd tail) : ' ' ∉ tail := by
  rcases h with rfl | rfl <;> decide

/-- A text without line breaks that does not start or end with white space. -/
structure Trimmed (text : Str) : Prop where
  unbroken : Unbroken text
  trimmed : trim text = text

/-- A line with a trailing text. -/
def trailing (before text tail : Str) : Str := before ++ ' ' :: ':' :: (text ++ tail)

/-- No line break is found in an unbroken text. -/
theorem Unbroken.noBreak {text : Str} (h : Unbroken text) : find crlf text = none :=
  find_eq_none_iff.mpr fun hin => h.1 (hin.subset (by simp [crlf]))

section Trailing

variable {before text tail : Str}

/-- A line with such a text behind a colon is a single one. -/
theorem oneLine_trailing (hbefore : find crlf before = none) (htext : Trimmed text)
    (htail : LineEnd tail) : OneLine (trailing before text tail) := by
  have hbreak : Unbroken (':' :: text) :=
    unbroken_cons.mpr ⟨by decide, by decide, htext.unbroken⟩
  have hline := noBreak_append_space hbefore hbreak.noBreak
  have hassoc : trailing before text tail = (before ++ ' ' :: ':' :: text) ++ tail := by
    simp [trailing]
  rw [hassoc]
  rcases htail with rfl | rfl
  · rw [List.append_nil]
    exact oneLine_of_find (by simp) hline
  · exact oneLine_append_crlf hline

/-- A text behind a colon ends as it does. -/
theorem trim_colon_cons (htext : Trimmed text) : trim (':' :: text) = ':' :: text := by
  unfold trim
  rw [List.dropWhile_cons_of_neg (by decide)]
  by_cases hne : text = []
  · subst hne
    decide
  · exact rdropWhile_append (a := [':']) hne htext.trimmed

/-- The parameters of such a line, without the white space around them. -/
theorem trim_parameters (htext : Trimmed text) (htail : LineEnd tail) {c : Char} {rest : Str}
    (hc : isspace c = false) :
    trim (c :: rest ++ ' ' :: ':' :: (text ++ tail)) = c :: rest ++ ' ' :: ':' :: text := by
  have hassoc : c :: rest ++ ' ' :: ':' :: (text ++ tail) =
      (c :: rest ++ ' ' :: ':' :: text) ++ tail := by simp
  rw [hassoc, trim_append_spaces _ htail.isspace]
  unfold trim
  rw [List.cons_append, List.dropWhile_cons_of_neg (by simp [hc]), ← List.cons_append,
    show c :: rest ++ ' ' :: ':' :: text = (c :: rest ++ [' ']) ++ ':' :: text by simp]
  exact rdropWhile_append (by simp) (trim_colon_cons htext)

end Trailing

namespace Laid

variable {message command before format after : Str}

/-- The command is read in upper case. -/
theorem commandOf_eq (h : Laid message command before format after) :
    commandOf message = toUpper command := by
  rw [h.text, commandOf_append h.oneWord]

/-- A message whose parameters pass the check of its command. -/
theorem accepts (h : Laid message command before format after)
    (hknown : verbOf (commandOf message) ≠ .unknown)
    (herror : Checker.formatError message (verbOf (commandOf message)) = none) :
    Checker.accepts message = true := by
  have hspace : contains space (trim message) = true := by
    rw [h.trim_message]
    exact contains_space_append h.oneWord _
  refine Server.accepts_iff.mpr ⟨hspace, ?_, ?_⟩
  · rw [getCommand_eq_commandOf hspace, herror]
  · rw [getCommand_eq_commandOf hspace]
    exact hknown

end Laid

/-! ## Words joined again -/

/-- Words joined, from the first one on. -/
theorem joinTrimmed_cons (first : Str) {words : List Str} (h : words ≠ []) :
    joinTrimmed (first :: words) = trim first ++ ' ' :: joinTrimmed words := by
  have hlast := List.dropLast_append_getLast h
  rw [← hlast, ← List.cons_append, joinTrimmed_append, joinTrimmed_append]
  simp

/-- **The words of a text.**  Joining them, each trimmed, gives the text just when
trimming changes none of them. -/
theorem joinTrimmed_eq_iff {text tail : Str} (htail : LineEnd tail)
    (hlast : text.getLast? ≠ some ' ') :
    joinTrimmed (split (text ++ tail) space) = text ↔
      ∀ word ∈ split text space, trim word = word := by
  induction hlen : text.length using Nat.strong_induction_on generalizing text with
  | _ n ih =>
      by_cases hspace : ' ' ∈ text
      · obtain ⟨word, rest, rfl, hword⟩ := List.eq_append_cons_of_mem hspace
        have hrest : rest ≠ [] := by
          rintro rfl
          simp at hlast
        have hlast' : rest.getLast? ≠ some ' ' := by
          rw [List.getLast?_append, List.getLast?_cons] at hlast
          simpa [List.getLast?_eq_some_getLast hrest] using hlast
        have hnext := ih rest.length
          (by rw [← hlen]; simp only [List.length_append, List.length_cons]; omega) hlast' rfl
        have hmore : split (rest ++ tail) space ≠ [] :=
          cutTrim_ne_nil (by decide) (List.append_ne_nil_of_left_ne_nil hrest tail)
        rw [List.append_assoc, List.cons_append, split_append hword, split_append hword,
          joinTrimmed_cons word hmore, List.forall_mem_cons, ← hnext]
        have hshort : ' ' ∉ trim word := fun hin => hword ((infix_of_trim word).subset hin)
        constructor
        · intro heq
          have hfirst := congrArg firstOf heq
          have hsecond := congrArg restOf heq
          rw [firstOf_append hshort, firstOf_append hword] at hfirst
          rw [restOf_append hshort, restOf_append hword] at hsecond
          exact ⟨hfirst, hsecond⟩
        · rintro ⟨hfirst, hsecond⟩
          rw [hfirst, hsecond]
      · have hspace' : ' ' ∉ text ++ tail := by simp [hspace, htail.space_not_mem]
        rw [split_of_not_mem hspace, split_of_not_mem hspace']
        by_cases hne : text = []
        · subst hne
          rw [List.nil_append]
          rcases htail with rfl | rfl <;> decide
        · rw [if_neg hne, if_neg (List.append_ne_nil_of_left_ne_nil hne tail),
            Laid.joinTrimmed_singleton, trim_append_spaces text htail.isspace,
            List.forall_mem_singleton]

/-- A text behind a colon is not nothing when its words are joined. -/
theorem joinTrimmed_colon_ne_nil (rest : Str) :
    joinTrimmed (split (':' :: rest) space) ≠ [] := by
  intro h
  obtain ⟨more, hsplit⟩ := Laid.exists_split (List.cons_ne_nil ':' rest)
  have hblank := trim_of_joinTrimmed h (firstOf (':' :: rest)) (by rw [hsplit]; simp)
  have hcolon : ':' ∈ firstOf (':' :: rest) := by simp [firstOf]
  exact absurd (isspace_of_trim_eq_nil hblank ':' hcolon) (by decide)

namespace Server

variable {s s' : Server} {ch : Channel} {x : ClientPtr} {fd : Fd} {text tail message : Str}

/-! ## `TOPIC` -/

/-- The text is stored as the topic, and every member is told it. -/
def KeepsTopic (s : Server) (message : Str) (fd : Fd) (ch : Channel) (text : Str) : Prop :=
  ∀ env, ∃ s', handleLine env s message fd = .done s' ∧
    s'.getChannel ch.name = some { ch with topic := text } ∧
    s'.sent = s.sent ++ ch.clients.map fun p => ((s.memory p).fd,
      ":".toList ++ s.name ++ " TOPIC ".toList ++ ch.name ++ " :".toList ++ text ++ crlf)

/-- The text stands between the first two colons of the name. -/
def Between (name text : Str) : Prop :=
  ∃ first rest, name = first ++ ':' :: (text ++ ':' :: rest) ∧ ':' ∉ first ∧ ':' ∉ text

/-- The line `TOPIC name :text`. -/
def topicLine (name text tail : Str) : Str := trailing ("TOPIC".toList ++ ' ' :: name) text tail

/-- The words of the line `TOPIC`. -/
theorem topicLine_eq (name text tail : Str) :
    topicLine name text tail = "TOPIC".toList ++ ' ' :: (name ++ ' ' :: ':' :: (text ++ tail)) := by
  simp [topicLine, trailing]

/-- A line with a channel and a text passes the check of its command. -/
theorem accepts_trailing {command name rest : Str} (hcommand : ' ' ∉ command)
    (hverb : verbOf (toUpper command) = .topic ∨ verbOf (toUpper command) = .kick)
    (hhead : name.head? = some '#') (htext : Trimmed text) (htail : LineEnd tail) :
    Checker.accepts (command ++ ' ' :: (name ++ rest ++ ' ' :: ':' :: (text ++ tail))) = true := by
  obtain ⟨more, rfl⟩ : ∃ more, name = '#' :: more := ⟨_, List.eq_cons_of_mem_head? hhead⟩
  have hformat : trim ('#' :: more ++ rest ++ ' ' :: ':' :: (text ++ tail)) =
      '#' :: more ++ rest ++ ' ' :: ':' :: text := trim_parameters htext htail rfl
  obtain ⟨before, after, hlaid⟩ := exists_laid_of_text hcommand
    (head_of_verb (by rcases hverb with h | h <;> rw [h] <;> decide)) (by rw [hformat]; simp)
  rw [hformat] at hlaid
  have hcheck : Checker.checkOnlyChannelAndMessage
      ('#' :: more ++ rest ++ ' ' :: ':' :: text) = true := by
    refine Checker.checkOnlyChannelAndMessage_iff.mpr ⟨by simp, ?_⟩
    simp [firstOf]
  refine hlaid.accepts ?_ ?_
  · rw [hlaid.commandOf_eq]
    rcases hverb with h | h <;> rw [h] <;> decide
  · rw [hlaid.commandOf_eq]
    rcases hverb with h | h
    · rw [h, Checker.formatError, hlaid.formatOf_eq, if_pos hcheck]
    · rw [h, Checker.formatError, hlaid.formatOf_eq, if_pos hcheck]

/-- What `TOPIC` stores is the piece behind the first colon of its line. -/
theorem keepsTopic_iff_piece (hname : ChannelName ch.name) (hhead : ch.name.head? = some '#')
    (htext : Trimmed text) (htail : LineEnd tail) (hx : s.getClient fd = some x)
    (hlogin : (s.memory x).login = true) (hch : s.getChannel ch.name = some ch)
    (hop : (ch.getOperator s.memory fd).isSome = true) :
    s.KeepsTopic (topicLine ch.name text tail) fd ch text ↔
      (split (topicLine ch.name text tail) colon)[1]? = some text := by
  have hline : OneLine (topicLine ch.name text tail) :=
    oneLine_trailing (noBreak_append_space (by decide) hname.noBreak) htext htail
  have haccepts : Checker.accepts (topicLine ch.name text tail) = true := by
    rw [topicLine_eq, ← List.append_nil ch.name]
    exact accepts_trailing (by decide) (Or.inl (by decide)) hhead htext htail
  have hverb : verbOf (commandOf (topicLine ch.name text tail)) = .topic := by
    rw [topicLine_eq, commandOf_append (by decide)]
    decide
  have hfunction : (Parser.parse (topicLine ch.name text tail)).function = ch.name := by
    rw [topicLine_eq, function_append (by decide), firstOf_append hname.noSpace, hname.trimmed]
  have hvalue : (Parser.parse (topicLine ch.name text tail)).value ≠ [] := by
    rw [topicLine_eq, Laid.value_append (by decide) hname.noSpace]
    exact joinTrimmed_colon_ne_nil _
  have hhandled : ∀ env, handleLine env s (topicLine ch.name text tail) fd =
      (s.execTopic (topicLine ch.name text tail) fd).catching caughtByExecute :=
    fun env => handleLine_login env hline haccepts hverb (by decide) hx hlogin
  unfold execTopic at hhandled
  dsimp only at hhandled
  simp only [hfunction, hch, require_some, if_neg (Channel.passes_guard_iff.mpr hop),
    if_neg hvalue] at hhandled
  cases hpiece : (split (topicLine ch.name text tail) colon)[1]? with
  | none =>
      simp only [hpiece, require_none, catching_fault] at hhandled
      refine iff_of_false (fun h => ?_) (by simp)
      obtain ⟨s', hdone, -⟩ := h Env.calm
      rw [hhandled] at hdone
      cases hdone
  | some piece =>
      simp only [hpiece, require_some, catching_done] at hhandled
      have hstored : ∀ messages, ((s.putChannel { ch with topic := piece }).sendAll
          messages).getChannel ch.name = some { ch with topic := piece } :=
        fun _ => getChannel_putChannel hch rfl
      constructor
      · intro h
        obtain ⟨s', hdone, htopic, -⟩ := h Env.calm
        rw [hhandled] at hdone
        cases hdone
        have hsame := (hstored _).symm.trans htopic
        exact congrArg (Option.map Channel.topic) hsame
      · intro h env
        cases h
        refine ⟨_, hhandled env, hstored _, ?_⟩
        simp [broadcast, sendAll, putChannel, fdsOf]

/-- **`TOPIC`.** -/
theorem topic_piece_iff {name : Str} (htext : Trimmed text) (htail : LineEnd tail) :
    (split (topicLine name text tail) colon)[1]? = some text ↔
      ':' ∉ name ∧ ':' ∉ text ∧ text ≠ [] ∧ tail = [] ∨ Between name text := by
  by_cases hname : ':' ∈ name
  · rw [or_iff_right fun h => h.1 hname]
    constructor
    · intro h
      obtain ⟨first, rest, rfl, hfirst⟩ := List.eq_append_cons_of_mem hname
      have hline : topicLine (first ++ ':' :: rest) text tail =
          ("TOPIC".toList ++ ' ' :: first) ++ ':' :: (rest ++ ' ' :: ':' :: (text ++ tail)) := by
        simp [topicLine, trailing]
      rw [hline, split_colon_second (by simp [hfirst]), if_neg (by simp), Option.some.injEq] at h
      by_cases hrest : ':' ∈ rest
      · obtain ⟨piece, more, rfl, hpiece⟩ := List.eq_append_cons_of_mem hrest
        rw [List.append_assoc, List.cons_append, upTo_append hpiece] at h
        subst h
        exact ⟨first, more, rfl, hfirst, hpiece⟩
      · -- what is stored ends with the space in front of the text
        rw [show rest ++ ' ' :: ':' :: (text ++ tail) = (rest ++ [' ']) ++ ':' :: (text ++ tail) by
          simp, upTo_append (by simp [hrest])] at h
        obtain ⟨init, c, hlast, hc⟩ := last_of_trimmed htext.trimmed (h ▸ by simp)
        have hspace := congrArg List.getLast? (h.trans hlast)
        rw [List.getLast?_concat, List.getLast?_concat, Option.some.injEq] at hspace
        rw [← hspace] at hc
        cases hc
    · rintro ⟨first, rest, rfl, hfirst, hpiece⟩
      have hline : topicLine (first ++ ':' :: (text ++ ':' :: rest)) text tail =
          ("TOPIC".toList ++ ' ' :: first) ++ ':' ::
            (text ++ ':' :: (rest ++ ' ' :: ':' :: (text ++ tail))) := by
        simp [topicLine, trailing]
      rw [hline, split_colon_second (by simp [hfirst]), if_neg (by simp), upTo_append hpiece]
  · have hbetween : ¬ Between name text := by
      rintro ⟨first, rest, rfl, -⟩
      simp at hname
    have hline : topicLine name text tail =
        ("TOPIC".toList ++ ' ' :: (name ++ [' '])) ++ ':' :: (text ++ tail) := by
      simp [topicLine, trailing]
    rw [or_iff_left hbetween, and_iff_right hname, hline, split_colon_second (by simp [hname])]
    by_cases hempty : text ++ tail = []
    · obtain ⟨rfl, -⟩ := List.append_eq_nil_iff.mp hempty
      rw [if_pos hempty]
      simp
    · rw [if_neg hempty, Option.some.injEq, upTo_append_eq_iff htail.colon_not_mem]
      constructor
      · rintro ⟨hcolon, rfl⟩
        exact ⟨hcolon, by simpa using hempty, rfl⟩
      · rintro ⟨hcolon, -, rfl⟩
        exact ⟨hcolon, rfl⟩

/-! ## `KICK` -/

/-- The line `KICK name nick :text`. -/
def kickLine (name nick text tail : Str) : Str :=
  trailing ("KICK".toList ++ ' ' :: (name ++ ' ' :: nick)) text tail

/-- What the members of a channel are told when a client is kicked. -/
def kickText (s : Server) (name nick reason : Str) : Str :=
  ":".toList ++ s.name ++ " KICK ".toList ++ name ++ " ".toList ++ nick ++
    (if reason ≠ [] then " :".toList ++ reason else []) ++ crlf

/-- Every member of the channel is told the reason. -/
def TellsReason (s : Server) (message : Str) (fd : Fd) (ch : Channel) (nick text : Str) : Prop :=
  ∀ env, ∃ s', handleLine env s message fd = .done s' ∧
    s'.sent = s.sent ++ ch.clients.map fun p => ((s.memory p).fd,
      ":".toList ++ s.name ++ " KICK ".toList ++ ch.name ++ " ".toList ++ nick ++
        " :".toList ++ text ++ crlf)

/-- The words of the line `KICK`. -/
theorem kickLine_eq (name nick text tail : Str) : kickLine name nick text tail =
    "KICK".toList ++ ' ' :: (name ++ ' ' :: nick ++ ' ' :: ':' :: (text ++ tail)) := by
  simp [kickLine, trailing]

/-- The numeric replies of the refusals start with the digit 4. -/
theorem exists_throwClient_text {e : Exception}
    (he : (ToString.toString e.errorCode).toList.head? = some '4') (s : Server) (fd : Fd)
    (message : Str) : ∃ text, s.throwClient fd e message =
      .thrown e (s.send fd (":".toList ++ s.name ++ ' ' :: '4' :: text)) := by
  obtain ⟨digits, hdigits⟩ : ∃ digits, (ToString.toString e.errorCode).toList = '4' :: digits :=
    ⟨_, List.eq_cons_of_mem_head? he⟩
  refine ⟨digits ++ (" ".toList ++ (message ++ crlf)), ?_⟩
  unfold throwClient
  rw [hdigits]
  simp

/-- What a `KICK` that returns has sent: a refusal to its client, or a message to
the members of the channel that it has read. -/
theorem execKick_sent (hx : s.getClient fd = some x) (hdone : s.execKick message fd = .done s') :
    ∃ parsed found, kickParse message = some parsed ∧
      s.getChannel parsed.1.function = some found ∧
      ((∃ text, s'.sent = s.sent ++ [(fd, ":".toList ++ s.name ++ ' ' :: '4' :: text)]) ∨
        s'.sent = s.sent ++ found.clients.map fun p =>
          ((s.memory p).fd, s.kickText found.name parsed.1.value parsed.2)) := by
  unfold execKick at hdone
  cases hparse : kickParse message with
  | none =>
      rw [hparse] at hdone
      cases hdone
  | some parsed =>
      rw [hparse, require_some] at hdone
      dsimp only at hdone
      cases hfound : s.getChannel parsed.1.function with
      | none =>
          rw [hfound] at hdone
          cases hdone
      | some found =>
          refine ⟨parsed, found, rfl, hfound, ?_⟩
          rw [hfound, require_some] at hdone
          split at hdone
          · unfold throwNotOperator at hdone
            obtain ⟨text, htext⟩ := exists_throwClient_text (e := .notOperator) (by decide) s fd
              (notOperatorText (s.memory x).nickName parsed.1.function)
            rw [hx, require_some, htext, catching_thrown, if_pos (by decide)] at hdone
            cases hdone
            exact Or.inl ⟨text, rfl⟩
          · split at hdone
            · obtain ⟨text, htext⟩ := exists_throwClient_text (e := .noSuchNickOrChannel)
                (by decide) s fd (noSuchNickOrChannelText parsed.1.value found.name)
              rw [htext, catching_thrown, if_pos (by decide)] at hdone
              cases hdone
              exact Or.inl ⟨text, rfl⟩
            · rw [catching_done] at hdone
              cases hdone
              refine Or.inr ?_
              simp [broadcast, sendAll, putChannel, fdsOf, kickText]

/-- `KICK` parses what stands before the first colon, and cuts the reason out of
what stands behind it. -/
theorem kickParse_colon {before : Str} (h : ':' ∉ before) (rest : Str) :
    kickParse (before ++ ':' :: rest) =
      if rest = [] then none else some (Parser.parse (trim before), trim (upTo rest)) := by
  have hcontains : contains colon (before ++ ':' :: rest) = true := by
    have hfind : find colon (before ++ ':' :: rest) = some before.length :=
      find_singleton_append h rest
    rw [contains, hfind]
    rfl
  have hcut : split (before ++ ':' :: rest) colon = before :: split rest colon :=
    cutTrim_singleton_append h rest
  unfold kickParse
  rw [if_pos hcontains, hcut]
  by_cases hrest : rest = []
  · subst hrest
    rfl
  · obtain ⟨more, hmore⟩ := exists_split_colon hrest
    rw [if_neg hrest, hmore]

/-- Joining words adds spaces only. -/
theorem mem_joinTrimmed {words : List Str} {c : Char} (h : c ∈ joinTrimmed words) :
    c = ' ' ∨ ∃ word ∈ words, c ∈ word := by
  rcases List.eq_nil_or_concat words with rfl | ⟨front, last, rfl⟩
  · cases h
  · rw [List.concat_eq_append, joinTrimmed_append, List.mem_append] at h
    rcases h with h | h
    · obtain ⟨word, hword, hc⟩ := List.mem_flatMap.mp h
      rcases List.mem_append.mp hc with hc | hc
      · exact Or.inr ⟨word, by simp [hword], (infix_of_trim word).subset hc⟩
      · exact Or.inl (List.mem_singleton.mp hc)
    · exact Or.inr ⟨last, by simp, (infix_of_trim last).subset h⟩

/-- Parsing a text without colons finds none. -/
theorem colon_not_mem_parse (h : ':' ∉ text) :
    ':' ∉ (Parser.parse text).function ∧ ':' ∉ (Parser.parse text).value := by
  have hwords : ∀ word ∈ split text space, ':' ∉ word :=
    fun word hword hin => h ((infix_of_mem_cutTrim hword).subset hin)
  unfold Parser.parse
  split
  · cases hsplit : split text space with
    | nil => simp
    | cons command words =>
        cases words with
        | nil => simp
        | cons function words =>
            rw [hsplit] at hwords
            refine ⟨fun hin => ?_, fun hin => ?_⟩
            · exact hwords function (by simp) ((infix_of_trim function).subset hin)
            · rcases mem_joinTrimmed hin with hc | ⟨word, hword, hc⟩
              · exact absurd hc (by decide)
              · exact hwords word (by simp [hword]) hc
  · simp

/-- The two messages about a kick are the same only if their parts are. -/
theorem kickText_eq {name value reason name' nick : Str} (hname : ' ' ∉ name)
    (hname' : ' ' ∉ name') (hnick : ' ' ∉ nick) (hvalue : ':' ∉ value)
    (h : s.kickText name value reason = ":".toList ++ s.name ++ " KICK ".toList ++ name' ++
      " ".toList ++ nick ++ " :".toList ++ text ++ crlf) :
    name = name' ∧ ':' ∉ nick ∧ reason = text ∧ text ≠ [] := by
  unfold kickText at h
  simp only [List.append_assoc, List.append_cancel_left_eq] at h
  have hwords : name ++ ' ' :: (value ++ ((if reason ≠ [] then " :".toList ++ reason else []) ++
      crlf)) = name' ++ ' ' :: (nick ++ ' ' :: ':' :: (text ++ crlf)) := h
  have hfirst := congrArg firstOf hwords
  rw [firstOf_append hname, firstOf_append hname'] at hfirst
  have hrest := congrArg restOf hwords
  rw [restOf_append hname, restOf_append hname'] at hrest
  by_cases hreason : reason = []
  · -- there is a colon on one side only
    have hcolon : ':' ∈ value ++ crlf := by
      rw [if_neg (not_not.mpr hreason), List.nil_append] at hrest
      rw [hrest]
      simp
    rcases List.mem_append.mp hcolon with hin | hin
    · exact (hvalue hin).elim
    · exact absurd hin (by decide)
  · rw [if_pos hreason] at hrest
    have hcut : (value ++ [' ']) ++ ':' :: (reason ++ crlf) =
        nick ++ ' ' :: ':' :: (text ++ crlf) := by
      rw [← hrest]
      simp
    have hpiece := congrArg upTo hcut
    rw [upTo_append (by simp [hvalue])] at hpiece
    by_cases hcolon : ':' ∈ nick
    · rw [upTo_append_of_mem hcolon] at hpiece
      refine (hnick ?_).elim
      have hin : ' ' ∈ upTo nick := by
        rw [← hpiece]
        simp
      exact (List.takeWhile_prefix _).subset hin
    · rw [show nick ++ ' ' :: ':' :: (text ++ crlf) = (nick ++ [' ']) ++ ':' :: (text ++ crlf) by
        simp] at hpiece hcut
      rw [upTo_append (by simp [hcolon])] at hpiece
      rw [hpiece, List.append_cancel_left_eq, List.cons.injEq, and_iff_right rfl,
        List.append_cancel_right_eq] at hcut
      exact ⟨hfirst, hcolon, hcut, hcut ▸ hreason⟩

/-- What `KICK` parses of its line when there are no colons but the one before the
text. -/
theorem parse_kick {name nick : Str} (hname : ChannelName name) (hne : name ≠ [])
    (hnick : ChannelName nick) :
    (Parser.parse (trim ("KICK".toList ++ ' ' :: (name ++ ' ' :: (nick ++ [' ']))))).function =
        name ∧
      (Parser.parse (trim ("KICK".toList ++ ' ' :: (name ++ ' ' :: (nick ++ [' ']))))).value =
        nick := by
  have hfirst : trim ("KICK".toList ++ ' ' :: name) = "KICK".toList ++ ' ' :: name := by
    unfold trim
    rw [show ("KICK".toList ++ ' ' :: name).dropWhile isspace = "KICK".toList ++ ' ' :: name from
      List.dropWhile_cons_of_neg (by decide), show "KICK".toList ++ ' ' :: name =
        ("KICK".toList ++ [' ']) ++ name by simp]
    exact rdropWhile_append hne hname.trimmed
  have hblank : ∀ c ∈ [' '], isspace c = true := by simp [isspace]
  have hcut : trim ("KICK".toList ++ ' ' :: (name ++ ' ' :: (nick ++ [' ']))) =
      trim (("KICK".toList ++ ' ' :: name) ++ ' ' :: nick) := by
    rw [show "KICK".toList ++ ' ' :: (name ++ ' ' :: (nick ++ [' '])) =
      (("KICK".toList ++ ' ' :: name) ++ ' ' :: nick) ++ [' '] by simp]
    exact trim_append_spaces _ hblank
  rw [hcut]
  by_cases hempty : nick = []
  · subst hempty
    rw [trim_append_spaces _ hblank, hfirst]
    refine ⟨?_, ?_⟩
    · rw [function_append (by decide), firstOf_of_not_mem hname.noSpace, hname.trimmed]
    · unfold Parser.parse
      rw [if_pos (contains_space_append (by decide) name), split_append (by decide),
        split_of_not_mem hname.noSpace, if_neg hne]
      rfl
  · have hwhole : trim (("KICK".toList ++ ' ' :: name) ++ ' ' :: nick) =
        "KICK".toList ++ ' ' :: (name ++ ' ' :: nick) := by
      unfold trim
      rw [show (("KICK".toList ++ ' ' :: name) ++ ' ' :: nick).dropWhile isspace =
        (("KICK".toList ++ ' ' :: name) ++ [' ']) ++ nick by
          simp [isspace]]
      rw [rdropWhile_append hempty hnick.trimmed]
      simp
    rw [hwhole]
    refine ⟨?_, ?_⟩
    · rw [function_append (by decide), firstOf_append hname.noSpace, hname.trimmed]
    · rw [Laid.value_append (by decide) hname.noSpace, split_of_not_mem hnick.noSpace,
        if_neg hempty, Laid.joinTrimmed_singleton, hnick.trimmed]

/-- A `KICK` line of a client that is logged in goes to `Command::execKick`. -/
theorem handleLine_kickLine {nick : Str} (hname : ChannelName ch.name)
    (hhead : ch.name.head? = some '#') (hnick : ChannelName nick) (htext : Trimmed text)
    (htail : LineEnd tail) (hx : s.getClient fd = some x) (hlogin : (s.memory x).login = true)
    (env : Env) : handleLine env s (kickLine ch.name nick text tail) fd =
      (s.execKick (kickLine ch.name nick text tail) fd).catching caughtByExecute := by
  have hline : OneLine (kickLine ch.name nick text tail) :=
    oneLine_trailing (noBreak_append_space (by decide)
      (noBreak_append_space hname.noBreak hnick.noBreak)) htext htail
  have haccepts : Checker.accepts (kickLine ch.name nick text tail) = true := by
    rw [kickLine_eq]
    exact accepts_trailing (by decide) (Or.inr (by decide)) hhead htext htail
  have hverb : verbOf (commandOf (kickLine ch.name nick text tail)) = .kick := by
    rw [kickLine_eq, commandOf_append (by decide)]
    decide
  exact handleLine_login env hline haccepts hverb (by decide) hx hlogin

/-- `Command::execKick` catches what it throws. -/
theorem execKick_of_catching (hx : s.getClient fd = some x)
    (hdone : (s.execKick message fd).catching caughtByExecute = .done s') :
    s.execKick message fd = .done s' := by
  rcases catching_eq_done hdone with hkick | ⟨e, -, hkick⟩
  · exact hkick
  · have hending : (s.execKick message fd).ending = _ := execKick_ending hx
    rw [hkick, ending_thrown] at hending
    split at hending
    · cases hending
    · split at hending <;> cases hending

/-- A `KICK` that tells the members its text has no colon but the one before the
text. -/
theorem colons_of_kick {nick : Str} (hnamed : s.Named) (hname : ChannelName ch.name)
    (hx : s.getClient fd = some x) (hmembers : ch.clients ≠ []) (hnick : ChannelName nick)
    (hkick : s.execKick (kickLine ch.name nick text tail) fd = .done s')
    (hsent : s'.sent = s.sent ++ ch.clients.map fun p => ((s.memory p).fd,
      ":".toList ++ s.name ++ " KICK ".toList ++ ch.name ++ " ".toList ++ nick ++
        " :".toList ++ text ++ crlf)) :
    ':' ∉ ch.name ∧ ':' ∉ nick ∧ ':' ∉ text ∧ text ≠ [] := by
  obtain ⟨parsed, found, hparse, hfound, hwas⟩ := execKick_sent hx hkick
  rw [hsent] at hwas
  simp only [List.append_cancel_left_eq] at hwas
  obtain ⟨p, clients, hclients⟩ := List.exists_cons_of_ne_nil hmembers
  rw [hclients] at hwas
  rcases hwas with ⟨refusal, hwas⟩ | hwas
  · -- a refusal is not what a kick tells
    have hmessage := congrArg Prod.snd (List.cons.inj hwas).1
    simp only [List.append_assoc, List.append_cancel_left_eq] at hmessage
    exact absurd (List.cons.inj (List.cons.inj hmessage).2).1 (by decide)
  · cases hothers : found.clients with
    | nil =>
        rw [hothers] at hwas
        cases hwas
    | cons q others =>
        rw [hothers] at hwas
        have hmessage := congrArg Prod.snd (List.cons.inj hwas).1
        have hgood := hnamed.good found (mem_of_getChannel hfound)
        have hcolon : ':' ∈ kickLine ch.name nick text tail := by simp [kickLine, trailing]
        obtain ⟨before, rest, hcut, hbefore⟩ := List.eq_append_cons_of_mem hcolon
        rw [hcut, kickParse_colon hbefore] at hparse
        split at hparse
        · cases hparse
        · cases hparse
          have hparts := colon_not_mem_parse fun hin =>
            hbefore ((infix_of_trim before).subset hin)
          obtain ⟨hsame, hnickColon, hreason, hne⟩ := kickText_eq hgood.noSpace hname.noSpace
            hnick.noSpace hparts.2 hmessage.symm
          refine ⟨?_, hnickColon, fun hin => ?_, hne⟩
          · rw [← hsame, name_of_getChannel hfound]
            exact hparts.1
          · dsimp only at hreason
            rw [← hreason] at hin
            exact colon_not_mem_upTo rest ((infix_of_trim _).subset hin)

/-- A `KICK` of an operator that has no colon but the one before the text tells the
members its text. -/
theorem execKick_kickLine {nick : Str} (hname : ChannelName ch.name) (hne : ch.name ≠ [])
    (htext : Trimmed text) (htail : LineEnd tail) (hch : s.getChannel ch.name = some ch)
    (hop : (ch.getOperator s.memory fd).isSome = true) (hnick : ChannelName nick)
    (hmember : (ch.getClientByNickName s.memory nick).isSome = true)
    (hnameColon : ':' ∉ ch.name) (hnickColon : ':' ∉ nick) (htextColon : ':' ∉ text)
    (hsome : text ≠ []) :
    ∃ s', s.execKick (kickLine ch.name nick text tail) fd = .done s' ∧
      s'.sent = s.sent ++ ch.clients.map fun p => ((s.memory p).fd,
        ":".toList ++ s.name ++ " KICK ".toList ++ ch.name ++ " ".toList ++ nick ++
          " :".toList ++ text ++ crlf) := by
  have hcut : kickLine ch.name nick text tail =
      ("KICK".toList ++ ' ' :: (ch.name ++ ' ' :: (nick ++ [' ']))) ++ ':' :: (text ++ tail) := by
    simp [kickLine, trailing]
  have hreason : trim (upTo (text ++ tail)) = text := by
    rw [upTo_of_not_mem (by simp [htextColon, htail.colon_not_mem]),
      trim_append_spaces _ htail.isspace, htext.trimmed]
  obtain ⟨hfunction, hvalue⟩ := parse_kick hname hne hnick
  obtain ⟨target, htarget⟩ := Option.isSome_iff_exists.mp hmember
  unfold execKick
  rw [hcut, kickParse_colon (by simp [hnameColon, hnickColon]),
    if_neg (List.append_ne_nil_of_left_ne_nil hsome tail), require_some]
  simp only [hfunction, hvalue, hreason, hch, require_some, htarget,
    if_neg (Channel.passes_guard_iff.mpr hop), catching_done]
  refine ⟨_, rfl, ?_⟩
  simp [broadcast, sendAll, putChannel, fdsOf, hsome]

/-- **`KICK`.** -/
theorem tellsReason_iff {nick : Str} (hnamed : s.Named) (hname : ChannelName ch.name)
    (hhead : ch.name.head? = some '#') (htext : Trimmed text) (htail : LineEnd tail)
    (hx : s.getClient fd = some x) (hlogin : (s.memory x).login = true)
    (hch : s.getChannel ch.name = some ch) (hop : (ch.getOperator s.memory fd).isSome = true)
    (hmembers : ch.clients ≠ []) (hnick : ChannelName nick)
    (hmember : (ch.getClientByNickName s.memory nick).isSome = true) :
    s.TellsReason (kickLine ch.name nick text tail) fd ch nick text ↔
      ':' ∉ ch.name ∧ ':' ∉ nick ∧ ':' ∉ text ∧ text ≠ [] := by
  have hhandled := handleLine_kickLine hname hhead hnick htext htail hx hlogin
  constructor
  · intro h
    obtain ⟨s', hdone, hsent⟩ := h Env.calm
    rw [hhandled] at hdone
    exact colons_of_kick hnamed hname hx hmembers hnick (execKick_of_catching hx hdone) hsent
  · rintro ⟨hnameColon, hnickColon, htextColon, hne⟩ env
    have hnonempty : ch.name ≠ [] := by
      intro h
      rw [h] at hhead
      cases hhead
    obtain ⟨s', hkick, hsent⟩ := execKick_kickLine hname hnonempty htext htail hch hop hnick hmember
      hnameColon hnickColon htextColon hne
    refine ⟨s', ?_, hsent⟩
    rw [hhandled, hkick, catching_done]

/-! ## `QUIT` -/

/-- The line `QUIT :text`. -/
def quitLine (text tail : Str) : Str := trailing "QUIT".toList text tail

/-- What a member is told when a client quits. -/
def quitText (nick text : Str) : Str := ":".toList ++ nick ++ " QUIT :".toList ++ text ++ crlf

/-- Every member of the channels that the client is on is told the text. -/
def AnnouncesQuit (s : Server) (message : Str) (fd : Fd) (nick text : Str) : Prop :=
  ∀ env, ∃ s', handleLine env s message fd = .done s' ∧
    s'.sent = s.sent ++ (s.quitTold fd).map fun target => (target, quitText nick text)

/-- The messages of the loop of `Command::execQuit`: each member is told a piece
of what was told before. -/
def quitMessages (nick : Str) : List Fd → Str → List (Fd × Str)
  | [], _ => []
  | target :: rest, text =>
      match (split text colon)[1]? with
      | none => []
      | some piece => (target, quitText nick piece) :: quitMessages nick rest piece

/-- The messages to some members, and then to others, who are told what is left. -/
theorem quitMessages_append {nick after : Str} {first second : List Fd}
    (h : tellAll true first text = .ok after) :
    quitMessages nick (first ++ second) text =
      quitMessages nick first text ++ quitMessages nick second after := by
  induction first generalizing text with
  | nil =>
      cases h
      rfl
  | cons target first ih =>
      cases hpiece : (split text colon)[1]? with
      | none => simp [tellAll, hpiece] at h
      | some piece =>
          have hrest : tellAll true first piece = .ok after := by
            simpa [tellAll, hpiece] using h
          have hmessages : ∀ targets, quitMessages nick (target :: targets) text =
              (target, quitText nick piece) :: quitMessages nick targets piece := by
            intro targets
            simp [quitMessages, hpiece]
          rw [List.cons_append, hmessages, hmessages, ih hrest, List.cons_append]

/-- A part of the loop of `Command::execQuit` has told some members: what is left
of the message, and what has been sent. -/
structure QuitTells (s : Server) (nick : Str) (told : List Fd) (start finish : Server × Str) :
    Prop where
  text : tellAll true told start.2 = .ok finish.2
  sent : finish.1.sent = start.1.sent ++ quitMessages nick told start.2
  clients : finish.1.clients = s.clients
  memory : finish.1.memory = s.memory

/-- Two parts of the loop tell their members one after the other. -/
theorem QuitTells.trans {nick : Str} {first second : List Fd} {start middle finish : Server × Str}
    (h : s.QuitTells nick first start middle) (h' : s.QuitTells nick second middle finish) :
    s.QuitTells nick (first ++ second) start finish where
  text := by
    rw [tellAll_append, h.text]
    exact h'.text
  sent := by rw [h'.sent, h.sent, quitMessages_append h.text, List.append_assoc]
  clients := h'.clients
  memory := h'.memory

/-- One member. -/
theorem quitTell_tells {start finish : Server × Str} (hx : s.getClient fd = some x)
    (hclients : start.1.clients = s.clients) (hmemory : start.1.memory = s.memory) {target : Fd}
    (h : quitTell fd target start = .done finish) :
    s.QuitTells (s.memory x).nickName ([target].filter (· ≠ fd)) start finish := by
  have hclient : start.1.getClient fd = some x := by
    unfold getClient
    rw [hclients, hmemory]
    exact hx
  unfold quitTell at h
  by_cases htarget : target ≠ fd
  · rw [if_pos htarget, hclient] at h
    rw [List.filter_cons_of_pos (by simpa using htarget), List.filter_nil]
    cases hpiece : (split start.2 colon)[1]? with
    | none =>
        rw [hpiece] at h
        cases h
    | some piece =>
        rw [hpiece, require_some, require_some] at h
        cases h
        refine ⟨?_, ?_, hclients, hmemory⟩
        · simp only [tellAll, hpiece, if_true]
        · simp only [quitMessages, hpiece, send, quitText, hmemory]
  · rw [if_neg htarget] at h
    cases h
    rw [List.filter_cons_of_neg (by simpa using htarget), List.filter_nil]
    exact ⟨rfl, (List.append_nil _).symm, hclients, hmemory⟩

/-- The members of one channel. -/
theorem quitTells_tell {start finish : Server × Str} (hx : s.getClient fd = some x)
    (hclients : start.1.clients = s.clients) (hmemory : start.1.memory = s.memory)
    (targets : List Fd) (h : Outcome.each (quitTell fd) targets start = .done finish) :
    s.QuitTells (s.memory x).nickName (targets.filter (· ≠ fd)) start finish := by
  induction targets generalizing start with
  | nil =>
      cases h
      exact ⟨rfl, (List.append_nil _).symm, hclients, hmemory⟩
  | cons target targets ih =>
      rw [each_cons] at h
      cases hfirst : quitTell fd target start with
      | done middle =>
          rw [hfirst, andThen_done] at h
          have htold := quitTell_tells hx hclients hmemory hfirst
          have hrest := ih htold.clients htold.memory h
          have hsplit : (target :: targets).filter (· ≠ fd) =
              [target].filter (· ≠ fd) ++ targets.filter (· ≠ fd) := by
            rw [← List.filter_append]
            rfl
          rw [hsplit]
          exact htold.trans hrest
      | thrown e middle =>
          rw [hfirst] at h
          cases h
      | fault f =>
          rw [hfirst] at h
          cases h

/-- The members of all channels that the client is on. -/
theorem quitChannels_tell {start finish : Server × Str} (hx : s.getClient fd = some x)
    (hclients : start.1.clients = s.clients) (hmemory : start.1.memory = s.memory)
    (channels : List Channel) (h : Outcome.each (quitChannel fd) channels start = .done finish) :
    s.QuitTells (s.memory x).nickName (channels.flatMap fun ch =>
      if (ch.getClient s.memory fd).isSome then (s.fdsOf ch.clients).filter (· ≠ fd) else [])
      start finish := by
  induction channels generalizing start with
  | nil =>
      cases h
      exact ⟨rfl, (List.append_nil _).symm, hclients, hmemory⟩
  | cons ch channels ih =>
      rw [each_cons] at h
      rw [List.flatMap_cons]
      unfold quitChannel at h
      rw [hmemory] at h
      by_cases hmember : (ch.getClient s.memory fd).isSome = true
      · have hfds : start.1.fdsOf ch.clients = s.fdsOf ch.clients := by
          unfold fdsOf
          rw [hmemory]
        rw [if_pos hmember, hfds] at h
        rw [if_pos hmember]
        cases htells : Outcome.each (quitTell fd) (s.fdsOf ch.clients) start with
        | done middle =>
            rw [htells, andThen_done, andThen_done] at h
            have htold := quitTells_tell hx hclients hmemory _ htells
            have hrest := @ih (middle.1.putChannel _, middle.2) htold.clients htold.memory h
            exact htold.trans ⟨hrest.text, hrest.sent, hrest.clients, hrest.memory⟩
        | thrown e middle =>
            rw [htells] at h
            cases h
        | fault f =>
            rw [htells] at h
            cases h
      · rw [if_neg hmember, andThen_done] at h
        rw [if_neg hmember]
        exact ih hclients hmemory h

/-- What a `QUIT` that returns has sent. -/
theorem execQuit_sent (hx : s.getClient fd = some x) (h : s.execQuit message fd = .done s') :
    s'.sent = s.sent ++ quitMessages (s.memory x).nickName (s.quitTold fd) message := by
  unfold execQuit at h
  cases hloop : Outcome.each (quitChannel fd) s.channels (s, message) with
  | done finish =>
      rw [hloop, forgetMessage, andThen_done] at h
      cases h
      exact (finish.1.removeClient_sent fd).trans
        (quitChannels_tell hx rfl rfl s.channels hloop).sent
  | thrown e finish =>
      rw [hloop] at h
      cases h
  | fault f =>
      rw [hloop] at h
      cases h

/-- What comes back from handling a `QUIT` line comes from `Command::execQuit`. -/
theorem handleLine_quitLine (htext : Trimmed text) (htail : LineEnd tail)
    (hx : s.getClient fd = some x) (env : Env) (s' : Server) :
    handleLine env s (quitLine text tail) fd = .done s' ↔
      s.execQuit (quitLine text tail) fd = .done s' := by
  have hlineEq : quitLine text tail = "QUIT".toList ++ ' ' :: (':' :: (text ++ tail)) := rfl
  have hformat : trim (':' :: (text ++ tail)) = ':' :: text := by
    rw [← List.cons_append, trim_append_spaces _ htail.isspace, trim_colon_cons htext]
  have hline : OneLine (quitLine text tail) := oneLine_trailing (by decide) htext htail
  have hquit : ' ' ∉ "QUIT".toList := by decide
  have hsomething : trim (':' :: (text ++ tail)) ≠ [] := by
    rw [hformat]
    simp
  obtain ⟨before, after, hlaid⟩ := exists_laid_of_text hquit ⟨'Q', rfl, by decide⟩ hsomething
  rw [← hlineEq, hformat] at hlaid
  have hverb : verbOf (commandOf (quitLine text tail)) = .quit := by
    rw [hlaid.commandOf_eq]
    decide
  have haccepts : Checker.accepts (quitLine text tail) = true := by
    refine hlaid.accepts (by rw [hverb]; decide) ?_
    rw [hverb, Checker.formatError, hlaid.formatOf_eq, if_neg (List.cons_ne_nil _ _)]
  have hhandled : handleLine env s (quitLine text tail) fd =
      (s.execQuit (quitLine text tail) fd).catching caughtByExecute := by
    unfold handleLine
    rw [hline.executeTo, handle, check_of_accepts s fd haccepts, andThen_done, dispatch, hverb]
  rw [hhandled]
  constructor
  · intro hdone
    rcases catching_eq_done hdone with hquit | ⟨e, -, hquit⟩
    · exact hquit
    · -- nothing is thrown
      have hending : (s.execQuit (quitLine text tail) fd).ending = _ := execQuit_ending
      rw [hquit, ending_thrown, hx] at hending
      split at hending
      · cases hending
      · split at hending
        · cases hending
        · split at hending
          · split at hending <;> cases hending
          · cases hending
  · intro hdone
    rw [hdone, catching_done]

/-- What `Command::execQuit` takes for the text: the piece up to the next colon. -/
theorem quitLine_piece (text tail : Str) :
    (split (quitLine text tail) colon)[1]? =
      if text ++ tail = [] then none else some (upTo (text ++ tail)) := by
  have hcut : quitLine text tail = ("QUIT".toList ++ [' ']) ++ ':' :: (text ++ tail) := by
    simp [quitLine, trailing]
  rw [hcut]
  exact split_colon_second (by decide) _

/-- **`QUIT`.** -/
theorem announcesQuit_iff (htext : Trimmed text) (htail : LineEnd tail)
    (hx : s.getClient fd = some x) :
    s.AnnouncesQuit (quitLine text tail) fd (s.memory x).nickName text ↔
      s.quitTold fd = [] ∨
        (s.quitTold fd).length = 1 ∧ ':' ∉ text ∧ text ≠ [] ∧ tail = [] := by
  have hending : (s.execQuit (quitLine text tail) fd).ending = _ := execQuit_ending
  rw [hx] at hending
  unfold AnnouncesQuit
  simp only [handleLine_quitLine htext htail hx]
  cases htold : s.quitTold fd with
  | nil =>
      rw [htold] at hending
      obtain ⟨s', hdone⟩ := ending_eq_returned.mp hending
      refine iff_of_true (fun _ => ⟨s', hdone, ?_⟩) (Or.inl rfl)
      rw [execQuit_sent hx hdone, htold]
      rfl
  | cons target rest =>
      rw [htold] at hending
      simp only [reduceCtorEq, false_or, List.length_cons]
      cases rest with
      | cons other rest =>
          -- the second member is told a piece of what has no colon left
          refine iff_of_false (fun h => ?_) (by simp)
          obtain ⟨s', hdone, -⟩ := h Env.calm
          rw [hdone, ending_done] at hending
          simp at hending
      | nil =>
          simp only [List.length_nil, true_and]
          constructor
          · intro h
            obtain ⟨s', hdone, hsent⟩ := h Env.calm
            rw [execQuit_sent hx hdone, htold] at hsent
            simp only [quitMessages, quitLine_piece, List.append_cancel_left_eq] at hsent
            by_cases hempty : text ++ tail = []
            · simp [hempty] at hsent
            · rw [if_neg hempty] at hsent
              have hmessage := congrArg Prod.snd (List.cons.inj hsent).1
              simp only [quitText, List.append_cancel_right_eq,
                List.append_cancel_left_eq] at hmessage
              obtain ⟨hcolon, rfl⟩ := (upTo_append_eq_iff htail.colon_not_mem).mp hmessage
              exact ⟨hcolon, by simpa using hempty, rfl⟩
          · rintro ⟨hcolon, hne, rfl⟩ _
            have hword : (split (quitLine text []) colon)[1]? = some text := by
              rw [quitLine_piece, if_neg (by simpa using hne),
                (upTo_append_eq_iff (by simp)).mpr ⟨hcolon, rfl⟩]
            have hlength := length_of_word hword
            simp only [if_neg (show ¬ (split (quitLine text []) colon).length < 2 by omega),
              Option.isSome_some, if_true] at hending
            obtain ⟨s', hdone⟩ := ending_eq_returned.mp hending
            refine ⟨s', hdone, ?_⟩
            rw [execQuit_sent hx hdone, htold]
            simp only [quitMessages, hword, List.map_cons, List.map_nil]

/-! ## `PRIVMSG` and `NOTICE` -/

/-- The descriptors to which a text for a target is relayed. -/
def recipients (s : Server) (fd : Fd) (target : Str) (toSelf : Bool) : List Fd :=
  match s.getClientByNickName target with
  | some client =>
      if toSelf ∨ (s.memory client).fd ≠ fd then [(s.memory client).fd] else []
  | none =>
      match s.getChannel target with
      | some ch => (s.fdsOf ch.clients).filter (· ≠ fd)
      | none => []

/-- What is relayed is the text, to each of the recipients. -/
theorem relay_sent (s : Server) (fd : Fd) (target text : Str) (toSelf : Bool) :
    (s.relay fd target text toSelf).sent =
      s.sent ++ (s.recipients fd target toSelf).map fun recipient => (recipient, text) := by
  unfold relay recipients
  cases s.getClientByNickName target with
  | some client =>
      dsimp only
      by_cases htold : toSelf ∨ (s.memory client).fd ≠ fd
      · rw [if_pos htold, if_pos htold]
        rfl
      · rw [if_neg htold, if_neg htold]
        simp
  | none =>
      cases s.getChannel target with
      | some ch => rfl
      | none => simp

/-- The line of a command that relays a text to a target. -/
def relayLine (command target text tail : Str) : Str :=
  trailing (command ++ ' ' :: target) text tail

/-- The words of such a line. -/
theorem relayLine_eq (command target text tail : Str) : relayLine command target text tail =
    command ++ ' ' :: (target ++ ' ' :: ':' :: (text ++ tail)) := by
  simp [relayLine, trailing]

/-- What `Parser::privateMessage` reads of such a line. -/
theorem privateMessage_relayLine {command target : Str} (hcommand : ' ' ∉ command)
    (htarget : ' ' ∉ target) (text tail : Str) :
    Parser.privateMessage (relayLine command target text tail) =
      some { target := target, message := joinTrimmed (split (text ++ tail) space) } := by
  unfold Parser.privateMessage
  rw [relayLine_eq, split_append hcommand, split_append htarget]
  by_cases hspace : ' ' ∈ text ++ tail
  · obtain ⟨word, rest, hcut, hword⟩ := List.eq_append_cons_of_mem hspace
    rw [hcut, split_append hword, ← List.cons_append,
      split_append (show ' ' ∉ ':' :: word by simp [hword])]
    rfl
  · rw [split_of_not_mem (show ' ' ∉ ':' :: (text ++ tail) by simp [hspace]),
      if_neg (List.cons_ne_nil _ _), split_of_not_mem hspace]
    by_cases hempty : text ++ tail = []
    · rw [hempty]
      rfl
    · rw [if_neg hempty]
      rfl

/-- The text is relayed to the target as it is. -/
def RelaysText (s : Server) (message : Str) (fd : Fd) (told : List Fd) (source target text : Str) :
    Prop :=
  ∀ env, ∃ s', handleLine env s message fd = .done s' ∧
    s'.sent = s.sent ++ told.map fun recipient =>
      (recipient, source ++ target ++ " :".toList ++ text ++ crlf)

/-- A line that relays a text passes the check of its command. -/
theorem accepts_relayLine {command target : Str} (hcommand : ' ' ∉ command)
    (hverb : verbOf (toUpper command) = .privmsg ∨ verbOf (toUpper command) = .notice)
    (text tail : Str) : Checker.accepts (relayLine command target text tail) = true := by
  have hne : trim (target ++ ' ' :: ':' :: (text ++ tail)) ≠ [] := fun hempty =>
    absurd (isspace_of_trim_eq_nil hempty ':' (by simp)) (by decide)
  obtain ⟨before, after, hlaid⟩ := exists_laid_of_text hcommand
    (head_of_verb (by rcases hverb with h | h <;> rw [h] <;> decide)) hne
  rw [← relayLine_eq] at hlaid
  have hcheck : Checker.checkMoreThanTwoWords (trim (relayLine command target text tail)) =
      true := by
    obtain ⟨more, hmore⟩ := Laid.exists_split
      (List.append_ne_nil_of_right_ne_nil before hlaid.nonempty)
    unfold Checker.checkMoreThanTwoWords
    rw [hlaid.trim_message, contains_space_append hcommand, split_append hcommand, hmore]
    simp
  refine hlaid.accepts ?_ ?_
  · rw [hlaid.commandOf_eq]
    rcases hverb with h | h <;> rw [h] <;> decide
  · rw [hlaid.commandOf_eq]
    rcases hverb with h | h
    · rw [h, Checker.formatError, if_pos hcheck]
    · rw [h, Checker.formatError, if_pos hcheck]

/-- **Relayed texts.**  What is relayed is the text just when its words are
trimmed, unless there is nobody to relay it to. -/
theorem relaysText_iff_words {source target : Str} {toSelf : Bool} (htext : Trimmed text)
    (htail : LineEnd tail)
    (hhandled : ∀ env, handleLine env s message fd = .done (s.relay fd target
      (source ++ target ++ " :".toList ++ joinTrimmed (split (text ++ tail) space) ++ crlf)
      toSelf)) :
    s.RelaysText message fd (s.recipients fd target toSelf) source target text ↔
      s.recipients fd target toSelf = [] ∨ ∀ word ∈ split text space, trim word = word := by
  have hlast : text.getLast? ≠ some ' ' := by
    by_cases hne : text = []
    · simp [hne]
    · obtain ⟨init, c, hcut, hc⟩ := last_of_trimmed htext.trimmed hne
      rw [hcut, List.getLast?_concat, ne_eq, Option.some.injEq]
      rintro rfl
      cases hc
  rw [← joinTrimmed_eq_iff htail hlast]
  constructor
  · intro h
    obtain ⟨s', hdone, hsent⟩ := h Env.calm
    rw [hhandled] at hdone
    cases hdone
    rw [relay_sent, List.append_cancel_left_eq] at hsent
    cases hrecipients : s.recipients fd target toSelf with
    | nil => exact Or.inl rfl
    | cons recipient rest =>
        rw [hrecipients] at hsent
        have hmessage := congrArg Prod.snd (List.cons.inj hsent).1
        simp only [List.append_cancel_right_eq, List.append_cancel_left_eq] at hmessage
        exact Or.inr hmessage
  · intro h env
    refine ⟨_, hhandled env, ?_⟩
    rw [relay_sent]
    rcases h with hnone | hjoined
    · simp [hnone]
    · rw [hjoined]

section Relay

variable {target : Str} (htarget : ChannelName target) (htext : Trimmed text)
  (htail : LineEnd tail) (hx : s.getClient fd = some x) (hlogin : (s.memory x).login = true)

include htarget htext htail hx hlogin

/-- **`PRIVMSG`.** -/
theorem privmsg_relaysText_iff :
    s.RelaysText (relayLine "PRIVMSG".toList target text tail) fd (s.recipients fd target true)
        (":".toList ++ (s.memory x).nickName ++ " PRIVMSG ".toList) target text ↔
      s.recipients fd target true = [] ∨ ∀ word ∈ split text space, trim word = word := by
  have hline : OneLine (relayLine "PRIVMSG".toList target text tail) :=
    oneLine_trailing (noBreak_append_space (by decide) htarget.noBreak) htext htail
  have hverb : verbOf (commandOf (relayLine "PRIVMSG".toList target text tail)) = .privmsg := by
    rw [relayLine_eq, commandOf_append (by decide)]
    decide
  refine relaysText_iff_words htext htail fun env => ?_
  rw [handleLine_login env hline (accepts_relayLine (by decide) (Or.inl (by decide)) _ _) hverb
    (by decide) hx hlogin]
  unfold dispatchLogin execPrivMsg
  rw [hx, privateMessage_relayLine (by decide) htarget.noSpace]
  simp only [require_some, catching_done]

/-- **`NOTICE`.** -/
theorem notice_relaysText_iff :
    s.RelaysText (relayLine "NOTICE".toList target text tail) fd (s.recipients fd target false)
        ((s.memory x).source ++ "0 NOTICE ".toList) target text ↔
      s.recipients fd target false = [] ∨ ∀ word ∈ split text space, trim word = word := by
  have hline : OneLine (relayLine "NOTICE".toList target text tail) :=
    oneLine_trailing (noBreak_append_space (by decide) htarget.noBreak) htext htail
  have hverb : verbOf (commandOf (relayLine "NOTICE".toList target text tail)) = .notice := by
    rw [relayLine_eq, commandOf_append (by decide)]
    decide
  refine relaysText_iff_words htext htail fun env => ?_
  rw [handleLine_login env hline (accepts_relayLine (by decide) (Or.inr (by decide)) _ _) hverb
    (by decide) hx hlogin]
  unfold dispatchLogin execNotice
  rw [hx, privateMessage_relayLine (by decide) htarget.noSpace]
  simp only [require_some, catching_done]

end Relay

end Server

variable {trace : Run.Trace World Action} {w : World} {x : ClientPtr} {text tail : Str}

/-- **Trailing texts.**  In every reachable state and for every text: when each
command that ends with a text keeps it as it is. -/
theorem trailing_texts_iff (run : Steps trace w) (hx : x ∈ w.srv.clients) (htext : Trimmed text)
    (htail : LineEnd tail) :
    (w.srv.AnnouncesQuit (Server.quitLine text tail) (w.srv.memory x).fd
        (w.srv.memory x).nickName text ↔
      w.srv.quitTold (w.srv.memory x).fd = [] ∨
        (w.srv.quitTold (w.srv.memory x).fd).length = 1 ∧ ':' ∉ text ∧ text ≠ [] ∧ tail = []) ∧
    ((w.srv.memory x).login = true →
      (∀ ch ∈ w.srv.channels, ch.name.head? = some '#' →
        (ch.getOperator w.srv.memory (w.srv.memory x).fd).isSome = true →
        (w.srv.KeepsTopic (Server.topicLine ch.name text tail) (w.srv.memory x).fd ch text ↔
          ':' ∉ ch.name ∧ ':' ∉ text ∧ text ≠ [] ∧ tail = [] ∨ Server.Between ch.name text) ∧
        ∀ nick, (ch.getClientByNickName w.srv.memory nick).isSome = true →
          (w.srv.TellsReason (Server.kickLine ch.name nick text tail) (w.srv.memory x).fd ch nick
              text ↔
            ':' ∉ ch.name ∧ ':' ∉ nick ∧ ':' ∉ text ∧ text ≠ [])) ∧
      ∀ target, (w.srv.getClientByNickName target).isSome = true ∨
          (w.srv.getChannel target).isSome = true →
        (w.srv.RelaysText (Server.relayLine "PRIVMSG".toList target text tail) (w.srv.memory x).fd
            (w.srv.recipients (w.srv.memory x).fd target true)
            (":".toList ++ (w.srv.memory x).nickName ++ " PRIVMSG ".toList) target text ↔
          w.srv.recipients (w.srv.memory x).fd target true = [] ∨
            ∀ word ∈ split text space, trim word = word) ∧
        (w.srv.RelaysText (Server.relayLine "NOTICE".toList target text tail) (w.srv.memory x).fd
            (w.srv.recipients (w.srv.memory x).fd target false)
            ((w.srv.memory x).source ++ "0 NOTICE ".toList) target text ↔
          w.srv.recipients (w.srv.memory x).fd target false = [] ∨
            ∀ word ∈ split text space, trim word = word)) := by
  have htidy := tidy run
  have hclient := Server.getClient_fd htidy.fds hx
  refine ⟨Server.announcesQuit_iff htext htail hclient, fun hlogin =>
    ⟨fun ch hch hhead hop => ?_, fun target htarget => ?_⟩⟩
  · have hfound := Server.getChannel_of_mem htidy.named.distinct hch
    have hname := htidy.named.good ch hch
    refine ⟨?_, fun nick hmember => ?_⟩
    · rw [← Server.topic_piece_iff htext htail]
      exact Server.keepsTopic_iff_piece hname hhead htext htail hclient hlogin hfound hop
    · obtain ⟨p, hp, hpnick⟩ := List.find?_isSome.mp hmember
      have hnick : ChannelName nick := of_decide_eq_true hpnick ▸ nicknames_named run p
      exact Server.tellsReason_iff htidy.named hname hhead htext htail hclient hlogin hfound hop
        (List.ne_nil_of_mem hp) hnick hmember
  · have hname : ChannelName target := by
      rcases htarget with htarget | htarget
      · obtain ⟨p, -, hpnick⟩ := List.find?_isSome.mp htarget
        exact of_decide_eq_true hpnick ▸ nicknames_named run p
      · obtain ⟨ch, hch⟩ := Option.isSome_iff_exists.mp htarget
        rw [← Server.name_of_getChannel hch]
        exact htidy.named.good ch (Server.mem_of_getChannel hch)
    exact ⟨Server.privmsg_relaysText_iff hname htext htail hclient hlogin,
      Server.notice_relaysText_iff hname htext htail hclient hlogin⟩

/-- Two members of a channel, and a text with two spaces in a row. -/
theorem trailing_texts_iff_spaces : ∃ trace w ch, Steps trace w ∧ ch.clients = [0, 1] ∧
    w.srv.KeepsTopic (Server.topicLine ch.name "see  you".toList []) 5 ch "see  you".toList ∧
    w.srv.TellsReason (Server.kickLine ch.name "b".toList "see  you".toList []) 5 ch "b".toList
      "see  you".toList ∧
    w.srv.AnnouncesQuit (Server.quitLine "see  you".toList []) 5 "a".toList "see  you".toList := by
  obtain ⟨trace, w, run, htest⟩ := Run.exists_steps_of_perform step start_pw
    ([.gather, .accept 5 "h".toList, .gather, .accept 6 "i".toList, .gather] ++
      packet 5 ["PASS pw", "NICK a", "USER a a a :n", "JOIN #c"] ++
      packet 6 ["PASS pw", "NICK b", "USER b b b :n", "JOIN #c"])
    (fun w => (0 ∈ w.srv.clients ∧ (w.srv.memory 0).fd = 5 ∧ (w.srv.memory 0).login = true ∧
      (w.srv.memory 0).nickName = "a".toList) ∧ (w.srv.memory 1).nickName = "b".toList ∧
      w.srv.quitTold 5 = [6] ∧
      w.srv.channels.map (fun ch => (ch.name, ch.clients, ch.operators)) =
        [("#c".toList, [0, 1], [0])])
    (by decide +kernel)
  obtain ⟨⟨hmem, hfd, hlogin, hnick⟩, hmember, htold, hchannels⟩ := of_decide_eq_true htest
  obtain ⟨ch, hch, hvalues⟩ := List.mem_map.mp (hchannels ▸ List.mem_singleton_self _)
  obtain ⟨hname, hvalues⟩ := Prod.mk.inj hvalues
  obtain ⟨hclients, hoperators⟩ := Prod.mk.inj hvalues
  have htext : Trimmed "see  you".toList := ⟨by decide, by decide⟩
  obtain ⟨hquit, hcommands⟩ := trailing_texts_iff run hmem htext (Or.inl rfl)
  have hop : (ch.getOperator w.srv.memory (w.srv.memory 0).fd).isSome = true :=
    List.find?_isSome.mpr ⟨0, by simp [hoperators], by simp⟩
  have hb : (ch.getClientByNickName w.srv.memory "b".toList).isSome = true :=
    List.find?_isSome.mpr ⟨1, by simp [hclients], by simp [hmember]⟩
  obtain ⟨htopic, hkick⟩ := (hcommands hlogin).1 ch hch (by rw [hname]; decide) hop
  have hcolon : ':' ∉ ch.name := by
    rw [hname]
    decide
  rw [hfd] at hquit htopic hkick
  rw [hnick] at hquit
  refine ⟨trace, w, ch, run, hclients, htopic.mpr (Or.inl ⟨hcolon, by decide, by decide, rfl⟩),
    (hkick _ hb).mpr ⟨hcolon, by decide, by decide, by decide⟩, hquit.mpr (Or.inr ?_)⟩
  exact ⟨by rw [htold]; rfl, by decide, by decide, rfl⟩

/-- `TOPIC #c :a:b` sets the topic `a`. -/
theorem topic_cut_at_colon : ¬ ∀ trace w x ch text tail, Steps trace w → x ∈ w.srv.clients →
    (w.srv.memory x).login = true → ch ∈ w.srv.channels → ch.name.head? = some '#' →
    (ch.getOperator w.srv.memory (w.srv.memory x).fd).isSome = true → Trimmed text →
    LineEnd tail →
    w.srv.KeepsTopic (Server.topicLine ch.name text tail) (w.srv.memory x).fd ch text := by
  intro hall
  obtain ⟨trace, w, ch, run, hmem, hfd, hlogin, hch, hname, hop, htest⟩ :=
    exists_operated [] (fun w => (handleLine Env.calm w.srv "TOPIC #c :a:b".toList 5).state?.any
      fun s' => (s'.getChannel "#c".toList).map Channel.topic = some "a".toList)
      (by decide +kernel)
  have hhead : ch.name.head? = some '#' := by
    rw [hname]
    decide
  obtain ⟨s', hdone, hafter, -⟩ := hall trace w 0 ch "a:b".toList [] run hmem hlogin hch hhead hop
    ⟨by decide, by decide⟩ (Or.inl rfl) Env.calm
  rw [hfd, hname] at hdone
  rw [show Server.topicLine "#c".toList "a:b".toList [] = "TOPIC #c :a:b".toList by decide] at hdone
  rw [hdone, ← hname] at htest
  have hset := of_decide_eq_true htest
  rw [hafter, Option.map_some, Option.some.injEq] at hset
  exact absurd hset (show "a:b".toList ≠ "a".toList by decide)

end FtIrc
