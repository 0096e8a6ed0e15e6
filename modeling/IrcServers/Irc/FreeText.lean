import IrcServers.Irc.Commands

/-!
# Free text in a command line

A command line is cut at every space before its command is known, so a handler
that takes free text has to put its words together again.  Each handler does so
with a loop of its own, and some put the space before a word and some after it.
All of them compute the join of the words from some index on, which is the
command line from behind that many spaces on: no space is lost or gained.
-/

namespace Irc

variable {s : Server} {client : ClientPtr} {command text : Str} {words : List Str}

/-- The line as `commandParser` cuts it: without line feeds. -/
def lineOf (command : Str) : Str := command.filter (· ≠ '\n')

/-- `text` is what follows the `k`-th space of the line, which has more than `k`
words. -/
def TextFrom (k : Nat) (command text : Str) : Prop :=
  k < (commandParts command).length ∧ Text.AfterNth ' ' k (lineOf command) text

/-- Appending words is joining them with blanks. -/
theorem appendWords_eq (text : Str) (words : List Str) :
    appendWords text words = " ".toList.intercalate (text :: words) := by
  induction words generalizing text with
  | nil => simp [appendWords]
  | cons word words ih =>
      have hstep : appendWords text (word :: words) =
          appendWords (text ++ (" ".toList ++ word)) words := rfl
      rw [hstep, ih]
      cases words with
      | nil => simp
      | cons next words => simp [List.intercalate_cons_cons]

/-- A space after every word but the last of `size` words, from index `i` on. -/
theorem joinWords_foldl {size : Nat} (acc : Str) (hne : words ≠ []) {i : Nat}
    (hsize : i + words.length = size) :
    (words.zipIdx i).foldl (fun text entry =>
      text ++ entry.1 ++ (if entry.2 ≠ size - 1 then " ".toList else [])) acc =
      acc ++ " ".toList.intercalate words := by
  induction words generalizing acc i with
  | nil => exact (hne rfl).elim
  | cons word words ih =>
      rw [List.length_cons] at hsize
      rw [List.zipIdx_cons, List.foldl_cons]
      by_cases hlast : words = []
      · subst hlast
        have hindex : i = size - 1 := by
          rw [List.length_nil] at hsize
          omega
        simp [hindex]
      · have hpos := List.length_pos_iff.mpr hlast
        rw [ih _ hlast (by omega), Text.intercalate_cons hlast, if_pos (by omega)]
        simp

/-- So is the loop that joins the words of a topic. -/
theorem joinWords_eq (hne : words ≠ []) : joinWords words = " ".toList.intercalate words :=
  joinWords_foldl [] hne (Nat.zero_add _)

/-- A delimiter before every word. -/
theorem mergePrivmsg_foldl (delim acc : Str) (words : List Str) (i : Nat) :
    (words.zipIdx (i + 1)).foldl (fun result entry =>
      (if entry.2 > 0 then result ++ delim else result) ++ entry.1) acc =
      delim.intercalate (acc :: words) := by
  induction words generalizing acc i with
  | nil => simp
  | cons word words ih =>
      rw [List.zipIdx_cons, List.foldl_cons, if_pos (Nat.succ_pos i), ih]
      cases words with
      | nil => simp
      | cons next words => simp [List.intercalate_cons_cons]

/-- The loop of `merge_privmsg` joins words with its delimiter. -/
theorem mergePrivmsg_eq (words : List Str) (delim : Str) :
    mergePrivmsg words delim = delim.intercalate words := by
  cases words with
  | nil => rfl
  | cons word words => simpa [mergePrivmsg] using mergePrivmsg_foldl delim word words 0

/-- The words of a command are the pieces of its line. -/
theorem commandParts_length (command : Str) :
    (commandParts command).length = (Text.cut " ".toList (lineOf command)).length := by
  unfold commandParts lineOf
  split <;> simp_all

/-- From the second on, the words are pieces of the line. -/
theorem commandParts_drop (command : Str) (k : Nat) :
    (commandParts command).drop (k + 1) = (Text.cut " ".toList (lineOf command)).drop (k + 1) := by
  unfold commandParts lineOf
  split <;> simp_all

/-- **The words of a text.**  Some words, and after them the words of the text,
which joined are the text. -/
theorem TextFrom.exists_words {k : Nat} (h : TextFrom (k + 1) command text) :
    ∃ before words, before.length = k + 1 ∧ words ≠ [] ∧
      commandParts command = before ++ words ∧ " ".toList.intercalate words = text := by
  obtain ⟨hlength, hafter⟩ := h
  refine ⟨_, _, List.length_take_of_le (Nat.le_of_lt hlength), ?_,
    (List.take_append_drop (k + 1) _).symm, ?_⟩
  · intro hnil
    exact Nat.not_lt.mpr (List.drop_eq_nil_iff.mp hnil) hlength
  · rw [commandParts_length] at hlength
    rw [commandParts_drop]
    exact (Text.afterNth_intercalate_drop hlength).unique hafter

/-- The message of a `PRIVMSG`, before the bot sees it, is `text`. -/
def PrivmsgReads (command text : Str) : Prop :=
  ∀ (s : Server) (now : Str) (client : ClientPtr),
    s.privmsgText now client ((commandParts command).drop 2) =
      if s.nickOf client ≠ botNick then
        s.processMessage now (s.nickOf client ++ "!".toList ++ text)
      else (s, text)

/-- The operator of a channel sets its topic to `text`. -/
def TopicSets (command text : Str) : Prop :=
  ∀ (s : Server) (client : ClientPtr) (name : Str) (ch : Channel),
    (commandParts command)[1]? = some name → s.channels[name]? = some ch →
    ch.opNick = s.nickOf client →
    (s.topic client (commandParts command)).channels[name]? = some { ch with topic := text }

/-- The channels of a `PART` are left with the message `text`. -/
def PartTells (command text : Str) : Prop :=
  ∀ (s : Server) (client : ClientPtr) (names : Str),
    (commandParts command)[1]? = some names →
    s.part client (commandParts command) =
      (Text.cut ",".toList names).foldl (Server.partChannel client text) s

/-- An accepted `USER` stores the real name `text`. -/
def UserStores (command text : Str) : Prop :=
  ∀ (s : Server) (client : ClientPtr), (s.memory client).hasNick = true →
    (s.memory client).username = [] →
    ((s.user client (commandParts command)).memory client).realname = text

/-- A `KICK` that is carried out gives the reason `text`. -/
def KickTells (command text : Str) : Prop :=
  ∀ (s : Server) (client target : ClientPtr) (name nick : Str) (ch : Channel),
    (commandParts command)[1]? = some name → (commandParts command)[2]? = some nick →
    s.channels[name]? = some ch → ch.opNick = s.nickOf client →
    s.getClient nick = some target → ch.isUserOnChannel target = true →
    s.kick client (commandParts command) = s.kickMember client target name text

/-- A `QUIT` tells the others `text`. -/
def QuitTells (command text : Str) : Prop :=
  ∀ (env : Env) (s : Server) (client : ClientPtr),
    s.quit env client (commandParts command) =
      (Outcome.each (Server.quitTell env (s.memory client)
        (rplQuit (s.memory client).getPrefix text))
        (s.entries.map fun entry => s.memory entry.2) s).andThen fun s' =>
          .done (s'.withTables (s'.closeConnection (s.memory client).clientSocketFd))

/-- `PRIVMSG` reads the text behind the second blank, without its colon. -/
theorem TextFrom.privmsg (h : TextFrom 2 command text) : PrivmsgReads command (dropColon text) := by
  intro s now client
  obtain ⟨before, words, hbefore, -, hparts, htext⟩ := h.exists_words
  have hdrop : (before ++ words).drop 2 = words := List.drop_left' hbefore
  unfold Server.privmsgText
  rw [hparts, hdrop, mergePrivmsg_eq, htext]

/-- `TOPIC` stores the text behind the second blank. -/
theorem TextFrom.topic (h : TextFrom 2 command text) : TopicSets command text := by
  intro s client name ch hname hch hop
  obtain ⟨before, words, hbefore, hne, hparts, htext⟩ := h.exists_words
  obtain ⟨word, name', rfl⟩ := List.length_eq_two.mp hbefore
  rw [hparts] at hname ⊢
  obtain rfl : name' = name := by simpa using hname
  obtain ⟨first, rest, rfl⟩ := List.exists_cons_of_ne_nil hne
  have hjoin : joinWords (first :: rest) = text := (joinWords_eq hne).trans htext
  simp [Server.topic, hch, hop, hjoin, Tables.setChannel_getElem?]

/-- `PART` tells the text behind the second blank, without its colon. -/
theorem TextFrom.part (h : TextFrom 2 command text) : PartTells command (dropColon text) := by
  intro s client names hnames
  obtain ⟨before, words, hbefore, hne, hparts, htext⟩ := h.exists_words
  obtain ⟨word, names', rfl⟩ := List.length_eq_two.mp hbefore
  rw [hparts] at hnames ⊢
  obtain rfl : names' = names := by simpa using hnames
  rw [← htext, ← joinWords_eq hne]
  rfl

/-- `USER` stores the text behind the third blank, without its colon. -/
theorem TextFrom.user (h : TextFrom 3 command text) : UserStores command (dropColon text) := by
  intro s client hnick husername
  obtain ⟨before, words, hbefore, hne, hparts, htext⟩ := h.exists_words
  obtain ⟨word, username, clientIp, rfl⟩ := List.length_eq_three.mp hbefore
  obtain ⟨name, rest, rfl⟩ := List.exists_cons_of_ne_nil hne
  have hjoin : appendWords name rest = text := (appendWords_eq name rest).trans htext
  rw [hparts]
  simp [Server.user, hnick, husername, Server.botSendMsg, hjoin]

/-- `KICK` tells the text behind the third blank. -/
theorem TextFrom.kick (h : TextFrom 3 command text) : KickTells command text := by
  intro s client target name nick ch hname hnick hch hop htarget hon
  obtain ⟨before, words, hbefore, hne, hparts, htext⟩ := h.exists_words
  obtain ⟨word, name', nick', rfl⟩ := List.length_eq_three.mp hbefore
  obtain ⟨first, rest, rfl⟩ := List.exists_cons_of_ne_nil hne
  rw [hparts] at hname hnick ⊢
  obtain rfl : name' = name := by simpa using hname
  obtain rfl : nick' = nick := by simpa using hnick
  have hreason : Server.kickReason (first :: rest) = text := (appendWords_eq first rest).trans htext
  unfold Server.kick
  simp only [List.cons_append, List.nil_append, hch, hop, htarget, hon, hreason, ne_eq,
    not_true_eq_false, Bool.true_eq_false, if_false]

/-- `QUIT` tells the text behind the first blank. -/
theorem TextFrom.quit (h : TextFrom 1 command text) : QuitTells command text := by
  intro env s client
  obtain ⟨before, words, hbefore, hne, hparts, htext⟩ := h.exists_words
  obtain ⟨word, rfl⟩ := List.length_eq_one_iff.mp hbefore
  obtain ⟨first, rest, rfl⟩ := List.exists_cons_of_ne_nil hne
  have hjoin : appendWords first rest = text := (appendWords_eq first rest).trans htext
  rw [hparts]
  simp [Server.quit, msgMerge, hjoin]

/-- **Free text.**  For every line and every index of one of its words, the words
from there on, joined with spaces, are what follows that many spaces of the line;
and this is the text that each of the handlers takes, without a leading colon in
`PRIVMSG`, `PART` and `USER`. -/
theorem free_text_survives :
    (∀ (line : Str) (k : Nat), k < (Text.cut " ".toList line).length →
      Text.AfterNth ' ' k line (" ".toList.intercalate ((Text.cut " ".toList line).drop k))) ∧
    ∀ command text : Str,
      (TextFrom 2 command text → PrivmsgReads command (dropColon text) ∧
        TopicSets command text ∧ PartTells command (dropColon text)) ∧
      (TextFrom 3 command text → UserStores command (dropColon text) ∧ KickTells command text) ∧
      (TextFrom 1 command text → QuitTells command text) :=
  ⟨fun _ _ => Text.afterNth_intercalate_drop, fun _ _ =>
    ⟨fun h => ⟨h.privmsg, h.topic, h.part⟩, fun h => ⟨h.user, h.kick⟩, fun h => h.quit⟩⟩

/-- The spaces inside and at the end of a message are part of it, and so is its
second colon. -/
theorem free_text_survives_spaces :
    TextFrom 2 "PRIVMSG a ::  b ".toList "::  b ".toList ∧
      PrivmsgReads "PRIVMSG a ::  b ".toList ":  b ".toList ∧
      TopicSets "PRIVMSG a ::  b ".toList "::  b ".toList := by
  have htext : TextFrom 2 "PRIVMSG a ::  b ".toList "::  b ".toList :=
    ⟨by decide, "PRIVMSG a ".toList, by decide, by decide, by decide⟩
  obtain ⟨hreads, htopic, -⟩ := (free_text_survives.2 _ _).1 htext
  exact ⟨htext, hreads, htopic⟩

end Irc
