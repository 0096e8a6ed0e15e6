import IrcServers.Irc.Loop
import IrcServers.Masking
import IrcServers.While

/-!
# What the bot censors

`censorMessage` replaces one word after the other, each time in the text that
the words before it have left.  Its inner loop searches on from where it has
replaced last, so for one word it cuts the text at the word and joins the pieces
with asterisks.  Since no word contains an asterisk, the whole masks the words.

The bot gets the sender and the text in one string, with a `!` between them,
and takes them apart at the first `!`.
-/

namespace Irc

/-- One round of the inner loop of `censorMessage`, with the variables `pos` and
`censoredMessage`. -/
def censorRound (word : Str) : Nat × Str → Option (Nat × Str)
  | (pos, censored) =>
      (Text.find word (censored.drop pos)).map fun offset =>
        (pos + offset + word.length,
          censored.take (pos + offset) ++ List.replicate word.length '*' ++
            censored.drop (pos + offset + word.length))

/-- The loops of `censorMessage` end, and leave `result`. -/
inductive CensorEnds : List Str → Str → Str → Prop
  | nil (message : Str) : CensorEnds [] message message
  | cons {word : Str} {words : List Str} {message censored result : Str} {pos : Nat}
      (inner : While.Ends (censorRound word) (0, message) (pos, censored))
      (outer : CensorEnds words censored result) : CensorEnds (word :: words) message result

/-- For one word, censoring is cutting and joining. -/
theorem censorWord_eq_intercalate (word : Str) (n : Nat) (message : Str) :
    censorWord word n message = (List.replicate word.length '*').intercalate
      (Text.cutWith (fun rest => [rest]) word n message) := by
  induction n generalizing message with
  | zero => simp [censorWord, Text.cutWith]
  | succ n ih =>
      cases hfind : Text.find word message with
      | none => simp [censorWord, Text.cutWith, hfind]
      | some pos =>
          simp only [censorWord, Text.cutWith, hfind]
          rw [Text.intercalate_cons (Text.cutWith_keep_ne_nil word n _), ih]

/-- Masking one word replaces it wherever it stands, and nothing else. -/
theorem masks_censorWord {word : Str} (hne : word ≠ []) (hstar : '*' ∉ word) (message : Str) :
    Text.Masks '*' [word] message (censorWord word message.length message) := by
  have hpieces : ∀ piece ∈ Text.cut word message, ¬ word <:+: piece := fun piece hpiece =>
    Text.find_eq_none_iff.mp (Text.find_of_mem_cut hne hpiece)
  have hmasks := Text.masks_intercalate hne hstar hpieces
  rw [censorWord_eq_intercalate]
  rwa [show word.intercalate (Text.cut word message) = message from
    Text.intercalate_cutWith_keep word message.length message] at hmasks

/-- A round of the inner loop, with the text before the search position set
apart. -/
theorem censorRound_of_find {word rest : Str} {offset : Nat}
    (hfind : Text.find word rest = some offset) (done : Str) :
    censorRound word (done.length, done ++ rest) =
      some ((done ++ (rest.take offset ++ List.replicate word.length '*')).length,
        done ++ (rest.take offset ++ List.replicate word.length '*') ++
          rest.drop (offset + word.length)) := by
  have hroom := Text.find_eq_some_length hfind
  have hlength : (rest.take offset).length = offset := List.length_take_of_le (by omega)
  simp [censorRound, hfind, hlength, List.take_length_add_append, List.drop_length_add_append,
    Nat.add_assoc]

/-- The inner loop ends: what lies behind the search position becomes shorter by
the word in every round. -/
theorem ends_censorRound {word : Str} (hne : word ≠ []) {n : Nat} (done rest : Str)
    (hlength : rest.length ≤ n) :
    ∃ pos, While.Ends (censorRound word) (done.length, done ++ rest)
      (pos, done ++ censorWord word n rest) := by
  induction n generalizing done rest with
  | zero =>
      obtain rfl : rest = [] := List.length_eq_zero_iff.mp (by omega)
      exact ⟨done.length, .stop (by simp [censorRound, Text.find, hne])⟩
  | succ n ih =>
      cases hfind : Text.find word rest with
      | none =>
          simp only [censorWord, hfind]
          exact ⟨done.length, .stop (by simp [censorRound, hfind])⟩
      | some offset =>
          have hpos := List.length_pos_iff.mpr hne
          obtain ⟨pos, hends⟩ := ih
            (done ++ (rest.take offset ++ List.replicate word.length '*'))
            (rest.drop (offset + word.length)) (by rw [List.length_drop]; omega)
          refine ⟨pos, .round (censorRound_of_find hfind done) ?_⟩
          simpa [censorWord, hfind] using hends

/-- The loops end with a word masked after the other. -/
theorem censorEnds {words : List Str} (hne : ∀ word ∈ words, word ≠ []) (message : Str) :
    CensorEnds words message (censorMessage message words) := by
  unfold censorMessage
  induction words generalizing message with
  | nil => exact .nil message
  | cons word words ih =>
      obtain ⟨pos, hinner⟩ := ends_censorRound (hne word List.mem_cons_self) [] message
        (Nat.le_refl message.length)
      exact .cons hinner (ih (fun later hlater => hne later (List.mem_cons_of_mem word hlater)) _)

/-- **Censoring masks the words**, whatever the words before have done to the
text. -/
theorem masks_censorMessage {words : List Str} (hne : ∀ word ∈ words, word ≠ [])
    (hstar : ∀ word ∈ words, '*' ∉ word) (message : Str) :
    Text.Masks '*' words message (censorMessage message words) := by
  unfold censorMessage
  induction words generalizing message with
  | nil => exact .nil '*' message
  | cons word words ih =>
      have hfirst := masks_censorWord (hne word List.mem_cons_self)
        (hstar word List.mem_cons_self) message
      have hlater := ih (fun later hlater => hne later (List.mem_cons_of_mem word hlater))
        (fun later hlater => hstar later (List.mem_cons_of_mem word hlater))
        (censorWord word message.length message)
      exact hfirst.append hlater hstar

/-- **The censored message.**  The loops end with a text of the same length that
contains no word of the list.  It differs from the message only inside
occurrences of these words, and there by asterisks; it is the message just when
no word is in it, and it is not changed by censoring it again. -/
theorem censorMessage_masks (message : Str) (words : List Str)
    (hwords : ∀ word ∈ words, word ≠ [] ∧ '*' ∉ word) :
    CensorEnds words message (censorMessage message words) ∧
    (censorMessage message words).length = message.length ∧
    (∀ word ∈ words, ¬ word <:+: censorMessage message words) ∧
    (∀ i : Nat, (∀ word ∈ words, ¬ Text.Inside word message i) →
      (censorMessage message words)[i]? = message[i]?) ∧
    (∀ i : Nat, (censorMessage message words)[i]? ≠ message[i]? →
      (censorMessage message words)[i]? = some '*') ∧
    (censorMessage message words = message ↔ ∀ word ∈ words, ¬ word <:+: message) ∧
    censorMessage (censorMessage message words) words = censorMessage message words := by
  have hne : ∀ word ∈ words, word ≠ [] := fun word hword => (hwords word hword).1
  have hstar : ∀ word ∈ words, '*' ∉ word := fun word hword => (hwords word hword).2
  have hmasks := masks_censorMessage hne hstar message
  refine ⟨censorEnds hne message, hmasks.length_eq, hmasks.clean, ?_, ?_, hmasks.eq_iff, ?_⟩
  · intro i houtside
    by_contra hchanged
    obtain ⟨-, word, hword, hinside⟩ := hmasks.changed i hchanged
    exact houtside word hword hinside
  · intro i hchanged
    exact (hmasks.changed i hchanged).1
  · exact (masks_censorMessage hne hstar _).eq_iff.mpr hmasks.clean

/-- Two words that overlap, and a third one. -/
theorem censorMessage_masks_overlap :
    (∀ word ∈ ["ab".toList, "bc".toList, "d".toList], word ≠ [] ∧ '*' ∉ word) ∧
      censorMessage "abcd".toList ["ab".toList, "bc".toList, "d".toList] = "**c*".toList ∧
      censorMessage "**c*".toList ["ab".toList, "bc".toList, "d".toList] = "**c*".toList := by
  have hwords : ∀ word ∈ ["ab".toList, "bc".toList, "d".toList], word ≠ [] ∧ '*' ∉ word := by
    decide
  have hcensored :
      censorMessage "abcd".toList ["ab".toList, "bc".toList, "d".toList] = "**c*".toList := by
    decide
  obtain ⟨-, -, -, -, -, -, hagain⟩ := censorMessage_masks "abcd".toList _ hwords
  rw [hcensored] at hagain
  exact ⟨hwords, hcensored, hagain⟩

namespace Server

variable {s : Server} {now nick text : Str}

/-- The bot sees the sender `nick` and the text `text` of a message as they are:
it returns the censored text and answers `nick`, and the censored text is what a
client of that name relays. -/
structure BotSees (s : Server) (now nick text : Str) : Prop where
  censors : (s.processMessage now (nick ++ "!".toList ++ text)).2 = censorMessage text blacklist
  answers : s.BotTold nick (s.processMessage now (nick ++ "!".toList ++ text)).1
  relays : ∀ client words, s.nickOf client = nick → nick ≠ botNick →
    dropColon (mergePrivmsg words " ".toList) = text →
    (s.privmsgText now client words).2 = censorMessage text blacklist

/-- Masking keeps the length of the text. -/
theorem censorMessage_length (message : Str) :
    (censorMessage message blacklist).length = message.length :=
  (masks_censorMessage (by decide) (by decide) message).length_eq

/-- Sender and text are unpacked as they were packed if the sender has no `!`. -/
theorem unpackMessage_of_not_mem (h : '!' ∉ nick) (text : Str) :
    unpackMessage (nick ++ "!".toList ++ text) = (nick, text) := by
  have hfind : Text.find ['!'] (nick ++ '!' :: text) = some nick.length :=
    Text.find_singleton_append h text
  simp [unpackMessage, hfind]

/-- A nickname without a `!` is read as it is. -/
theorem botSees_of_not_mem (h : '!' ∉ nick) : s.BotSees now nick text := by
  have hne : nick ++ "!".toList ++ text ≠ [] := by simp
  have hunpack := unpackMessage_of_not_mem h text
  have hcensors : (s.processMessage now (nick ++ "!".toList ++ text)).2 =
      censorMessage text blacklist := by
    rw [s.processMessage_text now hne, hunpack]
  refine ⟨hcensors, ?_, ?_⟩
  · have htold := s.processMessage_botTold now (nick ++ "!".toList ++ text)
    rwa [hunpack] at htold
  · intro client words hclient hbot htext
    unfold privmsgText
    rw [hclient, htext, if_pos hbot]
    exact hcensors

/-- With a `!` in the sender, the text that is censored begins in the sender's
name, and is longer than the text. -/
theorem not_mem_of_botSees (h : s.BotSees now nick text) : '!' ∉ nick := by
  intro hmem
  obtain ⟨before, after, rfl, hbefore⟩ := List.eq_append_cons_of_mem hmem
  have hcensors := h.censors
  have hmessage : before ++ '!' :: after ++ "!".toList ++ text =
      before ++ "!".toList ++ (after ++ "!".toList ++ text) := by simp
  rw [hmessage, s.processMessage_text now (by simp), unpackMessage_of_not_mem hbefore] at hcensors
  have hlength := congrArg List.length hcensors
  rw [censorMessage_length, censorMessage_length] at hlength
  simp at hlength
  omega

/-- **Sender and text.**  For every nickname and every text, the bot sees both
as they are if and only if the nickname contains no `!`. -/
theorem botSees_iff (s : Server) (now nick text : Str) :
    s.BotSees now nick text ↔ '!' ∉ nick :=
  ⟨not_mem_of_botSees, botSees_of_not_mem⟩

end Server

/-- A client registers a nickname with a `!` in it. -/
theorem bang_in_nickname : ¬ ∀ trace w client now text, Steps trace w → w.srv.Live client →
    (w.srv.memory client).hasNick = true →
    w.srv.BotSees now (w.srv.nickOf client) text := by
  intro hall
  obtain ⟨trace, w, run, htest⟩ := Run.exists_steps_of_perform step start_pw
    (.accept 5 "h".toList 1 :: packet 5 ["PASS pw", "NICK a!b"])
    (fun w => w.srv.Live 0 ∧ (w.srv.memory 0).hasNick = true ∧
      w.srv.nickOf 0 = "a!b".toList) (by decide +kernel)
  obtain ⟨hlive, hnick, hname⟩ := of_decide_eq_true htest
  have hsees := hall trace w 0 [] "hi".toList run hlive hnick
  rw [hname] at hsees
  exact Server.not_mem_of_botSees hsees (by decide)

end Irc
