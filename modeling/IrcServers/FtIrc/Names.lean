import IrcServers.FtIrc.Commands

/-!
# Lines and channel names

`Command::Execute` treats a message as one line when cutting it at its line
breaks gives one piece; the pieces of a longer message are lines of this kind.
A channel name is a trimmed word of such a line, so it contains neither a space
nor a line break.

This decides what the nested `WHO` of a ban does: it is one line again, its
channel is the one that was banned from, and it reaches `Command::execWho`
unless the name is empty or does not start as a channel name.
-/

namespace FtIrc

open Utils Text

/-- What is left by trimming is part of the text. -/
theorem infix_of_trim (s : Str) : trim s <:+: s :=
  (List.rdropWhile_prefix _ _).isInfix.trans (List.dropWhile_suffix _).isInfix

/-- A trimmed text does not start with white space. -/
theorem dropWhile_trim (s : Str) : (trim s).dropWhile isspace = trim s := by
  have hpre : trim s <+: s.dropWhile isspace := List.rdropWhile_prefix _ _
  have hhead : (s.dropWhile isspace).dropWhile isspace = s.dropWhile isspace :=
    List.dropWhile_idempotent isspace s
  cases htrim : trim s with
  | nil => rfl
  | cons c rest =>
      rw [htrim] at hpre
      obtain ⟨more, hmore⟩ := hpre
      have hc : isspace c = false := by
        rw [← hmore] at hhead
        by_contra hspace
        rw [Bool.not_eq_false] at hspace
        rw [List.cons_append, List.dropWhile_cons_of_pos hspace] at hhead
        have hlen := congrArg List.length hhead
        have hle := (List.dropWhile_suffix (l := rest ++ more) isspace).length_le
        simp only [List.length_cons] at hlen
        omega
      exact List.dropWhile_cons_of_neg (by simp [hc])

/-- Trimming again changes nothing. -/
theorem trim_trim (s : Str) : trim (trim s) = trim s := by
  have h : trim (trim s) = (trim s).rdropWhile isspace :=
    congrArg (List.rdropWhile isspace) (dropWhile_trim s)
  rw [h]
  exact List.rdropWhile_idempotent isspace (s.dropWhile isspace)

/-- White space at the end of a text is trimmed away. -/
theorem rdropWhile_append_spaces (s : Str) {tail : Str} (htail : ∀ c ∈ tail, isspace c = true) :
    (s ++ tail).rdropWhile isspace = s.rdropWhile isspace := by
  unfold List.rdropWhile
  rw [List.reverse_append, List.dropWhile_append_of_pos (by simpa using htail)]

/-- White space at the end is trimmed off. -/
theorem trim_append_spaces (s : Str) {tail : Str} (htail : ∀ c ∈ tail, isspace c = true) :
    trim (s ++ tail) = trim s := by
  unfold trim
  rw [List.dropWhile_append]
  split
  · rename_i hempty
    rw [List.isEmpty_iff.mp hempty, List.dropWhile_eq_nil_iff.mpr htail]
  · exact rdropWhile_append_spaces _ htail

/-- A trimmed text starts with the first character that is not white space. -/
theorem head?_trim (s : Str) : (trim s).head? = (s.dropWhile isspace).head? := by
  unfold trim
  cases hdrop : s.dropWhile isspace with
  | nil => rfl
  | cons c rest =>
      have hc : ¬ isspace c = true := by
        have hhead := List.head_dropWhile_not isspace (l := s) (hdrop ▸ List.cons_ne_nil c rest)
        simp only [hdrop, List.head_cons] at hhead
        exact Bool.eq_false_iff.mp hhead
      obtain ⟨more, hmore⟩ := List.rdropWhile_prefix isspace (c :: rest)
      cases hright : (c :: rest).rdropWhile isspace with
      | nil => exact (hc (List.rdropWhile_eq_nil_iff.mp hright c List.mem_cons_self)).elim
      | cons d more' =>
          rw [hright] at hmore
          exact congrArg some (List.cons.inj hmore).1

/-- Only white space is trimmed to nothing. -/
theorem isspace_of_trim_eq_nil {s : Str} (h : trim s = []) : ∀ c ∈ s, isspace c = true := by
  have hhead := head?_trim s
  rw [h, List.head?_nil, eq_comm, List.head?_eq_none_iff] at hhead
  exact List.dropWhile_eq_nil_iff.mp hhead

/-- Trimming from the right keeps a text whose last character is not white
space. -/
theorem rdropWhile_append {a b : Str} (hb : b ≠ []) (htrim : trim b = b) :
    (a ++ b).rdropWhile isspace = a ++ b := by
  have hright : b.rdropWhile isspace = b := by
    have h := List.rdropWhile_idempotent isspace (b.dropWhile isspace)
    rwa [show (b.dropWhile isspace).rdropWhile isspace = b from htrim] at h
  rw [List.rdropWhile_eq_self_iff] at hright ⊢
  intro hne
  rw [List.getLast_append_of_ne_nil _ hb]
  exact hright hb

/-- A word that does not end in white space does not reach into white space at
the end of a text. -/
theorem infix_of_infix_append_spaces {t s tail : Str} (htrim : trim t = t)
    (htail : ∀ c ∈ tail, isspace c = true) (h : t <:+: s ++ tail) : t <:+: s := by
  have hends : ∀ hne : t ≠ [], ¬ isspace (t.getLast hne) = true := by
    have h := List.rdropWhile_idempotent isspace (t.dropWhile isspace)
    rw [show (t.dropWhile isspace).rdropWhile isspace = t from htrim] at h
    exact List.rdropWhile_eq_self_iff.mp h
  rcases List.infix_append_iff.mp h with hs | htl | ⟨a, b, rfl, ha, hb⟩
  · exact hs
  · by_cases hne : t = []
    · exact hne ▸ List.nil_infix
    · exact (hends hne (htail _ (htl.subset (List.getLast_mem hne)))).elim
  · by_cases hne : b = []
    · rw [hne, List.append_nil]
      exact ha.isInfix
    · have hlast := hends (List.append_ne_nil_of_right_ne_nil a hne)
      rw [List.getLast_append_of_ne_nil _ hne] at hlast
      exact (hlast (htail _ (hb.subset (List.getLast_mem hne)))).elim

/-- `Command::Execute` handles the message as a single line. -/
def OneLine (message : Str) : Prop := (split message crlf).length = 1

/-- A text in which no line break is found is a single line. -/
theorem oneLine_of_find {message : Str} (hne : message ≠ []) (h : find crlf message = none) :
    OneLine message := by
  unfold OneLine split
  rw [cutTrim_of_find_none h, if_neg hne]
  rfl

/-- A space keeps two texts from making a line break. -/
theorem noBreak_append_space {a b : Str} (ha : find crlf a = none) (hb : find crlf b = none) :
    find crlf (a ++ ' ' :: b) = none := by
  refine find_eq_none_iff.mpr fun hin => ?_
  rcases List.infix_append_iff.mp hin with hin | hin | ⟨x, y, hcut, hx, hy⟩
  · exact find_eq_none_iff.mp ha hin
  · rcases List.infix_cons_iff.mp hin with hin | hin
    · exact absurd (List.cons_prefix_cons.mp hin).1 (by decide)
    · exact find_eq_none_iff.mp hb hin
  · cases y with
    | nil =>
        rw [List.append_nil] at hcut
        exact find_eq_none_iff.mp ha (hcut ▸ hx.isInfix)
    | cons c y =>
        have hc : c = ' ' := (List.cons_prefix_cons.mp hy).1
        have hin : ' ' ∈ crlf := by
          rw [hcut, hc]
          simp
        exact absurd hin (by decide)

/-- A text without a line break ends at the first one put behind it. -/
theorem find_append_crlf {piece : Str} (h : find crlf piece = none) (rest : Str) :
    find crlf (piece ++ crlf ++ rest) = some piece.length := by
  induction piece with
  | nil => simp [find, crlf]
  | cons c piece ih =>
      have hpre : ¬ crlf <+: c :: piece := by
        intro hprefix
        rw [find, if_pos hprefix] at h
        cases h
      have hnext : ¬ crlf <+: c :: (piece ++ crlf ++ rest) := by
        intro hprefix
        rw [show crlf = ['\r', '\n'] from rfl, List.cons_prefix_cons] at hprefix hpre
        cases piece with
        | nil => simp at hprefix
        | cons d piece =>
            obtain ⟨hc, hd⟩ := hprefix
            rw [List.cons_append, List.cons_append, List.cons_prefix_cons] at hd
            exact hpre ⟨hc, List.cons_prefix_cons.mpr ⟨hd.1, List.nil_prefix⟩⟩
      have hrest : find crlf piece = none := by
        rw [find, if_neg hpre, Option.map_eq_none_iff] at h
        exact h
      rw [List.cons_append, List.cons_append, find, if_neg hnext, ih hrest]
      rfl

/-- The first line of a message is its first piece. -/
theorem split_append_crlf {piece : Str} (h : find crlf piece = none) (rest : Str) :
    split (piece ++ crlf ++ rest) crlf = piece :: split rest crlf := by
  unfold split
  rw [cutTrim_of_find (by decide) (find_append_crlf h rest)]
  simp

/-- A line and its line break are a single line. -/
theorem oneLine_append_crlf {piece : Str} (h : find crlf piece = none) :
    OneLine (piece ++ crlf) := by
  have hsplit := split_append_crlf h []
  rw [List.append_nil] at hsplit
  unfold OneLine
  rw [hsplit]
  rfl

/-- A single line is checked and handed to its handler. -/
theorem OneLine.executeTo {message : Str} (h : OneLine message) (env : Env) (depth : Nat)
    (s : Server) (fd : Fd) :
    executeTo env (depth + 1) s message fd = s.handle env (executeTo env depth) message fd :=
  if_pos h

/-- One line: a text without a line break, possibly ended by one. -/
theorem OneLine.exists_piece {message : Str} (h : OneLine message) :
    ∃ piece, find crlf piece = none ∧ (message = piece ∨ message = piece ++ crlf) := by
  have hcrlf : crlf ≠ [] := by decide
  unfold OneLine split at h
  cases hfind : find crlf message with
  | none => exact ⟨message, hfind, Or.inl rfl⟩
  | some i =>
      refine ⟨message.take i, find_take_of_find hcrlf hfind, Or.inr ?_⟩
      have hsplit := find_eq_some_split hfind
      rw [cutTrim_of_find hcrlf hfind, List.length_cons] at h
      have hrest : message.drop (i + crlf.length) = [] := by
        by_contra hne
        have hpieces := List.length_pos_iff.mpr (cutTrim_ne_nil hcrlf hne)
        omega
      rw [hrest, List.append_nil] at hsplit
      exact hsplit

/-- The lines of a message are single lines. -/
theorem oneLine_of_mem_linesOf {message line : Str} (h : line ∈ linesOf message) :
    OneLine line := by
  simp only [linesOf] at h
  split at h
  · rename_i hone
    rw [List.mem_singleton.mp h]
    exact hone
  · have hmem := (List.takeWhile_prefix _).subset h
    have hne := List.mem_takeWhile_imp h
    exact oneLine_of_find (by simpa using hne) (find_of_mem_cutTrim (by decide) hmem)

/-- A command with parameters contains a space. -/
theorem contains_space_append {command : Str} (h : ' ' ∉ command) (rest : Str) :
    contains space (command ++ ' ' :: rest) = true := by
  have hfind := find_singleton_append (d := ' ') h rest
  simp only [contains, space]
  exact (congrArg Option.isSome hfind).trans rfl

/-- No other character becomes a space in upper case. -/
theorem eq_space_of_toUpper {c : Char} (h : c.toUpper = ' ') : c = ' ' := by
  unfold Char.toUpper at h
  split at h
  · rename_i hlower
    obtain ⟨hlo, hhi⟩ := hlower
    rw [UInt32.le_iff_toNat_le] at hlo hhi
    have hval := congrArg UInt32.toNat (congrArg Char.val h)
    simp only [UInt32.toNat_add] at hval
    have hshift : ('A'.val - 'a'.val).toNat = 2 ^ 32 - 32 := by decide
    have hspace : ' '.val.toNat = 32 := by decide
    have ha : 'a'.val.toNat = 97 := by decide
    have hz : 'z'.val.toNat = 122 := by decide
    rw [hshift, hspace] at hval
    omega
  · exact h

/-- Upper case brings no space. -/
theorem space_not_mem_toUpper {text : Str} (h : ' ' ∉ text) : ' ' ∉ toUpper text := by
  intro hin
  obtain ⟨c, hc, hupper⟩ := List.mem_map.mp hin
  exact h (eq_space_of_toUpper hupper ▸ hc)

/-- The command of a message is its first word. -/
theorem getCommand_append {command : Str} (h : ' ' ∉ command) (rest : Str) :
    Checker.getCommand (command ++ ' ' :: rest) = toUpper command := by
  have hupper : toUpper (command ++ ' ' :: rest) = toUpper command ++ ' ' :: toUpper rest := by
    unfold toUpper
    rw [List.map_append]
    rfl
  have hfind := find_singleton_append (d := ' ') (space_not_mem_toUpper h) (toUpper rest)
  simp only [Checker.getCommand, space]
  rw [hupper, show " ".toList = [' '] from rfl, hfind]
  exact List.take_left

/-- The command of a message is its first word. -/
theorem commandOf_append {command : Str} (h : ' ' ∉ command) (rest : Str) :
    commandOf (command ++ ' ' :: rest) = toUpper command := by
  have hcut : split (command ++ ' ' :: rest) space = command :: split rest space :=
    cutTrim_singleton_append h rest
  unfold commandOf
  rw [if_pos (contains_space_append h rest), hcut]
  rfl

/-- What a channel can be called. -/
structure ChannelName (name : Str) : Prop where
  noSpace : ' ' ∉ name
  noBreak : find crlf name = none
  trimmed : trim name = name

/-- A channel may have the empty name. -/
theorem ChannelName.nil : ChannelName [] := ⟨by simp, by decide, rfl⟩

/-- The second word of a line is a channel name. -/
theorem ChannelName.function {message : Str} (h : OneLine message) :
    ChannelName (Parser.parse message).function := by
  unfold Parser.parse
  split
  · cases hwords : split message space with
    | nil => exact .nil
    | cons command words =>
        cases words with
        | nil => exact .nil
        | cons word words =>
            have hmem : word ∈ cutTrim space message := by
              rw [show cutTrim space message = _ from hwords]
              simp
            have hspace : ' ' ∉ word :=
              find_singleton_eq_none.mp (find_of_mem_cutTrim (by decide) hmem)
            have hpart : trim word <:+: message :=
              (infix_of_trim word).trans (infix_of_mem_cutTrim hmem)
            refine ⟨fun hin => hspace ((infix_of_trim word).subset hin), ?_, trim_trim word⟩
            obtain ⟨piece, hpiece, rfl | rfl⟩ := h.exists_piece
            · exact find_eq_none_iff.mpr fun hin =>
                find_eq_none_iff.mp hpiece (hin.trans hpart)
            · have hspaces : ∀ c ∈ crlf, isspace c = true := by simp [crlf, isspace]
              have hin := infix_of_infix_append_spaces (trim_trim word) hspaces hpart
              exact find_eq_none_iff.mpr fun hbreak =>
                find_eq_none_iff.mp hpiece (hbreak.trans hin)
  · exact .nil

/-- The message by which a ban shows the channel to a member again. -/
def whoMessage (name : Str) : Str := "WHO ".toList ++ name

namespace ChannelName

variable {name : Str}

/-- The nested message is a single line. -/
theorem oneLine_who (h : ChannelName name) : OneLine (whoMessage name) := by
  have hfind : find crlf (whoMessage name) = none := by
    unfold whoMessage
    rw [show crlf = '\r' :: ['\n'] from rfl, find_append_of_not_mem (by decide),
      show find ['\r', '\n'] name = none from h.noBreak]
    rfl
  exact oneLine_of_find (by simp [whoMessage]) hfind

/-- It contains a space. -/
theorem contains_who (name : Str) : contains space (whoMessage name) = true :=
  contains_space_append (show ' ' ∉ "WHO".toList by decide) name

/-- It has two words, or one if the name is empty. -/
theorem split_who (h : ChannelName name) :
    split (whoMessage name) space = "WHO".toList :: if name = [] then [] else [name] := by
  have hcut := cutTrim_singleton_append (d := ' ') (a := "WHO".toList) (by decide) name
  rw [cutTrim_of_find_none (find_singleton_eq_none.mpr h.noSpace)] at hcut
  exact hcut

/-- Its command is `WHO`. -/
theorem commandOf_who (h : ChannelName name) : verbOf (commandOf (whoMessage name)) = .who := by
  unfold commandOf
  rw [if_pos (contains_who name), split_who h, List.headD_cons]
  decide

/-- Its parameter is the name. -/
theorem function_who (h : ChannelName name) :
    (Parser.parse (whoMessage name)).function = name := by
  unfold Parser.parse
  rw [if_pos (contains_who name), split_who h]
  by_cases hname : name = []
  · subst hname
    rfl
  · rw [if_neg hname]
    exact h.trimmed

/-- The checker takes it for a `WHO` too. -/
theorem getCommand_who (name : Str) : verbOf (Checker.getCommand (whoMessage name)) = .who := by
  have hcommand : Checker.getCommand (whoMessage name) = toUpper "WHO".toList :=
    getCommand_append (show ' ' ∉ "WHO".toList by decide) name
  rw [hcommand]
  decide

/-- There is nothing to trim. -/
theorem trim_who (h : ChannelName name) (hname : name ≠ []) :
    trim (whoMessage name) = whoMessage name := by
  have hleft : (whoMessage name).dropWhile isspace = whoMessage name := by
    unfold whoMessage
    exact List.dropWhile_cons_of_neg (by decide)
  unfold trim
  rw [hleft]
  exact rdropWhile_append hname h.trimmed

/-- The checker looks at the name. -/
theorem formatOf_who (h : ChannelName name) (hname : name ≠ []) :
    Checker.formatOf (whoMessage name) = name := by
  unfold Checker.formatOf
  rw [trim_who h hname, split_who h, if_neg hname]
  exact h.trimmed

/-- The check of a nested `WHO`. -/
theorem check_who (h : ChannelName name) (s : Server) (fd : Fd) :
    Checker.check s (whoMessage name) fd =
      if name = [] then Checker.unknownCommand s fd "WHO".toList
      else if name.head? = some '#' then .done s
      else .thrown .onlyChannel s := by
  unfold Checker.check
  by_cases hname : name = []
  · subst hname
    rfl
  · have hspace : contains space name = false := by
      simp [contains, space, find_singleton_eq_none.mpr h.noSpace]
    rw [if_neg hname, trim_who h hname, if_pos (contains_who name), getCommand_who]
    simp only [Checker.formatError, formatOf_who h hname, Checker.checkOnlyChannel, hspace,
      Bool.not_false, Bool.and_true, decide_eq_true_eq]
    by_cases hhead : name.head? = some '#'
    · rw [if_pos hhead, if_pos hhead]
      rfl
    · rw [if_neg hhead, if_neg hhead]

end ChannelName

end FtIrc
