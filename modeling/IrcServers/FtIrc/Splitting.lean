import IrcServers.FtIrc.Names
import IrcServers.While

/-!
# Splitting and trimming

The loops of `Utils::split` and `Utils::trim`, with the positions they go
through.  `split` keeps the text after the last delimiter only if there is some,
so one delimiter is lost when the text ends with one that the scan has found.
`trim` walks from both ends towards the middle and copies what is left between
them; neither its loops nor the copy read a position outside the text.
-/

namespace FtIrc

namespace Utils

/-- One round of the loop of `Utils::split`, with the variables `start` and
`elems`. -/
def splitRound (s delim : Str) : Nat × List Str → Option (Nat × List Str)
  | (start, elems) =>
      (Text.find delim (s.drop start)).map fun length =>
        (start + length + delim.length, elems ++ [(s.drop start).take length])

/-- `Utils::split` after its loop: the rest of the text is kept if there is
one. -/
def splitRest (s : Str) (start : Nat) : List Str :=
  if s.drop start = [] then [] else [s.drop start]

/-- The loop ends: what lies behind `start` becomes shorter by the delimiter in
every round.  Its elements and the rest of the text are the pieces of the cut. -/
theorem ends_splitRound {delim : Str} (hne : delim ≠ []) {n : Nat} (done rest : Str)
    (hlength : rest.length ≤ n) (elems : List Str) :
    ∃ pieces before tail, rest = before ++ tail ∧
      (∀ last, Text.cutWith last delim n rest = pieces ++ last tail) ∧
      While.Ends (splitRound (done ++ rest) delim) (done.length, elems)
        ((done ++ before).length, elems ++ pieces) := by
  induction n generalizing done rest elems with
  | zero =>
      obtain rfl : rest = [] := List.length_eq_zero_iff.mp (by omega)
      have htest : splitRound (done ++ []) delim (done.length, elems) = none := by
        simp [splitRound, Text.find, hne]
      exact ⟨[], [], [], rfl, fun last => rfl, by simpa using While.Ends.stop htest⟩
  | succ n ih =>
      cases hfind : Text.find delim rest with
      | none =>
          have htest : splitRound (done ++ rest) delim (done.length, elems) = none := by
            simp [splitRound, hfind]
          refine ⟨[], [], rest, rfl, fun last => ?_, by simpa using While.Ends.stop htest⟩
          exact Text.cutWith_of_find_none hfind (n + 1)
      | some length =>
          have hpos := List.length_pos_iff.mpr hne
          have hroom := Text.find_eq_some_length hfind
          have hsplit := Text.find_eq_some_split hfind
          obtain ⟨pieces, before, tail, hrest, hcut, hends⟩ :=
            ih (done ++ (rest.take length ++ delim)) (rest.drop (length + delim.length))
              (by rw [List.length_drop]; omega) (elems ++ [rest.take length])
          refine ⟨rest.take length :: pieces, rest.take length ++ delim ++ before, tail,
            ?_, ?_, ?_⟩
          · rw [List.append_assoc, ← hrest]
            exact hsplit
          · intro last
            simp only [Text.cutWith, hfind, hcut, List.cons_append]
          · have htake : (rest.take length).length = length := List.length_take_of_le (by omega)
            have hround : splitRound (done ++ rest) delim (done.length, elems) =
                some ((done ++ (rest.take length ++ delim)).length,
                  elems ++ [rest.take length]) := by
              simp [splitRound, hfind, htake, Nat.add_assoc]
            refine .round hround ?_
            rw [List.append_assoc, ← hsplit] at hends
            simpa using hends

/-- The last piece is kept when it is not empty. -/
theorem intercalate_append_singleton {delim tail : Str} {pieces : List Str} (hne : pieces ≠ []) :
    delim.intercalate (pieces ++ [tail]) = delim.intercalate pieces ++ delim ++ tail := by
  induction pieces with
  | nil => exact (hne rfl).elim
  | cons piece pieces ih =>
      by_cases hrest : pieces = []
      · subst hrest
        simp [List.intercalate_cons_cons]
      · rw [List.cons_append, Text.intercalate_cons (by simp), ih hrest,
          Text.intercalate_cons hrest]
        simp

/-- **Split.**  The loop ends within the text.  No element contains the delimiter,
and joined with it the elements are the text, without its last delimiter when the
scan ends right behind a match. -/
theorem split_joins (s : Str) {delim : Str} (hne : delim ≠ []) :
    ∃ start elems, While.Ends (splitRound s delim) (0, []) (start, elems) ∧ start ≤ s.length ∧
      split s delim = elems ++ splitRest s start ∧
      (∀ elem ∈ split s delim, ¬ delim <:+: elem) ∧
      s = delim.intercalate (split s delim) ++
        (if elems ≠ [] ∧ start = s.length then delim else []) := by
  obtain ⟨pieces, before, tail, hs, hcut, hends⟩ :=
    ends_splitRound hne [] s (Nat.le_refl s.length) []
  have hlength := congrArg List.length hs
  rw [List.length_append] at hlength
  have hdrop : s.drop before.length = tail := by
    rw [hs, List.drop_left]
  have hsplit : split s delim = pieces ++ splitRest s before.length := by
    unfold splitRest
    rw [hdrop]
    exact hcut _
  have hjoin : delim.intercalate (pieces ++ [tail]) = s := by
    rw [← hcut fun rest => [rest]]
    exact Text.intercalate_cutWith_keep delim s.length s
  refine ⟨before.length, pieces, by simpa using hends, by omega, hsplit, ?_, ?_⟩
  · intro elem helem
    exact Text.find_eq_none_iff.mp (Text.find_of_mem_cutTrim hne helem)
  · rw [hsplit]
    unfold splitRest
    rw [hdrop]
    by_cases htail : tail = []
    · subst htail
      rw [if_pos rfl, List.append_nil]
      by_cases hpieces : pieces = []
      · subst hpieces
        simpa using hjoin.symm
      · rw [if_pos ⟨hpieces, by simpa using hlength.symm⟩, ← hjoin,
          intercalate_append_singleton hpieces, List.append_nil]
    · have hpos := List.length_pos_iff.mpr htail
      rw [if_neg htail, if_neg (fun hend => by omega), hjoin, List.append_nil]

/-- Where `Utils::trim` stands: in its first loop, in its second one, or at a
`return`. -/
inductive TrimPoint where
  | skipping
  | backing
  | returned (text : Str)

/-- The iterators of `Utils::trim` as positions, and the positions it has read. -/
structure Trimming where
  start : Nat
  stop : Nat
  reads : List Nat
  point : TrimPoint

/-- One round of a loop of `Utils::trim`, or one `return`.  A position outside
the text would be read without effect, but recorded.  The string that is returned
is built from all positions between the two iterators, which counts as reading
them. -/
def trimRound (s : Str) (v : Trimming) : Option Trimming :=
  match v.point with
  | .skipping =>
      if v.start = v.stop then some { v with point := .returned [] }
      else if s[v.start]?.any isspace then
        some { v with start := v.start + 1, reads := v.reads ++ [v.start] }
      else some { v with reads := v.reads ++ [v.start], point := .backing }
  | .backing =>
      let stop := v.stop - 1
      let copied := List.range' v.start (stop + 1 - v.start)
      let text := (s.drop v.start).take (stop + 1 - v.start)
      if v.start < stop then
        if s[stop]?.any isspace then some { v with stop := stop, reads := v.reads ++ [stop] }
        else some {
          v with stop := stop, reads := v.reads ++ [stop] ++ copied, point := .returned text }
      else some { v with stop := stop, reads := v.reads ++ copied, point := .returned text }
  | .returned _ => none

/-- The loops of `Utils::trim` end from `v` on, return `text` and read only
positions of `s`. -/
def TrimEnds (s : Str) (v : Trimming) (text : Str) : Prop :=
  ∃ v', While.Ends (trimRound s) v v' ∧ v'.point = .returned text ∧
    ∀ i ∈ v'.reads, i < s.length

/-- A round more in front of a run that ends. -/
theorem TrimEnds.round {s text : Str} {v next : Trimming} (hround : trimRound s v = some next)
    (h : TrimEnds s next text) : TrimEnds s v text := by
  obtain ⟨v', hends, hv'⟩ := h
  exact ⟨v', .round hround hends, hv'⟩

/-- The `return` itself. -/
theorem trimEnds_returned {s text : Str} {v : Trimming} (hpoint : v.point = .returned text)
    (hreads : ∀ i ∈ v.reads, i < s.length) : TrimEnds s v text :=
  ⟨v, .stop (by simp [trimRound, hpoint]), hpoint, hreads⟩

/-- What the constructor copies lies within the text. -/
theorem copied_in_text {s : Str} {reads : List Nat} {start count : Nat}
    (hreads : ∀ i ∈ reads, i < s.length) (hcount : start + count ≤ s.length) :
    ∀ i ∈ reads ++ List.range' start count, i < s.length := by
  refine List.forall_mem_append.mpr ⟨hreads, fun i hi => ?_⟩
  have hi := (List.mem_range'_1.mp hi).2
  omega

/-- The second loop, which starts behind a character that is not white space. -/
theorem trimEnds_backing (before middle after : Str) {c : Char} (hc : isspace c = false)
    (reads : List Nat) (hreads : ∀ i ∈ reads, i < (before ++ (c :: middle ++ after)).length) :
    TrimEnds (before ++ (c :: middle ++ after))
      ⟨before.length, before.length + (c :: middle).length, reads, .backing⟩
      ((c :: middle).rdropWhile isspace) := by
  induction middle using List.reverseRecOn generalizing after reads with
  | nil =>
      have hround : trimRound (before ++ ([c] ++ after))
          ⟨before.length, before.length + [c].length, reads, .backing⟩ =
          some ⟨before.length, before.length, reads ++ List.range' before.length 1,
            .returned [c]⟩ := by
        simp [trimRound]
      rw [List.rdropWhile_singleton, hc]
      exact .round hround (trimEnds_returned rfl (copied_in_text hreads (by simp)))
  | append_singleton middle x ih =>
      have hin : ∀ i ∈ reads ++ [before.length + (c :: middle).length],
          i < (before ++ (c :: (middle ++ [x]) ++ after)).length :=
        List.forall_mem_append.mpr ⟨hreads, List.forall_mem_singleton.mpr (by simp)⟩
      rw [← List.cons_append]
      by_cases hx : isspace x = true
      · rw [List.rdropWhile_concat_pos _ _ _ hx]
        have hround : trimRound (before ++ (c :: (middle ++ [x]) ++ after))
            ⟨before.length, before.length + (c :: (middle ++ [x])).length, reads, .backing⟩ =
            some ⟨before.length, before.length + (c :: middle).length,
              reads ++ [before.length + (c :: middle).length], .backing⟩ := by
          simp [trimRound, hx]
        have hrest := ih (x :: after) (reads ++ [before.length + (c :: middle).length])
          (by simpa using hin)
        exact .round hround (by simpa using hrest)
      · rw [List.rdropWhile_concat_neg _ _ _ hx]
        have hround : trimRound (before ++ (c :: (middle ++ [x]) ++ after))
            ⟨before.length, before.length + (c :: (middle ++ [x])).length, reads, .backing⟩ =
            some ⟨before.length, before.length + (c :: middle).length,
              reads ++ [before.length + (c :: middle).length] ++
                List.range' before.length (c :: (middle ++ [x])).length,
              .returned (c :: middle ++ [x])⟩ := by
          have hcount : before.length + (middle.length + 1) + 1 - before.length =
              middle.length + 1 + 1 := by omega
          have htext : (middle ++ x :: after).take (middle.length + 1) = middle ++ [x] := by
            rw [List.take_length_add_append]
            rfl
          simp [trimRound, hx, hcount, htext]
        exact .round hround (trimEnds_returned rfl (copied_in_text hin (by simp)))

/-- The first loop. -/
theorem trimEnds_skipping (before rest : Str) (reads : List Nat)
    (hreads : ∀ i ∈ reads, i < (before ++ rest).length) :
    TrimEnds (before ++ rest)
      ⟨before.length, before.length + rest.length, reads, .skipping⟩ (trim rest) := by
  induction rest generalizing before reads with
  | nil =>
      have hround : trimRound (before ++ [])
          ⟨before.length, before.length, reads, .skipping⟩ =
          some ⟨before.length, before.length, reads, .returned []⟩ := by
        simp [trimRound]
      exact .round hround (trimEnds_returned rfl hreads)
  | cons c rest ih =>
      have hin : ∀ i ∈ reads ++ [before.length], i < (before ++ c :: rest).length :=
        List.forall_mem_append.mpr ⟨hreads, List.forall_mem_singleton.mpr (by simp)⟩
      by_cases hc : isspace c = true
      · have hround : trimRound (before ++ c :: rest)
            ⟨before.length, before.length + (c :: rest).length, reads, .skipping⟩ =
            some ⟨before.length + 1, before.length + (c :: rest).length,
              reads ++ [before.length], .skipping⟩ := by
          simp [trimRound, hc]
        have hrest := ih (before ++ [c]) (reads ++ [before.length]) (by simpa using hin)
        have htrim : trim (c :: rest) = trim rest := by simp [trim, hc]
        rw [htrim]
        exact .round hround (by simpa [Nat.add_assoc, Nat.add_comm 1] using hrest)
      · have hround : trimRound (before ++ c :: rest)
            ⟨before.length, before.length + (c :: rest).length, reads, .skipping⟩ =
            some ⟨before.length, before.length + (c :: rest).length,
              reads ++ [before.length], .backing⟩ := by
          simp [trimRound, hc]
        have htrim : trim (c :: rest) = (c :: rest).rdropWhile isspace := by simp [trim, hc]
        have hrest := trimEnds_backing before rest [] (Bool.eq_false_iff.mpr hc)
          (reads ++ [before.length]) (by simpa using hin)
        rw [htrim]
        exact .round hround (by simpa using hrest)

/-- The iterators at the start of `Utils::trim`. -/
def Trimming.initial (s : Str) : Trimming where
  start := 0
  stop := s.length
  reads := []
  point := .skipping

/-- The loops of `Utils::trim` end with the trimmed text. -/
theorem trimEnds (s : Str) : TrimEnds s (.initial s) (trim s) := by
  have hends := trimEnds_skipping [] s [] (by simp)
  simpa [Trimming.initial] using hends

/-- A text is its trimmed part with white space around it. -/
theorem exists_eq_append_trim (s : Str) : ∃ u v, s = u ++ trim s ++ v ∧
    (∀ c ∈ u, isspace c = true) ∧ ∀ c ∈ v, isspace c = true := by
  refine ⟨s.takeWhile isspace, (s.dropWhile isspace).rtakeWhile isspace, ?_, ?_, ?_⟩
  · unfold trim
    rw [List.append_assoc, List.rdropWhile_append_rtakeWhile, List.takeWhile_append_dropWhile]
  · intro c hc
    exact List.mem_takeWhile_imp hc
  · intro c hc
    exact List.mem_rtakeWhile_imp hc

/-- The trimmed text starts with no white space. -/
theorem head?_trim_not_space {s : Str} {c : Char} (h : (trim s).head? = some c) :
    isspace c = false := by
  rw [head?_trim] at h
  have hne : s.dropWhile isspace ≠ [] := by
    intro hnil
    rw [hnil] at h
    cases h
  have hhead := List.head_dropWhile_not isspace hne
  rw [List.head?_eq_some_head hne, Option.some.injEq] at h
  rwa [h] at hhead

/-- Nor does it end with any. -/
theorem getLast?_trim_not_space {s : Str} {c : Char} (h : (trim s).getLast? = some c) :
    isspace c = false := by
  have hne : trim s ≠ [] := by
    intro hnil
    rw [hnil] at h
    cases h
  have hlast := List.rdropWhile_last_not isspace (s.dropWhile isspace) hne
  rw [List.getLast?_eq_some_getLast hne, Option.some.injEq] at h
  rw [← h]
  exact Bool.eq_false_iff.mpr hlast

/-- **Split and trim.**  For a delimiter that is not empty, the loop of `split` ends,
no element contains the delimiter, and the elements joined with it are the text,
but for one delimiter at its end when the scan ends right behind a match.  The
loops of `trim` end, and they and the copy that is returned read only characters of
the text; a text is its trimmed part with white space before and behind it, which
starts and ends with other characters unless it is empty, and is not changed by
trimming it again. -/
theorem split_and_trim :
    (∀ s delim : Str, delim ≠ [] →
      ∃ start elems, While.Ends (splitRound s delim) (0, []) (start, elems) ∧ start ≤ s.length ∧
        split s delim = elems ++ splitRest s start ∧
        (∀ elem ∈ split s delim, ¬ delim <:+: elem) ∧
        s = delim.intercalate (split s delim) ++
          (if elems ≠ [] ∧ start = s.length then delim else [])) ∧
    ∀ s : Str,
      TrimEnds s (.initial s) (trim s) ∧
      (∃ u v, s = u ++ trim s ++ v ∧ (∀ c ∈ u, isspace c = true) ∧ ∀ c ∈ v, isspace c = true) ∧
      (∀ c, (trim s).head? = some c → isspace c = false) ∧
      (∀ c, (trim s).getLast? = some c → isspace c = false) ∧
      trim (trim s) = trim s :=
  ⟨fun s _ hne => split_joins s hne, fun s => ⟨trimEnds s, exists_eq_append_trim s,
    fun _ => head?_trim_not_space, fun _ => getLast?_trim_not_space, trim_trim s⟩⟩

/-- A text that ends with a delimiter loses it, and only it; the white space that
`trim` takes off is read, the blank in the middle is kept. -/
theorem split_and_trim_comma :
    split ",a,,".toList ",".toList = ["".toList, "a".toList, "".toList] ∧
      ∃ start elems, While.Ends (splitRound ",a,,".toList ",".toList) (0, []) (start, elems) ∧
        ",a,,".toList = ",".toList.intercalate (split ",a,,".toList ",".toList) ++
          (if elems ≠ [] ∧ start = 4 then ",".toList else []) ∧
      trim " \ta b \r\n".toList = "a b".toList ∧
      TrimEnds " \ta b \r\n".toList (.initial " \ta b \r\n".toList) "a b".toList := by
  obtain ⟨start, elems, hends, -, -, -, hjoin⟩ :=
    split_and_trim.1 ",a,,".toList ",".toList (by decide)
  have htrim : trim " \ta b \r\n".toList = "a b".toList := by decide
  have hwalk := (split_and_trim.2 " \ta b \r\n".toList).1
  rw [htrim] at hwalk
  exact ⟨by decide, start, elems, hends, hjoin, htrim, hwalk⟩

end Utils

end FtIrc
