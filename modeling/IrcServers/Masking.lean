import IrcServers.Text

/-!
# Masking words in a text

Some characters of a text are overwritten with a fill character, so that none
of the given words is left and only characters of such words are lost.  The
words do not contain the fill character; therefore an occurrence found in the
masked text was there before, and masking can be done one word at a time.

For one word it is done by cutting the text at the word and joining the pieces
with fill characters.
-/

namespace Text

variable {α : Type*} {fill : α} {word : List α} {words words' : List (List α)}
  {text middle result : List α}

/-- Position `i` of the text lies inside an occurrence of the word. -/
def Inside (word text : List α) (i : Nat) : Prop :=
  ∃ k, word <+: text.drop k ∧ k ≤ i ∧ i < k + word.length

/-- `result` is `text` with the `words` masked by `fill`. -/
structure Masks (fill : α) (words : List (List α)) (text result : List α) : Prop where
  length_eq : result.length = text.length
  changed : ∀ i : Nat, result[i]? ≠ text[i]? →
    result[i]? = some fill ∧ ∃ word ∈ words, Inside word text i
  clean : ∀ word ∈ words, ¬ word <:+: result

/-- A word found behind a position is part of the text. -/
theorem infix_of_prefix_drop {k : Nat} (h : word <+: text.drop k) : word <:+: text :=
  h.isInfix.trans (List.drop_suffix k text).isInfix

/-- Without words nothing is masked. -/
theorem Masks.nil (fill : α) (text : List α) : Masks fill [] text text where
  length_eq := rfl
  changed i h := (h rfl).elim
  clean := by simp

/-- **Masking adds no occurrences.**  A word without the fill character that
starts at a position of the masked text starts there in the text. -/
theorem Masks.prefix_drop (h : Masks fill words text result) (hfill : fill ∉ word) {k : Nat}
    (hword : word <+: result.drop k) : word <+: text.drop k := by
  rw [List.prefix_iff_getElem?] at hword ⊢
  intro i hi
  have hresult := hword i hi
  rw [List.getElem?_drop] at hresult ⊢
  by_contra hne
  have hchanged := h.changed (k + i) (by rw [hresult]; exact fun heq => hne heq.symm)
  have heq : word[i] = fill := Option.some.inj (hresult.symm.trans hchanged.1)
  exact hfill (heq ▸ List.getElem_mem hi)

/-- A word without the filler is in the masked text only if it was in the text. -/
theorem Masks.of_infix (h : Masks fill words text result) (hfill : fill ∉ word)
    (hword : word <:+: result) : word <:+: text := by
  obtain ⟨before, after, heq⟩ := hword
  have hstart : word <+: result.drop before.length := by
    rw [← heq, List.append_assoc, List.drop_left]
    exact List.prefix_append word after
  exact infix_of_prefix_drop (h.prefix_drop hfill hstart)

/-- **Masking step by step.**  Further words are masked in the masked text. -/
theorem Masks.append (h : Masks fill words text middle) (h' : Masks fill words' middle result)
    (hfill : ∀ word ∈ words ++ words', fill ∉ word) :
    Masks fill (words ++ words') text result where
  length_eq := h'.length_eq.trans h.length_eq
  changed i hne := by
    by_cases hmiddle : middle[i]? = text[i]?
    · obtain ⟨hvalue, word, hword, k, hstart, hk⟩ := h'.changed i (by rwa [hmiddle])
      have hin : word ∈ words ++ words' := List.mem_append_right words hword
      exact ⟨hvalue, word, hin, k, h.prefix_drop (hfill word hin) hstart, hk⟩
    · obtain ⟨hvalue, word, hword, hinside⟩ := h.changed i hmiddle
      refine ⟨?_, word, List.mem_append_left words' hword, hinside⟩
      by_cases hsame : result[i]? = middle[i]?
      · rw [hsame, hvalue]
      · exact (h'.changed i hsame).1
  clean word hword hin := by
    rcases List.mem_append.mp hword with hold | hnew
    · exact h.clean word hold (h'.of_infix (hfill word hword) hin)
    · exact h'.clean word hnew hin

/-- Masking changes a text just when one of the words is in it. -/
theorem Masks.eq_iff (h : Masks fill words text result) :
    result = text ↔ ∀ word ∈ words, ¬ word <:+: text := by
  constructor
  · intro heq word hword
    rw [← heq]
    exact h.clean word hword
  · intro hnone
    apply List.ext_getElem?
    intro i
    by_contra hne
    obtain ⟨-, word, hword, k, hstart, -⟩ := h.changed i hne
    exact hnone word hword (infix_of_prefix_drop hstart)

/-- What a text that goes on with the fill character starts with, if it does not
contain that character, is empty. -/
theorem eq_nil_of_prefix_cons {after : List α} (hfill : fill ∉ word)
    (h : word <+: fill :: after) : word = [] := by
  cases word with
  | nil => rfl
  | cons c rest =>
      obtain ⟨tail, htail⟩ := h
      obtain rfl : c = fill := (List.cons.inj htail).1
      exact (hfill List.mem_cons_self).elim

/-- A word without the fill character does not reach across one. -/
theorem infix_of_infix_cons {before after : List α} (hfill : fill ∉ word)
    (h : word <:+: before ++ fill :: after) : word <:+: before ∨ word <:+: after := by
  rcases List.infix_append_iff.mp h with hbefore | hafter | ⟨u, v, rfl, hu, hv⟩
  · exact Or.inl hbefore
  · rcases List.infix_cons_iff.mp hafter with hprefix | hrest
    · exact Or.inl (eq_nil_of_prefix_cons hfill hprefix ▸ List.nil_infix)
    · exact Or.inr hrest
  · obtain rfl := eq_nil_of_prefix_cons (fun hv => hfill (List.mem_append_right u hv)) hv
    rw [List.append_nil]
    exact Or.inl hu.isInfix

/-- A word without the filler lies on one side of a run of fillers. -/
theorem infix_of_infix_replicate (before : List α) {after : List α} {n : Nat} (hfill : fill ∉ word)
    (h : word <:+: before ++ List.replicate (n + 1) fill ++ after) :
    word <:+: before ∨ word <:+: after := by
  induction n generalizing before with
  | zero =>
      rw [List.append_assoc] at h
      exact infix_of_infix_cons hfill h
  | succ n ih =>
      rw [List.append_assoc, List.replicate_succ, List.cons_append] at h
      rcases infix_of_infix_cons hfill h with hbefore | hrest
      · exact Or.inl hbefore
      · rcases ih [] (by simpa using hrest) with hnil | hafter
        · exact Or.inl (List.infix_nil.mp hnil ▸ List.nil_infix)
        · exact Or.inr hafter

/-- A piece, the word and a rest that is masked: the word is inside itself. -/
theorem Masks.cons_piece {piece rest masked : List α} (hne : word ≠ []) (hfill : fill ∉ word)
    (hpiece : ¬ word <:+: piece) (h : Masks fill [word] rest masked) :
    Masks fill [word] (piece ++ word ++ rest)
      (piece ++ List.replicate word.length fill ++ masked) where
  length_eq := by simp [h.length_eq]
  changed i hchanged := by
    by_cases hbefore : i < piece.length
    · simp [List.append_assoc, List.getElem?_append_left hbefore] at hchanged
    · by_cases hin : i < piece.length + word.length
      · refine ⟨?_, word, List.mem_singleton_self word, piece.length, ?_, by omega, hin⟩
        · rw [List.getElem?_append_left (by simpa using hin),
            List.getElem?_append_right (by omega), List.getElem?_replicate,
            if_pos (by omega)]
        · simp [List.append_assoc]
      · have hrest : masked[i - (piece.length + word.length)]? ≠
            rest[i - (piece.length + word.length)]? := by
          rwa [List.getElem?_append_right (by simp; omega),
            List.getElem?_append_right (by simp; omega), List.length_append,
            List.length_append, List.length_replicate] at hchanged
        obtain ⟨hvalue, w, hw, k, hstart, hk⟩ := h.changed _ hrest
        rw [List.mem_singleton.mp hw] at hstart hk
        refine ⟨?_, word, List.mem_singleton_self word, piece.length + word.length + k, ?_,
          by omega, by omega⟩
        · rw [List.getElem?_append_right (by simp; omega), List.length_append,
            List.length_replicate, hvalue]
        · rwa [← List.length_append, ← List.drop_drop, List.drop_left]
  clean w hw hin := by
    obtain rfl := List.mem_singleton.mp hw
    obtain ⟨n, hn⟩ : ∃ n, w.length = n + 1 :=
      ⟨w.length - 1, by have := List.length_pos_iff.mpr hne; omega⟩
    rw [hn] at hin
    rcases infix_of_infix_replicate _ hfill hin with hleft | hright
    · exact hpiece hleft
    · exact h.clean w hw hright

/-- **Masking by cutting.**  Pieces without the word, joined with the word and
with fill characters. -/
theorem masks_intercalate {pieces : List (List α)} (hne : word ≠ []) (hfill : fill ∉ word)
    (hpieces : ∀ piece ∈ pieces, ¬ word <:+: piece) :
    Masks fill [word] (word.intercalate pieces)
      ((List.replicate word.length fill).intercalate pieces) := by
  have hsingle : ∀ piece : List α, ¬ word <:+: piece → Masks fill [word] piece piece := by
    intro piece hpiece
    exact ⟨rfl, fun i h => (h rfl).elim, fun w hw => List.mem_singleton.mp hw ▸ hpiece⟩
  induction pieces with
  | nil => exact hsingle [] fun hin => hne (List.infix_nil.mp hin)
  | cons piece rest ih =>
      have hpiece := hpieces piece List.mem_cons_self
      by_cases hrest : rest = []
      · subst hrest
        simpa using hsingle piece hpiece
      · rw [intercalate_cons hrest, intercalate_cons hrest]
        exact .cons_piece hne hfill hpiece
          (ih fun later hlater => hpieces later (List.mem_cons_of_mem piece hlater))

end Text
