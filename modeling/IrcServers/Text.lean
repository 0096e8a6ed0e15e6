import Mathlib.Data.List.Basic
import Mathlib.Data.List.DropRight

/-!
# Searching and cutting strings

The `std::string` operations both servers build their parsers from, over an
arbitrary alphabet: the first occurrence of a delimiter, and the loop that
repeatedly cuts a string at that occurrence.  The two servers differ only in
what they do with the piece left after the last delimiter, so that choice is
a parameter of `cutWith`.

The loop is given as much fuel as the string has characters.  Since every cut
removes a nonempty delimiter this is always enough, and the pieces it produces
contain no delimiter.
-/

namespace Text

variable {α : Type*} [DecidableEq α]

/-- `std::string::find`: the first position at which `delim` occurs. -/
def find (delim : List α) : List α → Option Nat
  | [] => if delim = [] then some 0 else none
  | c :: s => if delim <+: c :: s then some 0 else (find delim s).map (· + 1)

/-- `s.find(delim) != npos`. -/
def contains (delim s : List α) : Bool := (find delim s).isSome

/-- The cutting loop: take the text before the next delimiter, drop it
together with the delimiter, and go on; `last` says what becomes of the text
after the final delimiter. -/
def cutWith (last : List α → List (List α)) (delim : List α) :
    Nat → List α → List (List α)
  | 0, s => last s
  | n + 1, s =>
      match find delim s with
      | none => last s
      | some i => s.take i :: cutWith last delim n (s.drop (i + delim.length))

/-- Keep the text after the final delimiter even when it is empty. -/
def cut (delim s : List α) : List (List α) :=
  cutWith (fun rest => [rest]) delim s.length s

/-- Keep the text after the final delimiter only when it is nonempty. -/
def cutTrim (delim s : List α) : List (List α) :=
  cutWith (fun rest => if rest = [] then [] else [rest]) delim s.length s

/-- An occurrence is a split of the string around the delimiter. -/
theorem find_eq_some_split {delim : List α} :
    ∀ {s : List α} {i : Nat}, find delim s = some i →
      s = s.take i ++ delim ++ s.drop (i + delim.length)
  | [], i, h => by
      by_cases hd : delim = [] <;> simp [find, hd] at h
      subst h
      simp [hd]
  | c :: s, i, h => by
      by_cases hp : delim <+: c :: s
      · simp only [find, hp, if_true, Option.some.injEq] at h
        subst h
        obtain ⟨rest, hrest⟩ := hp
        simp [← hrest]
      · simp only [find, hp, if_false, Option.map_eq_some_iff] at h
        obtain ⟨j, hj, rfl⟩ := h
        have ih := find_eq_some_split hj
        rw [List.take_succ_cons, Nat.add_right_comm, List.drop_succ_cons,
          List.cons_append, List.cons_append, ← ih]

/-- An occurrence leaves room for the delimiter. -/
theorem find_eq_some_length {delim s : List α} {i : Nat}
    (h : find delim s = some i) : i + delim.length ≤ s.length := by
  have hsplit := congrArg List.length (find_eq_some_split h)
  by_cases hi : i ≤ s.length
  · simp only [List.length_append, List.length_take, List.length_drop] at hsplit
    omega
  · have htake : s.take i = s := List.take_of_length_le (by omega)
    have hd : delim.length = 0 := by
      rw [htake] at hsplit
      simp only [List.length_append] at hsplit
      omega
    have hempty : delim = [] := List.length_eq_zero_iff.mp hd
    subst hempty
    cases s with
    | nil => simp [find] at h; omega
    | cons c s => simp [find] at h; omega

/-- A delimiter that occurs is found. -/
theorem find_isSome_of_infix {delim : List α} :
    ∀ {s : List α}, delim <:+: s → (find delim s).isSome = true
  | [], h => by
      have hempty : delim = [] := List.infix_nil.mp h
      simp [find, hempty]
  | c :: s, h => by
      by_cases hp : delim <+: c :: s
      · simp [find, hp]
      · rcases List.infix_cons_iff.mp h with hpre | hin
        · exact (hp hpre).elim
        · simp [find, hp, find_isSome_of_infix hin]

/-- A delimiter is found just when it occurs. -/
theorem find_eq_none_iff {delim s : List α} : find delim s = none ↔ ¬ delim <:+: s := by
  constructor
  · intro hnone hin
    have hsome := find_isSome_of_infix hin
    rw [hnone] at hsome
    cases hsome
  · intro hnot
    cases hfind : find delim s with
    | none => rfl
    | some i => exact (hnot ⟨s.take i, _, (find_eq_some_split hfind).symm⟩).elim

/-- Searching past a text that does not contain the delimiter's first
character. -/
theorem find_append_of_not_mem {d : α} {delim a : List α} (h : d ∉ a) (b : List α) :
    find (d :: delim) (a ++ b) = (find (d :: delim) b).map (· + a.length) := by
  induction a with
  | nil => simp
  | cons c a ih =>
      simp only [List.mem_cons, not_or] at h
      have hpre : ¬ d :: delim <+: c :: (a ++ b) := by
        intro hprefix
        obtain ⟨rest, hrest⟩ := hprefix
        exact h.1 (List.cons.inj hrest).1
      simp only [List.cons_append, find, hpre, if_false, ih h.2, Option.map_map]
      rfl

/-- A single character is found just when it is in the text. -/
theorem find_singleton_eq_none {d : α} {s : List α} : find [d] s = none ↔ d ∉ s := by
  rw [find_eq_none_iff, List.infix_iff_prefix_suffix, not_iff_not]
  constructor
  · intro h
    obtain ⟨t, hpre, hsuf⟩ := h
    exact hsuf.subset (hpre.subset List.mem_cons_self)
  · intro h
    obtain ⟨a, b, rfl⟩ := List.append_of_mem h
    exact ⟨d :: b, ⟨b, rfl⟩, List.suffix_append a (d :: b)⟩

/-- The first occurrence of a character. -/
theorem find_singleton_append {d : α} {a : List α} (h : d ∉ a) (b : List α) :
    find [d] (a ++ d :: b) = some a.length := by
  rw [find_append_of_not_mem h]
  simp [find]

/-- No delimiter occurs before its first occurrence. -/
theorem find_take_of_find {delim : List α} (hd : delim ≠ []) :
    ∀ {s : List α} {i : Nat}, find delim s = some i → find delim (s.take i) = none
  | [], i, _ => by simp [find, hd]
  | c :: s, i, h => by
      by_cases hp : delim <+: c :: s
      · simp only [find, hp, if_true, Option.some.injEq] at h
        subst h
        simp [find, hd]
      · simp only [find, hp, if_false, Option.map_eq_some_iff] at h
        obtain ⟨j, hj, rfl⟩ := h
        have hshort : ¬ delim <+: c :: s.take j := fun hpre =>
          hp (hpre.trans (by simpa using List.take_prefix (j + 1) (c :: s)))
        simp [find, hshort, find_take_of_find hd hj]

/-- A string without the delimiter is not cut. -/
theorem cutWith_of_find_none {last : List α → List (List α)} {delim s : List α}
    (h : find delim s = none) (n : Nat) : cutWith last delim n s = last s := by
  cases n with
  | zero => rfl
  | succ n => simp [cutWith, h]

/-- More fuel than characters makes no difference. -/
theorem cutWith_fuel {last : List α → List (List α)} {delim : List α} (hd : delim ≠ []) :
    ∀ {n : Nat} {s : List α}, s.length ≤ n →
      cutWith last delim n s = cutWith last delim s.length s := by
  intro n
  induction n using Nat.strong_induction_on with
  | _ n ih =>
      intro s hlen
      cases hfind : find delim s with
      | none => rw [cutWith_of_find_none hfind, cutWith_of_find_none hfind]
      | some i =>
          have hpos := List.length_pos_iff.mpr hd
          have hroom := find_eq_some_length hfind
          obtain ⟨m, hm⟩ : ∃ m, s.length = m + 1 := ⟨s.length - 1, by omega⟩
          obtain ⟨n, rfl⟩ : ∃ k, n = k + 1 := ⟨n - 1, by omega⟩
          have hdrop : (s.drop (i + delim.length)).length ≤ m := by
            rw [List.length_drop]
            omega
          rw [hm]
          simp only [cutWith, hfind]
          congr 1
          rw [ih n (Nat.lt_succ_self n) (by omega)]
          by_cases hmn : m = n
          · rw [hmn, ih n (Nat.lt_succ_self n) (by omega)]
          · rw [ih m (by omega) hdrop]

/-- **The cutting loop, unrolled.**  The text before the first delimiter, and
the pieces of the text after it. -/
theorem cutWith_of_find {last : List α → List (List α)} {delim s : List α} (hd : delim ≠ [])
    {i : Nat} (h : find delim s = some i) :
    cutWith last delim s.length s =
      s.take i :: cutWith last delim (s.drop (i + delim.length)).length
        (s.drop (i + delim.length)) := by
  have hpos := List.length_pos_iff.mpr hd
  have hroom := find_eq_some_length h
  obtain ⟨m, hm⟩ : ∃ m, s.length = m + 1 := ⟨s.length - 1, by omega⟩
  rw [hm]
  simp only [cutWith, h]
  rw [cutWith_fuel hd (by rw [List.length_drop]; omega)]

/-- The first piece, and the pieces of what lies behind the delimiter. -/
theorem cutTrim_of_find {delim s : List α} (hd : delim ≠ []) {i : Nat}
    (h : find delim s = some i) :
    cutTrim delim s = s.take i :: cutTrim delim (s.drop (i + delim.length)) :=
  cutWith_of_find hd h

/-- The word before the first occurrence of a character is the first piece. -/
theorem cutTrim_singleton_append {d : α} {a : List α} (h : d ∉ a) (b : List α) :
    cutTrim [d] (a ++ d :: b) = a :: cutTrim [d] b := by
  rw [cutTrim_of_find (by simp) (find_singleton_append h b)]
  simp

/-- The word before the first occurrence of a character is the first piece. -/
theorem cut_singleton_append {d : α} {a : List α} (h : d ∉ a) (b : List α) :
    cut [d] (a ++ d :: b) = a :: cut [d] b := by
  unfold cut
  rw [cutWith_of_find (by simp) (find_singleton_append h b)]
  simp

/-- Cutting at a character, with the last piece always kept, is `List.splitOn`. -/
theorem cut_singleton (d : α) (s : List α) : cut [d] s = s.splitOn d := by
  induction hlen : s.length using Nat.strong_induction_on generalizing s with
  | _ n ih =>
      by_cases hmem : d ∈ s
      · obtain ⟨word, rest, rfl, hword⟩ := List.eq_append_cons_of_mem hmem
        have hshorter : rest.length < n := by
          rw [← hlen]
          simp only [List.length_append, List.length_cons]
          omega
        rw [cut_singleton_append hword, ih rest.length hshorter rest rfl,
          List.splitOn_append_cons_self_of_not_mem hword]
      · rw [List.splitOn_eq_singleton hmem]
        exact cutWith_of_find_none (find_singleton_eq_none.mpr hmem) _

/-- A text without the delimiter is its only piece. -/
theorem cut_of_not_mem {d : α} {s : List α} (h : d ∉ s) : cut [d] s = [s] := by
  rw [cut_singleton, List.splitOn_eq_singleton h]

/-- What is joined with a character is cut at it again. -/
theorem cut_intercalate {d : α} {pieces : List (List α)} (h : ∀ piece ∈ pieces, d ∉ piece)
    (hne : pieces ≠ []) : cut [d] ([d].intercalate pieces) = pieces := by
  rw [cut_singleton, List.splitOn_intercalate d h hne]

omit [DecidableEq α] in
/-- Whatever is in a joined text is in the text between or in one of the pieces. -/
theorem mem_intercalate {between : List α} {pieces : List (List α)} {c : α}
    (h : c ∈ between.intercalate pieces) : c ∈ between ∨ ∃ piece ∈ pieces, c ∈ piece := by
  induction pieces with
  | nil => cases h
  | cons piece pieces ih =>
      cases pieces with
      | nil => exact Or.inr ⟨piece, List.mem_cons_self, by simpa using h⟩
      | cons second pieces =>
          rw [List.intercalate_cons_cons, List.mem_append, List.mem_append] at h
          rcases h with (h | h) | h
          · exact Or.inr ⟨piece, List.mem_cons_self, h⟩
          · exact Or.inl h
          · refine (ih h).imp_right fun hlater => ?_
            obtain ⟨later, hlater, hin⟩ := hlater
            exact ⟨later, List.mem_cons_of_mem _ hlater, hin⟩

omit [DecidableEq α] in
/-- Two replacements of characters agree on a text, if one of them is never
longer, just when they agree on its characters. -/
theorem flatMap_eq_flatMap_iff {f g : α → List α} {s : List α}
    (h : ∀ c ∈ s, (f c).length ≤ (g c).length) :
    s.flatMap f = s.flatMap g ↔ ∀ c ∈ s, f c = g c := by
  have hlength : ∀ s : List α, (∀ c ∈ s, (f c).length ≤ (g c).length) →
      (s.flatMap f).length ≤ (s.flatMap g).length := by
    intro s h
    induction s with
    | nil => exact Nat.le_refl _
    | cons c s ih =>
        obtain ⟨hfirst, hrest⟩ := List.forall_mem_cons.mp h
        have hlater := ih hrest
        simp only [List.flatMap_cons, List.length_append]
        omega
  induction s with
  | nil => simp
  | cons c s ih =>
      obtain ⟨hfirst, hrest⟩ := List.forall_mem_cons.mp h
      have hlater := hlength s hrest
      rw [List.flatMap_cons, List.flatMap_cons, List.forall_mem_cons]
      constructor
      · intro heq
        have htotal := congrArg List.length heq
        rw [List.length_append, List.length_append] at htotal
        obtain ⟨hsame, hsames⟩ := List.append_inj heq (by omega)
        exact ⟨hsame, (ih hrest).mp hsames⟩
      · intro hsame
        rw [hsame.1, (ih hrest).mpr hsame.2]

/-- Cutting a nonempty text yields at least one piece. -/
theorem cutTrim_ne_nil {delim s : List α} (hd : delim ≠ []) (hs : s ≠ []) :
    cutTrim delim s ≠ [] := by
  cases h : find delim s with
  | none => simp [cutTrim, cutWith_of_find_none h, hs]
  | some i => simp [cutTrim_of_find hd h]

/-- Every piece is a part of the text. -/
theorem infix_of_mem_cutWith {last : List α → List (List α)} {delim : List α}
    (hlast : ∀ s, ∀ p ∈ last s, p = s) :
    ∀ {n : Nat} {s p : List α}, p ∈ cutWith last delim n s → p <:+: s := by
  intro n
  induction n with
  | zero =>
      intro s p hp
      exact hlast s p hp ▸ List.infix_rfl
  | succ n ih =>
      intro s p hp
      cases hfind : find delim s with
      | none =>
          rw [cutWith_of_find_none hfind] at hp
          exact hlast s p hp ▸ List.infix_rfl
      | some i =>
          simp only [cutWith, hfind, List.mem_cons] at hp
          rcases hp with rfl | hp
          · exact (List.take_prefix i s).isInfix
          · exact (ih hp).trans (List.drop_suffix _ s).isInfix

/-- A piece is part of the text. -/
theorem infix_of_mem_cut {delim s p : List α} (hp : p ∈ cut delim s) : p <:+: s :=
  infix_of_mem_cutWith (fun _ _ h => List.mem_singleton.mp h) hp

/-- So is a piece of the trimmed cut. -/
theorem infix_of_mem_cutTrim {delim s p : List α} (hp : p ∈ cutTrim delim s) : p <:+: s :=
  infix_of_mem_cutWith (fun s p h => by split at h <;> simp_all) hp

omit [DecidableEq α] in
/-- Joining puts the text between after every piece but the last. -/
theorem intercalate_cons {between piece : List α} {pieces : List (List α)} (h : pieces ≠ []) :
    between.intercalate (piece :: pieces) = piece ++ between ++ between.intercalate pieces := by
  obtain ⟨second, rest, rfl⟩ := List.exists_cons_of_ne_nil h
  rw [List.intercalate_cons_cons, List.append_assoc]

/-- The text after the last delimiter is a piece. -/
theorem cutWith_keep_ne_nil (delim : List α) (n : Nat) (s : List α) :
    cutWith (fun rest => [rest]) delim n s ≠ [] := by
  cases n with
  | zero => simp [cutWith]
  | succ n =>
      unfold cutWith
      split <;> simp

/-- What is cut at a delimiter is joined with it again. -/
theorem intercalate_cutWith_keep (delim : List α) (n : Nat) (s : List α) :
    delim.intercalate (cutWith (fun rest => [rest]) delim n s) = s := by
  induction n generalizing s with
  | zero => simp [cutWith]
  | succ n ih =>
      cases hfind : find delim s with
      | none => simp [cutWith, hfind]
      | some i =>
          simp only [cutWith, hfind]
          rw [intercalate_cons (cutWith_keep_ne_nil delim n _), ih]
          exact (find_eq_some_split hfind).symm

/-- The text before the last piece is kept only if a delimiter is found. -/
theorem cut_dropLast_eq_nil {delim s : List α} (hd : delim ≠ []) :
    (cut delim s).dropLast = [] ↔ find delim s = none := by
  cases hfind : find delim s with
  | none => simp [cut, cutWith_of_find_none hfind]
  | some i =>
      have hpos := List.length_pos_iff.mpr hd
      have hroom := find_eq_some_length hfind
      obtain ⟨n, hn⟩ : ∃ n, s.length = n + 1 := ⟨s.length - 1, by omega⟩
      simp [cut, hn, cutWith, hfind,
        List.dropLast_cons_of_ne_nil (cutWith_keep_ne_nil delim n _)]

/-- `rest` is what follows the `k`-th occurrence of `d` in the text. -/
def AfterNth (d : α) (k : Nat) (s rest : List α) : Prop :=
  ∃ before, s = before ++ rest ∧ before.count d = k ∧ (before = [] ∨ before.getLast? = some d)

/-- A longer beginning with the same count does not end in `d`. -/
theorem eq_nil_of_count_eq {d : α} {before more : List α}
    (hcount : (before ++ more).count d = before.count d)
    (hends : before ++ more = [] ∨ (before ++ more).getLast? = some d) : more = [] := by
  by_contra hne
  rcases hends with hnil | hlast
  · exact hne (List.append_eq_nil_iff.mp hnil).2
  · rw [List.getLast?_append_of_ne_nil _ hne] at hlast
    have hpos : 0 < more.count d := List.count_pos_iff.mpr (List.mem_of_getLast? hlast)
    rw [List.count_append] at hcount
    omega

/-- Only one rest lies behind the n-th delimiter. -/
theorem AfterNth.unique {d : α} {k : Nat} {s rest rest' : List α} (h : AfterNth d k s rest)
    (h' : AfterNth d k s rest') : rest = rest' := by
  obtain ⟨before, hs, hcount, hends⟩ := h
  obtain ⟨before', hs', hcount', hends'⟩ := h'
  rcases List.append_eq_append_iff.mp (hs.symm.trans hs') with
    ⟨more, rfl, hrest⟩ | ⟨more, rfl, hrest⟩
  · obtain rfl := eq_nil_of_count_eq (hcount'.trans hcount.symm) hends'
    simpa using hrest
  · obtain rfl := eq_nil_of_count_eq (hcount.trans hcount'.symm) hends
    simpa using hrest.symm

/-- **Joining later pieces.**  The pieces from index `k` on, joined, are what
follows the `k`-th delimiter. -/
theorem afterNth_intercalate_drop {d : α} {k : Nat} {s : List α} (h : k < (cut [d] s).length) :
    AfterNth d k s ([d].intercalate ((cut [d] s).drop k)) := by
  induction k generalizing s with
  | zero =>
      refine ⟨[], ?_, rfl, Or.inl rfl⟩
      exact (intercalate_cutWith_keep [d] s.length s).symm
  | succ k ih =>
      have hmem : d ∈ s := by
        by_contra hnot
        rw [cut_of_not_mem hnot] at h
        simp at h
      obtain ⟨word, rest, rfl, hword⟩ := List.eq_append_cons_of_mem hmem
      rw [cut_singleton_append hword] at h ⊢
      obtain ⟨before, hrest, hcount, hends⟩ := ih (Nat.lt_of_succ_lt_succ h)
      refine ⟨word ++ d :: before, ?_, ?_, Or.inr ?_⟩
      · rw [List.drop_succ_cons, List.append_assoc, List.cons_append, ← hrest]
      · rw [List.count_append, List.count_eq_zero_of_not_mem hword, List.count_cons_self, hcount,
          Nat.zero_add]
      · rw [List.getLast?_append_of_ne_nil _ (List.cons_ne_nil d before), List.getLast?_cons]
        rcases hends with rfl | hlast
        · rfl
        · rw [hlast, Option.getD_some]

/-- The fuel of the cutting loop is enough: no piece contains the delimiter. -/
theorem find_of_mem_cutWith {last : List α → List (List α)} {delim : List α}
    (hd : delim ≠ []) (hlast : ∀ s, ∀ p ∈ last s, p = s) :
    ∀ {n : Nat} {s p : List α}, s.length ≤ n → p ∈ cutWith last delim n s →
      find delim p = none := by
  intro n
  induction n with
  | zero =>
      intro s p hlen hp
      have hs : s = [] := List.length_eq_zero_iff.mp (by omega)
      rw [hlast s p hp, hs]
      simp [find, hd]
  | succ n ih =>
      intro s p hlen hp
      cases hfind : find delim s with
      | none =>
          rw [cutWith_of_find_none hfind] at hp
          rw [hlast s p hp, hfind]
      | some i =>
          simp only [cutWith, hfind, List.mem_cons] at hp
          rcases hp with rfl | hp
          · exact find_take_of_find hd hfind
          · have hpos := List.length_pos_iff.mpr hd
            have hroom := find_eq_some_length hfind
            exact ih (by simp only [List.length_drop]; omega) hp

/-- The pieces made by `cut` contain no delimiter. -/
theorem find_of_mem_cut {delim s p : List α} (hd : delim ≠ [])
    (hp : p ∈ cut delim s) : find delim p = none :=
  find_of_mem_cutWith hd (fun _ _ h => List.mem_singleton.mp h) (Nat.le_refl _) hp

/-- The pieces kept by `cutTrim` contain no delimiter. -/
theorem find_of_mem_cutTrim {delim s p : List α} (hd : delim ≠ [])
    (hp : p ∈ cutTrim delim s) : find delim p = none :=
  find_of_mem_cutWith hd (fun s p h => by split at h <;> simp_all) (Nat.le_refl _) hp

/-- A string without the delimiter is its own single piece. -/
theorem cutTrim_of_find_none {delim s : List α} (h : find delim s = none) :
    cutTrim delim s = if s = [] then [] else [s] :=
  cutWith_of_find_none h _

/-- A piece of a piece is the piece itself, or nothing when it is empty. -/
theorem cutTrim_of_mem_cutTrim {delim s p : List α} (hd : delim ≠ [])
    (hp : p ∈ cutTrim delim s) : cutTrim delim p = if p = [] then [] else [p] :=
  cutTrim_of_find_none (find_of_mem_cutTrim hd hp)

/-- **Appending to the last piece.**  A text that has no delimiter joins the text
after the last delimiter of the text it is appended to. -/
theorem cutTrim_append {d : α} {tail : List α} (htail : d ∉ tail) (hne : tail ≠ []) (s : List α) :
    ∃ init last, d ∉ last ∧ (last = [] ↔ s = [] ∨ s.getLast? = some d) ∧
      cutTrim [d] s = (if last = [] then init else init ++ [last]) ∧
        cutTrim [d] (s ++ tail) = init ++ [last ++ tail] := by
  induction hlen : s.length using Nat.strong_induction_on generalizing s with
  | _ n ih =>
      by_cases hmem : d ∈ s
      · obtain ⟨word, rest, rfl, hword⟩ := List.eq_append_cons_of_mem hmem
        obtain ⟨init, last, hlast, hends, hcut, happend⟩ := ih rest.length
          (by rw [← hlen]; simp only [List.length_append, List.length_cons]; omega) rest rfl
        refine ⟨word :: init, last, hlast, ?_, ?_, ?_⟩
        · rw [hends, List.getLast?_append]
          cases rest with
          | nil => simp
          | cons c rest => simp [List.getLast?_cons]
        · rw [cutTrim_singleton_append hword, hcut]
          split <;> rfl
        · rw [List.append_assoc, List.cons_append, cutTrim_singleton_append hword, happend]
          rfl
      · have hnone : find [d] s = none := find_singleton_eq_none.mpr hmem
        have hjoined : find [d] (s ++ tail) = none :=
          find_singleton_eq_none.mpr (by simp [hmem, htail])
        refine ⟨[], s, hmem, ?_, ?_, ?_⟩
        · constructor
          · exact Or.inl
          · rintro (h | h)
            · exact h
            · exact (hmem (List.mem_of_getLast? h)).elim
        · rw [cutTrim_of_find_none hnone]
          rfl
        · rw [cutTrim_of_find_none hjoined, if_neg (by simp [hne])]
          rfl

/-- Every character of a text is a delimiter or in one of the pieces. -/
theorem eq_or_mem_of_cutTrim {d c : α} {s : List α} (hc : c ∈ s) :
    c = d ∨ ∃ piece ∈ cutTrim [d] s, c ∈ piece := by
  induction hlen : s.length using Nat.strong_induction_on generalizing s with
  | _ n ih =>
      by_cases hmem : d ∈ s
      · obtain ⟨word, rest, rfl, hword⟩ := List.eq_append_cons_of_mem hmem
        rw [cutTrim_singleton_append hword]
        rcases List.mem_append.mp hc with hc | hc
        · exact Or.inr ⟨word, List.mem_cons_self, hc⟩
        · rcases List.mem_cons.mp hc with hc | hc
          · exact Or.inl hc
          · have hshorter : rest.length < n := by
              rw [← hlen]
              simp only [List.length_append, List.length_cons]
              omega
            refine (ih rest.length hshorter hc rfl).imp_right fun h => ?_
            obtain ⟨piece, hpiece, hin⟩ := h
            exact ⟨piece, List.mem_cons_of_mem _ hpiece, hin⟩
      · rw [cutTrim_of_find_none (find_singleton_eq_none.mpr hmem), if_neg (List.ne_nil_of_mem hc)]
        exact Or.inr ⟨s, List.mem_singleton_self s, hc⟩

end Text
