import IrcServers.FtIrc.Plain
import IrcServers.While

/-!
# Dates

`Utils::date` walks over the format and replaces each letter by its value in
the text it walks over.  It goes on one character further, so the rest of a
value is walked over as if it had been in the format.

Numbers contain no letter, and of the names of months and days only two do so
behind their first character: `Wed`, where the `d` becomes the day of the month,
and `Fri`, where the `i` becomes the minute.
-/

namespace FtIrc

open Utils

/-- `struct tm`, as `localtime` fills it in. -/
structure Tm where
  year : Int
  mon : Fin 12
  mday : Fin 32
  hour : Fin 24
  min : Fin 60
  sec : Fin 61
  wday : Fin 7
  mday_pos : mday ≠ 0

namespace Utils

/-- The table of `Utils::getMonthName`. -/
def monthNames : List Str :=
  ["Jan", "Feb", "Mar", "Apr", "May", "Jun", "Jul", "Aug", "Sep", "Oct", "Nov", "Dec"].map
    String.toList

/-- `Utils::getMonthName`. -/
def getMonthName (month : Nat) : Str := monthNames.getD (month - 1) []

/-- The table of `Utils::getDayName`. -/
def dayNames : List Str :=
  ["Sun", "Mon", "Tue", "Wed", "Thu", "Fri", "Sat"].map String.toList

/-- `Utils::getDayName`. -/
def getDayName (day : Nat) : Str := dayNames.getD day []

/-- `Utils::padStart` with its default arguments. -/
def padStart (str : Str) : Str :=
  if str.length ≥ 2 then str else List.replicate (2 - str.length) '0' ++ str

/-- What `Utils::date` replaces a letter by. -/
def dateValue (tm : Tm) : Char → Option Str
  | 'Y' => some (Utils.toString (1900 + tm.year))
  | 'm' => some (padStart (Utils.toString (1 + tm.mon.val)))
  | 'd' => some (padStart (Utils.toString tm.mday.val))
  | 'H' => some (padStart (Utils.toString tm.hour.val))
  | 'i' => some (padStart (Utils.toString tm.min.val))
  | 's' => some (padStart (Utils.toString tm.sec.val))
  | 'M' => some (getMonthName (1 + tm.mon.val))
  | 'z' => some "UTC".toList
  | 'D' => some (getDayName tm.wday.val)
  | _ => none

/-- One round of the loop of `Utils::date`, with the variables `i` and
`format`. -/
def dateRound (tm : Tm) : Nat × Str → Option (Nat × Str)
  | (i, format) =>
      format[i]?.map fun c =>
        (i + 1,
          match dateValue tm c with
          | some value => format.take i ++ value ++ format.drop (i + 1)
          | none => format)

/-- What `Utils::date` is for: every letter is replaced by its value, and every
other character stays. -/
def substituted (tm : Tm) (format : Str) : Str :=
  format.flatMap fun c => (dateValue tm c).getD [c]

variable {tm : Tm} {t : Nat × Str} {c : Char}

/-- The letters of a format. -/
def dateLetters : List Char := "YmdHisMzD".toList

/-- Only the letters have a value. -/
theorem dateValue_eq_none (h : c ∉ dateLetters) : dateValue tm c = none := by
  unfold dateValue
  split <;> first | rfl | exact (h (by decide)).elim

/-- A digit or a sign is no letter of a format. -/
theorem digit_not_letter (h : c.isDigit = true ∨ c = '-') : c ∉ dateLetters := by
  intro hmem
  have hall : dateLetters.all (fun x => !x.isDigit && x ≠ '-') = true := by decide
  have hc := List.all_eq_true.mp hall c hmem
  rcases h with hdigit | hminus
  · simp [hdigit] at hc
  · simp [hminus] at hc

/-- A padded value has two characters or more. -/
theorem padStart_length (str : Str) : 2 ≤ (padStart str).length := by
  unfold padStart
  split
  · assumption
  · rw [List.length_append, List.length_replicate]
    omega

/-- A value without letters behind its first character. -/
def PlainTail (value : Str) : Prop := value ≠ [] ∧ ∀ c ∈ value.tail, c ∉ dateLetters

instance (value : Str) : Decidable (PlainTail value) :=
  have : Decidable (∀ c ∈ value.tail, c ∉ dateLetters) := List.decidableBAll _ _
  inferInstanceAs (Decidable (_ ∧ _))

/-- A number has no letters. -/
theorem plainTail_of_digits {value : Str} (hne : value ≠ [])
    (h : ∀ c ∈ value, c.isDigit = true ∨ c = '-') : PlainTail value :=
  ⟨hne, fun c hc => digit_not_letter (h c (List.mem_of_mem_tail hc))⟩

/-- So its text is plain behind the first character. -/
theorem plainTail_toString (n : Int) : PlainTail (Utils.toString n) := by
  apply plainTail_of_digits
  · unfold Utils.toString
    rw [Int.toString_eq_repr, Int.repr_eq_if]
    split
    · simp
    · simp
  · intro c hc
    exact digit_of_mem_toString hc

/-- So is the padded text. -/
theorem plainTail_padStart (n : Int) : PlainTail (padStart (Utils.toString n)) := by
  apply plainTail_of_digits
  · intro hnil
    have hlength := padStart_length (Utils.toString n)
    rw [hnil] at hlength
    simp at hlength
  · intro c hc
    unfold padStart at hc
    split at hc
    · exact digit_of_mem_toString hc
    · rcases List.mem_append.mp hc with hzero | hdigit
      · rw [List.eq_of_mem_replicate hzero]
        exact Or.inl (by decide)
      · exact digit_of_mem_toString hdigit

/-- The names of the months are plain too. -/
theorem plainTail_month : ∀ mon : Fin 12, PlainTail (getMonthName (1 + mon.val)) := by
  decide

/-- The days whose names contain no letter behind the first character. -/
theorem plainTail_day : ∀ wday : Fin 7, wday ≠ 3 ∧ wday ≠ 5 → PlainTail (getDayName wday.val) := by
  decide

/-- All values but the names of two days. -/
theorem plainTail_dateValue {value : Str} (h : dateValue tm c = some value)
    (hday : c = 'D' → tm.wday ≠ 3 ∧ tm.wday ≠ 5) : PlainTail value := by
  unfold dateValue at h
  split at h
  all_goals simp only [Option.some.injEq, reduceCtorEq] at h
  · exact h ▸ plainTail_toString _
  · exact h ▸ plainTail_padStart _
  · exact h ▸ plainTail_padStart _
  · exact h ▸ plainTail_padStart _
  · exact h ▸ plainTail_padStart _
  · exact h ▸ plainTail_padStart _
  · exact h ▸ plainTail_month _
  · exact h ▸ (by decide)
  · exact h ▸ plainTail_day _ (hday rfl)

/-- What the loop leaves of one character of the format. -/
def dateWritten (tm : Tm) (c : Char) : Str :=
  if c = 'D' ∧ tm.wday = 3 then "We".toList ++ padStart (Utils.toString tm.mday.val)
  else if c = 'D' ∧ tm.wday = 5 then "Fr".toList ++ padStart (Utils.toString tm.min.val)
  else (dateValue tm c).getD [c]

/-- A character that is none of the letters is passed. -/
theorem ends_plain {done : Str} (text rest : Str) (h : ∀ c ∈ text, c ∉ dateLetters)
    (hrest : While.Ends (dateRound tm) ((done ++ text).length, done ++ text ++ rest) t) :
    While.Ends (dateRound tm) (done.length, done ++ (text ++ rest)) t := by
  induction text generalizing done with
  | nil => simpa using hrest
  | cons c text ih =>
      have hnone : dateValue tm c = none := dateValue_eq_none (h c List.mem_cons_self)
      have hround : dateRound tm (done.length, done ++ (c :: text ++ rest)) =
          some ((done ++ [c]).length, done ++ [c] ++ (text ++ rest)) := by
        simp [dateRound, hnone]
      exact .round hround (ih (fun x hx => h x (List.mem_cons_of_mem c hx)) (by simpa using hrest))

/-- A letter is replaced, and then the rest of its value is walked over. -/
theorem ends_letter {first : Char} {value done rest : Str}
    (h : dateValue tm c = some (first :: value))
    (hrest : While.Ends (dateRound tm) ((done ++ [first]).length,
      done ++ [first] ++ (value ++ rest)) t) :
    While.Ends (dateRound tm) (done.length, done ++ c :: rest) t := by
  refine .round ?_ hrest
  simp [dateRound, h]

/-- A letter whose value has no letter behind its first character. -/
theorem ends_plainTail {value done rest : Str} (h : dateValue tm c = some value)
    (hplain : PlainTail value)
    (hrest : While.Ends (dateRound tm) ((done ++ value).length, done ++ value ++ rest) t) :
    While.Ends (dateRound tm) (done.length, done ++ c :: rest) t := by
  obtain ⟨hne, htail⟩ := hplain
  obtain ⟨first, tail, rfl⟩ := List.exists_cons_of_ne_nil hne
  exact ends_letter h (ends_plain tail rest htail (by simpa using hrest))

/-- The name of a day with a letter as its last character. -/
theorem ends_day {a b last : Char} {value done rest : Str} (hb : b ∉ dateLetters)
    (hname : getDayName tm.wday.val = [a, b, last]) (hlast : dateValue tm last = some value)
    (hplain : PlainTail value)
    (hrest : While.Ends (dateRound tm) ((done ++ ([a, b] ++ value)).length,
      done ++ ([a, b] ++ value) ++ rest) t) :
    While.Ends (dateRound tm) (done.length, done ++ 'D' :: rest) t := by
  have hday : dateValue tm 'D' = some (a :: [b, last]) := congrArg some hname
  refine ends_letter hday ?_
  refine ends_plain [b] (last :: rest) (by simpa using hb) ?_
  exact ends_plainTail hlast hplain (by simpa using hrest)

/-- **One character of the format.**  The loop goes on behind what it leaves of
it. -/
theorem ends_written {done rest : Str}
    (hrest : While.Ends (dateRound tm) ((done ++ dateWritten tm c).length,
      done ++ dateWritten tm c ++ rest) t) :
    While.Ends (dateRound tm) (done.length, done ++ c :: rest) t := by
  unfold dateWritten at hrest
  split at hrest
  · rename_i h
    obtain ⟨rfl, hwday⟩ := h
    exact ends_day (by decide) (by rw [hwday]; rfl) rfl (plainTail_padStart _) hrest
  · split at hrest
    · rename_i h
      obtain ⟨rfl, hwday⟩ := h
      exact ends_day (by decide) (by rw [hwday]; rfl) rfl (plainTail_padStart _) hrest
    · rename_i hwed hfri
      cases hvalue : dateValue tm c with
      | some value =>
          rw [hvalue, Option.getD_some] at hrest
          have hday : c = 'D' → tm.wday ≠ 3 ∧ tm.wday ≠ 5 :=
            fun hc => ⟨fun h => hwed ⟨hc, h⟩, fun h => hfri ⟨hc, h⟩⟩
          exact ends_plainTail hvalue (plainTail_dateValue hvalue hday) hrest
      | none =>
          rw [hvalue, Option.getD_none] at hrest
          exact .round (by simp [dateRound, hvalue]) hrest

/-- **The loop ends**, and leaves of each character what it leaves of it alone. -/
theorem ends_dateRound (done format : Str) :
    While.Ends (dateRound tm) (done.length, done ++ format)
      ((done ++ format.flatMap (dateWritten tm)).length,
        done ++ format.flatMap (dateWritten tm)) := by
  induction format generalizing done with
  | nil =>
      have htest : dateRound tm (done.length, done) = none := by simp [dateRound]
      simpa using While.Ends.stop htest
  | cons c format ih =>
      rw [List.flatMap_cons, ← List.append_assoc]
      exact ends_written (ih (done ++ dateWritten tm c))

/-- What the loop leaves of a character is its value, but for the names of two
days, which become longer. -/
theorem dateWritten_cases (tm : Tm) (c : Char) :
    (c = 'D' ∧ (tm.wday = 3 ∨ tm.wday = 5) ∧
        ((dateValue tm c).getD [c]).length < (dateWritten tm c).length) ∨
      ((c = 'D' → tm.wday ≠ 3 ∧ tm.wday ≠ 5) ∧ (dateValue tm c).getD [c] = dateWritten tm c) := by
  have hlonger : ∀ (a b last : Char) (n : Int),
      [a, b, last].length < ([a, b] ++ padStart (Utils.toString n)).length := by
    intro a b last n
    have hpad := padStart_length (Utils.toString n)
    simp only [List.length_append, List.length_cons, List.length_nil]
    omega
  unfold dateWritten
  split
  · rename_i h
    obtain ⟨rfl, hwday⟩ := h
    have hname : dateValue tm 'D' = some "Wed".toList := by
      unfold dateValue
      rw [hwday]
      rfl
    rw [hname]
    exact Or.inl ⟨rfl, Or.inl hwday, hlonger 'W' 'e' 'd' _⟩
  · split
    · rename_i h
      obtain ⟨rfl, hwday⟩ := h
      have hname : dateValue tm 'D' = some "Fri".toList := by
        unfold dateValue
        rw [hwday]
        rfl
      rw [hname]
      exact Or.inl ⟨rfl, Or.inr hwday, hlonger 'F' 'r' 'i' _⟩
    · rename_i hwed hfri
      exact Or.inr ⟨fun hc => ⟨fun h => hwed ⟨hc, h⟩, fun h => hfri ⟨hc, h⟩⟩, rfl⟩

/-- The loop writes no less than the value of a letter. -/
theorem value_length_le (tm : Tm) (c : Char) :
    ((dateValue tm c).getD [c]).length ≤ (dateWritten tm c).length := by
  rcases dateWritten_cases tm c with ⟨-, -, hlt⟩ | ⟨-, heq⟩
  · exact Nat.le_of_lt hlt
  · rw [heq]

/-- It writes the value, except for two days of the week. -/
theorem value_eq_iff : (dateValue tm c).getD [c] = dateWritten tm c ↔
    (c = 'D' → tm.wday ≠ 3 ∧ tm.wday ≠ 5) := by
  rcases dateWritten_cases tm c with ⟨hc, hwday, hlt⟩ | ⟨hday, heq⟩
  · constructor
    · intro heq
      rw [heq] at hlt
      exact (Nat.lt_irrefl _ hlt).elim
    · intro hday
      obtain ⟨hwed, hfri⟩ := hday hc
      exact (hwday.elim hwed hfri).elim
  · exact iff_of_true heq hday

/-- **Dates.**  `Utils::date` ends for every format and every time, and its result
is the format with every letter replaced by its value, if and only if the format
does not ask for the day of the week or the day is neither a Wednesday nor a
Friday. -/
theorem date_substitutes_iff (tm : Tm) (format : Str) :
    ∃ result, While.Ends (dateRound tm) (0, format) (result.length, result) ∧
      (result = substituted tm format ↔ ('D' ∈ format → tm.wday ≠ 3 ∧ tm.wday ≠ 5)) := by
  refine ⟨format.flatMap (dateWritten tm), by simpa using ends_dateRound [] format, ?_⟩
  unfold substituted
  rw [eq_comm, Text.flatMap_eq_flatMap_iff fun c _ => value_length_le tm c]
  constructor
  · intro hall hmem
    exact value_eq_iff.mp (hall 'D' hmem) rfl
  · intro hday c hmem
    exact value_eq_iff.mpr fun hc => hday (hc ▸ hmem)

/-- Noon of Wednesday, the 15th of May 2024. -/
def wednesday : Tm where
  year := 124
  mon := 4
  mday := 15
  hour := 12
  min := 0
  sec := 0
  wday := 3
  mday_pos := by decide

/-- A server started on a Wednesday says so with the day of the month in it. -/
theorem date_on_wednesday : ¬ ∀ tm format i result,
    While.Ends (dateRound tm) (0, format) (i, result) → result = substituted tm format := by
  intro hall
  have hends : While.Ends (dateRound wednesday) (0, "D, d M Y H:i:s z".toList)
      (While.rounds (dateRound wednesday) 40 (0, "D, d M Y H:i:s z".toList)) :=
    While.ends_of_rounds (by decide)
  have hsame := hall _ _ _ _ hends
  exact absurd hsame (by decide)

end Utils

end FtIrc
