import IrcServers.FtIrc.Reachable

/-!
# Lines that arrive in pieces

The server keeps no bytes between two reads: what `recv` returns is a message,
and `Command::Execute` handles its lines, the last one included that may not
have ended yet.  A line that arrives in one piece is therefore handled as it
is, and of a line that is cut every piece is handled as a line of its own.
-/

namespace FtIrc

open Text Utils

variable {w w' : World} {a : Action} {fd : Fd} {line : Str}

/-- The message a step reads from `fd`. -/
def readFrom (fd : Fd) : Action → Option Str
  | .read k message => if k = fd then some message else none
  | _ => none

/-- The line from `fd` a step hands to `Command::Execute`. -/
def handledFrom (fd : Fd) (w : World) : Action → Option Str
  | .line _ =>
      match w.pending with
      | some (k, line :: _) => if k = fd then some line else none
      | _ => none
  | _ => none

/-- What is still to be handled of the message of `fd`. -/
def World.linesLeft (w : World) (fd : Fd) : List Str :=
  match w.pending with
  | some (k, lines) => if k = fd then lines else []
  | none => []

/-- The messages read from `fd` in a run, in order. -/
def received (fd : Fd) (trace : Run.Trace World Action) : List Str :=
  trace.reverse.filterMap fun entry => readFrom fd entry.2

/-- The lines from `fd` handled in a run, in order. -/
def handled (fd : Fd) (trace : Run.Trace World Action) : List Str :=
  trace.reverse.filterMap fun entry => handledFrom fd entry.1 entry.2

/-- The lines that are left are those of the packet being served. -/
theorem linesLeft_remaining {k : Fd} {lines : List Str} (h : w.pending = remaining k lines)
    (fd : Fd) : w.linesLeft fd = if k = fd then lines else [] := by
  unfold World.linesLeft
  rw [h]
  cases lines with
  | nil => simp [remaining]
  | cons line lines => rfl

/-- Every step hands on the lines it has read. -/
theorem linesLeft_step (h : step w a = some w') (fd : Fd) :
    (handledFrom fd w a).toList ++ w'.linesLeft fd =
      w.linesLeft fd ++ (readFrom fd a).toList.flatMap linesOf := by
  cases stepped_of_step h with
  | gather hidle => simp [handledFrom, readFrom, World.linesLeft, World.gather]
  | accept hphase hlistener hnew => simp [handledFrom, readFrom, World.linesLeft]
  | readFails hphase hidle => simp [handledFrom, readFrom, World.linesLeft]
  | @read k message hphase hidle hpolled hclient =>
      have hbefore : w.linesLeft fd = [] := by simp [World.linesLeft, hidle]
      rw [hbefore, linesLeft_remaining (World.read_pending w k message)]
      by_cases hk : k = fd <;> simp [handledFrom, readFrom, hk]
  | @line env k line lines s hpending hdone =>
      have hbefore : w.linesLeft fd = if k = fd then line :: lines else [] :=
        linesLeft_remaining (hpending.trans rfl) fd
      have hafter : ({ w with srv := s, pending := remaining k lines } : World).linesLeft fd =
          if k = fd then lines else [] := linesLeft_remaining rfl fd
      rw [hbefore, hafter]
      by_cases hk : k = fd <;> simp [handledFrom, readFrom, hpending, hk]

/-- **The lines handled are those of the messages read.**  Nothing is kept back
and nothing is put together. -/
theorem handled_eq (w₀ : World) {trace : Run.Trace World Action}
    (hrun : Run.Steps step (· = w₀) trace w) (fd : Fd) :
    handled fd trace ++ w.linesLeft fd =
      w₀.linesLeft fd ++ (received fd trace).flatMap linesOf := by
  induction hrun with
  | nil hstart => subst hstart; simp [handled, received]
  | @cons trace w a next hrun hstep ih =>
      have hhandled : handled fd ((w, a) :: trace) =
          handled fd trace ++ (handledFrom fd w a).toList := by
        cases h : handledFrom fd w a <;> simp [handled, h]
      have hreceived : received fd ((w, a) :: trace) =
          received fd trace ++ (readFrom fd a).toList := by
        cases h : readFrom fd a <;> simp [received, h]
      rw [hhandled, hreceived, List.append_assoc, linesLeft_step hstep fd, ← List.append_assoc,
        ih, List.flatMap_append, List.append_assoc]

/-- A text with a line break at most at its end is a single line. -/
theorem linesOf_of_find {piece : Str} (hne : piece ≠ []) (h : find crlf piece.dropLast = none) :
    linesOf piece = [piece] := by
  have hone : OneLine piece := by
    cases hfind : find crlf piece with
    | none => exact oneLine_of_find hne hfind
    | some i =>
        have hsplit := find_eq_some_split hfind
        have hnone := find_take_of_find (by decide) hfind
        by_cases hend : piece.drop (i + crlf.length) = []
        · rw [hend, List.append_nil] at hsplit
          rw [hsplit]
          exact oneLine_append_crlf hnone
        · rw [hsplit, List.dropLast_append_of_ne_nil hend, find_append_crlf hnone] at h
          cases h
  exact if_pos hone

/-- A line has no other line break than the one put behind it. -/
theorem find_dropLast_append_crlf (h : find crlf line = none) :
    find crlf (line ++ crlf).dropLast = none := by
  rw [show (line ++ crlf).dropLast = line ++ ['\r'] by
    rw [show line ++ crlf = line ++ ['\r'] ++ ['\n'] by simp [crlf], List.dropLast_concat]]
  rw [find_eq_none_iff] at h ⊢
  intro hin
  obtain ⟨start, rest, hsplit⟩ := hin
  rcases List.eq_nil_or_concat rest with rfl | ⟨rest, c, rfl⟩
  · have hlast := congrArg List.getLast? hsplit
    simp [crlf] at hlast
  · rw [List.concat_eq_append, ← List.append_assoc] at hsplit
    obtain ⟨hline, _⟩ := List.append_inj' hsplit rfl
    exact h ⟨start, rest, hline⟩

/-- The pieces of a line are single lines. -/
theorem linesOf_piece (h : find crlf line = none) {pieces : List Str}
    (hpieces : pieces.flatten = line ++ crlf) {piece : Str} (hmem : piece ∈ pieces)
    (hne : piece ≠ []) : linesOf piece = [piece] := by
  refine linesOf_of_find hne ?_
  obtain ⟨before, after, rfl⟩ := List.append_of_mem hmem
  have hcut := find_dropLast_append_crlf h
  rw [← hpieces, List.flatten_append, List.flatten_cons] at hcut
  rw [find_eq_none_iff] at hcut ⊢
  intro hin
  refine hcut (hin.trans ?_)
  rw [List.dropLast_append_of_ne_nil (List.append_ne_nil_of_left_ne_nil hne _)]
  by_cases hafter : after.flatten = []
  · rw [hafter, List.append_nil]
    exact (List.suffix_append _ _).isInfix
  · rw [List.dropLast_append_of_ne_nil hafter]
    exact ((List.dropLast_prefix piece).isInfix.trans (List.prefix_append _ _).isInfix).trans
      (List.suffix_append _ _).isInfix

/-- **Pieces of a line.**  While a line arrives in pieces, each piece is handled
as a line of its own, once and in order.  So the line is handled as a whole only
if it arrives in one piece; otherwise every line that is handled is a proper
fragment of it. -/
theorem line_handled_in_pieces {w₀ : World} {trace : Run.Trace World Action}
    (hrun : Run.Steps step (· = w₀) trace w) (hidle : w₀.linesLeft fd = [])
    (hline : find crlf line = none) (hnonempty : ∀ piece ∈ received fd trace, piece ≠ [])
    (harrived : (received fd trace).flatten = line ++ crlf) :
    handled fd trace ++ w.linesLeft fd = received fd trace ∧
      (1 < (received fd trace).length →
        ∀ piece ∈ handled fd trace, piece.length < (line ++ crlf).length) := by
  have hpieces : (received fd trace).flatMap linesOf = received fd trace := by
    have hsingle : ∀ piece ∈ received fd trace, linesOf piece = [piece] := fun piece hmem =>
      linesOf_piece hline harrived hmem (hnonempty piece hmem)
    rw [List.flatMap_def, List.map_congr_left hsingle, ← List.flatMap_def, List.flatMap_singleton']
  have hhandled := handled_eq w₀ hrun fd
  rw [hidle, hpieces, List.nil_append] at hhandled
  refine ⟨hhandled, ?_⟩
  intro hcut piece hmem
  have hpiece : piece ∈ received fd trace := hhandled ▸ List.mem_append_left _ hmem
  rw [← harrived]
  generalize received fd trace = pieces at hcut hpiece hnonempty
  obtain ⟨before, after, rfl⟩ := List.append_of_mem hpiece
  have hother : ∃ other ∈ before ++ after, other ≠ [] := by
    cases h : before ++ after with
    | nil => simp_all
    | cons other others =>
        refine ⟨other, List.mem_cons_self, hnonempty other ?_⟩
        have hin : other ∈ before ++ after := h ▸ List.mem_cons_self
        rcases List.mem_append.mp hin with hin | hin
        · exact List.mem_append_left _ hin
        · exact List.mem_append_right _ (List.mem_cons_of_mem _ hin)
  obtain ⟨other, hin, hne⟩ := hother
  have hsize : other.length ≤ (before ++ after).flatten.length :=
    (List.sublist_flatten_of_mem hin).length_le
  have hpos := List.length_pos_iff.mpr hne
  simp only [List.flatten_append, List.flatten_cons, List.length_append] at hsize ⊢
  omega

/-- What is received is a matter of the actions. -/
theorem received_eq (fd : Fd) (trace : Run.Trace World Action) :
    received fd trace = (trace.map Prod.snd).reverse.filterMap (readFrom fd) := by
  rw [← List.map_reverse, List.filterMap_map]
  rfl

/-- A `NICK` line in two packets. -/
def cutNick : List Action :=
  [.gather, .accept 5 "h".toList, .gather, .read 5 "NICK a".toList, .line Env.calm,
    .read 5 "b\r\n".toList, .line Env.calm]

/-- The packets of `cutNick` are handled one by one. -/
theorem exists_cutNick : ∃ trace w,
    Run.Steps step (· = initial "pw".toList [] 3 overwritten) trace w ∧ w.pending = none ∧
      (w.srv.memory 0).nickName = "a".toList ∧
      received 5 trace = ["NICK a".toList, "b\r\n".toList] := by
  obtain ⟨w, hw, htest⟩ := (Option.any_eq_true _ _).mp
    (by decide : (Run.perform step cutNick (initial "pw".toList [] 3 overwritten)).any fun w =>
      w.pending = none ∧ (w.srv.memory 0).nickName = "a".toList)
  obtain ⟨hidle, hnick⟩ := of_decide_eq_true htest
  obtain ⟨trace, hrun, hactions⟩ := Run.steps_of_perform hw
  refine ⟨trace, w, hrun, hidle, hnick, ?_⟩
  rw [received_eq, hactions]
  rfl

/-- The start of the line gives the client the nickname `a`. -/
theorem line_handled_in_pieces_nick : ∃ trace w, Steps trace w ∧
    (w.srv.memory 0).nickName = "a".toList ∧
    handled 5 trace = ["NICK a".toList, "b\r\n".toList] := by
  obtain ⟨trace, w, hrun, hidle, hnick, hreceived⟩ := exists_cutNick
  have harrived : (received 5 trace).flatten = "NICK ab".toList ++ crlf := by
    rw [hreceived]
    decide
  have h := line_handled_in_pieces hrun rfl (by decide) (by rw [hreceived]; decide) harrived
  have hleft : w.linesLeft 5 = [] := by simp [World.linesLeft, hidle]
  rw [hleft, List.append_nil, hreceived] at h
  exact ⟨trace, w, hrun.of_start fun _ heq => heq ▸ ⟨_, _, 3, _, rfl⟩, hnick, h.1⟩

/-- A line that arrives in two pieces is not handled as a whole. -/
theorem fragment_is_handled :
    ¬ ∀ (earlier trace : Run.Trace World Action) (w₀ w : World) (fd : Fd) (line : Str),
      Steps earlier w₀ → Run.Steps step (· = w₀) trace w → w₀.pending = none →
      w.pending = none → find crlf line = none → (∀ piece ∈ received fd trace, piece ≠ []) →
      (received fd trace).flatten = line ++ crlf →
      handled fd trace = [line] ∨ handled fd trace = [line ++ crlf] := by
  intro hall
  obtain ⟨trace, w, hrun, hidle, _, hreceived⟩ := exists_cutNick
  have h := hall [] trace _ w 5 "NICK ab".toList (.nil start_pw) hrun rfl hidle (by decide)
    (by rw [hreceived]; decide) (by rw [hreceived]; decide)
  have hhandled := handled_eq _ hrun 5
  have hleft : w.linesLeft 5 = [] := by simp [World.linesLeft, hidle]
  rw [hleft, List.append_nil, hreceived] at hhandled
  rw [hhandled] at h
  revert h
  decide

end FtIrc
