import Mathlib.Data.List.Infix
import IrcServers.Irc.Loop

/-!
# Commands and packets

`receiveMessage` reads on until its buffer has a CRLF or `recv` has nothing
more, and `handleClientMessage` drops what follows the last terminator.  Which
commands are passed to the parser therefore depends on how the stream arrives:
one byte at a time no command is ever complete, while a terminator and the
start of its buffer that arrive together make one.  The commands are
independent of the packets just for the streams in which no packets make a
command.
-/

namespace Irc

/-- The results of `recv` that a call of `receiveMessage` leaves to the next. -/
def unread : List Recv → Str → List Recv
  | [], _ => []
  | .data bytes :: more, message =>
      let message := message ++ bytes.takeWhile (· ≠ '\x00')
      if Text.contains crlf message then more else unread more message
  | _ :: more, _ => more

/-- The commands passed to the parser while a connection delivers the results,
by the call of `receiveMessage` that has read `message` and the calls after
it. -/
def passedFrom : List Recv → Str → List Str
  | [], message => commandsOf message
  | .data bytes :: more, message =>
      let message := message ++ bytes.takeWhile (· ≠ '\x00')
      if Text.contains crlf message then commandsOf message ++ passedFrom more []
      else passedFrom more message
  | .again :: more, message => commandsOf message ++ passedFrom more []
  | .closed :: _, _ | .error :: _, _ => []

/-- The commands passed to the parser while a connection delivers the
results. -/
def passed (results : List Recv) : List Str := passedFrom results []

/-- Each call passes the commands of its message, and the next call goes on with
the results it left. -/
theorem passedFrom_eq (results : List Recv) (message : Str) :
    passedFrom results message =
      match receiveLoop results message with
      | .message text => commandsOf text ++ passed (unread results message)
      | .closed | .failed => [] := by
  induction results generalizing message with
  | nil =>
      have hnil : passed [] = [] := by decide
      simp [passedFrom, receiveLoop, unread, hnil]
  | cons result more ih =>
      cases result with
      | data bytes =>
          simp only [passedFrom, receiveLoop, unread]
          by_cases hline : Text.contains crlf (message ++ bytes.takeWhile (· ≠ '\x00')) = true
          · simp only [hline, if_true]
            rfl
          · simp only [hline]
            exact ih _
      | closed => rfl
      | again => rfl
      | error => rfl

/-- The bytes a result of `recv` delivers. -/
def Recv.bytes : Recv → Str
  | .data bytes => bytes
  | _ => []

/-- `recv` delivers bytes, or has none at the moment. -/
def Recv.flows : Recv → Bool
  | .data bytes => bytes ≠ [] && bytes.length < 1024
  | .again => true
  | .closed | .error => false

/-- The results are one way in which `stream` may arrive. -/
structure Slicing (stream : Str) (results : List Recv) : Prop where
  flows : ∀ result ∈ results, result.flows = true
  bytes : results.flatMap Recv.bytes = stream

instance (stream : Str) (results : List Recv) : Decidable (Slicing stream results) :=
  decidable_of_iff ((∀ result ∈ results, result.flows = true) ∧ results.flatMap Recv.bytes = stream)
    ⟨fun h => ⟨h.1, h.2⟩, fun h => ⟨h.1, h.2⟩⟩

/-- Bytes that can get lost between two others: packets that start with a zero
byte. -/
def Dropped (gap : Str) : Prop :=
  ∃ packets : List Str, gap = packets.flatten ∧
    ∀ packet ∈ packets, packet.head? = some '\x00' ∧ packet.length < 1024

/-- Some packets make a command of a part of the stream: it has a `/` with a
line feed somewhere behind it, or a CRLF, possibly with bytes in between that
get lost. -/
def Framable (stream : Str) : Prop :=
  List.Sublist ['/', '\n'] stream ∨
    ∃ start gap rest, stream = start ++ '\r' :: gap ++ '\n' :: rest ∧ Dropped gap

/-- A message yields a command when it has the terminator it is cut at. -/
theorem commandsOf_eq_nil {message : Str} :
    commandsOf message = [] ↔
      if message.head? = some '/' then '\n' ∉ message else ¬ crlf <:+: message := by
  unfold commandsOf
  split
  · rw [Text.cut_dropLast_eq_nil (by decide), show "\n".toList = ['\n'] from rfl,
      Text.find_singleton_eq_none]
  · rw [Text.cut_dropLast_eq_nil (by decide), Text.find_eq_none_iff]

/-- A message put together from packets, of each of which `receiveMessage`
keeps the bytes before the first zero byte. -/
inductive Assembled : Str → Str → Prop
  | nil : Assembled [] []
  | packet {bytes message : Str} (packet : Str) (hsize : packet.length < 1024)
      (h : Assembled bytes message) :
      Assembled (bytes ++ packet) (message ++ packet.takeWhile (· ≠ '\x00'))

/-- A packet is what is kept of it, and a rest that is empty or starts with a
zero byte. -/
theorem packet_split (packet : Str) :
    ∃ lost, packet = packet.takeWhile (· ≠ '\x00') ++ lost ∧
      (lost = [] ∨ lost.head? = some '\x00') := by
  refine ⟨packet.dropWhile (· ≠ '\x00'), (List.takeWhile_append_dropWhile).symm, ?_⟩
  cases h : packet.dropWhile (· ≠ '\x00') with
  | nil => exact Or.inl rfl
  | cons c rest =>
      have hc := List.head?_dropWhile_not (· ≠ '\x00') packet
      rw [h] at hc
      exact Or.inr (by simpa using hc)

/-- Nothing need get lost. -/
theorem Dropped.nil : Dropped [] := ⟨[], rfl, by simp⟩

/-- What a packet loses can get lost. -/
theorem Dropped.append {gap lost : Str} (h : Dropped gap)
    (hlost : lost = [] ∨ lost.head? = some '\x00') (hsize : lost.length < 1024) :
    Dropped (gap ++ lost) := by
  obtain ⟨packets, rfl, hpackets⟩ := h
  rcases hlost with rfl | hlost
  · exact ⟨packets, by simp, hpackets⟩
  · refine ⟨packets ++ [lost], by simp, ?_⟩
    intro packet hmem
    rcases List.mem_append.mp hmem with hmem | hmem
    · exact hpackets packet hmem
    · exact List.mem_singleton.mp hmem ▸ ⟨hlost, hsize⟩

namespace Assembled

variable {bytes message : Str}

/-- A message keeps the order of the bytes. -/
theorem sublist (h : Assembled bytes message) : List.Sublist message bytes := by
  induction h with
  | nil => exact List.Sublist.refl _
  | packet packet hsize h ih => exact ih.append (List.takeWhile_sublist _)

/-- Where the last byte of a message comes from. -/
theorem last {start : Str} {c : Char} (h : Assembled bytes message)
    (hmessage : message = start ++ [c]) :
    ∃ before gap, bytes = before ++ c :: gap ∧ Dropped gap := by
  induction h generalizing start with
  | nil => simp at hmessage
  | @packet bytes message packet hsize h ih =>
      obtain ⟨lost, hpacket, hlost⟩ := packet_split packet
      have hlength : lost.length < 1024 := by
        have := congrArg List.length hpacket
        rw [List.length_append] at this
        omega
      rcases List.eq_nil_or_concat (packet.takeWhile (· ≠ '\x00')) with hkept | ⟨kept, d, hkept⟩
      · rw [hkept, List.append_nil] at hmessage
        obtain ⟨before, gap, hbytes, hgap⟩ := ih hmessage
        refine ⟨before, gap ++ lost, ?_, hgap.append hlost hlength⟩
        rw [hpacket, hkept, hbytes]
        simp
      · rw [List.concat_eq_append] at hkept
        rw [hkept, ← List.append_assoc] at hmessage
        obtain ⟨-, hcd⟩ := List.append_inj' hmessage rfl
        obtain rfl : d = c := by simpa using hcd
        refine ⟨bytes ++ kept, lost, ?_, by simpa using Dropped.nil.append hlost hlength⟩
        rw [hpacket, hkept]
        simp

/-- Where a CRLF of a message comes from. -/
theorem crlf_split (h : Assembled bytes message) (hline : crlf <:+: message) :
    ∃ start gap rest, bytes = start ++ '\r' :: gap ++ '\n' :: rest ∧ Dropped gap := by
  induction h with
  | nil => simp [crlf] at hline
  | @packet bytes message packet hsize h ih =>
      obtain ⟨lost, hpacket, _⟩ := packet_split packet
      generalize packet.takeWhile (· ≠ '\x00') = kept at hpacket hline
      have hinside : ∀ start rest, kept = start ++ '\r' :: '\n' :: rest →
          ∃ start gap rest, bytes ++ packet = start ++ '\r' :: gap ++ '\n' :: rest ∧
            Dropped gap := by
        intro start rest hkept
        refine ⟨bytes ++ start, [], rest ++ lost, ?_, Dropped.nil⟩
        simp [hpacket, hkept]
      obtain ⟨start, rest, hsplit⟩ := hline
      rw [show crlf = ['\r', '\n'] from rfl, List.append_assoc, eq_comm,
        List.append_eq_append_iff] at hsplit
      rcases hsplit with ⟨between, _, hkept⟩ | ⟨between, hmessage, hrest⟩
      · exact hinside between rest hkept
      · match between with
        | [] => exact hinside [] rest hrest.symm
        | [c] =>
            -- the CRLF is cut by the packet boundary
            simp only [List.cons_append, List.nil_append, List.cons.injEq] at hrest
            obtain ⟨rfl, hkept⟩ := hrest
            obtain ⟨before, gap, hbytes, hgap⟩ := h.last hmessage
            refine ⟨before, gap, rest ++ lost, ?_, hgap⟩
            rw [hpacket, hbytes, ← hkept]
            simp
        | c :: d :: between =>
            simp only [List.cons_append, List.nil_append, List.cons.injEq] at hrest
            obtain ⟨rfl, rfl, _⟩ := hrest
            obtain ⟨before, gap, after, hbytes, hgap⟩ :=
              ih ⟨start, between, by simp [hmessage, crlf]⟩
            exact ⟨before, gap, after ++ packet, by simp [hbytes], hgap⟩

/-- A message that yields a command is put together from bytes of which packets
make a command. -/
theorem framable (h : Assembled bytes message) (hcommands : commandsOf message ≠ []) :
    Framable bytes := by
  rw [ne_eq, commandsOf_eq_nil] at hcommands
  split at hcommands
  · rename_i hslash
    have hnewline : '\n' ∈ message := not_not.mp hcommands
    refine Or.inl (List.Sublist.trans ?_ h.sublist)
    cases message with
    | nil => cases hslash
    | cons c text =>
        obtain rfl : c = '/' := by simpa using hslash
        have htext : '\n' ∈ text := by simpa using hnewline
        exact (List.singleton_sublist.mpr htext).cons_cons '/'
  · exact Or.inr (h.crlf_split (not_not.mp hcommands))

end Assembled

/-- Parts of a stream that make no command are parts of a stream that does. -/
theorem Framable.append {stream : Str} (h : Framable stream) (before after : Str) :
    Framable (before ++ stream ++ after) := by
  rcases h with hslash | ⟨start, gap, rest, rfl, hgap⟩
  · have hpart : stream.Sublist (before ++ stream ++ after) :=
      (List.sublist_append_right before stream).trans (List.sublist_append_left _ after)
    exact Or.inl (hslash.trans hpart)
  · exact Or.inr ⟨before ++ start, gap, rest ++ after, by simp, hgap⟩

/-- No way in which the rest of the stream arrives makes a command. -/
theorem passedFrom_eq_nil {results : List Recv} (before : Str) {bytes message : Str}
    (hflows : ∀ result ∈ results, result.flows = true) (hmessage : Assembled bytes message)
    (h : ¬ Framable (before ++ bytes ++ results.flatMap Recv.bytes)) :
    passedFrom results message = [] := by
  induction results generalizing before bytes message with
  | nil =>
      by_contra hcommands
      exact h ((hmessage.framable hcommands).append before _)
  | cons result more ih =>
      have hmore : ∀ result ∈ more, result.flows = true := fun r hr =>
        hflows r (List.mem_cons_of_mem _ hr)
      have hflow := hflows result List.mem_cons_self
      have hnone : ∀ {bytes message after : Str}, Assembled bytes message →
          ¬ Framable (before ++ bytes ++ after) → commandsOf message = [] := by
        intro bytes message after hmessage h
        by_contra hcommands
        exact h ((hmessage.framable hcommands).append before after)
      cases result with
      | closed => cases hflow
      | error => cases hflow
      | again =>
          have hfirst : commandsOf message = [] := hnone hmessage h
          rw [passedFrom, hfirst, List.nil_append]
          exact ih (before ++ bytes) hmore Assembled.nil (by simpa [Recv.bytes] using h)
      | data packet =>
          simp only [Recv.flows, Bool.and_eq_true, decide_eq_true_eq] at hflow
          have hnext := hmessage.packet packet hflow.2
          have hrest : ¬ Framable (before ++ (bytes ++ packet) ++ more.flatMap Recv.bytes) := by
            simpa [Recv.bytes] using h
          simp only [passedFrom]
          split
          · rw [hnone hnext hrest, List.nil_append]
            exact ih (before ++ (bytes ++ packet)) hmore Assembled.nil (by simpa using hrest)
          · exact ih before hmore hnext hrest

/-- The stream arrives one byte at a time. -/
def bytewise (stream : Str) : List Recv := stream.flatMap fun c => [.data [c], .again]

/-- Single bytes are a slicing. -/
theorem slicing_bytewise (stream : Str) : Slicing stream (bytewise stream) := by
  constructor
  · intro result hmem
    simp only [bytewise, List.mem_flatMap, List.mem_cons, List.not_mem_nil, or_false] at hmem
    obtain ⟨c, _, rfl | rfl⟩ := hmem <;> simp [Recv.flows]
  · induction stream with
    | nil => rfl
    | cons c stream ih => simpa [bytewise, Recv.bytes] using ih

/-- Slicings of two streams make one of both. -/
theorem Slicing.append {first second : Str} {results more : List Recv}
    (h : Slicing first results) (hmore : Slicing second more) :
    Slicing (first ++ second) (results ++ more) := by
  constructor
  · intro result hmem
    rcases List.mem_append.mp hmem with hmem | hmem
    · exact h.flows result hmem
    · exact hmore.flows result hmem
  · rw [List.flatMap_append, h.bytes, hmore.bytes]

/-- Packets of admissible size are a way in which their bytes may arrive. -/
theorem slicing_packets (packets : List Str)
    (h : ∀ packet ∈ packets, packet ≠ [] ∧ packet.length < 1024) :
    Slicing packets.flatten (packets.map .data) := by
  constructor
  · intro result hmem
    obtain ⟨packet, hpacket, rfl⟩ := List.mem_map.mp hmem
    simpa [Recv.flows] using h packet hpacket
  · rw [List.flatMap_map]
    exact List.flatMap_id

/-- A text without a line feed has no CRLF. -/
theorem contains_crlf_of_not_mem {text : Str} (h : '\n' ∉ text) :
    Text.contains crlf text = false := by
  have hnone : Text.find crlf text = none := Text.find_eq_none_iff.mpr fun hline =>
    h (hline.subset (by decide))
  simp [Text.contains, hnone]

/-- What `receiveMessage` keeps of a single byte. -/
theorem takeWhile_byte (c : Char) : [c].takeWhile (· ≠ '\x00') = [c].filter (· ≠ '\x00') := by
  by_cases hc : c = '\x00' <;> simp [hc]

/-- A single byte is no command. -/
theorem passedFrom_byte (c : Char) (more : List Recv) :
    passedFrom (.data [c] :: .again :: more) [] = passedFrom more [] := by
  by_cases hc : c = '\n'
  · subst hc
    rfl
  · by_cases hzero : c = '\x00'
    · subst hzero
      rfl
    · have hkept : [c].takeWhile (· ≠ '\x00') = [c] := by simp [hzero]
      have hnewline : '\n' ∉ [c] := by simpa [eq_comm] using hc
      have hnone : commandsOf [c] = [] := by
        rw [commandsOf_eq_nil]
        split
        · exact hnewline
        · exact fun hline => hnewline (hline.subset (by decide))
      simp only [passedFrom, List.nil_append, hkept, contains_crlf_of_not_mem hnewline, hnone]
      rfl

/-- Bytes that arrive one at a time are lost. -/
theorem passedFrom_bytewise (stream : Str) (more : List Recv) :
    passedFrom (bytewise stream ++ more) [] = passedFrom more [] := by
  induction stream with
  | nil => rfl
  | cons c stream ih => exact (passedFrom_byte c _).trans ih

/-- Bytes that arrive one at a time, but without a pause, are put together. -/
theorem passedFrom_bytes {text message : Str} (htext : '\n' ∉ text) (hmessage : '\n' ∉ message)
    (more : List Recv) :
    passedFrom (text.map (fun c => .data [c]) ++ more) message =
      passedFrom more (message ++ text.filter (· ≠ '\x00')) := by
  induction text generalizing message with
  | nil => simp
  | cons c text ih =>
      simp only [List.mem_cons, not_or] at htext
      have hkept : '\n' ∉ message ++ [c].filter (· ≠ '\x00') := by
        intro hmem
        rcases List.mem_append.mp hmem with hmem | hmem
        · exact hmessage hmem
        · exact htext.1 (List.mem_singleton.mp (List.mem_filter.mp hmem).1)
      simp only [List.map_cons, List.cons_append, passedFrom, takeWhile_byte,
        contains_crlf_of_not_mem hkept]
      rw [if_neg (by simp), ih htext.2 hkept, List.append_assoc, ← List.filter_append]
      rfl

/-- Packets that start with a zero byte are lost. -/
theorem passedFrom_dropped {packets : List Str} {message : Str} (hmessage : '\n' ∉ message)
    (hpackets : ∀ packet ∈ packets, packet.head? = some '\x00') (more : List Recv) :
    passedFrom (packets.map .data ++ more) message = passedFrom more message := by
  induction packets with
  | nil => rfl
  | cons packet packets ih =>
      have hkept : packet.takeWhile (· ≠ '\x00') = [] := by
        have hhead := hpackets packet List.mem_cons_self
        cases packet with
        | nil => rfl
        | cons c rest =>
            obtain rfl : c = '\x00' := by simpa using hhead
            rfl
      simp only [List.map_cons, List.cons_append, passedFrom, hkept, List.append_nil,
        contains_crlf_of_not_mem hmessage]
      exact ih fun p hp => hpackets p (List.mem_cons_of_mem _ hp)

/-- A message that yields a command when a line feed completes it. -/
theorem passedFrom_newline {message : Str} (more : List Recv)
    (h : commandsOf (message ++ ['\n']) ≠ []) :
    passedFrom (.data ['\n'] :: .again :: more) message ≠ [] := by
  have hkept : ['\n'].takeWhile (· ≠ '\x00') = ['\n'] := rfl
  simp only [passedFrom, hkept]
  split <;> simp [h]

/-- From a stream of which packets can make a command, some packets make one. -/
theorem Framable.exists_slicing {stream : Str} (h : Framable stream) :
    ∃ results, Slicing stream results ∧ passed results ≠ [] := by
  rcases h with hslash | ⟨start, gap, rest, rfl, packets, rfl, hpackets⟩
  · obtain ⟨before, after, rfl, hbefore, hafter⟩ := List.cons_sublist_iff.mp hslash
    obtain ⟨start, text, rfl⟩ := List.append_of_mem hbefore
    have hnewline : '\n' ∈ text ++ after :=
      List.mem_append_right text (List.singleton_sublist.mp hafter)
    obtain ⟨line, rest, hline, hfirst⟩ := List.eq_append_cons_of_mem hnewline
    refine ⟨bytewise start ++ (('/' :: line).map (fun c => .data [c]) ++
      (.data ['\n'] :: .again :: bytewise rest)), ?_, ?_⟩
    · have hbytes := slicing_packets (('/' :: line).map ([·])) (by simp)
      have hall := (slicing_bytewise start).append (hbytes.append (slicing_bytewise ('\n' :: rest)))
      simpa [hline, bytewise, ← List.flatMap_def, Function.comp_def] using hall
    · rw [passed, passedFrom_bytewise, passedFrom_bytes (by simpa using hfirst) (by simp)]
      refine passedFrom_newline _ ?_
      rw [ne_eq, commandsOf_eq_nil]
      simp
  · refine ⟨bytewise start ++ (.data ['\r'] :: packets.map .data ++
      (.data ['\n'] :: .again :: bytewise rest)), ?_, ?_⟩
    · have hbytes := slicing_packets (['\r'] :: packets) (by
        intro packet hmem
        rcases List.mem_cons.mp hmem with rfl | hmem
        · decide
        · obtain ⟨hhead, hsize⟩ := hpackets packet hmem
          refine ⟨?_, hsize⟩
          rintro rfl
          cases hhead)
      have hall := (slicing_bytewise start).append (hbytes.append (slicing_bytewise ('\n' :: rest)))
      simpa [bytewise] using hall
    · have hcr : passedFrom (.data ['\r'] :: packets.map .data ++
          (.data ['\n'] :: .again :: bytewise rest)) [] =
          passedFrom (.data ['\n'] :: .again :: bytewise rest) ['\r'] :=
        passedFrom_dropped (by decide) (fun packet hmem => (hpackets packet hmem).1) _
      rw [passed, passedFrom_bytewise, hcr]
      exact passedFrom_newline _ (by decide)

/-- **Framing and packets.**  The commands passed to the parser are the same for
all ways in which a stream may arrive, if and only if no packets make a command
of a part of the stream, and then none is passed. -/
theorem framing_independent_iff (stream : Str) :
    (∀ results results', Slicing stream results → Slicing stream results' →
      passed results = passed results') ↔ ¬ Framable stream := by
  constructor
  · intro hall hframable
    obtain ⟨results, hresults, hpassed⟩ := hframable.exists_slicing
    have hnone : passed (bytewise stream) = [] := by
      have h := passedFrom_bytewise stream []
      rw [List.append_nil] at h
      exact h
    exact hpassed ((hall results _ hresults (slicing_bytewise stream)).trans hnone)
  · intro hnot results results' h h'
    have hnone : ∀ results, Slicing stream results → passed results = [] := by
      intro results h
      refine passedFrom_eq_nil [] h.flows Assembled.nil ?_
      simpa [h.bytes] using hnot
    rw [hnone results h, hnone results' h']

/-- A command in one packet is passed, and lost when the packet is cut in
two. -/
theorem cut_command_is_lost :
    ¬ ∀ stream results results', Slicing stream results → Slicing stream results' →
      passed results = passed results' := by
  intro hall
  have h := hall "CAP LS\r\n".toList [.data "CAP LS\r\n".toList]
    [.data "CAP L".toList, .again, .data "S\r\n".toList] (by decide) (by decide)
  exact absurd h (by decide)

end Irc
