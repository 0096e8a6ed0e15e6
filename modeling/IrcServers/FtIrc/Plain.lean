import IrcServers.FtIrc.Reachable

/-!
# Line breaks in stored texts and in messages

The texts a client may be told about another one are stored in the clients and
the channels.  `Server.Plain` says that none of them has a carriage return or a
line feed; `Relays` follows what the handling of a line keeps of this and what
it sends to the clients that are not meant themselves.
-/

namespace FtIrc

open Utils Text Outcome

/-- The text has neither a carriage return nor a line feed. -/
def Unbroken (text : Str) : Prop := '\r' ∉ text ∧ '\n' ∉ text

instance (text : Str) : Decidable (Unbroken text) := inferInstanceAs (Decidable (_ ∧ _))

/-- One line of the protocol. -/
def ProtocolLine (text : Str) : Prop := ∃ body, Unbroken body ∧ text = body ++ crlf

@[simp] theorem unbroken_nil : Unbroken [] := by simp [Unbroken]

@[simp] theorem unbroken_append {a b : Str} : Unbroken (a ++ b) ↔ Unbroken a ∧ Unbroken b := by
  simp only [Unbroken, List.mem_append, not_or]
  tauto

@[simp] theorem unbroken_cons {c : Char} {a : Str} :
    Unbroken (c :: a) ↔ c ≠ '\r' ∧ c ≠ '\n' ∧ Unbroken a := by
  simp only [Unbroken, List.mem_cons, not_or, ne_eq, eq_comm (a := c)]
  tauto

/-- The characters of an unbroken text make unbroken texts. -/
theorem Unbroken.of_subset {a b : Str} (h : Unbroken b) (hsub : a ⊆ b) : Unbroken a :=
  ⟨fun hmem => h.1 (hsub hmem), fun hmem => h.2 (hsub hmem)⟩

/-- With its CRLF an unbroken text is a line of the protocol. -/
theorem Unbroken.line {body : Str} (h : Unbroken body) : ProtocolLine (body ++ crlf) :=
  ⟨body, h, rfl⟩

@[simp] theorem unbroken_ite {c : Prop} [Decidable c] {a b : Str} :
    Unbroken (if c then a else b) ↔ (c → Unbroken a) ∧ (¬ c → Unbroken b) := by
  split <;> simp_all

/-- A number is written with digits, and a minus sign. -/
theorem digit_of_mem_toString {n : Int} {c : Char} (h : c ∈ Utils.toString n) :
    c.isDigit = true ∨ c = '-' := by
  have hdigit : ∀ m : Nat, c ∈ m.repr.toList → c.isDigit = true := by
    intro m hc
    rw [Nat.repr_eq_ofList_toDigits, String.toList_ofList] at hc
    exact Nat.isDigit_of_mem_toDigits (by decide) (by decide) hc
  unfold Utils.toString at h
  rw [Int.toString_eq_repr, Int.repr_eq_if] at h
  split at h
  · exact Or.inl (hdigit _ h)
  · rw [String.toList_append] at h
    rcases List.mem_append.mp h with hsign | hrest
    · exact Or.inr (by simpa using hsign)
    · exact Or.inl (hdigit _ hrest)

/-- A number is written without line breaks. -/
theorem unbroken_toString (n : Int) : Unbroken (Utils.toString n) := by
  constructor
  · intro hmem
    exact absurd (digit_of_mem_toString hmem) (by decide)
  · intro hmem
    exact absurd (digit_of_mem_toString hmem) (by decide)

/-- The texts of a client that others may be told. -/
structure Client.Plain (c : Client) : Prop where
  nickName : Unbroken c.nickName
  userName : Unbroken c.userName
  realName : Unbroken c.realName
  hostName : Unbroken c.hostName

/-- The source of a message is made of the texts of a client. -/
theorem Client.Plain.source {c : Client} (h : c.Plain) : Unbroken c.source := by
  simp [Client.source, h.nickName, h.userName]

/-- A client that may not see the host name is shown a fixed text. -/
theorem Client.Plain.shownHost {c : Client} (h : c.Plain) (shown : Prop) [Decidable shown] :
    Unbroken (if shown then c.hostName else "unknown".toList) :=
  unbroken_ite.mpr ⟨fun _ => h.hostName, fun _ => by decide⟩

/-- The texts of a channel that its members may be told; the topic is shown only
to the operator that asks for it. -/
structure Channel.Plain (ch : Channel) : Prop where
  name : Unbroken ch.name
  password : Unbroken ch.password

namespace Channel

variable {ch ch' : Channel} {memory : ClientPtr → Client} {p : ClientPtr}

/-- Only the name and the password of a channel matter. -/
theorem Plain.of_eq (h : ch.Plain) (hname : ch'.name = ch.name)
    (hpassword : ch'.password = ch.password) : ch'.Plain :=
  ⟨hname ▸ h.name, hpassword ▸ h.password⟩

/-- So a new member does not. -/
theorem Plain.pushClient (h : ch.Plain) (p : ClientPtr) : (ch.pushClient p).Plain := h.of_eq rfl rfl

/-- Nor does a member that leaves. -/
theorem Plain.removeClient (h : ch.Plain) (client : Option ClientPtr) :
    (ch.removeClient memory client).Plain := by
  unfold Channel.removeClient
  split
  · exact h
  · split
    · exact h.of_eq rfl rfl
    · exact h

/-- Nor does a new operator. -/
theorem Plain.addOperator (h : ch.Plain) (hok : ch.addOperator p = .ok ch') : ch'.Plain := by
  unfold Channel.addOperator at hok
  split at hok
  · cases hok
  · cases hok
    exact h.of_eq rfl rfl

/-- Nor does the end of one. -/
theorem Plain.removeOperator (h : ch.Plain) {client : Option ClientPtr}
    (hok : ch.removeOperator client = .ok ch') : ch'.Plain := by
  unfold Channel.removeOperator at hok
  split at hok
  · cases hok
  · split at hok
    · cases hok
      exact h.of_eq rfl rfl
    · cases hok

/-- Nor does a ban. -/
theorem Plain.addBan (h : ch.Plain) (hok : ch.addBan memory p = .ok ch') : ch'.Plain := by
  unfold Channel.addBan at hok
  split at hok
  · cases hok
  · cases hok
    have hbanned : { ch with bans := ch.bans ++ [p] }.Plain := h.of_eq rfl rfl
    exact hbanned.removeClient _

/-- Nor does the lifting of one. -/
theorem Plain.removeBan (h : ch.Plain) (hok : ch.removeBan memory p = .ok ch') : ch'.Plain := by
  unfold Channel.removeBan at hok
  split at hok
  · cases hok
    exact h.of_eq rfl rfl
  · cases hok

/-- Nor does an invitation. -/
theorem Plain.addInvite (h : ch.Plain) (hok : ch.addInvite p = .ok ch') : ch'.Plain := by
  unfold Channel.addInvite at hok
  split at hok
  · cases hok
  · cases hok
    exact h.of_eq rfl rfl

/-- The modes show the password and a number. -/
theorem Plain.getModes (h : ch.Plain) : Unbroken ch.getModes := by
  have hlimit : Unbroken ch.getLimit.repr.toList := unbroken_toString ch.getLimit
  simp [Channel.getModes, h.password, hlimit]

end Channel

/-- No text that the server may relay has a line break. -/
structure Server.Plain (s : Server) : Prop where
  name : Unbroken s.name
  memory : ∀ p, (s.memory p).Plain
  channels : ∀ ch ∈ s.channels, ch.Plain

/-- No stored text got a line break, and what was sent to other descriptors than
`own` is lines of the protocol. -/
structure Server.Relays (own : Option Fd) (s s' : Server) : Prop where
  plain : s'.Plain
  sent : ∃ messages, s'.sent = s.sent ++ messages ∧
    ∀ message ∈ messages, own ≠ some message.1 → ProtocolLine message.2

namespace Server

variable {s s' s'' : Server} {own : Option Fd} {ch : Channel} {p : ClientPtr} {fd : Fd} {text : Str}

/-- The texts of a channel that is found have no line break. -/
theorem Plain.getChannel (h : s.Plain) {name : Str} (hch : s.getChannel name = some ch) :
    ch.Plain :=
  h.channels ch (mem_of_getChannel hch)

namespace Relays

/-- Nothing is relayed when nothing happens. -/
theorem refl (h : s.Plain) : s.Relays own s := ⟨h, [], (List.append_nil _).symm, by simp⟩

/-- What is relayed in two steps is relayed. -/
theorem trans (h : s.Relays own s') (h' : s'.Relays own s'') : s.Relays own s'' := by
  obtain ⟨messages, hsent, hlines⟩ := h.sent
  obtain ⟨messages', hsent', hlines'⟩ := h'.sent
  refine ⟨h'.plain, messages ++ messages', by rw [hsent', hsent, List.append_assoc], ?_⟩
  intro message hmem
  exact (List.mem_append.mp hmem).elim (hlines message) (hlines' message)

/-- Lines to everybody are lines to the others too. -/
theorem of_none (h : s.Relays none s') : s.Relays own s' := by
  obtain ⟨messages, hsent, hlines⟩ := h.sent
  exact ⟨h.plain, messages, hsent, fun message hmem _ => hlines message hmem (by simp)⟩

/-- A change of the state that sends nothing. -/
theorem change (h : s.Relays own s') (hplain : s''.Plain) (hsent : s''.sent = s'.sent) :
    s.Relays own s'' :=
  ⟨hplain, hsent ▸ h.sent⟩

/-- Lines may be sent to the others, and anything to `own`. -/
theorem sendAll (h : s.Relays own s') {messages : List (Fd × Str)}
    (hlines : ∀ message ∈ messages, own ≠ some message.1 → ProtocolLine message.2) :
    s.Relays own (s'.sendAll messages) :=
  h.trans ⟨⟨h.plain.name, h.plain.memory, h.plain.channels⟩, messages, rfl, hlines⟩

/-- So may a single one. -/
theorem send (h : s.Relays own s') (hline : own ≠ some fd → ProtocolLine text) :
    s.Relays own (s'.send fd text) :=
  h.sendAll fun _ hmem => List.mem_singleton.mp hmem ▸ hline

/-- The same message to several clients. -/
theorem broadcast (h : s.Relays own s') {clients : List ClientPtr}
    (hline : ∀ p ∈ clients, own ≠ some (s'.memory p).fd → ProtocolLine text) :
    s.Relays own (s'.broadcast clients text) := by
  refine h.sendAll fun message hmem hnot => ?_
  obtain ⟨fd, hfd, rfl⟩ := List.mem_map.mp hmem
  obtain ⟨p, hp, rfl⟩ := List.mem_map.mp hfd
  exact hline p hp hnot

/-- The texts of a client may be replaced by plain ones. -/
theorem setClient (h : s.Relays own s') {f : Client → Client} (hf : (f (s'.memory p)).Plain) :
    s.Relays own (s'.setClient p f) := by
  refine h.change ⟨h.plain.name, fun q => ?_, h.plain.channels⟩ rfl
  by_cases hq : q = p
  · subst hq
    simpa [Server.setClient] using hf
  · simpa [Server.setClient, hq] using h.plain.memory q

/-- So may those of a channel. -/
theorem putChannel (h : s.Relays own s') (hch : ch.Plain) : s.Relays own (s'.putChannel ch) := by
  refine h.change ⟨h.plain.name, h.plain.memory, fun c hc => ?_⟩ rfl
  obtain ⟨old, hold, rfl⟩ := List.mem_map.mp hc
  split
  · exact hch
  · exact h.plain.channels old hold

/-- A channel with plain texts may be added. -/
theorem addChannel (h : s.Relays own s') (hch : ch.Plain) : s.Relays own (s'.addChannel ch) := by
  refine h.change ⟨h.plain.name, h.plain.memory, fun c hc => ?_⟩ rfl
  rcases List.mem_append.mp hc with hc | hc
  · exact h.plain.channels c hc
  · rwa [List.mem_singleton.mp hc]

/-- A removed client leaves its record behind, and nothing is sent. -/
theorem removeClient (h : s.Relays own s') (fd : Fd) : s.Relays own (s'.removeClient fd) := by
  refine h.change ⟨?_, fun p => ?_, fun c hc => ?_⟩ (s'.removeClient_sent fd)
  · rw [removeClient_eq]
    exact h.plain.name
  · have hrecord := s'.removeClient_record fd p
    have hold := h.plain.memory p
    exact ⟨hrecord.nickName ▸ hold.nickName, hrecord.userName ▸ hold.userName,
      hrecord.realName ▸ hold.realName, hrecord.hostName ▸ hold.hostName⟩
  · rw [channels_removeClient] at hc
    obtain ⟨old, hold, rfl⟩ := List.mem_map.mp hc
    exact (h.plain.channels old hold).removeClient _

/-- A message to the client itself. -/
theorem sendOwn (h : s.Relays (some fd) s') (text : Str) : s.Relays (some fd) (s'.send fd text) :=
  h.send fun hnot => (hnot rfl).elim

/-- Anything may be sent to `own`. -/
theorem sendAllOwn (h : s.Relays (some fd) s') {messages : List (Fd × Str)}
    (hown : ∀ message ∈ messages, message.1 = fd) : s.Relays (some fd) (s'.sendAll messages) :=
  h.sendAll fun message hmem hnot => (hnot (congrArg some (hown message hmem).symm)).elim

/-- An exception whose reply goes to the client itself. -/
theorem throwClient (h : s.Relays (some fd) s') (e : Exception) (text : Str) :
    (s'.throwClient fd e text).Leaves (s.Relays (some fd)) :=
  leaves_thrown.mpr (h.sendOwn _)

/-- A channel operation that may throw. -/
theorem update (h : s.Relays own s') {changed : Except Exception Channel}
    {next : Channel → Server → Result} (hplain : ∀ ch', changed = .ok ch' → ch'.Plain)
    (hnext : ∀ ch' s', s.Relays own s' → (next ch' s').Leaves (s.Relays own)) :
    (s'.update changed next).Leaves (s.Relays own) := by
  cases changed with
  | ok ch' => exact hnext ch' _ (h.putChannel (hplain ch' rfl))
  | error e => exact leaves_thrown.mpr h

end Relays

end Server

end FtIrc
