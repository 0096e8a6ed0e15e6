import Mathlib.Data.List.Nodup
import IrcServers.Irc.Moves

/-!
# Nicknames and registration stages

`NICK` enters a nickname in `nickList` under the descriptor of the client, and
`closeConnection` takes one entry of a descriptor out.  In a run in which every
line is handled for a connected client, the nickname of every client that has
one is listed under its descriptor, and no nickname is listed twice.  Two
clients therefore never carry the same accepted nickname, although a client
that has renamed itself leaves its old nicknames in the list.
-/

namespace Irc

/-- A client with a nickname has given the password, and one that is logged in
has a nickname. -/
structure Client.Staged (c : Client) : Prop where
  named : c.loged = true → c.hasNick = true
  authenticated : c.hasNick = true → c.isAuth = true

/-- A new client is at the first stage. -/
theorem Client.staged_connected (fd : Fd) (ip : Str) (port : Nat) :
    (Client.connected fd ip port).Staged := by
  constructor <;> simp [Client.connected]

/-- A registered client has been through `NICK`. -/
theorem Client.Staged.of_registered {c : Client} (h : c.Staged)
    (hregistered : c.registered = true) : c.hasNick = true := by
  simp only [Client.registered, Bool.and_eq_true] at hregistered
  exact h.named hregistered.2

namespace Tables

variable {t : Tables} {p q : ClientPtr} {fd f k : Fd}

/-- The client table, the memory and the nickname list agree. -/
structure Registry (t : Tables) : Prop where
  addresses : t.Addresses
  isOpen : ∀ {fd : Fd} {p : ClientPtr}, t.clients[fd]? = some p → fd ∈ t.openFds
  socket : ∀ {fd : Fd} {p : ClientPtr}, t.clients[fd]? = some p →
    (t.memory p).clientSocketFd = fd
  staged : ∀ {fd : Fd} {p : ClientPtr}, t.clients[fd]? = some p → (t.memory p).Staged
  listed : ∀ {fd : Fd} {p : ClientPtr}, t.clients[fd]? = some p →
    (t.memory p).hasNick = true → (fd, (t.memory p).nickname) ∈ t.nickList
  unique : (t.nickList.map Prod.snd).Nodup

/-- `q` is connected and carries the accepted nickname `nick`. -/
structure Carries (t : Tables) (q : ClientPtr) (nick : Str) : Prop where
  live : t.Live q
  hasNick : (t.memory q).hasNick = true
  nickname : (t.memory q).nickname = nick

/-- A list of pairs with distinct second components holds each of them once. -/
theorem eq_of_nodup_snd {α β : Type*} {l : List (α × β)} (h : (l.map Prod.snd).Nodup)
    {a a' : α} {b : β} (ha : (a, b) ∈ l) (ha' : (a', b) ∈ l) : a = a' :=
  congrArg Prod.fst (List.inj_on_of_nodup_map h ha ha' rfl)

/-- Two connected clients with the same accepted nickname are the same. -/
theorem Registry.nick_inj (h : t.Registry) (hp : t.Live p) (hq : t.Live q)
    (hpnick : (t.memory p).hasNick = true) (hqnick : (t.memory q).hasNick = true)
    (heq : (t.memory p).nickname = (t.memory q).nickname) : p = q := by
  obtain ⟨fd, hfd⟩ := hp
  obtain ⟨fd', hfd'⟩ := hq
  have hlisted := h.listed hfd hpnick
  rw [heq] at hlisted
  obtain rfl : fd = fd' := eq_of_nodup_snd h.unique hlisted (h.listed hfd' hqnick)
  exact Option.some.inj (hfd.symm.trans hfd')

/-- A nickname is listed when some entry carries it. -/
theorem isNickTaken_eq_false {nick : Str} :
    t.isNickTaken nick = false ↔ nick ∉ t.nickList.map Prod.snd := by
  simp only [isNickTaken, List.any_eq_false, decide_eq_true_eq, List.mem_map, not_exists, not_and]

/-- The nickname of a connected client is listed. -/
theorem Registry.nick_listed (h : t.Registry) (hp : t.Live p)
    (hnick : (t.memory p).hasNick = true) :
    (t.memory p).nickname ∈ t.nickList.map Prod.snd := by
  obtain ⟨fd, hfd⟩ := hp
  exact List.mem_map_of_mem (h.listed hfd hnick)

/-- The channels play no part. -/
theorem Registry.of_channels (h : t.Registry) (channels : Std.ExtTreeMap Str Channel) :
    { t with channels := channels }.Registry where
  addresses := h.addresses.of_sub rfl id
  isOpen := h.isOpen
  socket := h.socket
  staged := h.staged
  listed := h.listed
  unique := h.unique

/-- Changing one client keeps the agreement, if its descriptor stays and its
nickname, if any, is listed under it. -/
theorem Registry.setClient (h : t.Registry) (hp : t.clients[fd]? = some p)
    {g : Client → Client} (hsocket : (g (t.memory p)).clientSocketFd = fd)
    (hstaged : (g (t.memory p)).Staged)
    (hlisted : (g (t.memory p)).hasNick = true →
      (fd, (g (t.memory p)).nickname) ∈ t.nickList) :
    (t.setClient p g).Registry := by
  have hcases : ∀ {k : Fd} {q : ClientPtr}, t.clients[k]? = some q →
      k = fd ∧ q = p ∨ (t.setClient p g).memory q = t.memory q := by
    intro k q hk
    by_cases hq : q = p
    · subst hq
      exact Or.inl ⟨h.addresses.inj hk hp, rfl⟩
    · exact Or.inr (setClient_memory_ne t g hq)
  refine ⟨h.addresses.of_sub rfl id, h.isOpen, ?_, ?_, ?_, h.unique⟩
  · intro k q hk
    rcases hcases hk with ⟨rfl, rfl⟩ | hsame
    · simpa using hsocket
    · rw [hsame]
      exact h.socket hk
  · intro k q hk
    rcases hcases hk with ⟨rfl, rfl⟩ | hsame
    · simpa using hstaged
    · rw [hsame]
      exact h.staged hk
  · intro k q hk
    rcases hcases hk with ⟨rfl, rfl⟩ | hsame
    · rw [setClient_memory_self]
      exact hlisted
    · rw [hsame]
      exact h.listed hk

/-- Listing a nickname that is not taken. -/
theorem Registry.registerNick (h : t.Registry) {nick : Str}
    (hfree : t.isNickTaken nick = false) (id : Fd) : (t.registerNick nick id).Registry where
  addresses := h.addresses.of_sub rfl fun hk => hk
  isOpen := h.isOpen
  socket := h.socket
  staged := h.staged
  listed := fun hk hnick => List.mem_append_left _ (h.listed hk hnick)
  unique := by
    have hnew := isNickTaken_eq_false.mp hfree
    simp only [Tables.registerNick, List.map_append, List.map_cons, List.map_nil]
    exact List.nodup_append.mpr ⟨h.unique, List.nodup_singleton nick, by
      intro a ha b hb heq
      subst heq
      exact hnew (List.mem_singleton.mp hb ▸ ha)⟩

/-- A command line of a connected client keeps the agreement. -/
theorem Registry.effect (h : t.Registry) (hp : t.clients[fd]? = some p)
    {parts : List Str} {t' : Tables} (heffect : Effect p parts t t') : t'.Registry := by
  have hstaged := h.staged hp
  cases heffect with
  | quiet => exact h
  | authenticated hpass =>
      exact h.setClient hp (h.socket hp) ⟨hstaged.named, fun _ => rfl⟩ (h.listed hp)
  | renamed nick hnick =>
      obtain ⟨word, rest, hparts, hverb, hauth, hfree⟩ := hnick
      refine (h.registerNick hfree _).setClient hp (h.socket hp) ⟨fun _ => rfl, fun _ => hauth⟩ ?_
      intro _
      rw [h.socket hp]
      exact List.mem_append_right _ List.mem_cons_self
  | registered username clientIp realname huser =>
      obtain ⟨word, username', clientIp', name, rest, hparts, hverb, hnick, hname⟩ := huser
      exact h.setClient hp (h.socket hp) ⟨fun _ => hnick, hstaged.authenticated⟩ (h.listed hp)
  | joined name ch next hruns hch hnew hroom hnext => exact h.of_channels _
  | created name key hruns hlen hhash hch => exact h.of_channels _
  | parted names hruns hnames =>
      rw [leaveAll_frame]
      exact h.of_channels _
  | topicSet name topic ch hruns hch hop => exact h.of_channels _
  | kicked name target ch hruns hch hop hlive hmem htarget =>
      rw [leave_frame]
      exact h.of_channels _

/-- Closing a connection takes out only entries of its own descriptor. -/
theorem Registry.closeConnection (h : t.Registry) (f : Fd) :
    (t.closeConnection f).Registry := by
  by_cases hopen : f ∈ t.openFds
  · have hget : ∀ {k : Fd} {p : ClientPtr}, (t.closeConnection f).clients[k]? = some p →
        k ≠ f ∧ t.clients[k]? = some p := by
      intro k p hk
      rw [closeConnection_clients] at hk
      split at hk
      · cases hk
      · rename_i hkept
        exact ⟨fun hkf => hkept ⟨hopen, hkf.symm⟩, hk⟩
    have hmemory := closeConnection_memory t f
    refine ⟨h.addresses.closeConnection f, ?_, ?_, ?_, ?_, ?_⟩
    · intro k p hk
      obtain ⟨hne, hk⟩ := hget hk
      simpa [Tables.closeConnection, hopen, hne] using h.isOpen hk
    · intro k p hk
      rw [hmemory]
      exact h.socket (hget hk).2
    · intro k p hk
      rw [hmemory]
      exact h.staged (hget hk).2
    · intro k p hk hnick
      obtain ⟨hne, hk⟩ := hget hk
      rw [hmemory] at hnick ⊢
      have hmem := h.listed hk hnick
      simp only [Tables.closeConnection, hopen, if_true]
      exact (List.mem_eraseP_of_neg (by simpa using hne)).mpr hmem
    · simp only [Tables.closeConnection, hopen, if_true]
      exact (List.eraseP_sublist.map Prod.snd).nodup h.unique
  · rwa [Tables.closeConnection, if_neg hopen]

/-- What an accept on a descriptor without an entry does. -/
theorem acceptConnection_of_none (hfd : t.clients[fd]? = none) (ip : Str) (port : Nat) :
    t.acceptConnection fd ip port =
      { t with
          clients := t.clients.insert fd t.nextPtr
          memory := Function.update t.memory t.nextPtr (Client.connected fd ip port)
          nextPtr := t.nextPtr + 1
          openFds := fd :: t.openFds
          pollFds := t.pollFds ++ [fd] } := by
  simp [acceptConnection_eq, index, hfd, setClient]

/-- The entries after such an accept: the new one, at a new address, and the
old ones with their memory unchanged. -/
theorem accepted_entry (h : t.Addresses) (hfd : t.clients[fd]? = none) {ip : Str} {port : Nat}
    (hk : (t.acceptConnection fd ip port).clients[k]? = some p) :
    k = fd ∧ p = t.nextPtr ∧
        (t.acceptConnection fd ip port).memory p = Client.connected fd ip port ∨
      t.clients[k]? = some p ∧ (t.acceptConnection fd ip port).memory p = t.memory p := by
  rw [acceptConnection_of_none hfd] at hk ⊢
  rw [Std.ExtTreeMap.getElem?_insert] at hk
  split at hk
  · rename_i hkfd
    cases hk
    exact Or.inl ⟨(by simpa using hkfd : fd = k).symm, rfl, by simp⟩
  · have hne : p ≠ t.nextPtr := Nat.ne_of_lt (h.bound hk)
    exact Or.inr ⟨hk, by simp [hne]⟩

/-- A descriptor that is not open has no entry. -/
theorem Registry.absent (h : t.Registry) (hfresh : fd ∉ t.openFds) :
    t.clients[fd]? = none := by
  cases hfd : t.clients[fd]? with
  | none => rfl
  | some p => exact (hfresh (h.isOpen hfd)).elim

/-- A new client has no nickname that could be listed. -/
theorem Registry.acceptConnection (h : t.Registry) (hfresh : fd ∉ t.openFds) (ip : Str)
    (port : Nat) : (t.acceptConnection fd ip port).Registry := by
  have hfd := h.absent hfresh
  have hentry : ∀ {k : Fd} {p : ClientPtr},
      (t.acceptConnection fd ip port).clients[k]? = some p →
      k = fd ∧ p = t.nextPtr ∧
          (t.acceptConnection fd ip port).memory p = Client.connected fd ip port ∨
        t.clients[k]? = some p ∧ (t.acceptConnection fd ip port).memory p = t.memory p :=
    accepted_entry h.addresses hfd
  refine ⟨h.addresses.acceptConnection fd ip port, ?_, ?_, ?_, ?_, ?_⟩
  · intro k p hk
    rcases hentry hk with ⟨rfl, _, _⟩ | ⟨hk, _⟩
    · rw [acceptConnection_of_none hfd]
      exact List.mem_cons_self
    · rw [acceptConnection_of_none hfd]
      exact List.mem_cons_of_mem _ (h.isOpen hk)
  · intro k p hk
    rcases hentry hk with ⟨rfl, _, hmemory⟩ | ⟨hk, hmemory⟩
    · rw [hmemory]
      rfl
    · rw [hmemory]
      exact h.socket hk
  · intro k p hk
    rcases hentry hk with ⟨rfl, _, hmemory⟩ | ⟨hk, hmemory⟩
    · rw [hmemory]
      exact Client.staged_connected _ ip port
    · rw [hmemory]
      exact h.staged hk
  · intro k p hk hnick
    rcases hentry hk with ⟨rfl, _, hmemory⟩ | ⟨hk, hmemory⟩
    · rw [hmemory] at hnick
      cases hnick
    · rw [hmemory] at hnick ⊢
      rw [acceptConnection_of_none hfd]
      exact h.listed hk hnick
  · rw [acceptConnection_of_none hfd]
    exact h.unique

end Tables

/-- No nickname is listed at the start. -/
theorem registry_start {w : World} (h : Start w) : w.srv.Registry := by
  obtain ⟨password, host, serverSocket, botSocket, _, rfl⟩ := h
  refine ⟨addresses_start ⟨password, host, serverSocket, botSocket, ‹_›, rfl⟩,
    ?_, ?_, ?_, ?_, ?_⟩ <;>
    simp [initial]

/-- A step of an attended run keeps the list and the clients in agreement. -/
theorem registry_step {w next : World} {a : Action} (h : w.srv.Registry)
    (hattended : Attended w a) (hstep : step w a = some next) : next.srv.Registry := by
  have hturn := step_turn hattended hstep
  generalize next.srv.toTables = t' at hturn ⊢
  cases hturn with
  | accepted fd ip port ha hfresh => exact h.acceptConnection hfresh ip port
  | received fd results ha => exact h
  | closed f hclosing => exact h.closeConnection f
  | handled env fd p line lines _ ha hline hp heffect => exact h.effect hp heffect

/-- In an attended run the tables agree. -/
theorem registry_of_attended {trace : Run.Trace World Action} {w : World}
    (hrun : Steps trace w) (hattended : Run.Meets Attended trace) : w.srv.Registry :=
  hrun.invariant_of_meets (fun w => w.srv.Registry) (fun _ => registry_start)
    (fun _ _ _ => registry_step) hattended

/-- **Nicknames are unique.**  In a run in which every line is handled for a
connected client, two clients of the map that have taken a nickname have
different ones, and the nickname of each is taken. -/
theorem nicknames_unique {trace : Run.Trace World Action} {w : World}
    (hrun : Steps trace w) (hattended : Run.Meets Attended trace) :
    (∀ (fd fd' : Fd) (p q : ClientPtr), w.srv.clients[fd]? = some p →
      w.srv.clients[fd']? = some q → fd ≠ fd' →
      (w.srv.memory p).hasNick = true → (w.srv.memory q).hasNick = true →
      (w.srv.memory p).nickname ≠ (w.srv.memory q).nickname) ∧
    (∀ (fd : Fd) (p : ClientPtr), w.srv.clients[fd]? = some p →
      (w.srv.memory p).hasNick = true → w.srv.isNickTaken (w.srv.memory p).nickname = true) := by
  have h := registry_of_attended hrun hattended
  constructor
  · intro fd fd' p q hp hq hne hpnick hqnick heq
    obtain rfl : p = q := h.nick_inj ⟨fd, hp⟩ ⟨fd', hq⟩ hpnick hqnick heq
    exact hne (h.addresses.inj hp hq)
  · intro fd p hp hnick
    have hlisted := h.nick_listed ⟨fd, hp⟩ hnick
    exact eq_true_of_ne_false fun hfree => Tables.isNickTaken_eq_false.mp hfree hlisted

/-- A client renames itself twice and disconnects, and a client that got the
same descriptor takes one of its nicknames. -/
theorem nicknames_unique_renamed : ∃ trace w, Steps trace w ∧
    w.srv.clients[(5 : Fd)]? = some 1 ∧ (w.srv.memory 1).nickname = "a".toList ∧
    w.srv.isNickTaken "a".toList = true := by
  obtain ⟨trace, w, hrun, hmeets, htest⟩ := Run.exists_steps_meeting step Attended start_pw
    (.accept 5 "10.0.0.1".toList 40000 :: packet 5 ["PASS pw", "NICK a", "NICK b", "NICK c"] ++
      .receive 5 [.closed] :: .accept 5 "10.0.0.2".toList 40000 ::
      packet 5 ["PASS pw", "NICK b", "NICK a"])
    (fun w => w.srv.clients[(5 : Fd)]? = some 1 ∧ (w.srv.memory 1).hasNick = true ∧
      (w.srv.memory 1).nickname = "a".toList) (by decide +kernel)
  obtain ⟨hclient, hnick, hname⟩ := of_decide_eq_true htest
  refine ⟨trace, w, hrun, hclient, hname, ?_⟩
  rw [← hname]
  exact (nicknames_unique hrun hmeets).2 5 1 hclient hnick

end Irc
