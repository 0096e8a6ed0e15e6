import IrcServers.Irc.Rosters

/-!
# Operators

A channel remembers its operator by nickname.  `TOPIC` and `KICK` compare that
nickname with the issuer's, so the authority belongs to whoever carries it.
Two questions are settled here for attended runs.

The first is safety: when does only a member that was made operator of the
channel exercise the authority.  It is enough that no disconnect frees a
nickname some channel still names as its operator, and that a departing
operator is succeeded by a connected client.

The second is that every channel is led by exactly one of its connected
members.  For that no operator may change its nickname or disconnect while it
is on the channel.
-/

namespace Irc

/-- `p` is on a channel whose operator has the nickname of `p`. -/
def Tables.Operates (t : Tables) (p : ClientPtr) : Prop :=
  ∃ (name : Str) (ch : Channel), t.channels[name]? = some ch ∧
    p ∈ ch.curClients ∧ ch.opNick = (t.memory p).nickname

/-- Some channel has an operator of that nickname. -/
def Tables.LedBy (t : Tables) (nick : Str) : Prop :=
  ∃ (name : Str) (ch : Channel), t.channels[name]? = some ch ∧ ch.opNick = nick

instance (t : Tables) (p : ClientPtr) : Decidable (t.Operates p) :=
  decidable_of_iff _ (Tables.exists_channel_iff
    (P := fun ch => p ∈ ch.curClients ∧ ch.opNick = (t.memory p).nickname))

instance (t : Tables) (nick : Str) : Decidable (t.LedBy nick) :=
  decidable_of_iff _ (Tables.exists_channel_iff (P := fun ch => ch.opNick = nick))

/-- The words of the line a step handles, with the client it comes from. -/
def World.issued (w : World) : Action → Option (ClientPtr × List Str)
  | .command _ =>
      w.current.bind fun current =>
        (w.srv.clients[current.1]?).map fun p => (p, commandParts current.2)
  | _ => none

/-- A line is issued by the client stored under its descriptor. -/
theorem World.issued_command {w : World} {fd : Fd} {line : Str} {lines : List Str}
    {p : ClientPtr} (hline : w.reading = some (fd, line :: lines))
    (hp : w.srv.clients[fd]? = some p) (env : Env) :
    w.issued (.command env) = some (p, commandParts line) := by
  simp [World.issued, World.current, hline, hp]

/-- Every departure the line causes hands the channel on to a connected
client, if it hands it on. -/
def SuccessorsLive (w : World) (a : Action) : Prop :=
  ∀ issued ∈ w.issued a, ∀ departure ∈ departing w.srv.toTables issued.1 issued.2,
    w.srv.SuccessorLive departure.1 departure.2

/-- Closing a descriptor takes no nickname out of `nickList` that a channel
names as its operator. -/
def KeepsOperatorNicks (w : World) (a : Action) : Prop :=
  ∀ f ∈ w.closing a, f ∈ w.srv.openFds →
    ∀ entry ∈ w.srv.nickList.find? (fun entry => entry.1 = f), ¬ w.srv.LedBy entry.2

/-- The condition for the authority of operators. -/
def KeepsAuthority (w : World) (a : Action) : Prop :=
  Attended w a ∧ KeepsOperatorNicks w a ∧ SuccessorsLive w a

/-- The line is a `NICK` that the handler accepts. -/
def Tables.acceptsNick (t : Tables) (p : ClientPtr) : List Str → Bool
  | word :: nick :: _ =>
      verbOf word = .nick && (t.memory p).isAuth && !t.isNickTaken nick
  | _ => false

/-- No operator on its channel takes another nickname or is disconnected. -/
def OperatorsStay (w : World) (a : Action) : Prop :=
  (∀ issued ∈ w.issued a, w.srv.acceptsNick issued.1 issued.2 = true →
      ¬ w.srv.Operates issued.1) ∧
  ∀ f ∈ w.closing a, f ∈ w.srv.openFds → ∀ p ∈ w.srv.clients[f]?, ¬ w.srv.Operates p

/-- The condition for every channel to be led by one of its members. -/
def KeepsLeaders (w : World) (a : Action) : Prop :=
  Attended w a ∧ OperatorsStay w a ∧ SuccessorsLive w a

instance (w : World) (a : Action) : Decidable (SuccessorsLive w a) :=
  inferInstanceAs (Decidable (∀ issued ∈ w.issued a, ∀ departure ∈ departing _ _ _, _))

instance (w : World) (a : Action) : Decidable (KeepsOperatorNicks w a) :=
  inferInstanceAs (Decidable (∀ f ∈ w.closing a, _ → ∀ entry ∈ List.find? _ _, _))

instance (w : World) (a : Action) : Decidable (KeepsAuthority w a) :=
  inferInstanceAs (Decidable (_ ∧ _ ∧ _))

instance (w : World) (a : Action) : Decidable (OperatorsStay w a) :=
  inferInstanceAs (Decidable ((∀ issued ∈ w.issued a, _) ∧
    ∀ f ∈ w.closing a, _ → ∀ p ∈ w.srv.clients[f]?, _))

instance (w : World) (a : Action) : Decidable (KeepsLeaders w a) :=
  inferInstanceAs (Decidable (_ ∧ _ ∧ _))

namespace Tables

variable {t t' : Tables} {p q x : ClientPtr} {fd f : Fd} {name : Str} {ch : Channel}

/-- A nickname belongs to one client. -/
theorem Registry.carries_inj (h : t.Registry) {nick : Str} (hp : t.Carries p nick)
    (hq : t.Carries q nick) : p = q :=
  h.nick_inj hp.live hq.live hp.hasNick hq.hasNick (hp.nickname.trans hq.nickname.symm)

/-- A nickname that a client carries is listed. -/
theorem Registry.carries_listed (h : t.Registry) {nick : Str} (hp : t.Carries p nick) :
    nick ∈ t.nickList.map Prod.snd :=
  hp.nickname ▸ h.nick_listed hp.live hp.hasNick

/-- A departure changes no nicknames. -/
theorem carries_leave {nick : Str} : (t.leave name x).Carries q nick ↔ t.Carries q nick := by
  constructor
  · intro hoperates
    obtain ⟨hlive, hnick, hname⟩ := hoperates
    exact ⟨live_leave.mp hlive, by simpa using hnick, by simpa using hname⟩
  · intro hfacts
    obtain ⟨hlive, hnick, hname⟩ := hfacts
    exact ⟨live_leave.mpr hlive, by simpa using hnick, by simpa using hname⟩

/-- The operator nickname of the channel is taken, and whoever carries it is a
member that was made operator. -/
structure Authorised (t : Tables) (ch : Channel) : Prop where
  listed : ch.opNick ∈ t.nickList.map Prod.snd
  holder : ∀ q, t.Carries q ch.opNick → q ∈ ch.curClients ∧ q ∈ ch.madeOp

/-- A channel whose operator carries its nickname is authorised, if the
operator is a member that was made operator. -/
theorem Registry.authorised (h : t.Registry) (hp : t.Carries p ch.opNick)
    (hmem : p ∈ ch.curClients) (hop : p ∈ ch.madeOp) : t.Authorised ch where
  listed := h.carries_listed hp
  holder := fun _ hq => h.carries_inj hp hq ▸ ⟨hmem, hop⟩

/-- Nobody has come to carry the nickname, and it is still taken. -/
theorem Authorised.congr (h : t.Authorised ch)
    (hlisted : ch.opNick ∈ t'.nickList.map Prod.snd)
    (hcarries : ∀ q, t'.Carries q ch.opNick → t.Carries q ch.opNick) : t'.Authorised ch where
  listed := hlisted
  holder := fun q hq => h.holder q (hcarries q hq)

/-- Every channel's authority is with a member that was made its operator. -/
def Authority (t : Tables) : Prop := t.EachChannel fun _ ch => t.Authorised ch

/-- The successor of a departing operator, if it is connected. -/
theorem Rosters.successor (hrosters : t.Rosters) (hsucc : t.SuccessorLive name x)
    {front : ClientPtr} {rest : List ClientPtr} (hch : t.channels[name]? = some ch)
    (hmem : x ∈ ch.curClients) (herase : ch.curClients.erase x = front :: rest)
    (hop : ch.opNick = (t.memory x).nickname) :
    t.Carries front (t.memory front).nickname := by
  have hlive : t.Live front := hsucc ch hch hmem hop front (by simp [herase])
  have hmember : front ∈ ch.curClients :=
    List.mem_of_mem_erase (herase ▸ List.mem_cons_self : front ∈ ch.curClients.erase x)
  exact ⟨hlive, (hrosters name ch hch).named front hmember hlive, rfl⟩

/-- Authority passes to a connected successor. -/
theorem Authority.leave (h : t.Authority) (hregistry : t.Registry) (hrosters : t.Rosters)
    (hsucc : t.SuccessorLive name x) : (t.leave name x).Authority := by
  have hchannels : (t.leave name x).EachChannel fun _ ch => t.Authorised ch := by
    refine EachChannel.leave h hrosters.keyed ?_ ?_
    · intro ch front rest hch hmem herase hop
      exact hregistry.authorised (hrosters.successor hsucc hch hmem herase hop)
        List.mem_cons_self List.mem_cons_self
    · intro ch front rest hch hmem herase hop
      have hold : t.Authorised ch := h name ch hch
      refine ⟨hold.listed, ?_⟩
      intro q hq
      obtain ⟨hmember, hmade⟩ := hold.holder q hq
      have hne : q ≠ x := by
        intro heq
        subst heq
        exact hop hq.nickname.symm
      exact ⟨herase ▸ (List.mem_erase_of_ne hne).mpr hmember, hmade⟩
  refine hchannels.imp fun name ch hch => hch.congr ?_ ?_
  · rw [leave_nickList]
    exact hch.listed
  · exact fun q hq => carries_leave.mp hq

/-- Every channel is led by exactly one of its connected members. -/
def Led (t : Tables) : Prop :=
  t.EachChannel fun _ ch =>
    ∃! q, q ∈ ch.curClients ∧ t.Live q ∧ (t.memory q).nickname = ch.opNick

/-- A connected member carries its nickname. -/
theorem Rosters.carries (hrosters : t.Rosters) (hch : t.channels[name]? = some ch)
    (hmem : q ∈ ch.curClients) (hlive : t.Live q) : t.Carries q (t.memory q).nickname :=
  ⟨hlive, (hrosters name ch hch).named q hmem hlive, rfl⟩

/-- A channel that somebody leaves is led by its successor. -/
theorem Led.leave (h : t.Led) (hregistry : t.Registry) (hrosters : t.Rosters)
    (hsucc : t.SuccessorLive name x) : (t.leave name x).Led := by
  have hchannels : (t.leave name x).EachChannel fun _ ch =>
      ∃! q, q ∈ ch.curClients ∧ t.Live q ∧ (t.memory q).nickname = ch.opNick := by
    have hsub : ∀ {ch : Channel} {front : ClientPtr} {rest : List ClientPtr},
        ch.curClients.erase x = front :: rest → ∀ q ∈ front :: rest, q ∈ ch.curClients :=
      fun herase q hq => List.mem_of_mem_erase (herase ▸ hq)
    refine EachChannel.leave h hrosters.keyed ?_ ?_
    · intro ch front rest hch hmem herase hop
      have hfront := hrosters.successor hsucc hch hmem herase hop
      refine ⟨front, ⟨List.mem_cons_self, hfront.live, rfl⟩, ?_⟩
      intro q hleads
      obtain ⟨hq, hlive, hnick⟩ := hleads
      have hcarries := hrosters.carries hch (hsub herase q hq) hlive
      rw [show (t.memory q).nickname = (t.memory front).nickname from hnick] at hcarries
      exact hregistry.carries_inj hcarries hfront
    · intro ch front rest hch hmem herase hop
      obtain ⟨leader, ⟨hmember, hlive, hnick⟩, hunique⟩ := h name ch hch
      have hne : leader ≠ x := by
        intro heq
        subst heq
        exact hop hnick.symm
      refine ⟨leader, ⟨herase ▸ (List.mem_erase_of_ne hne).mpr hmember, hlive, hnick⟩, ?_⟩
      intro q hleads
      obtain ⟨hq, hlive, hnick⟩ := hleads
      exact hunique q ⟨hsub herase q hq, hlive, hnick⟩
  exact hchannels.imp fun name ch hch => by simpa using hch

end Tables

open Tables

section Lines

variable {t t' : Tables} {p : ClientPtr} {fd : Fd} {parts : List Str}

/-- A client that runs a handler behind the registration test carries its
nickname. -/
theorem Tables.Registry.issuer_carries (h : t.Registry) (hp : t.clients[fd]? = some p)
    {verb : Verb} (hruns : RunsRegistered t p parts verb) :
    t.Carries p (t.memory p).nickname := by
  obtain ⟨_, _, _, _, _, hreg⟩ := hruns
  exact ⟨⟨fd, hp⟩, (h.staged hp).of_registered hreg, rfl⟩

/-- Changing one client so that it carries no other nickname. -/
theorem carries_setClient {g : Client → Client} {nick : Str}
    (hg : (g (t.memory p)).hasNick = true → (g (t.memory p)).nickname = nick →
      t.Carries p nick)
    {q : ClientPtr} (hq : (t.setClient p g).Carries q nick) : t.Carries q nick := by
  obtain ⟨hlive, hnick, hname⟩ := hq
  by_cases hqp : q = p
  · subst hqp
    rw [setClient_memory_self] at hnick hname
    exact hg hnick hname
  · rw [setClient_memory_ne t g hqp] at hnick hname
    exact ⟨hlive, hnick, hname⟩

/-- A line keeps the authority of operators if its departures hand channels on
to connected clients. -/
theorem Tables.Authority.effect (h : t.Authority) (hregistry : t.Registry)
    (hrosters : t.Rosters) (hp : t.clients[fd]? = some p)
    (hsucc : ∀ departure ∈ departing t p parts, t.SuccessorLive departure.1 departure.2)
    (heffect : Effect p parts t t') : t'.Authority := by
  have hflags : ∀ g : Client → Client, (g (t.memory p)).hasNick = (t.memory p).hasNick →
      (g (t.memory p)).nickname = (t.memory p).nickname → (t.setClient p g).Authority := by
    intro g hnick hname
    refine EachChannel.imp h fun name ch hch => hch.congr hch.listed fun q hq => ?_
    refine carries_setClient ?_ hq
    intro hgnick hgname
    exact ⟨⟨fd, hp⟩, hnick ▸ hgnick, hname ▸ hgname⟩
  have hsame : ∀ {name : Str} {next : Channel}, t.Authorised next →
      (t.setChannel name next).Authority :=
    fun hnext => EachChannel.imp (EachChannel.setChannel h hnext)
      fun _ ch hch => hch.congr hch.listed fun q hq => ⟨hq.live, hq.hasNick, hq.nickname⟩
  cases heffect with
  | quiet => exact h
  | authenticated hpass => exact hflags _ rfl rfl
  | renamed nick hnick =>
      obtain ⟨_, _, _, _, _, hfree⟩ := hnick
      refine EachChannel.imp h fun name ch hch => hch.congr ?_ fun q hq => ?_
      · simp only [Tables.registerNick, setClient, List.map_append]
        exact List.mem_append_left _ hch.listed
      · have hold : (t.registerNick nick (t.memory p).clientSocketFd).Carries q ch.opNick := by
          refine carries_setClient ?_ hq
          intro _ hgname
          have hnick : nick = ch.opNick := hgname
          exact absurd (hnick ▸ hch.listed) (isNickTaken_eq_false.mp hfree)
        exact ⟨hold.live, hold.hasNick, hold.nickname⟩
  | registered username clientIp realname huser => exact hflags _ rfl rfl
  | joined name ch next hruns hch hnew hroom hnext =>
      have hold : t.Authorised ch := h name ch hch
      rcases hnext with rfl | ⟨hone, rfl⟩
      · refine hsame ⟨hold.listed, ?_⟩
        intro q hq
        exact ⟨List.mem_append_left _ (hold.holder q hq).1, (hold.holder q hq).2⟩
      · rw [(hrosters name ch hch).limit] at hone
        cases hone
  | created name key hruns hlen hhash hch =>
      exact hsame (hregistry.authorised (hregistry.issuer_carries hp hruns)
        List.mem_cons_self List.mem_cons_self)
  | parted names hruns hnames =>
      have hparted := leaveAll_rule (Q := fun t => t.Registry ∧ t.Authority) names
        (x := p) ?_ ⟨hregistry, h⟩ hrosters ?_
      · exact hparted.2
      · intro t name hauthority hrosters hsucc
        obtain ⟨hregistry, h⟩ := hauthority
        exact ⟨by rw [leave_frame]; exact hregistry.of_channels _,
          h.leave hregistry hrosters hsucc⟩
      · intro name hname
        exact hsucc (name, p) (hnames ▸ List.mem_map_of_mem hname)
  | topicSet name topic ch hruns hch hop =>
      have hold : t.Authorised ch := h name ch hch
      exact hsame ⟨hold.listed, hold.holder⟩
  | kicked name target ch hruns hch hop hlive hmem htarget =>
      exact h.leave hregistry hrosters (hsucc (name, target) (by simp [htarget]))

/-- A client that leads no channel takes a free nickname: the leaders stay, and
no channel gets a second one. -/
theorem Tables.Led.renamed (h : t.Led) (hregistry : t.Registry) (hrosters : t.Rosters)
    {nick : Str} (hnot : ¬ t.Operates p) (hfree : t.isNickTaken nick = false) :
    ((t.registerNick nick (t.memory p).clientSocketFd).setClient p
      fun c => { c with nickname := nick, hasNick := true }).Led := by
  intro name ch hch
  obtain ⟨leader, ⟨hmember, hlive, hname⟩, hunique⟩ := h name ch hch
  have hne : leader ≠ p := by
    intro heq
    subst heq
    exact hnot ⟨name, ch, hch, hmember, hname.symm⟩
  refine ⟨leader, ⟨hmember, hlive, ?_⟩, ?_⟩
  · rw [setClient_memory_ne _ _ hne]
    exact hname
  · intro q hleads
    obtain ⟨hq, hqlive, hqname⟩ := hleads
    by_cases hqp : q = p
    · subst hqp
      rw [setClient_memory_self] at hqname
      have hlisted := hregistry.carries_listed (hrosters.carries hch hmember hlive)
      rw [hname, ← hqname] at hlisted
      exact absurd hlisted (isNickTaken_eq_false.mp hfree)
    · rw [setClient_memory_ne _ _ hqp] at hqname
      exact hunique q ⟨hq, hqlive, hqname⟩

/-- A client with a nickname of its own joins: it is no second leader. -/
theorem Tables.Led.joined (h : t.Led) (hregistry : t.Registry) (hrosters : t.Rosters)
    {name : Str} {ch : Channel} (hch : t.channels[name]? = some ch)
    (hcarries : t.Carries p (t.memory p).nickname) :
    ∃! q, q ∈ (ch.addClient p).curClients ∧ t.Live q ∧
      (t.memory q).nickname = (ch.addClient p).opNick := by
  obtain ⟨leader, ⟨hmember, hlive, hname⟩, hunique⟩ := h name ch hch
  refine ⟨leader, ⟨List.mem_append_left _ hmember, hlive, hname⟩, ?_⟩
  intro q hleads
  obtain ⟨hq, hqlive, hqname⟩ := hleads
  rcases List.mem_append.mp hq with hq | hq
  · exact hunique q ⟨hq, hqlive, hqname⟩
  · obtain rfl := List.mem_singleton.mp hq
    have hleader := hrosters.carries hch hmember hlive
    rw [hname, ← show (t.memory q).nickname = ch.opNick from hqname] at hleader
    exact hregistry.carries_inj hcarries hleader

/-- A line keeps every channel led by one of its members if no operator takes
another nickname by it, and its departures hand channels on to connected
clients. -/
theorem Tables.Led.effect (h : t.Led) (hregistry : t.Registry) (hrosters : t.Rosters)
    (hp : t.clients[fd]? = some p)
    (hstays : t.acceptsNick p parts = true → ¬ t.Operates p)
    (hsucc : ∀ departure ∈ departing t p parts, t.SuccessorLive departure.1 departure.2)
    (heffect : Effect p parts t t') : t'.Led := by
  have hflags : ∀ g : Client → Client,
      (g (t.memory p)).nickname = (t.memory p).nickname → (t.setClient p g).Led := by
    intro g hname
    have hnames : ∀ q, ((t.setClient p g).memory q).nickname = (t.memory q).nickname := by
      intro q
      by_cases hqp : q = p
      · rw [hqp, setClient_memory_self, hname]
      · rw [setClient_memory_ne t g hqp]
    refine EachChannel.imp h fun name ch hch => ?_
    simp only [hnames]
    exact hch
  have hsame : ∀ {name : Str} {next : Channel},
      (∃! q, q ∈ next.curClients ∧ t.Live q ∧ (t.memory q).nickname = next.opNick) →
      (t.setChannel name next).Led :=
    fun hnext => EachChannel.setChannel h hnext
  cases heffect with
  | quiet => exact h
  | authenticated hpass => exact hflags _ rfl
  | renamed nick hnick =>
      obtain ⟨word, rest, rfl, hverb, hauth, hfree⟩ := hnick
      have hnot := hstays (by simp [acceptsNick, hverb, hauth, hfree])
      exact h.renamed hregistry hrosters hnot hfree
  | registered username clientIp realname huser => exact hflags _ rfl
  | joined name ch next hruns hch hnew hroom hnext =>
      rcases hnext with rfl | ⟨hone, rfl⟩
      · exact hsame (h.joined hregistry hrosters hch (hregistry.issuer_carries hp hruns))
      · rw [(hrosters name ch hch).limit] at hone
        cases hone
  | created name key hruns hlen hhash hch =>
      refine hsame ⟨p, ⟨List.mem_cons_self, ⟨fd, hp⟩, rfl⟩, ?_⟩
      intro q hleads
      obtain ⟨hq, _, _⟩ := hleads
      exact List.mem_singleton.mp hq
  | parted names hruns hnames =>
      have hparted := leaveAll_rule (Q := fun t => t.Registry ∧ t.Led) names
        (x := p) ?_ ⟨hregistry, h⟩ hrosters ?_
      · exact hparted.2
      · intro t name hled hrosters hsucc
        obtain ⟨hregistry, h⟩ := hled
        exact ⟨by rw [leave_frame]; exact hregistry.of_channels _,
          h.leave hregistry hrosters hsucc⟩
      · intro name hname
        exact hsucc (name, p) (hnames ▸ List.mem_map_of_mem hname)
  | topicSet name topic ch hruns hch hop => exact hsame (h name ch hch)
  | kicked name target ch hruns hch hop hlive hmem htarget =>
      exact h.leave hregistry hrosters (hsucc (name, target) (by simp [htarget]))

end Lines

namespace Tables

variable {t : Tables} {fd : Fd}

/-- Closing a connection keeps the others connected. -/
theorem carries_closeConnection {f : Fd} {nick : Str} {q : ClientPtr}
    (h : (t.closeConnection f).Carries q nick) : t.Carries q nick := by
  obtain ⟨⟨k, hk⟩, hnick, hname⟩ := h
  rw [closeConnection_memory] at hnick hname
  rw [closeConnection_clients] at hk
  split at hk
  · cases hk
  · exact ⟨⟨k, hk⟩, hnick, hname⟩

/-- What is listed after a connection is closed: everything but the first
entry of its descriptor. -/
theorem mem_closeConnection_nickList {f : Fd} {nick : Str}
    (hlisted : nick ∈ t.nickList.map Prod.snd)
    (hkept : f ∈ t.openFds → ∀ entry ∈ t.nickList.find? (fun entry => entry.1 = f),
      entry.2 ≠ nick) :
    nick ∈ (t.closeConnection f).nickList.map Prod.snd := by
  by_cases hopen : f ∈ t.openFds
  · simp only [Tables.closeConnection, hopen, if_true]
    obtain ⟨entry, hentry, rfl⟩ := List.mem_map.mp hlisted
    refine List.mem_map_of_mem ?_
    generalize t.nickList = nicks at hentry hkept
    have hkept' := hkept hopen
    clear hkept hlisted
    induction nicks with
    | nil => cases hentry
    | cons first nicks ih =>
        by_cases hfirst : first.1 = f
        · have hne : entry ≠ first := by
            intro heq
            subst heq
            exact hkept' entry (by simp [hfirst]) rfl
          simpa [List.eraseP_cons, hfirst, hne] using hentry
        · simp only [List.find?_cons, hfirst, decide_false] at hkept'
          simp only [List.eraseP_cons, hfirst, decide_false, cond_false]
          rcases List.mem_cons.mp hentry with rfl | hentry
          · exact List.mem_cons_self
          · exact List.mem_cons_of_mem _ (ih hentry hkept')
  · rwa [Tables.closeConnection, if_neg hopen]

/-- A hang-up takes no nickname of an operator off the list, if none is kept there. -/
theorem Authority.closeConnection (h : t.Authority) {f : Fd}
    (hkept : f ∈ t.openFds → ∀ entry ∈ t.nickList.find? (fun entry => entry.1 = f),
      ¬ t.LedBy entry.2) : (t.closeConnection f).Authority := by
  have hchannels := (EachChannel.congr (closeConnection_channels t f)
    (P := fun name ch => t.channels[name]? = some ch ∧ t.Authorised ch)).mpr
    fun name ch hch => ⟨hch, h name ch hch⟩
  refine hchannels.imp fun name ch hch => hch.2.congr ?_ fun q => carries_closeConnection
  refine mem_closeConnection_nickList hch.2.listed fun hopen entry hentry heq => ?_
  exact hkept hopen entry hentry ⟨name, ch, hch.1, heq.symm⟩

/-- A channel stays led when somebody who leads none hangs up. -/
theorem Led.closeConnection (h : t.Led) {f : Fd}
    (hstays : f ∈ t.openFds → ∀ p ∈ t.clients[f]?, ¬ t.Operates p) :
    (t.closeConnection f).Led := by
  intro name ch hch
  rw [closeConnection_channels] at hch
  simp only [closeConnection_memory]
  obtain ⟨leader, ⟨hmember, ⟨k, hk⟩, hnick⟩, hunique⟩ := h name ch hch
  refine ⟨leader, ⟨hmember, ⟨k, ?_⟩, hnick⟩, ?_⟩
  · rw [closeConnection_clients, if_neg]
    · exact hk
    · intro hclosed
      obtain ⟨hopen, rfl⟩ := hclosed
      exact hstays hopen leader hk ⟨name, ch, hch, hmember, hnick.symm⟩
  · intro q hleads
    obtain ⟨hq, ⟨k', hk'⟩, hqnick⟩ := hleads
    rw [closeConnection_clients] at hk'
    split at hk'
    · cases hk'
    · exact hunique q ⟨hq, ⟨k', hk'⟩, hqnick⟩

/-- A new client has no nickname, so no authority passes to it. -/
theorem Authority.acceptConnection (h : t.Authority) (hregistry : t.Registry)
    (hfresh : fd ∉ t.openFds) (ip : Str) (port : Nat) :
    (t.acceptConnection fd ip port).Authority := by
  have hfd := hregistry.absent hfresh
  have hcarries : ∀ {nick q}, (t.acceptConnection fd ip port).Carries q nick →
      t.Carries q nick := by
    intro nick q hcarries
    obtain ⟨⟨k, hk⟩, hnick, hname⟩ := hcarries
    rcases accepted_entry hregistry.addresses hfd hk with ⟨_, _, hmemory⟩ | ⟨hk, hmemory⟩
    · rw [hmemory] at hnick
      cases hnick
    · rw [hmemory] at hnick hname
      exact ⟨⟨k, hk⟩, hnick, hname⟩
  intro name ch hch
  have hold : t.Authorised ch := h name ch (by simpa [acceptConnection_of_none hfd] using hch)
  refine hold.congr ?_ fun q => hcarries
  rw [acceptConnection_of_none hfd]
  exact hold.listed

/-- It leads no channel either. -/
theorem Led.acceptConnection (h : t.Led) (hregistry : t.Registry) (hrosters : t.Rosters)
    (hfresh : fd ∉ t.openFds) (ip : Str) (port : Nat) :
    (t.acceptConnection fd ip port).Led := by
  have hfd := hregistry.absent hfresh
  intro name ch hch
  have hch : t.channels[name]? = some ch := by simpa [acceptConnection_of_none hfd] using hch
  have hne : ∀ q ∈ ch.curClients, q ≠ t.nextPtr :=
    fun q hq => Nat.ne_of_lt ((hrosters name ch hch).known q hq)
  have hlive : ∀ q ∈ ch.curClients, (t.acceptConnection fd ip port).Live q ↔ t.Live q := by
    intro q hq
    constructor
    · intro hlive
      obtain ⟨k, hk⟩ := hlive
      rcases accepted_entry hregistry.addresses hfd hk with ⟨_, hnew, _⟩ | ⟨hk, _⟩
      · exact (hne q hq hnew).elim
      · exact ⟨k, hk⟩
    · intro hlive
      obtain ⟨k, hk⟩ := hlive
      refine ⟨k, ?_⟩
      rw [acceptConnection_of_none hfd, Std.ExtTreeMap.getElem?_insert, if_neg]
      · exact hk
      · intro heq
        obtain rfl : fd = k := by simpa using heq
        rw [hfd] at hk
        cases hk
  have hmemory : ∀ q ∈ ch.curClients,
      (t.acceptConnection fd ip port).memory q = t.memory q := by
    intro q hq
    simp [acceptConnection_of_none hfd, hne q hq]
  obtain ⟨leader, ⟨hmember, hleader, hnick⟩, hunique⟩ := h name ch hch
  refine ⟨leader, ⟨hmember, (hlive leader hmember).mpr hleader, ?_⟩, ?_⟩
  · rw [hmemory leader hmember]
    exact hnick
  · intro q hleads
    obtain ⟨hq, hqlive, hqnick⟩ := hleads
    rw [hmemory q hq] at hqnick
    exact hunique q ⟨hq, (hlive q hq).mp hqlive, hqnick⟩

end Tables

/-- The authority of operators, with the invariants it rests on. -/
theorem authority_of_meets {trace : Run.Trace World Action} {w : World}
    (hrun : Steps trace w) (hmeets : Run.Meets KeepsAuthority trace) :
    Orderly w ∧ w.srv.Authority := by
  refine hrun.invariant_of_meets (fun w => Orderly w ∧ w.srv.Authority) ?_ ?_ hmeets
  · intro w hstart
    refine ⟨orderly_start hstart, ?_⟩
    obtain ⟨password, host, serverSocket, botSocket, _, rfl⟩ := hstart
    intro name ch hch
    simp [initial] at hch
  · intro w a next hinv hmeets hstep
    obtain ⟨horderly, h⟩ := hinv
    obtain ⟨hattended, hnicks, hsucc⟩ := hmeets
    refine ⟨orderly_step horderly hattended hstep, ?_⟩
    have hturn := step_turn hattended hstep
    generalize next.srv.toTables = t' at hturn ⊢
    cases hturn with
    | accepted fd ip port ha hfresh => exact h.acceptConnection horderly.registry hfresh ip port
    | received fd results ha => exact h
    | closed f hclosing => exact h.closeConnection (hnicks f hclosing)
    | handled env fd p line lines _ ha hline hp heffect =>
        subst ha
        exact h.effect horderly.registry horderly.rosters hp
          (hsucc _ (w.issued_command hline hp env)) heffect

/-- The step handles a `TOPIC` or `KICK` line from `fd` and changes the channel
`name`. -/
def TakesEffect (w : World) (a : Action) (next : World) (fd : Fd) (name : Str) : Prop :=
  ∃ env line lines word args, a = .command env ∧ w.reading = some (fd, line :: lines) ∧
    commandParts line = word :: args ∧ (verbOf word = .topic ∨ verbOf word = .kick) ∧
    next.srv.channels[name]? ≠ w.srv.channels[name]?

/-- The client on `fd` is a member of the channel and was made its operator. -/
def HasAuthority (t : Tables) (fd : Fd) (name : Str) : Prop :=
  ∃ p ch, t.clients[fd]? = some p ∧ t.channels[name]? = some ch ∧
    p ∈ ch.curClients ∧ p ∈ ch.madeOp

/-- **Operator authority.**  In a run in which lines come from connected
clients, no disconnect frees the nickname of an operator, and departing
operators are succeeded by connected clients, every `TOPIC` or `KICK` that
changes a channel comes from a member of it that was made its operator. -/
theorem operator_authority {trace : Run.Trace World Action} {w next : World} {a : Action}
    {fd : Fd} {name : Str} (hrun : Steps trace w) (hmeets : Run.Meets KeepsAuthority trace)
    (hattended : Attended w a) (hstep : step w a = some next)
    (heffect : TakesEffect w a next fd name) : HasAuthority w.srv.toTables fd name := by
  obtain ⟨horderly, hauthority⟩ := authority_of_meets hrun hmeets
  obtain ⟨env, line, lines, word, args, rfl, hline, hparts, hverb, hchanged⟩ := heffect
  have hturn := step_turn hattended hstep
  generalize next.srv.toTables = t' at hturn hchanged
  have hauthorised : ∀ {p ch}, w.srv.clients[fd]? = some p →
      (w.srv.memory p).registered = true → w.srv.channels[name]? = some ch →
      ch.opNick = (w.srv.memory p).nickname → HasAuthority w.srv.toTables fd name := by
    intro p ch hp hreg hch hop
    have hcarries : w.srv.Carries p ch.opNick :=
      ⟨⟨fd, hp⟩, (horderly.registry.staged hp).of_registered hreg, hop.symm⟩
    exact ⟨p, ch, hp, hch, (hauthority name ch hch).holder p hcarries⟩
  cases hturn with
  | accepted fd' ip port ha => cases ha
  | received fd' results ha => cases ha
  | closed f hclosing => simp at hchanged
  | handled env fd' p line' lines' _ ha hline' hp heffect =>
      obtain ⟨rfl, rfl, rfl⟩ : fd' = fd ∧ line' = line ∧ lines' = lines := by
        rw [hline] at hline'
        simp_all
      cases heffect with
      | quiet | authenticated | renamed | registered => exact (hchanged rfl).elim
      | joined _ _ _ hruns | created _ _ hruns | parted _ hruns =>
          obtain ⟨_, _, hparts', hverb', _⟩ := hruns
          rw [hparts] at hparts'
          cases hparts'
          rw [hverb'] at hverb
          simp at hverb
      | topicSet name' topic ch hruns hch hop =>
          obtain ⟨_, _, _, _, _, hreg⟩ := hruns
          by_cases hname : name' = name
          · subst hname
            exact hauthorised hp hreg hch hop
          · exact (hchanged (by simp [setChannel_getElem?, hname])).elim
      | kicked name' target ch hruns hch hop hlive hmem htarget =>
          obtain ⟨_, _, _, _, _, hreg⟩ := hruns
          by_cases hname : name' = name
          · subst hname
            exact hauthorised hp hreg hch hop
          · exact (hchanged (leave_getElem?_of_ne horderly.rosters.keyed hname)).elim

/-- A topic line of 5 that is about to change the topic of `#c`, which has the
members `members`. -/
def topicPending (members : List ClientPtr) (w : World) : Bool :=
  w.reading = some (5, ["TOPIC #c hello".toList]) &&
    (w.srv.channels["#c".toList]?).map (fun ch => (ch.curClients, ch.topic)) =
      some (members, []) &&
    (step w (.command Env.calm)).any fun next =>
      (next.srv.channels["#c".toList]?).map Channel.topic = some "hello".toList

/-- Such a line takes effect. -/
theorem takesEffect_of_topicPending {members : List ClientPtr} {w : World}
    (h : topicPending members w = true) : ∃ next ch, step w (.command Env.calm) = some next ∧
      TakesEffect w (.command Env.calm) next 5 "#c".toList ∧
      w.srv.channels["#c".toList]? = some ch ∧ ch.curClients = members := by
  simp only [topicPending, Bool.and_eq_true, decide_eq_true_eq] at h
  obtain ⟨⟨hreading, hbefore⟩, hstep⟩ := h
  obtain ⟨next, hnext, hafter⟩ := (Option.any_eq_true _ _).mp hstep
  obtain ⟨ch, hch, hmembers⟩ := Option.map_eq_some_iff.mp hbefore
  simp only [Prod.mk.injEq] at hmembers
  refine ⟨next, ch, hnext, ⟨Env.calm, _, [], "TOPIC".toList, ["#c".toList, "hello".toList], rfl,
    hreading, by decide, Or.inl (by decide), ?_⟩, hch, hmembers.1⟩
  intro heq
  rw [heq, hch] at hafter
  simp [hmembers.2] at hafter

/-- The creator of a channel sets its topic while another member watches. -/
theorem operator_authority_creator : ∃ trace w next, Steps trace w ∧
    step w (.command Env.calm) = some next ∧
    TakesEffect w (.command Env.calm) next 5 "#c".toList ∧
    HasAuthority w.srv.toTables 5 "#c".toList := by
  obtain ⟨trace, w, hrun, hmeets, htest⟩ := Run.exists_steps_meeting step KeepsAuthority start_pw
    (.accept 5 "10.0.0.1".toList 40000 :: packet 5
        ["PASS pw", "NICK a", "USER a a a n", "JOIN #c"] ++
      .accept 6 "10.0.0.2".toList 40000 :: packet 6
        ["PASS pw", "NICK x", "USER x x x n", "JOIN #c"] ++
      (packet 5 ["TOPIC #c hello"]).take 1)
    (fun w => topicPending [0, 1] w && Attended w (.command Env.calm)) (by decide +kernel)
  rw [Bool.and_eq_true] at htest
  obtain ⟨next, ch, hstep, heffect, _⟩ := takesEffect_of_topicPending htest.1
  exact ⟨trace, w, next, hrun, hstep, heffect,
    operator_authority hrun hmeets (of_decide_eq_true htest.2) hstep heffect⟩

/-- An operator renames itself from `a` to `b`, leaves its channel without a
successor being named, and quits, which frees `a`.  Another client takes `a`
and sets the topic of the channel it has never joined. -/
theorem nickname_hands_on_authority :
    ¬ ∀ trace w a next fd name, Steps trace w → step w a = some next →
      TakesEffect w a next fd name → HasAuthority w.srv.toTables fd name := by
  intro hall
  obtain ⟨trace, w, hrun, htest⟩ := Run.exists_steps_of_perform step start_pw
    (.accept 5 "10.0.0.1".toList 40000 :: packet 5
        ["PASS pw", "NICK a", "USER a a a n", "JOIN #c", "NICK b"] ++
      .accept 6 "10.0.0.2".toList 40000 :: packet 6
        ["PASS pw", "NICK x", "USER x x x n", "JOIN #c"] ++
      packet 5 ["PART #c", "QUIT"] ++
      .accept 5 "10.0.0.3".toList 40000 :: packet 5
        ["PASS pw", "NICK a", "USER a a a n"] ++
      (packet 5 ["TOPIC #c hello"]).take 1)
    (fun w => topicPending [1] w && w.srv.clients[(5 : Fd)]? = some 2) (by decide +kernel)
  simp only [Bool.and_eq_true, decide_eq_true_eq] at htest
  obtain ⟨next, ch, hstep, heffect, hch, hmembers⟩ := takesEffect_of_topicPending htest.1
  obtain ⟨p, ch', hp, hch', hmember, _⟩ := hall trace w _ next 5 _ hrun hstep heffect
  obtain rfl : 2 = p := Option.some.inj (htest.2.symm.trans hp)
  obtain rfl : ch = ch' := Option.some.inj (hch.symm.trans hch')
  simp [hmembers] at hmember

/-- **Channels are led.**  In a run in which lines come from connected clients,
no operator takes another nickname or disconnects while it is on its channel,
and departing operators are succeeded by connected clients, every channel is
led by exactly one of its connected members. -/
theorem channels_led {trace : Run.Trace World Action} {w : World}
    (hrun : Steps trace w) (hmeets : Run.Meets KeepsLeaders trace) : w.srv.Led := by
  have hinv : Orderly w ∧ w.srv.Led := by
    refine hrun.invariant_of_meets (fun w => Orderly w ∧ w.srv.Led) ?_ ?_ hmeets
    · intro w hstart
      refine ⟨orderly_start hstart, ?_⟩
      obtain ⟨password, host, serverSocket, botSocket, _, rfl⟩ := hstart
      intro name ch hch
      simp [initial] at hch
    · intro w a next hinv hmeets hstep
      obtain ⟨horderly, h⟩ := hinv
      obtain ⟨hattended, ⟨hnick, hclose⟩, hsucc⟩ := hmeets
      refine ⟨orderly_step horderly hattended hstep, ?_⟩
      have hturn := step_turn hattended hstep
      generalize next.srv.toTables = t' at hturn ⊢
      cases hturn with
      | accepted fd ip port ha hfresh =>
          exact h.acceptConnection horderly.registry horderly.rosters hfresh ip port
      | received fd results ha => exact h
      | closed f hclosing => exact h.closeConnection (hclose f hclosing)
      | handled env fd p line lines _ ha hline hp heffect =>
          subst ha
          have hissued := w.issued_command hline hp env
          exact h.effect horderly.registry horderly.rosters hp (hnick _ hissued)
            (hsucc _ hissued) heffect
  exact hinv.2

/-- A run in which the operator hands its channel on and a member renames
itself. -/
theorem channels_led_successor : ∃ trace w, Steps trace w ∧
    (w.srv.channels["#c".toList]?).map Channel.opNick = some "x".toList ∧ w.srv.Led := by
  obtain ⟨trace, w, hrun, hmeets, htest⟩ := Run.exists_steps_meeting step KeepsLeaders start_pw
    (.accept 5 "10.0.0.1".toList 40000 :: packet 5
        ["PASS pw", "NICK a", "USER a a a n", "JOIN #c"] ++
      .accept 6 "10.0.0.2".toList 40000 :: packet 6
        ["PASS pw", "NICK y", "USER x x x n", "JOIN #c", "NICK x"] ++
      packet 5 ["PART #c", "NICK z", "QUIT"])
    (fun w => (w.srv.channels["#c".toList]?).map Channel.opNick = some "x".toList)
    (by decide +kernel)
  exact ⟨trace, w, hrun, of_decide_eq_true htest, channels_led hrun hmeets⟩

/-- An operator that takes another nickname leaves its channel without an
operator. -/
theorem renamed_operator_leaves_channel_unled :
    ¬ ∀ trace w, Steps trace w → w.srv.Led := by
  intro hall
  obtain ⟨trace, w, hrun, htest⟩ := Run.exists_steps_of_perform step start_pw
    (.accept 5 "10.0.0.1".toList 40000 :: packet 5
      ["PASS pw", "NICK a", "USER a a a n", "JOIN #c", "NICK b"])
    (fun w => (w.srv.channels["#c".toList]?).map
        (fun ch => (ch.opNick, ch.curClients)) = some ("a".toList, [0]) &&
      (w.srv.memory 0).nickname = "b".toList) (by decide)
  simp only [Bool.and_eq_true, decide_eq_true_eq] at htest
  obtain ⟨ch, hch, hsame⟩ := Option.map_eq_some_iff.mp htest.1
  simp only [Prod.mk.injEq] at hsame
  obtain ⟨leader, ⟨hmember, _, hnick⟩, _⟩ := hall trace w hrun _ ch hch
  obtain rfl : leader = 0 := by simpa [hsame.2] using hmember
  rw [htest.2, hsame.1] at hnick
  revert hnick
  decide

end Irc
