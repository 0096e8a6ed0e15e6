import IrcServers.FtIrc.Joining

/-!
# Calls of the operations of one channel

`Channel` as a machine of its own: any sequence of calls of its operations,
each with the clients as they are at that moment, so that nicknames and host
names may change between two calls.  A call that throws leaves the channel as
it is.

Two results.  The operators of a new channel remain members, each listed once,
whatever is called.  The limit is enforced by `Channel::addClient` just when
there are not already more members than it allows: the source compares the two
numbers with `==`.
-/

namespace FtIrc

namespace Channel

variable {memory : ClientPtr → Client} {ch ch' : Channel} {p : ClientPtr} {name : Str}

/-- `Channel::addClient`. -/
def addClient (memory : ClientPtr → Client) (ch : Channel) (client : ClientPtr) :
    Except Exception Channel :=
  match ch.refuses memory client with
  | some e => .error e
  | none => .ok (ch.pushClient client)

/-- `Channel::addClient` returns when none of its checks fails. -/
theorem addClient_eq_ok :
    ch.addClient memory p = .ok ch' ↔ ch.refuses memory p = none ∧ ch.pushClient p = ch' := by
  unfold addClient
  cases ch.refuses memory p with
  | some e => simp
  | none => simp

/-- It throws what its first failing check says. -/
theorem addClient_eq_error {e : Exception} :
    ch.addClient memory p = .error e ↔ ch.refuses memory p = some e := by
  unfold addClient
  cases ch.refuses memory p with
  | some e => simp
  | none => simp

/-- Behind the test of the password, `Command::execJoin` is a call of
`Channel::addClient`. -/
theorem joinAttempt_eq_addClient {s : Server} {fd : Fd} {message : Str}
    (hp : s.getClient fd = some p)
    (hch : s.getChannel (Parser.parse message).function = some ch)
    (hkey : ¬ (ch.password ≠ [] ∧ ch.password ≠ (Parser.parse message).value)) :
    s.joinAttempt message fd =
      match ch.addClient s.memory p with
      | .error e => s.throwClient (s.memory p).fd e (cannotJoin ch.name e.joinMode)
      | .ok joined =>
          .done ((s.putChannel joined).joinTell joined (s.memory p)
            (Parser.parse message).function) := by
  unfold Server.joinAttempt addClient
  dsimp only
  rw [hch]
  dsimp only
  rw [if_neg hkey, hp, Outcome.require_some]
  cases ch.refuses s.memory p with
  | some e => rfl
  | none => rfl

/-- The operations that change the lists of clients of a channel, and the one
that changes its limit. -/
inductive Operation where
  | addClient (client : ClientPtr)
  | removeClient (client : Option ClientPtr)
  | addOperator (client : ClientPtr)
  | removeOperator (client : Option ClientPtr)
  | addBan (client : ClientPtr)
  | removeBan (client : ClientPtr)
  | setLimit (limit : Int)

/-- A call of an operation. -/
def call (memory : ClientPtr → Client) (ch : Channel) : Operation → Except Exception Channel
  | .addClient client => ch.addClient memory client
  | .removeClient client => .ok (ch.removeClient memory client)
  | .addOperator client => ch.addOperator client
  | .removeOperator client => ch.removeOperator client
  | .addBan client => ch.addBan memory client
  | .removeBan client => ch.removeBan memory client
  | .setLimit limit => .ok (ch.setLimit limit)

/-- The channel after a call, whether it has returned or thrown. -/
def after (ch : Channel) : Except Exception Channel → Channel
  | .ok ch' => ch'
  | .error _ => ch

/-- One call, as a step.  Only members are made operators. -/
def operate (ch : Channel) (a : (ClientPtr → Client) × Operation) : Option Channel :=
  match a.2 with
  | .addOperator client =>
      if client ∈ ch.clients then some (ch.after (ch.call a.1 a.2)) else none
  | _ => some (ch.after (ch.call a.1 a.2))

/-- Sequences of calls on a channel with the property `start`. -/
abbrev Calls (start : Channel → Prop)
    (trace : Run.Trace Channel ((ClientPtr → Client) × Operation)) (ch : Channel) : Prop :=
  Run.Steps operate start trace ch

/-- A step leaves what its call does, whether that returns or throws. -/
theorem operate_eq {op : Operation} (h : ch.operate (memory, op) = some ch') :
    ch' = ch.after (ch.call memory op) := by
  cases op with
  | addOperator client =>
      simp only [operate] at h
      split at h
      · exact (Option.some.inj h).symm
      · cases h
  | _ => exact (Option.some.inj h).symm

/-! ## Operators are members -/

/-- Whatever is called, operators remain members. -/
theorem alters_call {op : Operation} (hop : ∀ client, op = .addOperator client →
      client ∈ ch.clients) (h : ch.call memory op = .ok ch') :
    ch.Alters (fun _ => True) ch' := by
  cases op with
  | addClient client =>
      obtain ⟨-, rfl⟩ := addClient_eq_ok.mp h
      exact alters_pushClient ch trivial
  | removeClient client =>
      cases h
      exact alters_removeClient ch client
  | addOperator client => exact alters_addOperator (hop client rfl) h
  | removeOperator client => exact alters_removeOperator h
  | addBan client => exact alters_addBan trivial h
  | removeBan client => exact alters_removeBan h
  | setLimit limit =>
      cases h
      exact alters_settings ch _ _ _ _

/-- A call leaves operators among the members. -/
theorem operate_led {a : (ClientPtr → Client) × Operation} (hled : ch.Led)
    (h : ch.operate a = some ch') : ch'.Led := by
  obtain ⟨memory, op⟩ := a
  have hop : ∀ client, op = .addOperator client → client ∈ ch.clients := by
    rintro client rfl
    by_contra hmem
    simp [operate, hmem] at h
  rw [operate_eq h]
  cases hcall : ch.call memory op with
  | ok ch'' => exact (alters_call hop hcall).led hled
  | error e => exact hled

/-- A new channel has no operators. -/
theorem led_new (name : Str) : (Channel.new name).Led :=
  ⟨List.nodup_nil, fun _ h => h⟩

/-- The entry that `removeClient` erases from the operators was their only one
of that client. -/
theorem not_mem_operators_without (hled : ch.Led) (p : ClientPtr) :
    p ∉ (ch.without p).operators := by
  unfold without
  split
  · exact hled.nodup.not_mem_erase
  · rename_i hmem
    exact fun hop => hmem (hled.members p hop)

/-- A banned client is no operator. -/
theorem not_mem_operators_addBan (hled : ch.Led) (h : ch.addBan memory p = .ok ch') :
    p ∉ ch'.operators := by
  unfold addBan at h
  split at h
  · cases h
  · cases h
    have hbanned : Led { ch with bans := ch.bans ++ [p] } := ⟨hled.nodup, hled.members⟩
    rw [removeClient_some]
    exact not_mem_operators_without hbanned p

end Channel

/-- **Operators are members.**  After any calls on a new channel the operators
are members, each listed once.  So a client that has just been removed, or
banned, is not an operator, and a channel without members has none.  Nicknames
may change between the calls in any way. -/
theorem operators_are_members {name : Str}
    {trace : Run.Trace Channel ((ClientPtr → Client) × Channel.Operation)} {ch : Channel}
    (calls : Channel.Calls (· = Channel.new name) trace ch) :
    ch.operators.Nodup ∧ (∀ p ∈ ch.operators, p ∈ ch.clients) ∧
    (∀ memory x, x ∉ (ch.removeClient memory (some x)).operators) ∧
    (∀ memory x ch', ch.addBan memory x = .ok ch' → x ∉ ch'.operators) ∧
    (ch.clients = [] → ch.operators = []) := by
  have hled : ch.Led := calls.invariant Channel.Led
    (fun ch hnew => by rw [hnew]; exact Channel.led_new name)
    (fun _ _ _ hled h => Channel.operate_led hled h)
  refine ⟨hled.nodup, hled.members, fun memory x => ?_,
    fun memory x ch' h => Channel.not_mem_operators_addBan hled h, fun hempty => ?_⟩
  · rw [Channel.removeClient_some]
    exact Channel.not_mem_operators_without hled x
  · apply List.eq_nil_iff_forall_not_mem.mpr
    intro p hp
    have hmem := hled.members p hp
    rw [hempty] at hmem
    cases hmem

/-- Client `p` under the nickname `nick p`. -/
def called (nick : ClientPtr → String) (p : ClientPtr) : Client :=
  { Client.new p [] with nickName := (nick p).toList }

/-- Client 0 joins twice, makes client 1 an operator, changes its nickname and
is removed once. -/
theorem operators_are_members_twice : ∃ trace ch,
    Channel.Calls (· = Channel.new "#c".toList) trace ch ∧
    ch.clients = [1, 0] ∧ ch.operators = [1] ∧
    ∀ memory x, x ∉ (ch.removeClient memory (some x)).operators := by
  obtain ⟨trace, ch, calls, htest⟩ := @Run.exists_steps_of_perform _ _
    (· = Channel.new "#c".toList) Channel.operate _ rfl
    [(called toString, .addClient 0), (called toString, .addClient 1),
      (called toString, .addClient 0), (called toString, .addOperator 1),
      (called fun p => toString (p + 7), .removeClient (some 0))]
    (fun ch => ch.clients = [1, 0] ∧ ch.operators = [1]) (by decide +kernel)
  obtain ⟨hclients, hoperators⟩ := of_decide_eq_true htest
  exact ⟨trace, ch, calls, hclients, hoperators, (operators_are_members calls).2.2.1⟩

/-! ## The limit -/

namespace Channel

variable {memory : ClientPtr → Client} {ch ch' : Channel} {p : ClientPtr}

/-- What a limit asks of a call of `Channel::addClient`: to succeed only while
there are fewer members, and to throw otherwise, with the channel as it was. -/
def Bounded (ch : Channel) (a : (ClientPtr → Client) × Operation) : Prop :=
  ∀ client, a.2 = .addClient client → ch.limit ≠ 0 →
    (∀ ch', ch.call a.1 a.2 = .ok ch' → ch.clients.length < ch.limit) ∧
    (¬ ch.clients.length < ch.limit →
      ch.call a.1 a.2 = .error .channelFull ∧ ch.operate a = some ch)

/-- There is no limit, or fewer members than it allows, or as many and the
client is not banned. -/
def HasRoom (ch : Channel) (a : (ClientPtr → Client) × Operation) : Prop :=
  ∀ client, a.2 = .addClient client → ch.limit = 0 ∨ ch.clients.length < ch.limit ∨
    ch.clients.length = ch.limit ∧ ch.getBan a.1 (a.1 client).hostName = none

/-- There is no limit, or not more members than it allows. -/
def Within (ch : Channel) : Prop := ch.limit = 0 ∨ ch.clients.length ≤ ch.limit

instance : DecidablePred Within := fun _ => inferInstanceAs (Decidable (_ ∨ _))

/-- The limit is what a full channel complains about, unless there is a ban. -/
theorem refuses_eq_channelFull :
    ch.refuses memory p = some .channelFull ↔ ch.limit ≠ 0 ∧ ch.clients.length = ch.limit ∧
      ch.getBan memory (memory p).hostName = none := by
  unfold refuses
  cases hban : ch.getBan memory (memory p).hostName with
  | some q => simp
  | none =>
      by_cases hfull : ch.limit ≠ 0 ∧ ch.clients.length = ch.limit
      · simp [hfull]
      · rw [if_neg (by simp), if_neg hfull]
        split
        · simp_all
        · simp_all

/-- A client that finds more members than the limit allows is not told that the
channel is full: it is let in, or kept out for another reason. -/
theorem bounded_iff_hasRoom (ch : Channel) (a : (ClientPtr → Client) × Operation) :
    ch.Bounded a ↔ ch.HasRoom a := by
  obtain ⟨memory, op⟩ := a
  apply forall_congr'
  intro client
  apply imp_congr_right
  rintro rfl
  by_cases hlimit : ch.limit = 0
  · simp [hlimit]
  by_cases hless : ch.clients.length < ch.limit
  · simp [hless]
  have hfull : ch.call memory (.addClient client) = .error .channelFull ↔
      ch.clients.length = ch.limit ∧ ch.getBan memory (memory client).hostName = none := by
    rw [call, addClient_eq_error, refuses_eq_channelFull]
    exact and_iff_right hlimit
  constructor
  · intro h
    exact Or.inr (Or.inr (hfull.mp ((h hlimit).2 hless).1))
  · intro h _
    have hthrown := hfull.mpr ((h.resolve_left hlimit).resolve_left hless)
    refine ⟨fun ch' hok => ?_, fun _ => ⟨hthrown, ?_⟩⟩
    · rw [hthrown] at hok
      cases hok
    · simp only [operate, hthrown, after]

/-- Only `addBan` records bans. -/
theorem operate_bans {a : (ClientPtr → Client) × Operation} (hbans : ch.bans = [])
    (hnot : ∀ client, a.2 ≠ .addBan client) (h : ch.operate a = some ch') : ch'.bans = [] := by
  obtain ⟨memory, op⟩ := a
  rw [operate_eq h]
  cases op with
  | addBan client => exact (hnot client rfl).elim
  | addClient client =>
      simp only [call, addClient]
      split
      · exact hbans
      · exact hbans
  | removeClient client =>
      cases client with
      | none => exact hbans
      | some p =>
          simp only [call, after, removeClient_some, without]
          split
          · exact hbans
          · exact hbans
  | addOperator client =>
      simp only [call, addOperator]
      split
      · exact hbans
      · exact hbans
  | removeOperator client =>
      cases client with
      | none => exact hbans
      | some p =>
          simp only [call, removeOperator]
          split
          · exact hbans
          · exact hbans
  | removeBan client =>
      have hnone : ch.call memory (.removeBan client) = .error .notAlreadyBan := by
        simp [call, removeBan, hbans]
      rw [hnone]
      exact hbans
  | setLimit limit => exact hbans

/-- A departure makes the list of members no longer. -/
theorem without_shrinks (ch : Channel) (p : ClientPtr) :
    (ch.without p).limit = ch.limit ∧ (ch.without p).clients.length ≤ ch.clients.length := by
  unfold without
  split
  · exact ⟨rfl, List.length_erase_le⟩
  · exact ⟨rfl, le_rfl⟩

/-- Nothing else adds a member or changes the limit. -/
theorem call_shrinks {op : Operation} (hadd : ∀ client, op ≠ .addClient client)
    (hset : ∀ limit, op ≠ .setLimit limit) (h : ch.call memory op = .ok ch') :
    ch'.limit = ch.limit ∧ ch'.clients.length ≤ ch.clients.length := by
  cases op with
  | addClient client => exact (hadd client rfl).elim
  | setLimit limit => exact (hset limit rfl).elim
  | removeClient client =>
      cases h
      cases client with
      | none => exact ⟨rfl, le_rfl⟩
      | some p =>
          rw [removeClient_some]
          exact ch.without_shrinks p
  | addOperator client =>
      simp only [call, addOperator] at h
      split at h
      · cases h
      · cases h
        exact ⟨rfl, le_rfl⟩
  | removeOperator client =>
      cases client with
      | none => cases h
      | some p =>
          simp only [call, removeOperator] at h
          split at h
          · cases h
            exact ⟨rfl, le_rfl⟩
          · cases h
  | addBan client =>
      simp only [call, addBan] at h
      split at h
      · cases h
      · cases h
        rw [removeClient_some]
        exact without_shrinks { ch with bans := ch.bans ++ [client] } client
  | removeBan client =>
      simp only [call, removeBan] at h
      split at h
      · cases h
        exact ⟨rfl, le_rfl⟩
      · cases h

/-- A channel within its limit stays so as long as the limit is not set below
the number of members. -/
theorem operate_within {a : (ClientPtr → Client) × Operation} (hwithin : ch.Within)
    (hlimit : ∀ limit, a.2 = .setLimit limit → (ch.setLimit limit).Within)
    (h : ch.operate a = some ch') : ch'.Within := by
  obtain ⟨memory, op⟩ := a
  rw [operate_eq h]
  cases hcall : ch.call memory op with
  | error e => exact hwithin
  | ok ch'' =>
      show ch''.Within
      unfold Within at hwithin ⊢
      by_cases hset : ∃ limit, op = .setLimit limit
      · obtain ⟨limit, rfl⟩ := hset
        cases hcall
        exact hlimit limit rfl
      by_cases hadd : ∃ client, op = .addClient client
      · obtain ⟨client, rfl⟩ := hadd
        obtain ⟨hrefuses, rfl⟩ := addClient_eq_ok.mp hcall
        have hnotFull : ¬ (ch.limit ≠ 0 ∧ ch.clients.length = ch.limit) := by
          intro hfull
          simp only [refuses, if_pos hfull] at hrefuses
          split at hrefuses
          · cases hrefuses
          · cases hrefuses
        simp only [pushClient, List.length_append, List.length_singleton]
        omega
      · obtain ⟨hsame, hless⟩ := call_shrinks (fun client h => hadd ⟨client, h⟩)
          (fun limit h => hset ⟨limit, h⟩) hcall
        omega

end Channel

/-- In calls that never set a limit below the number of members, a channel that
starts within its limit never has more members than it allows. -/
theorem limit_kept {trace : Run.Trace Channel ((ClientPtr → Client) × Channel.Operation)}
    {ch : Channel} (calls : Channel.Calls Channel.Within trace ch)
    (hlimits : Run.Meets (fun ch a => ∀ limit, a.2 = .setLimit limit →
      (ch.setLimit limit).Within) trace) : Run.Throughout Channel.Within trace ch :=
  calls.throughout_of_meets Channel.Within (fun _ h => h)
    (fun _ _ _ hwithin hlimit h => Channel.operate_within hwithin hlimit h) hlimits

/-- **The user limit.**  In any sequence of calls, from any channel, the calls
of `Channel::addClient` all respect the limit just when each of them finds room:
no limit, fewer members than it allows, or exactly as many and no ban that is
reported first.  On a channel that starts without bans and gets none, this says
that none of them finds more members than the limit allows. -/
theorem limit_enforced_iff {start : Channel → Prop}
    {trace : Run.Trace Channel ((ClientPtr → Client) × Channel.Operation)} {ch : Channel}
    (calls : Channel.Calls start trace ch) :
    (Run.Meets Channel.Bounded trace ↔ Run.Meets Channel.HasRoom trace) ∧
    ((∀ ch, start ch → ch.bans = []) →
      Run.Meets (fun _ a => ∀ client, a.2 ≠ .addBan client) trace →
      (Run.Meets Channel.Bounded trace ↔
        Run.Meets (fun ch a => ∀ client, a.2 = .addClient client → ch.Within) trace)) := by
  have hexact : Run.Meets Channel.Bounded trace ↔ Run.Meets Channel.HasRoom trace := by
    simp only [Run.Meets, Channel.bounded_iff_hasRoom]
  refine ⟨hexact, fun hstart hnobans => ?_⟩
  have hbans : Run.Throughout (fun ch => ch.bans = []) trace ch :=
    calls.throughout_of_meets (fun ch => ch.bans = []) hstart
      (fun _ _ _ hnone hnot h => Channel.operate_bans hnone hnot h) hnobans
  rw [hexact]
  apply forall₂_congr
  intro entry hentry
  apply forall₂_congr
  intro client hcall
  have hnone : entry.1.getBan entry.2.1 (entry.2.1 client).hostName = none := by
    rw [Channel.getBan, hbans.2 entry hentry, List.find?_nil]
  unfold Channel.Within
  simp only [hnone, and_true]
  omega

/-- Two members, and a limit that holds both: a third client is kept out. -/
theorem limit_enforced_full : ∃ trace ch,
    Channel.Calls (· = Channel.new "#c".toList) trace ch ∧ trace.length = 4 ∧
    ch.clients = [0, 1] ∧ Run.Meets Channel.Bounded trace := by
  obtain ⟨trace, ch, calls, htest⟩ := @Run.exists_steps_of_record _ _
    (· = Channel.new "#c".toList) Channel.operate _ rfl
    [(called toString, .addClient 0), (called toString, .addClient 1),
      (called toString, .setLimit 2), (called toString, .addClient 2)]
    (fun trace ch => trace.length = 4 ∧ ch.clients = [0, 1] ∧
      trace.all fun entry => entry.1.Within ∧
        (match entry.2.2 with | .addBan _ => false | _ => true) = true)
    (by decide +kernel)
  obtain ⟨hlength, hclients, hentries⟩ := of_decide_eq_true htest
  simp only [List.all_eq_true, decide_eq_true_eq] at hentries
  refine ⟨trace, ch, calls, hlength, hclients, ((limit_enforced_iff calls).2 ?_ ?_).mpr ?_⟩
  · rintro ch rfl
    rfl
  · intro entry hentry client hban
    have hother := (hentries entry hentry).2
    rw [hban] at hother
    cases hother
  · exact fun entry hentry client _ => (hentries entry hentry).1

/-- Two members join, the limit is set to one, and a third client is let in. -/
theorem limit_passed : ¬ ∀ trace ch, Channel.Calls (· = Channel.new "#c".toList) trace ch →
    Run.Meets Channel.Bounded trace := by
  intro hall
  obtain ⟨trace, ch, calls, htest⟩ := @Run.exists_steps_of_perform _ _
    (· = Channel.new "#c".toList) Channel.operate _ rfl
    [(called toString, .addClient 0), (called toString, .addClient 1),
      (called toString, .setLimit 1)]
    (fun ch => ch.limit = 1 ∧ ch.clients = [0, 1] ∧
      ch.refuses (called toString) 2 = none) (by decide +kernel)
  obtain ⟨hlimit, hclients, hrefuses⟩ := of_decide_eq_true htest
  have hadmitted := Channel.addClient_eq_ok.mpr ⟨hrefuses, rfl⟩
  have hstep : ch.operate (called toString, .addClient 2) = some (ch.pushClient 2) := by
    simp only [Channel.operate, Channel.call, hadmitted, Channel.after]
  have hbounded := (Run.meets_cons.mp (hall _ _ (calls.cons hstep))).1 2 rfl (by simp [hlimit])
  have hless := hbounded.1 _ hadmitted
  rw [hlimit, hclients] at hless
  exact absurd hless (by decide)

end FtIrc
