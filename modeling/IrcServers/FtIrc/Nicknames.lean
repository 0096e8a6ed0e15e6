import IrcServers.FtIrc.Records

/-!
# Nicknames are unique

`NICK` is the only command that sets a nickname, and it looks through all
connected clients first.  So no two connected clients share a nickname, in any
state of any run, but for the one a client starts with.
-/

namespace FtIrc

open Utils Outcome

namespace Server

variable {s : Server} {fd : Fd} {message : Str}

/-- No two connected clients have the same nickname, unless it is the one that
`Client::Client` sets. -/
def NicksUnique (s : Server) : Prop :=
  ∀ p ∈ s.clients, ∀ q ∈ s.clients, p ≠ q →
    (s.memory p).nickName = (s.memory q).nickName → (s.memory p).nickName = "*".toList

/-- The line is a `NICK` that has passed the checker. -/
def NickCalled (message : Str) : Prop :=
  Checker.accepts message = true ∧ verbOf (commandOf message) = .nick

instance (message : Str) : Decidable (NickCalled message) := inferInstanceAs (Decidable (_ ∧ _))

/-- A `NICK` sets the nickname of its client if that is free. -/
theorem nickName_of_nickCalled (h : NickCalled message)
    (hfree : s.getClientByNickName (Parser.parse message).function = none) (c : Client) :
    (s.recordAfter message c).nickName = (Parser.parse message).function := by
  simp [recordAfter, h.1, h.2, hfree]

/-- Nothing else sets a nickname. -/
theorem nickName_recordAfter (s : Server) (message : Str) (c : Client) :
    (s.recordAfter message c).nickName = c.nickName ∨ NickCalled message ∧
      s.getClientByNickName (Parser.parse message).function = none := by
  unfold recordAfter
  split
  · rename_i haccepts
    split
    · rename_i hverb
      dsimp only
      split
      · exact Or.inl rfl
      · rename_i hfree
        exact Or.inr ⟨⟨haccepts, hverb⟩, Option.not_isSome_iff_eq_none.mp hfree⟩
    · exact Or.inl rfl
    · exact Or.inl rfl
    · exact Or.inl rfl
  · exact Or.inl rfl

/-- A nickname that is not found is nobody's. -/
theorem nickName_ne_of_free {name : Str} (h : s.getClientByNickName name = none) {p : ClientPtr}
    (hp : p ∈ s.clients) : (s.memory p).nickName ≠ name := by
  simpa using List.find?_eq_none.mp h p hp

/-- A `NICK` for a nickname in use only marks its client. -/
theorem execNick_inUse (h : (s.getClientByNickName (Parser.parse message).function).isSome) :
    (s.execNick message fd).Leaves fun s' =>
      ∀ p, (s'.memory p).nickName = (s.memory p).nickName := by
  refine .require fun client _ => ?_
  dsimp only
  rw [if_pos h]
  refine leaves_done.mpr fun p => ?_
  simp only [setClient, send, Function.update_apply]
  split
  · rename_i heq
    rw [heq]
  · rfl

/-- A `NICK` for a nickname in use changes no nickname. -/
theorem handleLine_inUse (env : Env) (hline : OneLine message)
    (hverb : verbOf (commandOf message) = .nick)
    (h : (s.getClientByNickName (Parser.parse message).function).isSome) (fd : Fd) :
    (handleLine env s message fd).Leaves fun s' =>
      ∀ p, (s'.memory p).nickName = (s.memory p).nickName := by
  unfold handleLine
  rw [hline.executeTo, handle, leaves_catching]
  by_cases haccepts : Checker.accepts message = true
  · rw [check_of_accepts s fd haccepts, andThen_done, dispatch, hverb]
    exact execNick_inUse h
  · rw [check_andThen_of_not_accepts s fd haccepts]
    exact (check_sends s message fd).imp fun s' hs p => by rw [hs.remembers.memory]

end Server

variable {w w' : World} {a : Action}

/-- After a step, two clients share a nickname only if they did before. -/
theorem nicksUnique_records (hrecords : Records w a w') (hsub : w'.srv.clients ⊆ w.srv.clients)
    (hfresh : ∀ p ∈ w.srv.clients, p < w.srv.nextPtr) (h : w.srv.NicksUnique) :
    w'.srv.NicksUnique := by
  -- the nickname of a client is new, and nobody's before the step, or the old one
  have hnick : ∀ p ∈ w.srv.clients, (w'.srv.memory p).nickName = (w.srv.memory p).nickName ∨
      (∃ line, w.speaker a = some (p, line)) ∧
        ∀ q ∈ w.srv.clients, (w.srv.memory q).nickName ≠ (w'.srv.memory p).nickName := by
    intro p hp
    by_cases hspeaks : ∃ line, w.speaker a = some (p, line)
    · obtain ⟨line, hspeaker⟩ := hspeaks
      rw [(hrecords.own p line hspeaker).nickName]
      refine (w.srv.nickName_recordAfter line _).imp_right fun ⟨hcalled, hfree⟩ => ?_
      rw [Server.nickName_of_nickCalled hcalled hfree]
      exact ⟨⟨line, hspeaker⟩, fun q hq => Server.nickName_ne_of_free hfree hq⟩
    · exact Or.inl (hrecords.others p (Or.inl (hfresh p hp))
        fun line heq => hspeaks ⟨line, heq⟩).nickName
  intro p hp q hq hne heq
  have hp' := hsub hp
  have hq' := hsub hq
  rcases hnick p hp' with hold | ⟨⟨line, hspeaker⟩, hfree⟩
  · rcases hnick q hq' with hold' | ⟨-, hfree'⟩
    · rw [hold] at heq ⊢
      exact h p hp' q hq' hne (heq.trans hold')
    · exact (hfree' p hp' (hold.symm.trans heq)).elim
  · rcases hnick q hq' with hold' | ⟨⟨line', hspeaker'⟩, -⟩
    · exact (hfree q hq' (hold'.symm.trans heq.symm)).elim
    · rw [hspeaker] at hspeaker'
      cases hspeaker'
      exact (hne rfl).elim

/-- A step keeps chosen nicknames different. -/
theorem nicksUnique_step (htidy : Tidy w) (hstep : Stepped w a w') (h : w.srv.NicksUnique) :
    w'.srv.NicksUnique := by
  have hrecords := hstep.records htidy
  rcases hstep.accept_or_handled htidy with ⟨fd, hostName, rfl, rfl⟩ | hhandled
  · have hold : ∀ p ∈ w.srv.clients,
        (w.srv.addClient fd hostName).memory p = w.srv.memory p := fun p hp =>
      Server.addClient_memory (htidy.fresh p hp) fd hostName
    have hnewcomer : ((w.srv.addClient fd hostName).memory w.srv.nextPtr).nickName =
        "*".toList := by
      simp [Server.addClient, Client.new]
    intro p hp q hq hne heq
    rcases List.mem_append.mp hp with hp | hp
    · rcases List.mem_append.mp hq with hq | hq
      · rw [hold p hp, hold q hq] at heq
        rw [hold p hp]
        exact h p hp q hq hne heq
      · rw [heq, List.mem_singleton.mp hq]
        exact hnewcomer
    · rw [List.mem_singleton.mp hp]
      exact hnewcomer
  · exact nicksUnique_records hrecords hhandled.evolves.clients.subset htidy.fresh h

/-- The placeholder could be the name of a channel. -/
theorem channelName_star : ChannelName "*".toList :=
  ⟨by decide, by decide, by decide⟩

/-- A nickname is a word of a line, like the name of a channel. -/
theorem nicknames_step (htidy : Tidy w) (hstep : Stepped w a w')
    (h : ∀ p, ChannelName (w.srv.memory p).nickName) (p : ClientPtr) :
    ChannelName (w'.srv.memory p).nickName := by
  have hrecords := hstep.records htidy
  rcases hstep.accept_or_handled htidy with ⟨fd, hostName, rfl, rfl⟩ | hhandled
  · simp only [Server.addClient, Function.update_apply]
    split
    · exact channelName_star
    · exact h p
  · by_cases hspeaks : ∃ line, w.speaker a = some (p, line)
    · obtain ⟨line, hspeaker⟩ := hspeaks
      rw [(hrecords.own p line hspeaker).nickName]
      rcases w.srv.nickName_recordAfter line (w.srv.memory p) with hsame | ⟨hcalled, hfree⟩
      · rw [hsame]
        exact h p
      · rw [Server.nickName_of_nickCalled hcalled hfree]
        exact ChannelName.function (oneLine_of_speaker htidy hspeaker)
    · have hnext : w'.srv.nextPtr = w.srv.nextPtr := hhandled.evolves.nextPtr
      rw [(hrecords.others p (hnext ▸ Nat.lt_or_ge p w.srv.nextPtr) fun line heq =>
        hspeaks ⟨line, heq⟩).nickName]
      exact h p

/-- Every nickname could be one. -/
theorem nicknames_named {trace : Run.Trace World Action} (run : Steps trace w) (p : ClientPtr) :
    ChannelName (w.srv.memory p).nickName := by
  have hboth := run.invariant (fun w => Tidy w ∧ ∀ p, ChannelName (w.srv.memory p).nickName)
    (fun w hstart => ?_) fun w a w' hinv hstep =>
      ⟨hinv.1.stepped (stepped_of_step hstep), nicknames_step hinv.1 (stepped_of_step hstep) hinv.2⟩
  · exact hboth.2 p
  · refine ⟨tidy_start hstart, ?_⟩
    obtain ⟨password, createdDate, listener, keepsFd, rfl⟩ := hstart
    exact fun _ => channelName_star

/-- **Nicknames are unique.**  In every reachable state no two connected clients
have the same nickname, unless it is the initial one; and a `NICK` for a
nickname that is in use changes no nickname. -/
theorem nicks_unique {trace : Run.Trace World Action} (run : Steps trace w) :
    w.srv.NicksUnique ∧ ∀ env message fd, OneLine message → verbOf (commandOf message) = .nick →
      (w.srv.getClientByNickName (Parser.parse message).function).isSome →
        (handleLine env w.srv message fd).Leaves fun s' =>
          ∀ p, (s'.memory p).nickName = (w.srv.memory p).nickName := by
  refine ⟨?_, fun env message fd hline hverb hused =>
    Server.handleLine_inUse env hline hverb hused fd⟩
  have hboth := run.invariant (fun w => Tidy w ∧ w.srv.NicksUnique) ?_ ?_
  · exact hboth.2
  · intro w hstart
    refine ⟨tidy_start hstart, ?_⟩
    obtain ⟨password, createdDate, listener, keepsFd, rfl⟩ := hstart
    exact fun p hp => by cases hp
  · intro w a w' hinv hstep
    have hstepped := stepped_of_step hstep
    exact ⟨hinv.1.stepped hstepped, nicksUnique_step hinv.1 hstepped hinv.2⟩

/-- Two clients ask for the nickname `a`; the second is refused. -/
theorem nicks_unique_refused : ∃ trace w, Steps trace w ∧ w.srv.clients = [0, 1] ∧
    (w.srv.memory 0).nickName = "a".toList ∧ (w.srv.memory 1).nickName = "*".toList ∧
    w.srv.NicksUnique ∧
    (handleLine Env.calm w.srv "NICK a".toList 6).Leaves fun s' =>
      ∀ p, (s'.memory p).nickName = (w.srv.memory p).nickName := by
  obtain ⟨trace, w, run, htest⟩ := Run.exists_steps_of_perform step start_pw
    ([.gather, .accept 5 "h".toList, .gather, .accept 6 "i".toList, .gather] ++
      packet 5 ["NICK a"] ++ packet 6 ["NICK a"])
    (fun w => w.srv.clients = [0, 1] ∧ (w.srv.memory 0).nickName = "a".toList ∧
      (w.srv.memory 1).nickName = "*".toList ∧
      (w.srv.getClientByNickName (Parser.parse "NICK a".toList).function).isSome = true)
    (by decide +kernel)
  obtain ⟨hclients, hfirst, hsecond, hused⟩ := of_decide_eq_true htest
  obtain ⟨hunique, hrefused⟩ := nicks_unique run
  exact ⟨trace, w, run, hclients, hfirst, hsecond, hunique,
    hrefused Env.calm "NICK a".toList 6 rfl (by decide) hused⟩

end FtIrc
