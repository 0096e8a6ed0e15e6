import IrcServers.FtIrc.Endings

/-!
# Words that handlers read

The handlers split the message again and read fixed positions.  `WordsExist`
says, for the command of a message, that the positions its handler comes to
read are there; a message that `Checker::check` lets through makes no read out
of range just when they are.
-/

namespace FtIrc

open Utils Outcome

namespace Server

variable {s : Server} {message : Str} {fd : Fd} {client : ClientPtr} {ch : Channel}
  {info : ModeInfo}

/-- The words that a change of bans reads: the host name behind the `@` of the
mask.  A `-b` does not come to read it when a nested `WHO` fails before. -/
def BanWords (s : Server) (ch : Channel) (info : ModeInfo) : Prop :=
  (info.status = true ∧ info.parameters = []) ∨
    2 ≤ (split (banMask info.parameters) atSign).length ∨
    (info.status = false ∧ ∃ p ∈ ch.clients, ¬ s.Answers ch.name (s.memory p).fd)

/-- The words read by the handler of a command behind the login test. -/
def LoginWords (env : Env) (s : Server) (message : Str) (fd : Fd) : Verb → Prop
  | .privmsg | .notice => 3 ≤ (split message space).length
  | .kick => Text.contains colon message = true → 2 ≤ (split message colon).length
  | .topic =>
      ∀ ch ∈ s.getChannel (Parser.parse message).function,
        (ch.getOperator s.memory fd).isSome = true → (Parser.parse message).value ≠ [] →
          2 ≤ (split message colon).length
  | .mode =>
      ∀ info ∈ modeCall env message, ∀ ch ∈ s.getChannel info.channel,
        (ch.getOperator s.memory fd).isSome = true → modeKey info = "b".toList → s.BanWords ch info
  | _ => True

/-- The words read by the handler of a message exist.  `QUIT` reads a word after
a colon for every member it tells, and from the second on there is none. -/
def WordsExist (env : Env) (s : Server) (message : Str) (fd : Fd) : Prop :=
  match verbOf (commandOf message) with
  | .quit =>
      s.quitTold fd = [] ∨
        (2 ≤ (split message colon).length ∧
          (s.getClient fd = none ∨ (s.quitTold fd).length = 1))
  | .user => 5 ≤ (split message space).length
  | .nick | .pass => True
  | verb =>
      ∀ client ∈ s.getClient fd, (s.memory client).login = true →
        s.LoginWords env message fd verb

/-- `QUIT` cuts the text behind the first colon again for each member it tells, so only
one of them can be told. -/
theorem execQuit_words :
    (s.execQuit message fd).ending ≠ .faulted .outOfRange ↔
      s.quitTold fd = [] ∨
        (2 ≤ (split message colon).length ∧
          (s.getClient fd = none ∨ (s.quitTold fd).length = 1)) := by
  rw [execQuit_ending]
  match s.quitTold fd with
  | [] => simp
  | target :: rest =>
      dsimp only
      by_cases hwords : (split message colon).length < 2
      · simp [hwords, Nat.not_le.mpr hwords]
      · have hlength : 2 ≤ (split message colon).length := Nat.not_lt.mp hwords
        cases s.getClient fd with
        | none => simp [hwords, hlength]
        | some client => by_cases hrest : rest = [] <;> simp [hwords, hlength, hrest]

/-- `KICK` reads out of range when it finds a colon and no word behind it. -/
theorem kickParse_eq_none : kickParse message = none ↔
    Text.contains colon message = true ∧ (split message colon).length < 2 := by
  unfold kickParse
  by_cases hcolon : Text.contains colon message = true
  · rw [if_pos hcolon]
    split
    · rename_i command reason rest hwords
      simp [hwords]
    · rename_i hshort
      refine iff_of_true rfl ⟨hcolon, ?_⟩
      cases hwords : split message colon with
      | nil => simp
      | cons command rest =>
          cases rest with
          | nil => simp
          | cons reason rest => exact (hshort command reason rest hwords).elim
  · rw [if_neg hcolon]
    simp [hcolon]

/-- `KICK` with a colon needs something behind it. -/
theorem execKick_words (hc : s.getClient fd = some client) :
    (s.execKick message fd).ending ≠ .faulted .outOfRange ↔
      (Text.contains colon message = true → 2 ≤ (split message colon).length) := by
  rw [execKick_ending hc]
  cases hkick : kickParse message with
  | none =>
      obtain ⟨hcolon, hshort⟩ := kickParse_eq_none.mp hkick
      refine iff_of_false (by simp) fun hwords => ?_
      have hlong := hwords hcolon
      omega
  | some parsed =>
      refine iff_of_true ?_ fun hcolon => ?_
      · dsimp only
        split <;> simp
      · by_contra hshort
        have hnone := kickParse_eq_none.mpr ⟨hcolon, Nat.lt_of_not_le hshort⟩
        rw [hkick] at hnone
        cases hnone

/-- `TOPIC` needs something behind a colon, if an operator sets a topic. -/
theorem execTopic_words (hc : s.getClient fd = some client) :
    (s.execTopic message fd).ending ≠ .faulted .outOfRange ↔
      ∀ ch ∈ s.getChannel (Parser.parse message).function,
        (ch.getOperator s.memory fd).isSome = true → (Parser.parse message).value ≠ [] →
          2 ≤ (split message colon).length := by
  rw [execTopic_ending hc]
  cases s.getChannel (Parser.parse message).function with
  | none => simp
  | some ch =>
      simp only [Option.mem_some_iff, forall_eq']
      split
      · rename_i hbad
        simp [hbad]
      · rename_i hgood
        refine iff_of_true (by simp) fun hoperator hvalue => ?_
        by_contra hlt
        exact hgood ⟨hoperator, hvalue, Nat.lt_of_not_le hlt⟩

/-- A change of bans needs a host name behind the `@` of its mask. -/
theorem execBan_words {who : Server → Str → Fd → Result} (hc : s.getClient fd = some client)
    (hch : s.getChannel ch.name = some ch) (hsends : WhoSends who ch.name)
    (hanswers : WhoAnswers who ch.name) :
    (s.execBan who ch info fd).ending ≠ .faulted .outOfRange ↔ s.BanWords ch info := by
  rw [execBan_ending hc hch hsends hanswers]
  unfold BanWords
  by_cases hlist : info.status = true ∧ info.parameters = []
  · rw [if_pos hlist]
    simp [hlist]
  · rw [if_neg hlist]
    by_cases hstatus : info.status = true
    · rw [if_pos hstatus]
      cases hhost : (split (banMask info.parameters) atSign)[1]? with
      | none =>
          refine iff_of_false (by simp) fun h => ?_
          rcases h with h | h | h
          · exact hlist h
          · have hshort := short_of_word hhost
            omega
          · simp [hstatus] at h
      | some hostName =>
          apply iff_of_true _ (Or.inr (Or.inl (length_of_word hhost)))
          dsimp only
          split <;> simp
    · rw [if_neg hstatus]
      by_cases hall : ∀ p ∈ ch.clients, s.Answers ch.name (s.memory p).fd
      · rw [if_pos hall]
        cases hhost : (split (banMask info.parameters) atSign)[1]? with
        | none =>
            refine iff_of_false (by simp) fun h => ?_
            rcases h with h | h | ⟨-, p, hp, hsilent⟩
            · exact hlist h
            · have hshort := short_of_word hhost
              omega
            · exact hsilent (hall p hp)
        | some hostName =>
            apply iff_of_true _ (Or.inr (Or.inl (length_of_word hhost)))
            dsimp only
            split <;> simp
      · rw [if_neg hall]
        push Not at hall
        exact iff_of_true (by simp) (Or.inr (Or.inr ⟨by simpa using hstatus, hall⟩))

/-- `MODE` needs such words for a change of bans only. -/
theorem execMode_words {who : Server → Str → Fd → Result} (env : Env)
    (hc : s.getClient fd = some client) (hnamed : s.Named) (hwho : NestedWho who) :
    (s.execMode env who message fd).ending ≠ .faulted .outOfRange ↔
      ∀ info ∈ modeCall env message, ∀ ch ∈ s.getChannel info.channel,
        (ch.getOperator s.memory fd).isSome = true → modeKey info = "b".toList →
          s.BanWords ch info := by
  rw [execMode_ending env hc hnamed hwho]
  cases modeCall env message with
  | none => simp
  | some info =>
      simp only [Option.mem_some_iff, forall_eq']
      cases hch : s.getChannel info.channel with
      | none => simp
      | some ch =>
          simp only [Option.mem_some_iff, forall_eq']
          by_cases hoperator : (ch.getOperator s.memory fd).isSome = true
          · rw [if_pos hoperator, execModeKey_ending]
            have hgood := hnamed.good ch (mem_of_getChannel hch)
            by_cases ho : modeKey info = "o".toList
            · rw [if_pos ho, execOperator_ending]
              refine iff_of_true ?_ fun _ hb => ?_
              · split <;> simp
              · rw [ho] at hb
                cases hb
            · rw [if_neg ho]
              by_cases hb : modeKey info = "b".toList
              · rw [if_pos hb]
                simp only [hoperator, hb, forall_const]
                exact execBan_words hc (getChannel_self hch) (hwho.sends _ hgood)
                  (hwho.answers _ hgood)
              · rw [if_neg hb]
                exact iff_of_true (by simp) fun _ h => (hb h).elim
          · rw [if_neg hoperator]
            exact iff_of_true (by simp) fun h => (hoperator h).elim

/-- Each command behind the login test needs what is said of it. -/
theorem dispatchLogin_words {who : Server → Str → Fd → Result} (env : Env)
    (hc : s.getClient fd = some client) (hnamed : s.Named) (hwho : NestedWho who) (verb : Verb) :
    (s.dispatchLogin env who client message fd verb).ending ≠ .faulted .outOfRange ↔
      s.LoginWords env message fd verb := by
  cases verb with
  | privmsg =>
      rw [dispatchLogin, execPrivMsg_ending hc, LoginWords]
      split <;> simp_all
  | notice =>
      rw [dispatchLogin, execNotice_ending hc, LoginWords]
      split <;> simp_all
  | join => simp [dispatchLogin, LoginWords, execJoin_ending hc]
  | part => simp [dispatchLogin, LoginWords, execPart_ending hc]
  | who =>
      rw [dispatchLogin, execWho_ending]
      refine iff_of_true ?_ trivial
      split <;> simp
  | mode => exact execMode_words env hc hnamed hwho
  | kick => exact execKick_words hc
  | invite =>
      rw [dispatchLogin, execInvite_ending hc]
      refine iff_of_true ?_ trivial
      split <;> simp
  | topic => exact execTopic_words hc
  | whois => simp [dispatchLogin, LoginWords, execWhois_ending hc]
  | quit | nick | user | pass | unknown => simp [dispatchLogin, LoginWords, throwClient]

/-- So does each command before it. -/
theorem dispatch_words {who : Server → Str → Fd → Result} (env : Env) (hnamed : s.Named)
    (message : Str) (fd : Fd) (hwho : NestedWho who) :
    (s.dispatch env who message fd).ending ≠ .faulted .outOfRange ↔
      s.WordsExist env message fd := by
  unfold dispatch WordsExist
  generalize verbOf (commandOf message) = verb
  have hlogin : (Outcome.require (s.getClient fd) .nullClient fun client =>
      if (s.memory client).login then s.dispatchLogin env who client message fd verb
      else .done s).ending ≠ .faulted .outOfRange ↔
      ∀ client ∈ s.getClient fd, (s.memory client).login = true →
        s.LoginWords env message fd verb := by
    cases hc : s.getClient fd with
    | none => simp
    | some client =>
        rw [require_some]
        simp only [Option.mem_some_iff, forall_eq']
        by_cases hlog : (s.memory client).login = true
        · rw [if_pos hlog, dispatchLogin_words env hc hnamed hwho]
          simp [hlog]
        · rw [if_neg hlog]
          simp [hlog]
  cases verb with
  | quit => exact execQuit_words
  | user =>
      dsimp only
      rw [execUser_ending]
      split
      · rename_i hwords
        simp [hwords]
      · rename_i hwords
        refine iff_of_true ?_ (Nat.not_lt.mp hwords)
        split <;> simp
  | nick =>
      refine iff_of_true ?_ trivial
      dsimp only
      rw [execNick_ending]
      split
      · simp
      · split <;> simp
  | pass =>
      refine iff_of_true ?_ trivial
      dsimp only
      rw [execPass_ending]
      split <;> simp
  | _ => exact hlogin

end Server

variable {trace : Run.Trace World Action} {w : World}

/-- **Words.**  In every reachable state, handling a message makes no read out of
range, if and only if the words that its handler reads exist whenever
`Checker::check` returns true. -/
theorem words_exist_iff (run : Steps trace w) (env : Env) (depth : Nat) (message : Str) (fd : Fd) :
    w.srv.handle env (executeTo env (depth + 1)) message fd ≠ .fault .outOfRange ↔
      ((Checker.check w.srv message fd).ending = .returned → w.srv.WordsExist env message fd) := by
  have hwords := Server.dispatch_words env (tidy run).named message fd
    (Server.nestedWho_executeTo env depth)
  rw [ne_eq, ← ending_eq_faulted, Server.handle_ending]
  by_cases haccepts : Checker.accepts message = true
  · have hcheck := Server.check_of_accepts w.srv fd haccepts
    rw [if_pos haccepts, Ending.caught_eq_faulted, hcheck, ← ne_eq, hwords]
    simp
  · have hcheck := Server.check_of_not_accepts w.srv fd haccepts
    rw [if_neg haccepts]
    refine iff_of_true ?_ fun h => (hcheck h).elim
    split <;> simp

/-- An operator kicks a member and gives a reason: the checked message has the
words that `KICK` reads. -/
theorem words_exist_iff_kick : ∃ trace w, Steps trace w ∧
    (Checker.check w.srv "KICK #c a :bye".toList 5).ending = .returned ∧
    (w.srv.channels.map Channel.operators) = [[0]] ∧
    w.srv.handle Env.calm (executeTo Env.calm 1) "KICK #c a :bye".toList 5 ≠
      .fault .outOfRange := by
  obtain ⟨trace, w, run, htest⟩ := Run.exists_steps_of_perform step start_pw
    ([.gather, .accept 5 "h".toList, .gather] ++
      packet 5 ["PASS pw", "NICK a", "USER a a a :n", "JOIN #c"])
    (fun w => (Checker.check w.srv "KICK #c a :bye".toList 5).ending = .returned ∧
      w.srv.channels.map Channel.operators = [[0]]) (by decide +kernel)
  obtain ⟨hcheck, hoperators⟩ := of_decide_eq_true htest
  refine ⟨trace, w, run, hcheck, hoperators, (words_exist_iff run Env.calm 0 _ 5).mpr fun _ => ?_⟩
  have hverb : verbOf (commandOf "KICK #c a :bye".toList) = .kick := by decide
  unfold Server.WordsExist
  rw [hverb]
  exact fun _ _ _ _ => by decide

/-- A `PRIVMSG` without a text is checked and then read out of range. -/
theorem privmsg_without_text_out_of_range :
    ¬ ∀ trace w env depth message fd, Steps trace w →
      (Checker.check w.srv message fd).ending = .returned →
      w.srv.handle env (executeTo env (depth + 1)) message fd ≠ .fault .outOfRange := by
  intro hall
  obtain ⟨trace, w, run, htest⟩ := Run.exists_steps_of_perform step start_pw
    ([.gather, .accept 5 "h".toList, .gather] ++ packet 5 ["PASS pw", "NICK a", "USER a a a :n"])
    (fun w => (Checker.check w.srv "PRIVMSG a".toList 5).ending = .returned ∧
      (w.srv.handle Env.calm (executeTo Env.calm 1) "PRIVMSG a".toList 5).ending =
        .faulted .outOfRange) (by decide +kernel)
  obtain ⟨hcheck, hfault⟩ := of_decide_eq_true htest
  exact hall trace w Env.calm 0 _ 5 run hcheck (ending_eq_faulted.mp hfault)

end FtIrc
