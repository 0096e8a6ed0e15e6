import IrcServers.FtIrc.Endings

/-!
# Lookups that handlers use

`LookupsSucceed` says, for the command of a line, that the lookups its handler
uses without a test give something: the client the line came from, the channel
it names, the membership it asks for.  A line is handled without a use of a
null result just when they do.
-/

namespace FtIrc

open Utils Outcome

/-- The faults that are uses of a null result of `Server::getClient`,
`Server::getChannel` or `Channel::getClient`, the storing of a null client among
them. -/
def Fault.isLookup : Fault → Bool
  | .nullClient | .nullChannel | .nullMember | .nullPush => true
  | .outOfRange | .nullBan | .tooDeep => false

/-- The call does not end by using a null result. -/
def NoNullUse (ending : Ending Exception Fault) : Prop :=
  ∀ f, f.isLookup = true → ending ≠ .faulted f

@[simp] theorem noNullUse_returned : NoNullUse .returned := fun _ _ h => by cases h

@[simp] theorem noNullUse_thrown (e : Exception) : NoNullUse (.thrown e) := fun _ _ h => by cases h

@[simp] theorem noNullUse_faulted (f : Fault) : NoNullUse (.faulted f) ↔ f.isLookup = false := by
  constructor
  · intro h
    by_contra hlookup
    exact h f (by simpa using hlookup) rfl
  · intro hf g hg heq
    cases heq
    rw [hf] at hg
    cases hg

/-- Catching exceptions makes no difference. -/
theorem noNullUse_caught {caught : Exception → Bool} {ending : Ending Exception Fault} :
    NoNullUse (ending.caught caught) ↔ NoNullUse ending := by
  simp only [NoNullUse, ne_eq, Ending.caught_eq_faulted]

namespace Server

variable {s : Server} {message : Str} {fd : Fd} {client : ClientPtr} {ch : Channel}
  {info : ModeInfo}

/-- The clients that a change of bans tells are connected, as far as the nested
`WHO` looks for them. -/
def BanLookups (s : Server) (ch : Channel) (info : ModeInfo) : Prop :=
  (info.status = true ∧ info.parameters = []) ∨
    (info.status = true ∧ ∀ hostName ∈ (split (banMask info.parameters) atSign)[1]?,
      ∀ p ∈ s.banTold ch hostName, s.Answers ch.name (s.memory p).fd) ∨
    (info.status = false ∧ ∀ p ∈ ch.clients, s.Answers ch.name (s.memory p).fd)

/-- The lookups of a handler behind the login test. -/
def LoginLookups (env : Env) (s : Server) (message : Str) (fd : Fd) : Verb → Prop
  | .who =>
      ∀ ch ∈ s.getChannel (Parser.parse message).function,
        (ch.getClient s.memory fd).isSome = true
  | .kick => ∀ parsed ∈ kickParse message, (s.getChannel parsed.1.function).isSome = true
  | .topic => (s.getChannel (Parser.parse message).function).isSome = true
  | .mode =>
      ∀ info ∈ modeCall env message, ∃ ch ∈ s.getChannel info.channel,
        (ch.getOperator s.memory fd).isSome = true →
          (modeKey info = "o".toList → info.status = true →
            (ch.getClientByNickName s.memory info.parameters).isSome = true) ∧
          (modeKey info = "b".toList → s.BanLookups ch info)
  | _ => True

/-- The lookups of the handler of a message that `Checker::check` lets through. -/
def HandlerLookups (env : Env) (s : Server) (message : Str) (fd : Fd) : Prop :=
  match verbOf (commandOf message) with
  | .quit =>
      s.quitTold fd = [] ∨ (split message colon).length < 2 ∨ (s.getClient fd).isSome = true
  | .user => (split message space).length < 5 ∨ (s.getClient fd).isSome = true
  | .nick | .pass => (s.getClient fd).isSome = true
  | verb =>
      ∃ client ∈ s.getClient fd, (s.memory client).login = true →
        s.LoginLookups env message fd verb

/-- The lookups of `Command::Execute` for one line: a line of an unknown command
is answered with the nickname of its sender. -/
def LookupsSucceed (env : Env) (s : Server) (message : Str) (fd : Fd) : Prop :=
  if Checker.accepts message = true then s.HandlerLookups env message fd
  else Checker.unknown message = true → (s.getClient fd).isSome = true

/-- `QUIT` looks its sender up for each member it tells. -/
theorem execQuit_lookups :
    NoNullUse (s.execQuit message fd).ending ↔
      s.quitTold fd = [] ∨ (split message colon).length < 2 ∨ (s.getClient fd).isSome = true := by
  rw [execQuit_ending]
  match s.quitTold fd with
  | [] => simp
  | target :: rest =>
      dsimp only
      by_cases hwords : (split message colon).length < 2
      · simp [hwords, Fault.isLookup]
      · cases s.getClient fd with
        | none => simp [hwords, Fault.isLookup]
        | some client => by_cases hrest : rest = [] <;> simp [hwords, hrest, Fault.isLookup]

/-- `KICK` uses the channel before it looks at anything else. -/
theorem execKick_lookups (hc : s.getClient fd = some client) :
    NoNullUse (s.execKick message fd).ending ↔
      ∀ parsed ∈ kickParse message, (s.getChannel parsed.1.function).isSome = true := by
  rw [execKick_ending hc]
  cases kickParse message with
  | none => simp [Fault.isLookup]
  | some parsed => cases hch : s.getChannel parsed.1.function <;> simp [hch, Fault.isLookup]

/-- So does `TOPIC`. -/
theorem execTopic_lookups (hc : s.getClient fd = some client) :
    NoNullUse (s.execTopic message fd).ending ↔
      (s.getChannel (Parser.parse message).function).isSome = true := by
  rw [execTopic_ending hc]
  cases s.getChannel (Parser.parse message).function with
  | none => simp [Fault.isLookup]
  | some ch =>
      refine iff_of_true ?_ rfl
      dsimp only
      split <;> simp [Fault.isLookup]

/-- A change of bans looks up the members it tells. -/
theorem execBan_lookups {who : Server → Str → Fd → Result} (hc : s.getClient fd = some client)
    (hch : s.getChannel ch.name = some ch) (hsends : WhoSends who ch.name)
    (hanswers : WhoAnswers who ch.name) :
    NoNullUse (s.execBan who ch info fd).ending ↔ s.BanLookups ch info := by
  rw [execBan_ending hc hch hsends hanswers]
  unfold BanLookups
  by_cases hlist : info.status = true ∧ info.parameters = []
  · rw [if_pos hlist]
    exact iff_of_true noNullUse_returned (Or.inl hlist)
  · rw [if_neg hlist]
    by_cases hstatus : info.status = true
    · have hparameters : info.parameters ≠ [] := fun h => hlist ⟨hstatus, h⟩
      rw [if_pos hstatus]
      simp only [hparameters, hstatus, true_and, false_or, Bool.true_eq_false, false_and, or_false]
      cases (split (banMask info.parameters) atSign)[1]? with
      | none => simp [Fault.isLookup]
      | some hostName =>
          simp only [Option.mem_some_iff, forall_eq']
          split
          · rename_i hall
            exact iff_of_true noNullUse_returned hall
          · rename_i hnot
            exact iff_of_false (by simp [Fault.isLookup]) hnot
    · have hremove : info.status = false := by simpa using hstatus
      rw [if_neg hstatus]
      simp only [hremove, Bool.false_eq_true, false_and, true_and, false_or]
      split
      · rename_i hall
        refine iff_of_true ?_ hall
        cases (split (banMask info.parameters) atSign)[1]? with
        | none => simp [Fault.isLookup]
        | some hostName =>
            dsimp only
            split <;> simp [Fault.isLookup]
      · rename_i hnot
        exact iff_of_false (by simp [Fault.isLookup]) hnot

/-- `MODE` looks up its channel, and what the change of mode needs. -/
theorem execMode_lookups {who : Server → Str → Fd → Result} (env : Env)
    (hc : s.getClient fd = some client) (hnamed : s.Named) (hwho : NestedWho who) :
    NoNullUse (s.execMode env who message fd).ending ↔ s.LoginLookups env message fd .mode := by
  rw [execMode_ending env hc hnamed hwho, LoginLookups]
  cases modeCall env message with
  | none => simp
  | some info =>
      simp only [Option.mem_some_iff, forall_eq']
      cases hch : s.getChannel info.channel with
      | none => simp [Fault.isLookup]
      | some ch =>
          simp only [Option.mem_some_iff, exists_eq_left']
          by_cases hoperator : (ch.getOperator s.memory fd).isSome = true
          · rw [if_pos hoperator, execModeKey_ending]
            have hgood := hnamed.good ch (mem_of_getChannel hch)
            simp only [hoperator, forall_const]
            by_cases ho : modeKey info = "o".toList
            · have hb : modeKey info ≠ "b".toList := by rw [ho]; decide
              rw [if_pos ho, execOperator_ending]
              constructor
              · intro h
                refine ⟨fun _ hstatus => ?_, fun h => (hb h).elim⟩
                by_contra hnone
                rw [if_pos ⟨hstatus, by simpa using hnone⟩] at h
                simp [Fault.isLookup] at h
              · intro h
                rw [if_neg]
                · exact noNullUse_returned
                · intro hnone
                  have hsome := h.1 ho hnone.1
                  rw [hnone.2] at hsome
                  cases hsome
            · rw [if_neg ho]
              by_cases hb : modeKey info = "b".toList
              · have hban : NoNullUse (s.execBan who ch info fd).ending ↔ s.BanLookups ch info :=
                  execBan_lookups hc (getChannel_self hch) (hwho.sends _ hgood)
                    (hwho.answers _ hgood)
                rw [if_pos hb]
                exact ⟨fun h => ⟨fun h => (ho h).elim, fun _ => hban.mp h⟩,
                  fun h => hban.mpr (h.2 hb)⟩
              · rw [if_neg hb]
                exact iff_of_true (by simp) ⟨fun h => (ho h).elim, fun h => (hb h).elim⟩
          · rw [if_neg hoperator]
            exact iff_of_true (by simp) fun h => (hoperator h).elim

/-- Each command behind the login test uses what is said of it. -/
theorem dispatchLogin_lookups {who : Server → Str → Fd → Result} (env : Env)
    (hc : s.getClient fd = some client) (hnamed : s.Named) (hwho : NestedWho who) (verb : Verb) :
    NoNullUse (s.dispatchLogin env who client message fd verb).ending ↔
      s.LoginLookups env message fd verb := by
  cases verb with
  | privmsg =>
      refine iff_of_true ?_ trivial
      rw [dispatchLogin, execPrivMsg_ending hc]
      split <;> simp [Fault.isLookup]
  | notice =>
      refine iff_of_true ?_ trivial
      rw [dispatchLogin, execNotice_ending hc]
      split <;> simp [Fault.isLookup]
  | join => simp [dispatchLogin, LoginLookups, execJoin_ending hc]
  | part => simp [dispatchLogin, LoginLookups, execPart_ending hc]
  | who =>
      rw [dispatchLogin, execWho_ending, LoginLookups]
      split
      · rename_i hmember
        exact iff_of_true noNullUse_returned hmember
      · rename_i hnot
        exact iff_of_false (by simp [Fault.isLookup]) hnot
  | mode => exact execMode_lookups env hc hnamed hwho
  | kick => exact execKick_lookups hc
  | invite =>
      refine iff_of_true ?_ trivial
      rw [dispatchLogin, execInvite_ending hc]
      split <;> simp
  | topic => exact execTopic_lookups hc
  | whois => simp [dispatchLogin, LoginLookups, execWhois_ending hc]
  | quit | nick | user | pass | unknown => simp [dispatchLogin, LoginLookups, throwClient]

/-- So does each command before it. -/
theorem dispatch_lookups {who : Server → Str → Fd → Result} (env : Env) (hnamed : s.Named)
    (message : Str) (fd : Fd) (hwho : NestedWho who) :
    NoNullUse (s.dispatch env who message fd).ending ↔ s.HandlerLookups env message fd := by
  unfold dispatch HandlerLookups
  generalize verbOf (commandOf message) = verb
  have hlogin : NoNullUse (Outcome.require (s.getClient fd) .nullClient fun client =>
      if (s.memory client).login then s.dispatchLogin env who client message fd verb
      else .done s).ending ↔
      ∃ client ∈ s.getClient fd, (s.memory client).login = true →
        s.LoginLookups env message fd verb := by
    cases hc : s.getClient fd with
    | none => simp [Fault.isLookup]
    | some client =>
        rw [require_some]
        simp only [Option.mem_some_iff, exists_eq_left']
        by_cases hlog : (s.memory client).login = true
        · rw [if_pos hlog, dispatchLogin_lookups env hc hnamed hwho]
          simp [hlog]
        · rw [if_neg hlog]
          simp [hlog]
  cases verb with
  | quit => exact execQuit_lookups
  | user =>
      dsimp only
      rw [execUser_ending]
      split
      · rename_i hwords
        simp [hwords, Fault.isLookup]
      · rename_i hwords
        cases s.getClient fd <;> simp [hwords, Fault.isLookup]
  | nick =>
      dsimp only
      rw [execNick_ending]
      cases s.getClient fd with
      | none => simp [Fault.isLookup]
      | some client =>
          refine iff_of_true ?_ rfl
          dsimp only
          split <;> simp
  | pass =>
      dsimp only
      rw [execPass_ending]
      cases s.getClient fd <;> simp [Fault.isLookup]
  | _ => exact hlogin

end Server

variable {trace : Run.Trace World Action} {w : World}

/-- **Lookups.**  In every reachable state, a line of a message is handled
without a use of a null result, if and only if the lookups of its handler
succeed. -/
theorem lookups_succeed_iff (run : Steps trace w) (env : Env) {fd : Fd} {line : Str}
    {lines : List Str} (hpending : w.pending = some (fd, line :: lines)) :
    (∀ f : Fault, f.isLookup = true → handleLine env w.srv line fd ≠ .fault f) ↔
      w.srv.LookupsSucceed env line fd := by
  have htidy := tidy run
  have hline := htidy.lines fd _ hpending line List.mem_cons_self
  have hlookups := Server.dispatch_lookups env htidy.named line fd
    (Server.nestedWho_executeTo env 0)
  have hending : (∀ f : Fault, f.isLookup = true → handleLine env w.srv line fd ≠ .fault f) ↔
      NoNullUse (w.srv.handle env (executeTo env 1) line fd).ending := by
    unfold handleLine NoNullUse
    rw [hline.executeTo]
    simp only [ne_eq, ending_eq_faulted]
  rw [hending, Server.handle_ending, Server.LookupsSucceed]
  split
  · rw [noNullUse_caught, hlookups]
  · cases w.srv.getClient fd with
    | none => by_cases hunknown : Checker.unknown line = true <;> simp [hunknown, Fault.isLookup]
    | some client => simp

/-- A member asks for the list of its channel: the lookups of `WHO` succeed. -/
theorem lookups_succeed_iff_who : ∃ trace w, Steps trace w ∧
    w.pending = some (5, ["WHO #c\r\n".toList]) ∧
    ∀ f : Fault, f.isLookup = true →
      handleLine Env.calm w.srv "WHO #c\r\n".toList 5 ≠ .fault f := by
  obtain ⟨trace, w, run, htest⟩ := Run.exists_steps_of_perform step start_pw
    ([.gather, .accept 5 "h".toList, .gather] ++
      packet 5 ["PASS pw", "NICK a", "USER a a a :n", "JOIN #c"] ++ [.read 5 "WHO #c\r\n".toList])
    (fun w => w.pending = some (5, ["WHO #c\r\n".toList]) ∧ (w.srv.getClient 5).isSome = true ∧
      ∀ ch ∈ w.srv.getChannel "#c".toList, (ch.getClient w.srv.memory 5).isSome = true)
    (by decide +kernel)
  obtain ⟨hpending, hclient, hmember⟩ := of_decide_eq_true htest
  refine ⟨trace, w, run, hpending, (lookups_succeed_iff run Env.calm hpending).mpr ?_⟩
  have haccepts : Checker.accepts "WHO #c\r\n".toList = true := by decide
  have hverb : verbOf (commandOf "WHO #c\r\n".toList) = .who := by decide
  have hname : (Parser.parse "WHO #c\r\n".toList).function = "#c".toList := by decide
  obtain ⟨client, hc⟩ := Option.isSome_iff_exists.mp hclient
  unfold Server.LookupsSucceed Server.HandlerLookups
  rw [if_pos haccepts, hverb]
  refine ⟨client, hc, fun _ => ?_⟩
  unfold Server.LoginLookups
  rw [hname]
  exact hmember

/-- `KICK` for a channel that does not exist uses the null channel. -/
theorem kick_uses_null_channel :
    ¬ ∀ trace w env fd line lines, Steps trace w → w.pending = some (fd, line :: lines) →
      ∀ f : Fault, f.isLookup = true → handleLine env w.srv line fd ≠ .fault f := by
  intro hall
  obtain ⟨trace, w, run, htest⟩ := Run.exists_steps_of_perform step start_pw
    ([.gather, .accept 5 "h".toList, .gather] ++ packet 5 ["PASS pw", "NICK a", "USER a a a :n"] ++
      [.read 5 "KICK #c a\r\n".toList])
    (fun w => w.pending = some (5, ["KICK #c a\r\n".toList]) ∧
      (handleLine Env.calm w.srv "KICK #c a\r\n".toList 5).ending = .faulted .nullChannel)
    (by decide +kernel)
  obtain ⟨hpending, hfault⟩ := of_decide_eq_true htest
  exact hall trace w Env.calm 5 _ [] run hpending .nullChannel rfl (ending_eq_faulted.mp hfault)

end FtIrc
