import IrcServers.FtIrc.Frames

/-!
# `JOIN` is all or nothing

`Command::execJoin` looks for the channel, checks what may keep the client out,
and only then writes: the client becomes the last member of one channel, which
is created when there is none of that name.  A refusal sends one message and
leaves the server as it was.
-/

namespace FtIrc

open Utils Outcome

namespace Server

variable {s s' : Server} {ch : Channel} {x : ClientPtr} {fd : Fd} {name message : Str}

/-- The `try` block of `Command::execJoin`. -/
def joinAttempt (s : Server) (message : Str) (fd : Fd) : Result :=
  let info := Parser.parse message
  match s.getChannel info.function with
  | some ch =>
      if ch.password ≠ [] ∧ ch.password ≠ info.value then
        s.throwClient fd .wrongPassword (cannotJoin ch.name (Exception.joinMode .wrongPassword))
      else
        Outcome.require (s.getClient fd) .nullClient fun client =>
          match ch.refuses s.memory client with
          | some e =>
              s.throwClient (s.memory client).fd e (cannotJoin ch.name e.joinMode)
          | none =>
              let joined := ch.pushClient client
              .done ((s.putChannel joined).joinTell joined (s.memory client) info.function)
  | none =>
      Outcome.require (s.getClient fd) .nullClient fun client =>
        let created := (Channel.new info.function).pushClient client
        let sender := s.memory client
        .done ((s.addChannel created).send fd
          (sender.source ++ sender.hostName ++ " JOIN ".toList ++ info.function ++ crlf))

theorem execJoin_eq (s : Server) (message : Str) (fd : Fd) :
    s.execJoin message fd = (s.joinAttempt message fd).catching caughtByJoin := rfl

/-- The client has become the last member of the channel called `name`, its
operator if there was no member, and nothing else has changed; a channel that
did not exist was created. -/
structure Joins (s : Server) (x : ClientPtr) (name : Str) (s' : Server) : Prop where
  rest : s' = { s with channels := s'.channels, sent := s'.sent }
  channels :
    (∃ pre ch post, s.channels = pre ++ ch :: post ∧ ch.name = name ∧
      s'.channels = pre ++
        { ch with
          clients := ch.clients ++ [x]
          operators := if ch.clients = [] then ch.operators ++ [x] else ch.operators } :: post) ∨
    (∀ ch ∈ s.channels, ch.name ≠ name) ∧
      s'.channels = s.channels ++ [{ Channel.new name with clients := [x], operators := [x] }]
  distinct : (s'.channels.map Channel.name).Nodup

/-- The new member comes last, and leads the channel if it is the only one. -/
theorem pushClient_eq (ch : Channel) (x : ClientPtr) : ch.pushClient x =
    { ch with
      clients := ch.clients ++ [x]
      operators := if ch.clients = [] then ch.operators ++ [x] else ch.operators } := by
  simp only [Channel.pushClient, List.length_eq_zero_iff]

/-- The checks of `Channel::addClient` throw what `Command::execJoin` catches. -/
theorem refuses_caught {memory : ClientPtr → Client} {e : Exception}
    (h : ch.refuses memory x = some e) : caughtByJoin e = true := by
  unfold Channel.refuses at h
  split at h
  · cases h; rfl
  · split at h
    · cases h; rfl
    · split at h
      · cases h; rfl
      · cases h

/-- A client joins a channel that is found. -/
theorem joins_existing (hdistinct : (s.channels.map Channel.name).Nodup)
    (hch : s.getChannel name = some ch) (messages : List (Fd × Str)) :
    s.Joins x name ((s.putChannel (ch.pushClient x)).sendAll messages) := by
  obtain ⟨pre, post, hsplit⟩ := List.append_of_mem (mem_of_getChannel hch)
  have hput := putChannel_middle hsplit hdistinct (show (ch.pushClient x).name = ch.name from rfl)
  refine ⟨rfl, Or.inl ⟨pre, ch, post, hsplit, name_of_getChannel hch, ?_⟩, ?_⟩
  · rw [hput, pushClient_eq]
    rfl
  · have hnames : (s.putChannel (ch.pushClient x)).channels.map Channel.name =
        s.channels.map Channel.name := by
      rw [hput, hsplit, List.map_append, List.map_append]
      rfl
    exact hnames ▸ hdistinct

/-- A client joins a channel that is created for it. -/
theorem joins_created (hdistinct : (s.channels.map Channel.name).Nodup)
    (hnone : s.getChannel name = none) (fd : Fd) (text : Str) :
    s.Joins x name ((s.addChannel ((Channel.new name).pushClient x)).send fd text) := by
  have hother : ∀ ch ∈ s.channels, ch.name ≠ name := fun ch hch => by
    simpa using List.find?_eq_none.mp hnone ch hch
  refine ⟨rfl, Or.inr ⟨hother, ?_⟩, ?_⟩
  · rw [pushClient_eq]
    rfl
  · simp only [send, addChannel, List.map_append, List.map_cons, List.map_nil]
    rw [List.nodup_append_comm]
    refine List.nodup_cons.mpr ⟨fun hin => ?_, hdistinct⟩
    obtain ⟨ch, hch, heq⟩ := List.mem_map.mp hin
    exact hother ch hch heq

/-- Nothing keeps the client out of the channel: not its password, nor a check of
`Channel::addClient`. -/
def Admits (s : Server) (ch : Channel) (x : ClientPtr) (password : Str) : Prop :=
  ¬ (ch.password ≠ [] ∧ ch.password ≠ password) ∧ ch.refuses s.memory x = none

instance (s : Server) (ch : Channel) (x : ClientPtr) (password : Str) :
    Decidable (s.Admits ch x password) := inferInstanceAs (Decidable (_ ∧ _))

/-- An admitted client joins, and the members are told. -/
theorem joinAttempt_admitted (hx : s.getClient fd = some x)
    (hch : s.getChannel (Parser.parse message).function = some ch)
    (hadmits : s.Admits ch x (Parser.parse message).value) :
    ∃ messages, s.joinAttempt message fd =
      .done ((s.putChannel (ch.pushClient x)).sendAll messages) := by
  unfold joinAttempt
  rw [hx]
  dsimp only [require_some]
  rw [hch]
  dsimp only
  rw [if_neg hadmits.1, hadmits.2]
  exact ⟨_, rfl⟩

/-- A client that is not admitted is told why, and nothing changes. -/
theorem joinAttempt_refused (hx : s.getClient fd = some x)
    (hch : s.getChannel (Parser.parse message).function = some ch)
    (hrefused : ¬ s.Admits ch x (Parser.parse message).value) :
    ∃ e text, caughtByJoin e = true ∧ s.joinAttempt message fd = .thrown e (s.send fd text) := by
  unfold joinAttempt
  rw [hx]
  dsimp only [require_some]
  rw [hch]
  dsimp only
  by_cases hkey : ch.password ≠ [] ∧ ch.password ≠ (Parser.parse message).value
  · rw [if_pos hkey]
    exact ⟨.wrongPassword, _, rfl, rfl⟩
  · rw [if_neg hkey]
    cases hrefuses : ch.refuses s.memory x with
    | some e =>
        rw [fd_of_getClient hx]
        exact ⟨e, _, refuses_caught hrefuses, rfl⟩
    | none => exact (hrefused ⟨hkey, hrefuses⟩).elim

/-- A channel that does not exist is created, and its creator is told. -/
theorem joinAttempt_created (hx : s.getClient fd = some x)
    (hnone : s.getChannel (Parser.parse message).function = none) :
    ∃ text, s.joinAttempt message fd = .done ((s.addChannel
      ((Channel.new (Parser.parse message).function).pushClient x)).send fd text) := by
  unfold joinAttempt
  rw [hx]
  dsimp only [require_some]
  rw [hnone]
  exact ⟨_, rfl⟩

/-- A `JOIN` throws one of the exceptions its handler catches, or the client
joins. -/
theorem joinAttempt_cases (hdistinct : (s.channels.map Channel.name).Nodup)
    (hx : s.getClient fd = some x) (message : Str) :
    (∃ e text, caughtByJoin e = true ∧ s.joinAttempt message fd = .thrown e (s.send fd text)) ∨
      ∃ s', s.joinAttempt message fd = .done s' ∧
        s.Joins x (Parser.parse message).function s' := by
  cases hch : s.getChannel (Parser.parse message).function with
  | none =>
      obtain ⟨text, hdone⟩ := joinAttempt_created hx hch
      exact Or.inr ⟨_, hdone, joins_created hdistinct hch _ _⟩
  | some ch =>
      by_cases hadmits : s.Admits ch x (Parser.parse message).value
      · obtain ⟨messages, hdone⟩ := joinAttempt_admitted hx hch hadmits
        exact Or.inr ⟨_, hdone, joins_existing hdistinct hch _⟩
      · exact Or.inl (joinAttempt_refused hx hch hadmits)

/-- A line that passes the checker goes to the handler of its command, when that
is behind the login test and the client is logged in. -/
theorem handleLine_login (env : Env) (hline : OneLine message)
    (haccepts : Checker.accepts message = true) {verb : Verb}
    (hverb : verbOf (commandOf message) = verb) (hlogin : verb ∉ [.quit, .user, .nick, .pass])
    (hx : s.getClient fd = some x) (hlogged : (s.memory x).login = true) :
    handleLine env s message fd =
      (s.dispatchLogin env (executeTo env 1) x message fd verb).catching caughtByExecute := by
  unfold handleLine
  rw [hline.executeTo, handle, check_of_accepts s fd haccepts, andThen_done, dispatch, hverb]
  cases verb with
  | quit | user | nick | pass => exact (hlogin (by decide)).elim
  | _ =>
      dsimp only
      rw [hx, require_some, if_pos hlogged]

/-- Whether it joins or not, `Command::execJoin` returns. -/
theorem execJoin_returns (hdistinct : (s.channels.map Channel.name).Nodup)
    (hx : s.getClient fd = some x) (message : Str) : ∃ s', s.execJoin message fd = .done s' := by
  rw [execJoin_eq]
  rcases joinAttempt_cases hdistinct hx message with ⟨e, text, hcaught, h⟩ | ⟨s', h, -⟩
  · rw [h, catching_thrown, if_pos hcaught]
    exact ⟨_, rfl⟩
  · exact ⟨s', by rw [h, catching_done]⟩

/-- A `JOIN` line that passes the checker is handled by `Command::execJoin` when
its client is logged in. -/
theorem handleLine_join (env : Env) (hdistinct : (s.channels.map Channel.name).Nodup)
    (hline : OneLine message) (haccepts : Checker.accepts message = true)
    (hverb : verbOf (commandOf message) = .join) (hx : s.getClient fd = some x)
    (hlogged : (s.memory x).login = true) :
    handleLine env s message fd = s.execJoin message fd := by
  rw [handleLine_login env hline haccepts hverb (by decide) hx hlogged]
  obtain ⟨s', hdone⟩ := execJoin_returns hdistinct hx message
  dsimp only [dispatchLogin]
  rw [hdone, catching_done]

/-- A line that the checker refuses reaches no command: its client may be sent a
message, and that is all. -/
theorem handleLine_refused (env : Env) (hline : OneLine message)
    (hrefused : ¬ Checker.accepts message = true) (hx : s.getClient fd = some x) :
    handleLine env s message fd = .done s ∨
      ∃ text, handleLine env s message fd = .done (s.send fd text) := by
  have hhandle : handleLine env s message fd =
      (Checker.check s message fd).catching caughtByExecute := by
    unfold handleLine
    rw [hline.executeTo]
    unfold handle
    rw [check_andThen_of_not_accepts s fd hrefused]
  rw [hhandle]
  rcases check_refused s fd hrefused with ⟨-, e, hcaught, hcheck⟩ | ⟨-, text, hcheck⟩
  · rw [hcheck, catching_thrown, if_pos hcaught]
    exact Or.inl rfl
  · rw [hcheck]
    unfold Checker.unknownCommand throwClient
    rw [hx, require_some, catching_thrown, if_pos (by decide)]
    exact Or.inr ⟨_, rfl⟩

end Server

end FtIrc
