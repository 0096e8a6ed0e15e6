import IrcServers.FtIrc.Reachable

/-!
# How the handlers end

For every handler: whether it returns, throws out of itself, or reaches a fault,
as a test on the state before the call and on the words of the message.  The
handlers behind the login test are given a connected client.
-/

namespace FtIrc

open Utils Outcome

/-- The parser of `PRIVMSG` needs three words. -/
theorem privateMessage_isSome {message : Str} :
    (Parser.privateMessage message).isSome = true ↔ 3 ≤ (split message space).length := by
  unfold Parser.privateMessage
  match split message space with
  | [] | [_] | [_, _] => simp
  | _ :: _ :: _ :: _ => simp

/-- That of `USER` needs five. -/
theorem userParse_isSome {message : Str} :
    (Parser.userParse message).isSome = true ↔ 5 ≤ (split message space).length := by
  unfold Parser.userParse
  match split message space with
  | [] | [_] | [_, _] | [_, _, _] | [_, _, _, _] => simp
  | _ :: _ :: _ :: _ :: _ :: _ => simp

/-- That of `MODE` needs three. -/
theorem modeParse_isSome {env : Env} {message : Str} :
    (Parser.modeParse env message).isSome = true ↔ 3 ≤ (split message space).length := by
  unfold Parser.modeParse
  match split message space with
  | [] | [_] | [_, _] => simp
  | _ :: _ :: _ :: _ => simp

/-- There is no word at index 1. -/
theorem short_of_word {words : List Str} (h : words[1]? = none) : words.length < 2 := by
  have hlength := List.getElem?_eq_none_iff.mp h
  omega

/-- There is a word at index 1. -/
theorem length_of_word {words : List Str} {word : Str} (h : words[1]? = some word) :
    2 ≤ words.length := by
  obtain ⟨hlength, -⟩ := List.getElem?_eq_some_iff.mp h
  omega

namespace Server

variable {s s' : Server} {message name : Str} {fd : Fd} {client : ClientPtr} {ch : Channel}
  {info : ModeInfo}

/-- A refusal is an exception. -/
theorem throwNotOperator_ending (hc : s.getClient fd = some client) (name : Str) :
    (s.throwNotOperator fd name).ending = .thrown .notOperator := by
  unfold throwNotOperator
  rw [hc]
  rfl

/-- `PRIVMSG` needs its three words, and nothing else. -/
theorem execPrivMsg_ending (hc : s.getClient fd = some client) :
    (s.execPrivMsg message fd).ending =
      if 3 ≤ (split message space).length then .returned else .faulted .outOfRange := by
  unfold execPrivMsg
  rw [hc, require_some]
  refine (ending_require (e := .returned) fun _ _ => rfl).trans ?_
  simp only [privateMessage_isSome]

/-- So does `NOTICE`. -/
theorem execNotice_ending (hc : s.getClient fd = some client) :
    (s.execNotice message fd).ending =
      if 3 ≤ (split message space).length then .returned else .faulted .outOfRange := by
  unfold execNotice
  refine (ending_require (e := .returned) fun _ _ => by rw [hc]; rfl).trans ?_
  simp only [privateMessage_isSome]

/-- `JOIN` returns, for its own catch list names all that `addClient` throws. -/
theorem execJoin_ending (hc : s.getClient fd = some client) :
    (s.execJoin message fd).ending = .returned := by
  unfold execJoin
  dsimp only
  split
  · rename_i ch hch
    by_cases hpassword : ch.password ≠ [] ∧ ch.password ≠ (Parser.parse message).value
    · rw [if_pos hpassword]
      rfl
    · rw [if_neg hpassword, hc, require_some]
      cases hrefuses : ch.refuses s.memory client with
      | none => rfl
      | some e =>
          have hcaught : caughtByJoin e = true := by
            unfold Channel.refuses at hrefuses
            split at hrefuses
            · cases hrefuses; rfl
            · split at hrefuses
              · cases hrefuses; rfl
              · split at hrefuses
                · cases hrefuses; rfl
                · cases hrefuses
          simp [throwClient, hcaught]
  · rw [hc]
    rfl

/-- `PART` returns: the channel and the member are looked up before use. -/
theorem execPart_ending (hc : s.getClient fd = some client) :
    (s.execPart message fd).ending = .returned := by
  unfold execPart
  rw [hc, require_some]
  dsimp only
  split <;> rfl

/-- `WHO` uses the sender as a member of the channel. -/
theorem execWho_ending :
    (s.execWho message fd).ending =
      if ∀ ch ∈ s.getChannel (Parser.parse message).function,
          (ch.getClient s.memory fd).isSome = true then .returned
      else .faulted .nullMember := by
  unfold execWho
  dsimp only
  cases s.getChannel (Parser.parse message).function with
  | none => simp
  | some ch =>
      refine (ending_require (e := .returned) fun _ _ => rfl).trans ?_
      simp

/-- `WHOIS` returns, whoever is asked for. -/
theorem execWhois_ending (hc : s.getClient fd = some client) :
    (s.execWhois message fd).ending = .returned := by
  unfold execWhois
  dsimp only
  rw [hc]
  split
  · rw [require_some]
    split <;> rfl
  · split <;> rfl

/-- `KICK` reads a reason when there is a colon, and uses the channel. -/
theorem execKick_ending (hc : s.getClient fd = some client) :
    (s.execKick message fd).ending =
      match kickParse message with
      | none => .faulted .outOfRange
      | some parsed =>
          if (s.getChannel parsed.1.function).isSome = true then .returned
          else .faulted .nullChannel := by
  unfold execKick
  cases kickParse message with
  | none => rfl
  | some parsed =>
      rw [require_some]
      dsimp only
      cases hch : s.getChannel parsed.1.function with
      | none => rfl
      | some ch =>
          rw [require_some, ending_catching]
          cases ch.getOperator s.memory fd with
          | none =>
              rw [Option.isNone_none, if_pos rfl, throwNotOperator_ending hc]
              rfl
          | some operator =>
              rw [Option.isNone_some, if_neg Bool.false_ne_true]
              cases ch.getClientByNickName s.memory parsed.1.value <;> rfl

/-- `INVITE` throws what it does not catch when the target is invited already. -/
theorem execInvite_ending (hc : s.getClient fd = some client) :
    (s.execInvite message fd).ending =
      if ∃ ch ∈ s.getChannel (Parser.parse message).value,
          (ch.getOperator s.memory fd).isSome = true ∧
            ∃ target ∈ s.getClientByNickName (Parser.parse message).function, target ∈ ch.invites
      then .thrown .alreadyInvite else .returned := by
  unfold execInvite
  rw [ending_catching]
  dsimp only
  cases hch : s.getChannel (Parser.parse message).value with
  | none => simp [throwClient, caughtByKick]
  | some ch =>
      dsimp only
      cases hoperator : ch.getOperator s.memory fd with
      | none =>
          rw [Option.isNone_none, if_pos rfl, throwNotOperator_ending hc]
          simp [hoperator, caughtByKick]
      | some operator =>
          rw [Option.isNone_some, if_neg Bool.false_ne_true]
          cases htarget : s.getClientByNickName (Parser.parse message).function with
          | none => simp [throwClient, caughtByKick]
          | some target =>
              by_cases hinvited : target ∈ ch.invites
              · simp [Channel.addInvite, hinvited, update, raise, caughtByKick, hoperator]
              · simp [Channel.addInvite, hinvited, update]

/-- `TOPIC` uses the channel, and a word after a colon when a value is given. -/
theorem execTopic_ending (hc : s.getClient fd = some client) :
    (s.execTopic message fd).ending =
      match s.getChannel (Parser.parse message).function with
      | none => .faulted .nullChannel
      | some ch =>
          if (ch.getOperator s.memory fd).isSome = true ∧ (Parser.parse message).value ≠ [] ∧
              (split message colon).length < 2 then .faulted .outOfRange
          else .returned := by
  unfold execTopic
  rw [ending_catching]
  dsimp only
  cases hch : s.getChannel (Parser.parse message).function with
  | none => rfl
  | some ch =>
      rw [require_some]
      dsimp only
      cases ch.getOperator s.memory fd with
      | none =>
          rw [Option.isNone_none, if_pos rfl, throwNotOperator_ending hc]
          simp
      | some operator =>
          rw [Option.isNone_some, if_neg Bool.false_ne_true]
          by_cases hvalue : (Parser.parse message).value = []
          · rw [if_pos hvalue, hc]
            simp [hvalue]
          · rw [if_neg hvalue]
            cases hword : (split message colon)[1]? with
            | none =>
                rw [require_none, if_pos ⟨rfl, hvalue, short_of_word hword⟩]
                rfl
            | some value =>
                have hlength := length_of_word hword
                rw [require_some, if_neg fun h => by omega]
                rfl

/-- `MODE` with the letter `o` stores what the lookup of the nickname gives. -/
theorem execOperator_ending :
    (s.execOperator ch info).ending =
      if info.status = true ∧ ch.getClientByNickName s.memory info.parameters = none then
        .faulted .nullPush
      else .returned := by
  unfold execOperator
  rw [ending_catching]
  dsimp only
  by_cases hstatus : info.status = true
  · rw [if_pos hstatus]
    cases hclient : ch.getClientByNickName s.memory info.parameters with
    | none => simp [hstatus]
    | some client =>
        by_cases hoperator : client ∈ ch.operators
        · simp [Channel.addOperator, hoperator, update, raise, caughtByOperator]
        · simp [Channel.addOperator, hoperator, update]
  · rw [if_neg hstatus, if_neg fun h => hstatus h.1]
    cases hclient : ch.getClientByNickName s.memory info.parameters with
    | none => simp [Channel.removeOperator, update, raise, caughtByOperator]
    | some client =>
        by_cases hoperator : client ∈ ch.operators
        · simp [Channel.removeOperator, hoperator, update, putChannel, hclient]
        · simp [Channel.removeOperator, hoperator, update, raise, caughtByOperator]

/-- The nested `WHO` for a channel and a descriptor finds a client, or is
refused before it looks for one. -/
def Answers (s : Server) (name : Str) (target : Fd) : Prop :=
  (s.getClient target).isSome = true ∨ (name ≠ [] ∧ name.head? ≠ some '#')

instance (s : Server) (name : Str) (target : Fd) : Decidable (s.Answers name target) :=
  inferInstanceAs (Decidable (_ ∨ _))

/-- A `WHO` for a connected client finds it. -/
theorem answers_of_getClient {target : Fd} (hc : s.getClient target = some client) (name : Str) :
    s.Answers name target :=
  Or.inl (Option.isSome_of_eq_some hc)

/-- How the nested call of `Command::Execute` ends for a member of the channel. -/
def WhoAnswers (who : Server → Str → Fd → Result) (name : Str) : Prop :=
  ∀ s target, (∀ ch ∈ s.getChannel name, (ch.getClient s.memory target).isSome = true) →
    (who s (whoMessage name) target).ending =
      if s.Answers name target then .returned else .faulted .nullClient

/-- The nested call finds the member it is made for, or a null client. -/
theorem executeTo_who_answers (env : Env) (depth : Nat) (hname : ChannelName name) :
    WhoAnswers (executeTo env (depth + 1)) name := by
  intro s target hmember
  rw [hname.oneLine_who.executeTo, handle, ending_catching, hname.check_who]
  by_cases hempty : name = []
  · rw [if_pos hempty]
    unfold Checker.unknownCommand
    cases hc : s.getClient target with
    | none =>
        rw [if_neg (by simp [Answers, hc, hempty])]
        rfl
    | some client =>
        rw [if_pos (answers_of_getClient hc name)]
        rfl
  · rw [if_neg hempty]
    by_cases hhead : name.head? = some '#'
    · rw [if_pos hhead, andThen_done]
      unfold dispatch
      rw [hname.commandOf_who]
      dsimp only
      cases hc : s.getClient target with
      | none =>
          rw [if_neg (by simp [Answers, hc, hhead])]
          rfl
      | some client =>
          rw [require_some, if_pos (answers_of_getClient hc name)]
          by_cases hlogin : (s.memory client).login = true
          · have hending : (s.execWho (whoMessage name) target).ending = _ := execWho_ending
            rw [hname.function_who, if_pos hmember] at hending
            rw [if_pos hlogin, dispatchLogin, hending, Ending.caught_returned]
          · rw [if_neg hlogin]
            rfl
    · have hrefused : s.Answers name target := Or.inr ⟨hempty, hhead⟩
      rw [if_neg hhead, if_pos hrefused]
      rfl

/-- What the nested call does with the `WHO` for any channel: it sends to the
member it is made for, or finds no client. -/
structure NestedWho (who : Server → Str → Fd → Result) : Prop where
  sends : ∀ name, ChannelName name → WhoSends who name
  answers : ∀ name, ChannelName name → WhoAnswers who name

/-- `Command::Execute` with some depth left is such a nested call. -/
theorem nestedWho_executeTo (env : Env) (depth : Nat) : NestedWho (executeTo env (depth + 1)) where
  sends _ hname := executeTo_who_sends env depth hname
  answers _ hname := executeTo_who_answers env depth hname

/-- The loop that tells members about a ban. -/
theorem banTells_ending {who : Server → Str → Fd → Result} (hsends : WhoSends who name)
    (hanswers : WhoAnswers who name) (hch : s.getChannel name = some ch) (flag parameters : Str)
    {clients : List ClientPtr} (hclients : ∀ p ∈ clients, p ∈ ch.clients) (h : s.Sends s') :
    (Outcome.each (banTell who name flag parameters) clients s').ending =
      if ∀ p ∈ clients, s.Answers name (s.memory p).fd then .returned
      else .faulted .nullClient := by
  induction clients generalizing s' with
  | nil => simp
  | cons p clients ih =>
      have hrest := fun q hq => hclients q (List.mem_cons_of_mem _ hq)
      have htell : (s'.banTell who name flag parameters p).ending =
          if s.Answers name (s.memory p).fd then .returned else .faulted .nullClient := by
        obtain ⟨sent, rfl⟩ : ∃ sent, s' = { s with sent := sent } := ⟨_, h⟩
        refine hanswers _ _ fun other hother => ?_
        cases hch.symm.trans hother
        exact List.find?_isSome.mpr ⟨p, hclients p List.mem_cons_self, by simp [send]⟩
      rw [each_cons]
      simp only [List.forall_mem_cons]
      by_cases hp : s.Answers name (s.memory p).fd
      · rw [if_pos hp] at htell
        simp only [hp, true_and]
        exact ending_andThen htell (banTell_sends hsends flag parameters p h)
          fun after hafter => ih hrest hafter
      · rw [if_neg hp] at htell
        rw [ending_andThen_of_ne _ (by rw [htell]; simp), htell, if_neg fun h => hp h.1]

/-- The members that a `+b` for a host name tells.  With two members or more from
that host, or one when the host is banned already, the loop of bans is left by
an exception before anyone is told. -/
def banTold (s : Server) (ch : Channel) (hostName : Str) : List ClientPtr :=
  match ch.getClients s.memory hostName with
  | [] => ch.clients
  | [p] =>
      if ch.bans.any fun q => (s.memory q).hostName = hostName then [] else ch.clients.erase p
  | _ :: _ :: _ => []

/-- Banning a member of a host that is banned already throws. -/
theorem banClient_of_banned (hch : s.getChannel name = some ch)
    (hbanned : ch.bans.any (fun q => (s.memory q).hostName = (s.memory client).hostName) = true) :
    (s.banClient name client).ending = .thrown .alreadyBan := by
  unfold banClient
  rw [hch]
  simp [Channel.addBan, hbanned, update, raise]

/-- Banning a member of another host. -/
theorem banClient_of_not_banned (hch : s.getChannel name = some ch) (hmember : client ∈ ch.clients)
    (hbanned : ¬ ch.bans.any (fun q => (s.memory q).hostName = (s.memory client).hostName) = true) :
    ∃ ch' s', s.banClient name client = .done s' ∧ (s.putChannel ch').Sends s' ∧
      ch'.name = ch.name ∧ ch'.clients = ch.clients.erase client ∧ client ∈ ch'.bans := by
  have hban : ch.addBan s.memory client =
      .ok ({ ch with bans := ch.bans ++ [client] }.without client) := by
    unfold Channel.addBan
    rw [if_neg hbanned, Channel.removeClient_some]
  refine ⟨{ ch with bans := ch.bans ++ [client] }.without client, ?_⟩
  have hrun : ∃ s', s.banClient name client = .done s' ∧
      (s.putChannel ({ ch with bans := ch.bans ++ [client] }.without client)).Sends s' := by
    unfold banClient
    rw [hch]
    simp only [hban, update]
    exact ⟨_, rfl, rfl⟩
  obtain ⟨s', hdone, hsent⟩ := hrun
  refine ⟨s', hdone, hsent, ?_⟩
  unfold Channel.without
  rw [if_pos hmember]
  exact ⟨rfl, rfl, List.mem_append_right _ (List.mem_singleton_self client)⟩

/-- Sending changes no channel that can be found. -/
theorem Sends.getChannel (h : s.Sends s') (name : Str) :
    s'.getChannel name = s.getChannel name := by
  rw [show s' = _ from h]
  rfl

/-- Nor does it change a client. -/
theorem Sends.memory (h : s.Sends s') : s'.memory = s.memory := by
  rw [show s' = _ from h]

/-- Those found by a host name are members with that host name. -/
theorem mem_getClients {hostName : Str} {p : ClientPtr} (h : p ∈ ch.getClients s.memory hostName) :
    p ∈ ch.clients ∧ (s.memory p).hostName = hostName := by
  obtain ⟨hmem, hhost⟩ := List.mem_filter.mp h
  exact ⟨hmem, of_decide_eq_true hhost⟩

/-- A ban that is there already ends the loop of bans, and with it the `+b`. -/
theorem bans_interrupted {first : Result} (next tells : Server → Result)
    (h : first.ending = .thrown .alreadyBan) :
    (Outcome.catching caughtByBan ((first.andThen next).andThen tells)).ending = .returned := by
  obtain ⟨s', rfl⟩ := ending_eq_thrown.mp h
  rfl

/-- The messages of a `+b` go to the members that the bans have left. -/
theorem banTells_members_ending {who : Server → Str → Fd → Result} (hsends : WhoSends who name)
    (hanswers : WhoAnswers who name) (hch : s.getChannel name = some ch) (parameters : Str) :
    (Outcome.catching caughtByBan (Outcome.each (banTell who name " +b ".toList parameters)
      (((s.getChannel name).map Channel.clients).getD []) s)).ending =
      if ∀ p ∈ ch.clients, s.Answers name (s.memory p).fd then .returned
      else .faulted .nullClient := by
  have hending := banTells_ending hsends hanswers hch " +b ".toList parameters
    (fun _ h => h) (.refl s)
  have hnot : ∀ e, (Outcome.each (banTell who name " +b ".toList parameters) ch.clients s).ending ≠
      .thrown e := by
    intro e
    rw [hending]
    split <;> simp
  rw [hch, Option.map_some, Option.getD_some, ending_catching_of_not_thrown hnot, hending]

/-- The bans and the messages of a `+b`. -/
theorem execBan_add_ending {who : Server → Str → Fd → Result} (hch : s.getChannel ch.name = some ch)
    (hsends : WhoSends who ch.name) (hanswers : WhoAnswers who ch.name)
    (parameters hostName : Str) :
    (Outcome.catching caughtByBan <|
      (Outcome.each (banClient ch.name) (ch.getClients s.memory hostName) s).andThen fun s =>
        Outcome.each (banTell who ch.name " +b ".toList parameters)
          (((s.getChannel ch.name).map Channel.clients).getD []) s).ending =
      if ∀ p ∈ s.banTold ch hostName, s.Answers ch.name (s.memory p).fd then .returned
      else .faulted .nullClient := by
  rw [banTold]
  cases hclients : ch.getClients s.memory hostName with
  | nil => exact banTells_members_ending hsends hanswers hch parameters
  | cons p rest =>
      obtain ⟨hp, hhost⟩ := mem_getClients (hclients ▸ List.mem_cons_self)
      by_cases hbanned : (ch.bans.any fun q => (s.memory q).hostName = (s.memory p).hostName) = true
      · -- the first round throws
        have hnone : s.banTold ch hostName = [] := by
          rw [banTold, hclients]
          cases rest with
          | nil => exact if_pos (hhost ▸ hbanned)
          | cons q rest => rfl
        rw [banTold, hclients] at hnone
        rw [hnone, each_cons, bans_interrupted _ _ (banClient_of_banned hch hbanned)]
        simp
      · obtain ⟨ch', s', hdone, hsent, hname, hleft, hban⟩ := banClient_of_not_banned hch hp hbanned
        have hch' : s'.getChannel ch.name = some ch' := by
          rw [hsent.getChannel]
          exact getChannel_putChannel hch hname
        have hmemory : s'.memory = s.memory := hsent.memory
        rw [each_cons, hdone, andThen_done]
        cases rest with
        | nil =>
            have hsame : ∀ target, s'.Answers ch.name target ↔ s.Answers ch.name target := by
              intro target
              rw [show s' = _ from hsent]
              rfl
            rw [each_nil, andThen_done, banTells_members_ending hsends hanswers hch' parameters,
              hleft, hmemory]
            simp only [hsame, if_neg (hhost ▸ hbanned)]
        | cons q rest =>
            -- the second client comes from the host that has just been banned
            obtain ⟨-, hhost'⟩ : q ∈ ch.clients ∧ (s.memory q).hostName = hostName :=
              mem_getClients (by simp [hclients])
            have hsecond : (s'.banClient ch.name q).ending = .thrown .alreadyBan :=
              banClient_of_banned hch'
                (List.any_eq_true.mpr ⟨p, hban, by rw [hmemory, hhost, hhost']; simp⟩)
            rw [each_cons, bans_interrupted _ _ hsecond]
            simp

/-- The messages and the removal of a `-b`. -/
theorem execBan_remove_ending {who : Server → Str → Fd → Result}
    (hch : s.getChannel ch.name = some ch) (hsends : WhoSends who ch.name)
    (hanswers : WhoAnswers who ch.name) (parameters : Str) :
    (Outcome.catching caughtByBan <|
      (Outcome.each (banTell who ch.name " -b ".toList parameters) ch.clients s).andThen fun s =>
        Outcome.require (split parameters atSign)[1]? .outOfRange fun hostName =>
          s.pardon ch (trim hostName)).ending =
      if ∀ p ∈ ch.clients, s.Answers ch.name (s.memory p).fd then
        match (split parameters atSign)[1]? with
        | none => .faulted .outOfRange
        | some hostName =>
            if ch.getBan s.memory (trim hostName) = none ∧ ch.bans ≠ [] then .faulted .nullBan
            else .returned
      else .faulted .nullClient := by
  have htells := banTells_ending hsends hanswers hch " -b ".toList parameters
    (fun _ h => h) (.refl s)
  have hleaves := banTells_sends hsends " -b ".toList parameters ch.clients s
  by_cases hall : ∀ p ∈ ch.clients, s.Answers ch.name (s.memory p).fd
  · rw [if_pos hall] at htells ⊢
    obtain ⟨s', hdone⟩ := ending_eq_returned.mp htells
    rw [hdone, leaves_done] at hleaves
    rw [hdone, andThen_done]
    cases (split parameters atSign)[1]? with
    | none => rfl
    | some hostName =>
        rw [require_some]
        dsimp only
        unfold pardon
        rw [hleaves.memory]
        cases hban : ch.getBan s.memory (trim hostName) with
        | none =>
            by_cases hbans : ch.bans = []
            · simp [hbans, raise, caughtByBan]
            · simp [hbans]
        | some p =>
            have hfound :
                ch.bans.any (fun q => (s.memory q).hostName = (s.memory p).hostName) = true :=
              List.any_eq_true.mpr ⟨p, List.mem_of_find?_eq_some hban, by simp⟩
            simp [Channel.removeBan, hfound, update]
  · rw [if_neg hall] at htells ⊢
    rw [ending_catching, ending_andThen_of_ne _ (by rw [htells]; simp), htells,
      Ending.caught_faulted]

/-- `MODE` with the letter `b`. -/
theorem execBan_ending {who : Server → Str → Fd → Result} (hc : s.getClient fd = some client)
    (hch : s.getChannel ch.name = some ch) (hsends : WhoSends who ch.name)
    (hanswers : WhoAnswers who ch.name) :
    (s.execBan who ch info fd).ending =
      if info.status = true ∧ info.parameters = [] then .returned
      else if info.status = true then
        match (split (banMask info.parameters) atSign)[1]? with
        | none => .faulted .outOfRange
        | some hostName =>
            if ∀ p ∈ s.banTold ch hostName, s.Answers ch.name (s.memory p).fd then .returned
            else .faulted .nullClient
      else if ∀ p ∈ ch.clients, s.Answers ch.name (s.memory p).fd then
        match (split (banMask info.parameters) atSign)[1]? with
        | none => .faulted .outOfRange
        | some hostName =>
            if ch.getBan s.memory (trim hostName) = none ∧ ch.bans ≠ [] then .faulted .nullBan
            else .returned
      else .faulted .nullClient := by
  unfold execBan
  by_cases hlist : info.status = true ∧ info.parameters = []
  · rw [if_pos hlist, if_pos hlist]
    unfold listBans
    rw [hc]
    rfl
  · rw [if_neg hlist, if_neg hlist]
    by_cases hstatus : info.status = true
    · rw [if_pos hstatus, if_pos hstatus]
      cases hhost : (split (banMask info.parameters) atSign)[1]? with
      | none => rfl
      | some hostName => exact execBan_add_ending hch hsends hanswers _ hostName
    · rw [if_neg hstatus, if_neg hstatus]
      exact execBan_remove_ending hch hsends hanswers _

/-- The letter of a `MODE`. -/
def modeKey (info : ModeInfo) : Str := toLower info.key

/-- `MODE` with any letter: only `o` and `b` use lookups. -/
theorem execModeKey_ending {who : Server → Str → Fd → Result} (env : Env) :
    (s.execModeKey env who ch info fd).ending =
      if modeKey info = "o".toList then (s.execOperator ch info).ending
      else if modeKey info = "b".toList then (s.execBan who ch info fd).ending
      else .returned := by
  unfold execModeKey modeKey
  simp only [ending_ite, ending_done, ite_self]

/-- `MODE` with the letter `b` goes to `Mode::execBan`. -/
theorem execModeKey_of_ban {who : Server → Str → Fd → Result} {env : Env}
    (hkey : modeKey info = "b".toList) :
    s.execModeKey env who ch info fd = s.execBan who ch info fd := by
  have hletter : toLower info.key = "b".toList := hkey
  have hother : ¬ toLower info.key = "o".toList := by
    rw [hletter]
    decide
  unfold execModeKey
  rw [if_neg hother, if_pos hletter]

/-- What `Mode::Execute` reads from a message that it does not ignore. -/
def modeCall (env : Env) (message : Str) : Option ModeInfo :=
  if Text.contains space message = false ∨ (split message space).length < 3 then none
  else Parser.modeParse env message

/-- A `MODE` that `Mode::Execute` ignores. -/
theorem execMode_of_none {who : Server → Str → Fd → Result} {env : Env}
    (h : modeCall env message = none) : s.execMode env who message fd = .done s := by
  unfold modeCall at h
  unfold execMode modeExecute
  split at h
  · rename_i hshort
    rw [if_pos hshort]
    rfl
  · rename_i hwords
    push Not at hwords
    have hsome : (Parser.modeParse env message).isSome = true := modeParse_isSome.mpr hwords.2
    rw [h] at hsome
    cases hsome

/-- `MODE` looks up its channel, then an operator with the descriptor, then the mode. -/
theorem execMode_of_some {who : Server → Str → Fd → Result} {env : Env}
    (h : modeCall env message = some info) :
    s.execMode env who message fd =
      (Outcome.require (s.getChannel info.channel) .nullChannel fun ch =>
        if (ch.getOperator s.memory fd).isNone then s.throwNotOperator fd ch.name
        else s.execModeKey env who ch info fd).catching fun e => e = .notOperator := by
  unfold modeCall at h
  unfold execMode modeExecute
  split at h
  · cases h
  · rename_i hwords
    rw [if_neg hwords, h, require_some]

/-- A `MODE` of an operator goes to the handler of its letter. -/
theorem execMode_eq_execModeKey {who : Server → Str → Fd → Result} {env : Env}
    (hcall : modeCall env message = some info) (hch : s.getChannel info.channel = some ch)
    (hop : (ch.getOperator s.memory fd).isSome = true) :
    s.execMode env who message fd =
      (s.execModeKey env who ch info fd).catching fun e => e = .notOperator := by
  rw [execMode_of_some hcall, hch, require_some, if_neg (Channel.passes_guard_iff.mpr hop)]

/-- **`MODE`.**  It is ignored, or refused, or goes to the handler of its letter. -/
theorem leaves_execMode {who : Server → Str → Fd → Result} {env : Env} {R : Server → Prop}
    (hsame : R s) (hrefused : ∀ name, (s.throwNotOperator fd name).Leaves R)
    (hmode : ∀ info ch, modeCall env message = some info → s.getChannel info.channel = some ch →
      (ch.getOperator s.memory fd).isSome = true → (s.execModeKey env who ch info fd).Leaves R) :
    (s.execMode env who message fd).Leaves R := by
  cases hcall : modeCall env message with
  | none =>
      rw [execMode_of_none hcall]
      exact leaves_done.mpr hsame
  | some info =>
      rw [execMode_of_some hcall, leaves_catching]
      exact .require fun ch hch => .ite (fun _ => hrefused ch.name)
        fun hguard => hmode info ch hcall hch (Channel.passes_guard_iff.mp hguard)

/-- Nothing is thrown out of a ban. -/
theorem execBan_not_thrown {who : Server → Str → Fd → Result} (hc : s.getClient fd = some client)
    (hch : s.getChannel ch.name = some ch) (hsends : WhoSends who ch.name)
    (hanswers : WhoAnswers who ch.name) (e : Exception) :
    (s.execBan who ch info fd).ending ≠ .thrown e := by
  rw [execBan_ending hc hch hsends hanswers]
  repeat' split
  all_goals simp

/-- `MODE` uses the channel; an operator goes on to the letter. -/
theorem execMode_ending {who : Server → Str → Fd → Result} (env : Env)
    (hc : s.getClient fd = some client) (hnamed : s.Named) (hwho : NestedWho who) :
    (s.execMode env who message fd).ending =
      match modeCall env message with
      | none => .returned
      | some info =>
          match s.getChannel info.channel with
          | none => .faulted .nullChannel
          | some ch =>
              if (ch.getOperator s.memory fd).isSome = true then
                (s.execModeKey env who ch info fd).ending
              else .returned := by
  cases hcall : modeCall env message with
  | none =>
      rw [execMode_of_none hcall]
      rfl
  | some info =>
      rw [execMode_of_some hcall]
      dsimp only
      cases hch : s.getChannel info.channel with
      | none => rfl
      | some ch =>
          rw [require_some]
          dsimp only
          cases ch.getOperator s.memory fd with
          | none =>
              rw [Option.isNone_none, if_pos rfl, ending_catching, throwNotOperator_ending hc,
                Option.isSome_none, if_neg Bool.false_ne_true]
              rfl
          | some operator =>
              rw [Option.isNone_some, if_neg Bool.false_ne_true, Option.isSome_some, if_pos rfl]
              apply ending_catching_of_not_thrown
              intro e
              have hgood := hnamed.good ch (mem_of_getChannel hch)
              rw [execModeKey_ending]
              split
              · rw [execOperator_ending]
                split <;> simp
              · split
                · exact execBan_not_thrown hc (getChannel_self hch) (hwho.sends _ hgood)
                    (hwho.answers _ hgood) e
                · simp

/-- `PASS` needs its client only. -/
theorem execPass_ending :
    (s.execPass message fd).ending =
      if (s.getClient fd).isSome = true then .returned else .faulted .nullClient :=
  ending_require fun _ _ => rfl

/-- A login throws when the password is wrong. -/
theorem login_ending (s : Server) (client : ClientPtr) :
    (s.login client).ending =
      if s.password = (s.memory client).password then .returned
      else .thrown .passwordMismatch := by
  unfold login
  by_cases hpassword : s.password = (s.memory client).password
  · rw [if_pos hpassword, if_pos hpassword]
    split <;> rfl
  · rw [if_neg hpassword, if_neg hpassword]
    rfl

/-- `USER` catches what a failed login throws. -/
theorem execUser_ending :
    (s.execUser message fd).ending =
      if (split message space).length < 5 then .faulted .outOfRange
      else if (s.getClient fd).isSome = true then .returned else .faulted .nullClient := by
  unfold execUser
  cases hparse : Parser.userParse message with
  | none =>
      have hwords : ¬ 5 ≤ (split message space).length := by
        rw [← userParse_isSome, hparse]
        simp
      rw [if_pos (Nat.lt_of_not_le hwords)]
      rfl
  | some user =>
      have hwords : 5 ≤ (split message space).length := by
        rw [← userParse_isSome, hparse]
        rfl
      rw [if_neg (Nat.not_lt.mpr hwords), require_some]
      refine ending_require fun client _ => ?_
      have hlogin := login_ending (s.setClient client fun c =>
        { c with userName := user.1, realName := user.2 }) client
      split at hlogin
      · obtain ⟨s', hdone⟩ := ending_eq_returned.mp hlogin
        rw [hdone]
        rfl
      · obtain ⟨s', hthrown⟩ := ending_eq_thrown.mp hlogin
        rw [hthrown]
        rfl

/-- `NICK` does not catch what a failed login throws. -/
theorem execNick_ending :
    (s.execNick message fd).ending =
      match s.getClient fd with
      | none => .faulted .nullClient
      | some client =>
          if s.getClientByNickName (Parser.parse message).function = none ∧
              (s.memory client).alreadyRegistered = true ∧
              s.password ≠ (s.memory client).password then .thrown .passwordMismatch
          else .returned := by
  unfold execNick
  cases s.getClient fd with
  | none => rfl
  | some client =>
      rw [require_some]
      dsimp only
      cases hused : s.getClientByNickName (Parser.parse message).function with
      | some other => simp [throwClient]
      | none =>
          rw [Option.isSome_none, if_neg Bool.false_ne_true]
          generalize hs : (if (s.memory client).nickName ≠ "*".toList then _ else _ : Server) = s'
          have hmemory :
              (s'.memory client).alreadyRegistered = (s.memory client).alreadyRegistered ∧
              (s'.memory client).password = (s.memory client).password ∧
              s'.password = s.password := by
            rw [← hs]
            split <;> simp [sendAll, setClient]
          obtain ⟨hregistered, hpassword, hserver⟩ := hmemory
          by_cases hmarked : (s.memory client).alreadyRegistered = true
          · rw [if_pos (hregistered.trans hmarked), login_ending]
            simp only [setClient, Function.update_self, hpassword, hserver, hmarked, true_and]
            split <;> simp_all
          · rw [if_neg (by rw [hregistered]; exact hmarked), if_neg fun h => hmarked h.2.1]
            rfl

/-- The members that `Command::execQuit` tells, over all channels the sender is
on: those with other descriptors. -/
def quitTold (s : Server) (fd : Fd) : List Fd :=
  s.channels.flatMap fun ch =>
    if (ch.getClient s.memory fd).isSome then (s.fdsOf ch.clients).filter (· ≠ fd) else []

/-- The message after telling some members: what stands after its first colon
takes its place each time. -/
def tellAll (connected : Bool) : List Fd → Str → Except Fault Str
  | [], text => .ok text
  | _ :: rest, text =>
      match (split text colon)[1]? with
      | none => .error .outOfRange
      | some piece => if connected then tellAll connected rest piece else .error .nullClient

/-- Telling some members and then others is telling all of them. -/
theorem tellAll_append (connected : Bool) (first second : List Fd) (text : Str) :
    tellAll connected (first ++ second) text =
      (tellAll connected first text).bind (tellAll connected second) := by
  induction first generalizing text with
  | nil => rfl
  | cons target first ih =>
      simp only [List.cons_append, tellAll]
      split
      · rfl
      · split
        · exact ih _
        · rfl

/-- Telling two members fails: the message that the first was told has no colon
left. -/
theorem tellAll_two (connected : Bool) (first second : Fd) (rest : List Fd) (text : Str) :
    tellAll connected (first :: second :: rest) text =
      if (split text colon).length < 2 then .error .outOfRange
      else if connected then .error .outOfRange else .error .nullClient := by
  simp only [tellAll]
  cases hpiece : (split text colon)[1]? with
  | none => rw [if_pos (short_of_word hpiece)]
  | some piece =>
      have hlength := length_of_word hpiece
      have hagain : (split piece colon)[1]? = none := by
        have hmem : piece ∈ Text.cutTrim colon text := List.mem_of_getElem? hpiece
        unfold split
        rw [Text.cutTrim_of_mem_cutTrim (by decide) hmem, List.getElem?_eq_none_iff]
        split <;> simp
      rw [if_neg (by omega)]
      dsimp only
      rw [hagain]

/-- A part of the loop of `Command::execQuit` that leaves the message as
computed, and the clients as they are. -/
def Follows (s : Server) (text : Except Fault Str) (run : Outcome (Server × Str) Exception Fault) :
    Prop :=
  match text with
  | .ok text => ∃ s', run = .done (s', text) ∧ s'.clients = s.clients ∧ s'.memory = s.memory
  | .error f => run = .fault f

/-- Two parts of the loop follow one after the other. -/
theorem Follows.andThen {text : Except Fault Str} {run : Outcome (Server × Str) Exception Fault}
    {rest : Str → Except Fault Str} {next : Server × Str → Outcome (Server × Str) Exception Fault}
    (h : s.Follows text run)
    (hnext : ∀ s' text, s'.clients = s.clients → s'.memory = s.memory →
      s.Follows (rest text) (next (s', text))) :
    s.Follows (text.bind rest) (run.andThen next) := by
  cases text with
  | ok text =>
      obtain ⟨s', rfl, hclients, hmemory⟩ := h
      exact hnext s' text hclients hmemory
  | error f =>
      rw [show run = .fault f from h]
      rfl

/-- The loop over the members of a channel leaves the message as computed. -/
theorem quitTells_follow (hclients : s'.clients = s.clients) (hmemory : s'.memory = s.memory)
    (targets : List Fd) (text : Str) :
    s.Follows (tellAll (s.getClient fd).isSome (targets.filter (· ≠ fd)) text)
      (Outcome.each (quitTell fd) targets (s', text)) := by
  induction targets generalizing s' text with
  | nil => exact ⟨s', rfl, hclients, hmemory⟩
  | cons target targets ih =>
      have hclient : s'.getClient fd = s.getClient fd := by
        unfold getClient
        rw [hclients, hmemory]
      rw [each_cons, quitTell]
      by_cases htarget : target ≠ fd
      · rw [if_pos htarget, List.filter_cons_of_pos (by simpa using htarget), tellAll]
        cases hpiece : (split text colon)[1]? with
        | none => rfl
        | some piece =>
            rw [require_some]
            dsimp only
            rw [hclient]
            have hrest : ∀ s'' : Server, s''.clients = s.clients → s''.memory = s.memory →
                s.Follows (tellAll (s.getClient fd).isSome (targets.filter (· ≠ fd)) piece)
                  (Outcome.each (quitTell fd) targets (s'', piece)) :=
              fun _ hclients hmemory => ih hclients hmemory piece
            cases hc : s.getClient fd with
            | none => rfl
            | some client =>
                rw [hc] at hrest
                exact hrest _ hclients hmemory
      · rw [if_neg htarget, List.filter_cons_of_neg (by simpa using htarget), andThen_done]
        exact ih hclients hmemory _

/-- So does the loop over the channels. -/
theorem quitChannels_follow (hclients : s'.clients = s.clients) (hmemory : s'.memory = s.memory)
    (channels : List Channel) (text : Str) :
    s.Follows (tellAll (s.getClient fd).isSome (channels.flatMap fun ch =>
        if (ch.getClient s.memory fd).isSome then (s.fdsOf ch.clients).filter (· ≠ fd)
        else []) text)
      (Outcome.each (quitChannel fd) channels (s', text)) := by
  induction channels generalizing s' text with
  | nil => exact ⟨s', rfl, hclients, hmemory⟩
  | cons ch channels ih =>
      rw [each_cons, List.flatMap_cons, tellAll_append]
      refine Follows.andThen ?_ fun s' text hclients hmemory => ih hclients hmemory text
      unfold quitChannel
      rw [hmemory]
      by_cases hmember : (ch.getClient s.memory fd).isSome = true
      · have hfds : s'.fdsOf ch.clients = s.fdsOf ch.clients := by
          unfold fdsOf
          rw [hmemory]
        have hbind : ∀ told : Except Fault Str, told.bind .ok = told := fun told => by
          cases told <;> rfl
        rw [if_pos hmember, if_pos hmember, hfds, ← hbind (tellAll _ _ _)]
        exact (quitTells_follow hclients hmemory _ text).andThen
          fun s' text hclients hmemory => ⟨_, rfl, hclients, hmemory⟩
      · rw [if_neg hmember, if_neg hmember]
        exact ⟨s', rfl, hclients, hmemory⟩

/-- `QUIT` cuts the message again for every member it tells. -/
theorem execQuit_ending :
    (s.execQuit message fd).ending =
      match s.quitTold fd with
      | [] => .returned
      | _ :: rest =>
          if (split message colon).length < 2 then .faulted .outOfRange
          else if (s.getClient fd).isSome = true then
            if rest = [] then .returned else .faulted .outOfRange
          else .faulted .nullClient := by
  have hfollows : s.Follows (tellAll (s.getClient fd).isSome (s.quitTold fd) message)
      (Outcome.each (quitChannel fd) s.channels (s, message)) :=
    quitChannels_follow rfl rfl s.channels message
  have hending : (s.execQuit message fd).ending =
      match tellAll (s.getClient fd).isSome (s.quitTold fd) message with
      | .ok _ => .returned
      | .error f => .faulted f := by
    unfold execQuit
    cases htold : tellAll (s.getClient fd).isSome (s.quitTold fd) message with
    | ok text =>
        rw [htold] at hfollows
        obtain ⟨s', hdone, -⟩ := hfollows
        rw [hdone]
        rfl
    | error f =>
        rw [htold] at hfollows
        rw [show Outcome.each (quitChannel fd) s.channels (s, message) = .fault f from hfollows]
        rfl
  rw [hending]
  match s.quitTold fd with
  | [] => rfl
  | [target] =>
      simp only [tellAll]
      cases hpiece : (split message colon)[1]? with
      | none => rw [if_pos (short_of_word hpiece)]
      | some piece =>
          have hlength := length_of_word hpiece
          rw [if_neg (by omega)]
          cases s.getClient fd <;> rfl
  | first :: second :: rest =>
      rw [tellAll_two]
      dsimp only
      by_cases hwords : (split message colon).length < 2
      · rw [if_pos hwords, if_pos hwords]
      · rw [if_neg hwords, if_neg hwords]
        cases s.getClient fd <;> rfl

/-- **One message.**  It is refused, or its handler is run; the catch list of
`Command::Execute` is around both. -/
theorem handle_ending {who : Server → Str → Fd → Result} (env : Env) :
    (s.handle env who message fd).ending =
      if Checker.accepts message = true then
        (s.dispatch env who message fd).ending.caught caughtByExecute
      else if Checker.unknown message = true ∧ s.getClient fd = none then .faulted .nullClient
      else .returned := by
  unfold handle
  rw [ending_catching]
  by_cases haccepts : Checker.accepts message = true
  · rw [if_pos haccepts, check_of_accepts s fd haccepts, andThen_done]
  · rw [if_neg haccepts, check_andThen_of_not_accepts s fd haccepts]
    rcases check_refused s fd haccepts with ⟨hknown, e, hcaught, hcheck⟩ | ⟨hunknown, text, hcheck⟩
    · rw [hcheck, ending_thrown, Ending.caught_thrown, if_pos hcaught, hknown,
        if_neg fun h => by cases h.1]
    · rw [hcheck]
      unfold Checker.unknownCommand
      cases s.getClient fd with
      | none => rw [if_pos ⟨hunknown, rfl⟩]; rfl
      | some client => rw [if_neg fun h => by cases h.2]; rfl

end Server

end FtIrc
