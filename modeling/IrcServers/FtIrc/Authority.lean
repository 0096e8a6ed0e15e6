import IrcServers.FtIrc.ChannelNames
import IrcServers.FtIrc.Endings

/-!
# Who may change a channel

The handlers that change a channel's settings look for an operator with the
descriptor of the line.  A client that is no operator itself passes this test
when an operator that has left the server had the same descriptor, and it fails
the test otherwise; then its messages can only make itself join or leave.
-/

namespace FtIrc

open Utils Text Outcome

variable {ch ch' : Channel} {x q client : ClientPtr} {connected : List ClientPtr}

namespace Channel

/-- What a client `x` that is no operator may do to a channel: the settings, the
bans and the invites stay, of the clients connected before nobody but `x` stops
being a member or an operator, and only `x` becomes an operator, by joining an
empty channel. -/
structure Spared (x : ClientPtr) (connected : List ClientPtr) (ch ch' : Channel) : Prop where
  settings : ch' = { ch with clients := ch'.clients, operators := ch'.operators }
  members : ∀ p ∈ connected, p ≠ x → p ∈ ch.clients → p ∈ ch'.clients
  operators : ∀ p ∈ connected, p ≠ x → p ∈ ch.operators → p ∈ ch'.operators
  promoted : ∀ p ∈ ch'.operators, p ∉ ch.operators → p = x ∧ ch.clients = [] ∧ x ∈ ch'.clients

/-- A channel that stays as it is has been spared. -/
theorem Spared.refl (ch : Channel) : ch.Spared x connected ch :=
  ⟨rfl, fun _ _ _ => id, fun _ _ _ => id, fun _ hp hnot => (hnot hp).elim⟩

/-- Joining. -/
theorem spared_pushClient (ch : Channel) : ch.Spared x connected (ch.pushClient x) := by
  refine ⟨rfl, fun p _ _ hp => List.mem_append_left _ hp, fun p _ _ hp => ?_, fun p hp hnot => ?_⟩
  · simp only [pushClient]
    split
    · exact List.mem_append_left _ hp
    · exact hp
  · simp only [pushClient] at hp
    split at hp
    · rename_i hempty
      rcases List.mem_append.mp hp with hp | hp
      · exact (hnot hp).elim
      · exact ⟨List.mem_singleton.mp hp, List.length_eq_zero_iff.mp hempty, by simp [pushClient]⟩
    · exact (hnot hp).elim

/-- Only `x` or a client that is not connected leaves. -/
theorem spared_without (hq : q = x ∨ q ∉ connected) (h : ch.Spared x connected ch')
    (hsub : ∀ p ∈ ch'.operators, p ∈ ch.operators) :
    ch.Spared x connected (ch'.without q) ∧
      ∀ p ∈ (ch'.without q).operators, p ∈ ch.operators := by
  by_cases hmem : q ∈ ch'.clients
  · have hne : ∀ p ∈ connected, p ≠ x → p ≠ q := by
      intro p hp hpx heq
      rcases hq with rfl | hq
      · exact hpx heq
      · exact hq (heq ▸ hp)
    have hwithout : ch'.without q =
        { ch' with operators := ch'.operators.erase q, clients := ch'.clients.erase q } :=
      if_pos hmem
    have hsub' : ∀ p ∈ (ch'.without q).operators, p ∈ ch.operators := by
      intro p hp
      rw [hwithout] at hp
      exact hsub p (List.mem_of_mem_erase hp)
    refine ⟨⟨?_, ?_, ?_, fun p hp hnot => (hnot (hsub' p hp)).elim⟩, hsub'⟩
    · rw [hwithout]
      conv_lhs => rw [h.settings]
    · intro p hp hpx hin
      rw [hwithout]
      exact (List.mem_erase_of_ne (hne p hp hpx)).mpr (h.members p hp hpx hin)
    · intro p hp hpx hin
      rw [hwithout]
      exact (List.mem_erase_of_ne (hne p hp hpx)).mpr (h.operators p hp hpx hin)
  · rw [without_of_not_mem hmem]
    exact ⟨h, hsub⟩

end Channel

namespace Server

variable {s s' : Server} {fd : Fd} {name message : Str} {touched : Str → Prop}

/-- The channel is still there after a message of `x`, and has been spared. -/
def Spares (s : Server) (x : ClientPtr) (ch : Channel) (s' : Server) : Prop :=
  ∃ ch', s'.getChannel ch.name = some ch' ∧ ch.Spared x s.clients ch'

/-- So has one whose name is not touched. -/
theorem Touches.spares (h : s.Touches touched s') (hch : s.getChannel ch.name = some ch)
    (hname : ¬ touched ch.name) : s.Spares x ch s' :=
  ⟨ch, (h.others _ hname).trans hch, .refl ch⟩

/-- `JOIN` adds its own client, as an operator only of an empty channel. -/
theorem execJoin_spares (hx : s.getClient fd = some x) (hch : s.getChannel ch.name = some ch) :
    (s.execJoin message fd).Leaves (s.Spares x ch) := by
  have hsame : ∀ s', s'.channels = s.channels → s.Spares x ch s' := by
    intro s' h
    have htouches : s.Touches (fun _ => False) s' := .of_channels h
    exact htouches.spares hch id
  unfold execJoin
  rw [leaves_catching, hx]
  dsimp only [require_some]
  split
  · rename_i found hfound
    refine .ite (fun _ => leaves_thrown.mpr (hsame _ rfl)) (fun _ => ?_)
    split
    · exact leaves_thrown.mpr (hsame _ rfl)
    · refine leaves_done.mpr ?_
      by_cases hname : found.name = ch.name
      · have heq : found = ch := by
          rw [← name_of_getChannel hfound, hname, hch] at hfound
          exact (Option.some.inj hfound).symm
        subst heq
        exact ⟨found.pushClient x, getChannel_putChannel hch rfl, found.spared_pushClient⟩
      · have hother : (s.putChannel (found.pushClient x)).getChannel ch.name =
            s.getChannel ch.name := getChannel_putChannel_of_ne s hname
        exact ⟨ch, hother.trans hch, .refl ch⟩
  · refine leaves_done.mpr ⟨ch, ?_, .refl ch⟩
    unfold getChannel at hch
    simp [getChannel, send, addChannel, List.find?_append, hch]

/-- `PART` takes off its own client. -/
theorem execPart_spares (hx : s.getClient fd = some x) (hch : s.getChannel ch.name = some ch) :
    (s.execPart message fd).Leaves (s.Spares x ch) := by
  unfold execPart
  rw [hx]
  dsimp only [require_some]
  split
  · rename_i found hfound
    refine leaves_done.mpr ?_
    rw [Channel.removeClient_some]
    have hfoundname := found.without_name x
    by_cases hname : found.name = ch.name
    · have heq : found = ch := by
        rw [← name_of_getChannel hfound, hname, hch] at hfound
        exact (Option.some.inj hfound).symm
      subst heq
      exact ⟨found.without x, getChannel_putChannel (s := s.broadcast _ _) hch hfoundname,
        (Channel.spared_without (Or.inl rfl) (.refl found) fun _ => id).1⟩
    · refine ⟨ch, ?_, .refl ch⟩
      rw [getChannel_putChannel_of_ne _ (hfoundname ▸ hname)]
      exact hch
  · exact leaves_done.mpr ⟨ch, hch, .refl ch⟩

/-- Removing a client by its descriptor drops an entry of that client, or of one
that has left. -/
theorem spared_dropFrom (hfds : (s.fdsOf s.clients).Nodup) (hx : s.getClient fd = some x)
    (h : ch.Spared x s.clients ch') (hsub : ∀ p ∈ ch'.operators, p ∈ ch.operators) :
    ch.Spared x s.clients (s.dropFrom fd ch') := by
  unfold dropFrom
  cases hq : ch'.getClient (s.deleteClient fd).memory fd with
  | none => exact h
  | some q =>
      rw [Channel.removeClient_some]
      refine (Channel.spared_without ?_ h hsub).1
      by_cases hself : q = x
      · exact Or.inl hself
      · have hqfd : ((s.deleteClient fd).memory q).fd = fd := by simpa using List.find?_some hq
        rw [deleteClient_memory fun hfound =>
          hself (Option.some.inj (hfound.symm.trans hx))] at hqfd
        refine Or.inr fun hin => hself ?_
        exact eq_of_fd hfds hin (mem_of_getClient hx) (hqfd.trans (fd_of_getClient hx).symm)

/-- `QUIT` takes off its own client. -/
theorem execQuit_spares (hnamed : s.Named) (hfds : (s.fdsOf s.clients).Nodup)
    (hx : s.getClient fd = some x) (hch : s.getChannel ch.name = some ch) :
    (s.execQuit message fd).Leaves (s.Spares x ch) := by
  refine (execQuit_leaves hnamed message fd).imp fun s' h => ?_
  have hchannels : s'.channels = s.channels.map fun c => s.dropFrom fd (s.quitFrom fd c) := by
    rw [h.2.channels, channels_removeClient, dropFrom_departed]
    exact List.map_map
  have hfound := getChannel_map (f := fun c => s.dropFrom fd (s.quitFrom fd c))
    (fun c => (s.dropFrom_name fd _).trans (s.quitFrom_name fd c)) hchannels ch.name
  rw [hch, Option.map_some] at hfound
  refine ⟨_, hfound, ?_⟩
  have hquit : ch.Spared x s.clients (s.quitFrom fd ch) ∧
      ∀ p ∈ (s.quitFrom fd ch).operators, p ∈ ch.operators := by
    unfold quitFrom
    split
    · rw [hx, Channel.removeClient_some]
      exact Channel.spared_without (Or.inl rfl) (.refl ch) fun _ => id
    · exact ⟨.refl ch, fun _ => id⟩
  exact spared_dropFrom hfds hx hquit.1 hquit.2

/-- `USER` takes off its own client, if anybody. -/
theorem execUser_spares (hfds : (s.fdsOf s.clients).Nodup) (hx : s.getClient fd = some x)
    (hch : s.getChannel ch.name = some ch) :
    (s.execUser message fd).Leaves (s.Spares x ch) := by
  by_cases hpassword : s.password = (s.memory x).password
  · have htouches : (s.execUser message fd).Leaves (s.Touches fun _ => False) := by
      refine execUser_touches fun client hc => ?_
      rw [hx] at hc
      cases hc
      exact hpassword
    exact htouches.imp fun s' h => h.spares hch id
  · refine (execUser_leaves hx hpassword message).imp fun s' h => ?_
    have hfound := getChannel_map (s.dropFrom_name fd)
      (h.2.channels.trans (s.channels_removeClient fd)) ch.name
    rw [hch, Option.map_some] at hfound
    exact ⟨_, hfound, spared_dropFrom hfds hx (.refl ch) fun _ => id⟩

/-- **A message of a client that does not pass for an operator.** -/
theorem handle_spares {who : Server → Str → Fd → Result} (env : Env) (hnamed : s.Named)
    (hfds : (s.fdsOf s.clients).Nodup) (hwho : ∀ name, ChannelName name → WhoSends who name)
    (hx : s.getClient fd = some x) (hch : s.getChannel ch.name = some ch)
    (hguard : (s.memory x).login = true → ¬ s.Operated fd ch.name) :
    (s.handle env who message fd).Leaves (s.Spares x ch) := by
  have hnone : ∀ {outcome : Result}, (outcome.Leaves (s.Touches fun _ => False)) →
      outcome.Leaves (s.Spares x ch) := fun h => h.imp fun s' h => h.spares hch id
  unfold handle
  rw [leaves_catching]
  by_cases haccepts : Checker.accepts message = true
  · rw [check_of_accepts s fd haccepts, andThen_done]
    unfold dispatch
    generalize verbOf (commandOf message) = verb
    have hlogin : ∀ verb, (s.memory x).login = true →
        (s.dispatchLogin env who x message fd verb).Leaves (s.Spares x ch) := by
      intro verb hlogged
      have hoperated : ∀ {outcome : Result}, (outcome.Leaves (s.Touches (s.Operated fd))) →
          outcome.Leaves (s.Spares x ch) := fun h =>
        h.imp fun s' h => h.spares hch (hguard hlogged)
      by_cases hjoin : verb = .join
      · rw [hjoin]
        exact execJoin_spares hx hch
      · by_cases hpart : verb = .part
        · rw [hpart]
          exact execPart_spares hx hch
        · exact hoperated ((frame_touches s _).dispatchLogin (.refl s) env hnamed hwho hjoin
            fun name h => h.resolve_right hpart)
    cases verb with
    | quit => exact execQuit_spares hnamed hfds hx hch
    | user => exact execUser_spares hfds hx hch
    | nick => exact hnone execNick_touches
    | pass => exact hnone execPass_touches
    | _ =>
        dsimp only
        rw [hx, require_some]
        exact .ite (hlogin _) (fun _ => leaves_done.mpr ⟨ch, hch, .refl ch⟩)
  · rw [check_andThen_of_not_accepts s fd haccepts]
    exact hnone ((check_sends s message fd).imp fun _ h => h.touches)

/-- The `MODE` message that sets the password of a channel. -/
def keyMessage (name flags key : Str) : Str :=
  "MODE".toList ++ ' ' :: (name ++ ' ' :: (flags ++ ' ' :: key))

/-- The words of the message. -/
theorem split_keyMessage {flags key : Str} (hname : ' ' ∉ name) (hflags : ' ' ∉ flags)
    (hkey : ' ' ∉ key) (hne : key ≠ []) :
    split (keyMessage name flags key) space = ["MODE".toList, name, flags, key] := by
  have hlast := cutTrim_of_find_none (find_singleton_eq_none.mpr hkey)
  have hrest := cutTrim_singleton_append hflags key
  have hwords := cutTrim_singleton_append hname (flags ++ ' ' :: key)
  have hcut := cutTrim_singleton_append (show ' ' ∉ "MODE".toList by decide)
    (name ++ ' ' :: (flags ++ ' ' :: key))
  rw [hwords, hrest, hlast, if_neg hne] at hcut
  exact hcut

/-- It is read as the mode it is meant for. -/
theorem modeCall_keyMessage (env : Env) {flags key : Str} (hname : ChannelName name)
    (hflags : ' ' ∉ flags) (hkey : ' ' ∉ key) (hne : key ≠ []) :
    ∃ info, modeCall env (keyMessage name flags key) = some info ∧ info.channel = name ∧
      (∀ c letter, flags = [c, letter] → info.key = [letter]) ∧ info.parameters = trim key := by
  have hspace : contains space (keyMessage name flags key) = true :=
    contains_space_append (show ' ' ∉ "MODE".toList by decide) _
  unfold modeCall Parser.modeParse
  rw [split_keyMessage hname.noSpace hflags hkey hne, hspace, if_neg (by simp)]
  refine ⟨_, rfl, hname.trimmed, ?_, rfl⟩
  intro c letter hletter
  simp only [hletter]

/-- There is nothing to trim. -/
theorem trim_keyMessage (name : Str) {c : Char} (hc : isspace c = false) :
    trim (keyMessage name "+k".toList [c]) = keyMessage name "+k".toList [c] := by
  have hkey : trim [c] = [c] := by simp [trim, List.rdropWhile, hc]
  have hends : keyMessage name "+k".toList [c] =
      ("MODE".toList ++ ' ' :: (name ++ ' ' :: ("+k".toList ++ [' ']))) ++ [c] := by
    simp [keyMessage]
  have hstarts : (keyMessage name "+k".toList [c]).dropWhile isspace =
      keyMessage name "+k".toList [c] := List.dropWhile_cons_of_neg (by decide)
  unfold trim
  rw [hstarts, hends]
  exact rdropWhile_append (by simp) hkey

/-- The checker looks at the name, the sign, the letter and the key. -/
theorem formatOf_keyMessage {rest : Str} (hname : ChannelName ('#' :: rest)) {c : Char}
    (hc : isspace c = false) :
    Checker.formatOf (keyMessage ('#' :: rest) "+k".toList [c]) =
      ('#' :: rest) ++ ' ' :: ['+', 'k', ' ', c] := by
  have hspace : c ≠ ' ' := by
    rintro rfl
    cases hc
  have hkey : trim [c] = [c] := by simp [trim, List.rdropWhile, hc]
  have hjoined : ('#' :: rest) ++ (" ".toList ++ "+k".toList) ++ (" ".toList ++ [c]) =
      (('#' :: rest) ++ [' ', '+', 'k', ' ']) ++ [c] := by simp
  unfold Checker.formatOf
  rw [trim_keyMessage _ hc,
    split_keyMessage hname.noSpace (by decide) (by simpa using hspace.symm) (by simp)]
  simp only [List.foldl_cons, List.foldl_nil]
  rw [hjoined]
  unfold trim
  rw [List.cons_append, List.cons_append, List.dropWhile_cons_of_neg (by decide),
    ← List.cons_append, rdropWhile_append (by simp) hkey]
  simp

/-- The checker accepts them. -/
theorem checkOnlyMode_key {rest : Str} (hname : ChannelName ('#' :: rest)) (c : Char) :
    Checker.checkOnlyMode (('#' :: rest) ++ ' ' :: ['+', 'k', ' ', c]) = true := by
  have hfind := find_singleton_append hname.noSpace ['+', 'k', ' ', c]
  have hnone : find [' '] ('#' :: rest) = none := find_singleton_eq_none.mpr hname.noSpace
  unfold Checker.checkOnlyMode
  rw [show space = [' '] from rfl, hfind]
  simp only [List.take_left, List.drop_append, contains, hnone]
  simp

/-- A channel whose name starts with `#` can be addressed. -/
theorem accepts_keyMessage (hname : ChannelName name) (hhead : name.head? = some '#') {c : Char}
    (hc : isspace c = false) : Checker.accepts (keyMessage name "+k".toList [c]) = true := by
  obtain ⟨rest, rfl⟩ : ∃ rest, name = '#' :: rest := by
    cases name with
    | nil => cases hhead
    | cons d rest => exact ⟨rest, congrArg (· :: rest) (Option.some.inj hhead)⟩
  have hverb : verbOf (Checker.getCommand (keyMessage ('#' :: rest) "+k".toList [c])) = .mode := by
    have hcommand := getCommand_append (show ' ' ∉ "MODE".toList by decide)
      (('#' :: rest) ++ ' ' :: ("+k".toList ++ ' ' :: [c]))
    unfold keyMessage
    rw [hcommand]
    decide
  have hcontains : contains space (keyMessage ('#' :: rest) "+k".toList [c]) = true :=
    contains_space_append (show ' ' ∉ "MODE".toList by decide) _
  rw [accepts_iff, trim_keyMessage _ hc, hverb]
  refine ⟨hcontains, ?_, by decide⟩
  simp only [Checker.formatError, formatOf_keyMessage hname hc, checkOnlyMode_key hname, if_true]

/-- The message is a single line. -/
theorem oneLine_keyMessage {flags key : Str} (hname : ChannelName name)
    (hflags : '\r' ∉ flags) (hkey : '\r' ∉ key) : OneLine (keyMessage name flags key) := by
  have hnone : ∀ text : Str, '\r' ∉ text → find crlf text = none := fun text h =>
    find_eq_none_iff.mpr fun hin => h (hin.subset (by simp [crlf]))
  refine oneLine_of_find (by simp [keyMessage]) ?_
  exact noBreak_append_space (by decide) (noBreak_append_space hname.noBreak
    (noBreak_append_space (hnone flags hflags) (hnone key hkey)))

/-- A `MODE` of an operator goes to the handler of its letter. -/
theorem handleLine_mode (env : Env) {info : ModeInfo} (hline : OneLine message)
    (haccepts : Checker.accepts message = true) (hverb : verbOf (commandOf message) = .mode)
    (hcall : modeCall env message = some info)
    (hx : s.getClient fd = some x) (hlogin : (s.memory x).login = true)
    (hch : s.getChannel info.channel = some ch)
    (hop : (ch.getOperator s.memory fd).isSome = true)
    (hdone : s.execModeKey env (executeTo env 1) ch info fd = .done s') :
    handleLine env s message fd = .done s' := by
  have hmode : s.execMode env (executeTo env 1) message fd = .done s' := by
    rw [execMode_eq_execModeKey hcall hch hop, hdone, catching_done]
  rw [handleLine, hline.executeTo]
  unfold handle dispatch
  rw [check_of_accepts s fd haccepts, andThen_done, hverb]
  simp only [hx, require_some, hlogin, if_true, dispatchLogin, hmode, catching_done]

/-- An operator's `MODE` sets the password. -/
theorem handleLine_key (env : Env) {info : ModeInfo} (hline : OneLine message)
    (haccepts : Checker.accepts message = true) (hverb : verbOf (commandOf message) = .mode)
    (hcall : modeCall env message = some info) (hkey : info.key = "k".toList)
    (hx : s.getClient fd = some x) (hlogin : (s.memory x).login = true)
    (hch : s.getChannel info.channel = some ch)
    (hop : (ch.getOperator s.memory fd).isSome = true) :
    handleLine env s message fd = .done (s.execKey ch info) := by
  apply handleLine_mode env hline haccepts hverb hcall hx hlogin hch hop
  simp [execModeKey, hkey, toLower]

/-- **A client that passes for an operator** can change the password. -/
theorem exists_not_spared (env : Env) (hname : ChannelName ch.name) (hhashed : Hashed ch.name)
    (hx : s.getClient fd = some x) (hlogin : (s.memory x).login = true)
    (hch : s.getChannel ch.name = some ch)
    (hop : (ch.getOperator s.memory fd).isSome = true) :
    ∃ message s', OneLine message ∧ handleLine env s message fd = .done s' ∧
      ¬ s.Spares x ch s' := by
  have hset : ∀ info : ModeInfo, info.parameters ≠ ch.password →
      ¬ s.Spares x ch (s.execKey ch info) := by
    intro info hne hspares
    obtain ⟨ch', hfound, hspared⟩ := hspares
    have hput : (s.execKey ch info).getChannel ch.name =
        some { ch with password := info.parameters } :=
      getChannel_putChannel hch rfl
    rw [hput] at hfound
    have hpassword := congrArg Channel.password hspared.settings
    rw [← Option.some.inj hfound] at hpassword
    exact hne hpassword
  have hsend : ∀ flags key : Str, ' ' ∉ flags → ' ' ∉ key → key ≠ [] → '\r' ∉ flags →
      '\r' ∉ key → (∃ c, flags = [c, 'k']) → trim key ≠ ch.password →
      Checker.accepts (keyMessage ch.name flags key) = true →
      ∃ message s', OneLine message ∧ handleLine env s message fd = .done s' ∧
        ¬ s.Spares x ch s' := by
    intro flags key hflags hkey hne hflagsline hkeyline hletter hother haccepts
    obtain ⟨info, hcall, hchannel, hinfokey, hparameters⟩ :=
      modeCall_keyMessage env hname hflags hkey hne
    obtain ⟨c, rfl⟩ := hletter
    have hverb : verbOf (commandOf (keyMessage ch.name [c, 'k'] key)) = .mode := by
      unfold keyMessage
      rw [commandOf_append (show ' ' ∉ "MODE".toList by decide)]
      decide
    have honeLine := oneLine_keyMessage hname hflagsline hkeyline
    refine ⟨_, _, honeLine, ?_, hset info (hparameters ▸ hother)⟩
    exact handleLine_key env honeLine haccepts hverb hcall
      (hinfokey c 'k' rfl) hx hlogin (hchannel.symm ▸ hch) hop
  rcases hhashed with hempty | hhead
  · -- two spaces after the command: the check reads the mode as the name
    by_cases hpassword : ch.password = "+i".toList
    · refine hsend "#k".toList "+o".toList (by decide) (by decide) (by decide) (by decide)
        (by decide) ⟨'#', rfl⟩ (by rw [hpassword]; decide) ?_
      rw [hempty]
      decide
    · refine hsend "#k".toList "+i".toList (by decide) (by decide) (by decide) (by decide)
        (by decide) ⟨'#', rfl⟩ (fun h => hpassword (h.symm.trans (by decide))) ?_
      rw [hempty]
      decide
  · by_cases hpassword : ch.password = "a".toList
    · exact hsend "+k".toList "b".toList (by decide) (by decide) (by decide) (by decide)
        (by decide) ⟨'+', rfl⟩ (by rw [hpassword]; decide) (accepts_keyMessage hname hhead rfl)
    · exact hsend "+k".toList "a".toList (by decide) (by decide) (by decide) (by decide)
        (by decide) ⟨'+', rfl⟩ (fun h => hpassword (h.symm.trans (by decide)))
        (accepts_keyMessage hname hhead rfl)

end Server

variable {trace : Run.Trace World Action} {w : World}

/-- **Operator authority.**  In every reachable state, whatever single line a
connected client sends, a channel is spared if the handling returns, if and only
if the client is not logged in or no operator of the channel, connected or not,
has the descriptor of the client. -/
theorem operator_authority_iff (run : Steps trace w) (hch : ch ∈ w.srv.channels)
    (hx : x ∈ w.srv.clients) :
    (∀ env message s', OneLine message →
        handleLine env w.srv message (w.srv.memory x).fd = .done s' → w.srv.Spares x ch s') ↔
      ((w.srv.memory x).login = true →
        ∀ p ∈ ch.operators, (w.srv.memory p).fd ≠ (w.srv.memory x).fd) := by
  have htidy := tidy run
  have hclient := Server.getClient_fd htidy.fds hx
  have hfound : w.srv.getChannel ch.name = some ch :=
    Server.getChannel_of_mem htidy.named.distinct hch
  constructor
  · intro hspares hlogin p hp hfd
    have hop : (ch.getOperator w.srv.memory (w.srv.memory x).fd).isSome = true :=
      List.find?_isSome.mpr ⟨p, hp, by simpa using hfd⟩
    obtain ⟨message, s', hline, hdone, hnot⟩ := Server.exists_not_spared Env.calm
      (htidy.named.good ch hch) (hashes run ch hch) hclient hlogin hfound hop
    exact hnot (hspares Env.calm message s' hline hdone)
  · intro hguard env message s' hline hdone
    rw [handleLine, hline.executeTo] at hdone
    have hleaves : (w.srv.handle env (executeTo env 1) message (w.srv.memory x).fd).Leaves
        (w.srv.Spares x ch) := by
      refine Server.handle_spares env htidy.named htidy.fds
        (fun _ hname => Server.executeTo_who_sends env 0 hname) hclient hfound ?_
      rintro hlogin ⟨found, hname, hop⟩
      obtain rfl : ch = found := Option.some.inj (hfound.symm.trans hname)
      obtain ⟨p, hp, hfd⟩ := List.find?_isSome.mp hop
      exact hguard hlogin p hp (by simpa using hfd)
    rw [hdone] at hleaves
    exact leaves_done.mp hleaves

/-- A member that is no operator. -/
theorem operator_authority_iff_member : ∃ trace w ch, Steps trace w ∧ ch ∈ w.srv.channels ∧
    ch.clients = [0, 1] ∧ ch.operators = [0] ∧ (w.srv.memory 1).login = true ∧
    ∀ env message s', OneLine message →
      handleLine env w.srv message (w.srv.memory 1).fd = .done s' → w.srv.Spares 1 ch s' := by
  obtain ⟨trace, w, run, htest⟩ := Run.exists_steps_of_perform step start_pw
    ([.gather, .accept 5 "h".toList, .gather, .accept 6 "i".toList, .gather] ++
      packet 5 ["PASS pw", "NICK a", "USER a a a :n", "JOIN #c"] ++
      packet 6 ["PASS pw", "NICK b", "USER b b b :n", "JOIN #c"])
    (fun w => 1 ∈ w.srv.clients ∧ (w.srv.memory 1).login = true ∧
      (w.srv.memory 0).fd ≠ (w.srv.memory 1).fd ∧
      w.srv.channels.map (fun ch => (ch.clients, ch.operators)) = [([0, 1], [0])])
    (by decide +kernel)
  obtain ⟨hmem, hlogin, hfds, hchannels⟩ := of_decide_eq_true htest
  obtain ⟨ch, hch, hlists⟩ := List.mem_map.mp (hchannels ▸ List.mem_singleton_self ([0, 1], [0]))
  obtain ⟨hclients, hoperators⟩ := Prod.mk.inj hlists
  refine ⟨trace, w, ch, run, hch, hclients, hoperators, hlogin, ?_⟩
  refine (operator_authority_iff run hch hmem).mpr fun _ p hp => ?_
  rw [hoperators, List.mem_singleton] at hp
  exact hp ▸ hfds

/-- A client joins twice, hangs up and is made an operator, over a memory that keeps
its descriptor.  The next client gets the descriptor and sets the password of the
channel. -/
theorem departed_operator_lends_authority :
    ¬ ∀ trace w ch x, Steps trace w → ch ∈ w.srv.channels → x ∈ w.srv.clients →
      x ∉ ch.operators → ∀ env message s', OneLine message →
        handleLine env w.srv message (w.srv.memory x).fd = .done s' → w.srv.Spares x ch s' := by
  intro hall
  obtain ⟨trace, w, run, htest⟩ := Run.exists_steps_of_perform step start_pw_kept
    ([.gather, .accept 5 "h".toList, .gather, .accept 6 "i".toList, .gather] ++
      packet 5 ["PASS pw", "NICK a", "USER a a a :n", "JOIN #c"] ++
      packet 6 ["PASS pw", "NICK b", "USER b b b :n", "JOIN #c", "JOIN #c"] ++
      [.read 6 []] ++ packet 5 ["MODE #c +o b"] ++ [.gather, .accept 6 "j".toList] ++
      packet 6 ["PASS pw", "NICK c", "USER c c c :n"])
    (fun w => 2 ∈ w.srv.clients ∧ (w.srv.memory 2).fd = 6 ∧
      w.srv.channels.map (fun ch => (ch.name, ch.operators, ch.password)) =
        [("#c".toList, [0, 1], [])] ∧
      (handleLine Env.calm w.srv "MODE #c +k x".toList 6).state?.any fun s' =>
        (handleLine Env.calm w.srv "MODE #c +k x".toList 6).ending = .returned ∧
          (s'.getChannel "#c".toList).map Channel.password = some "x".toList)
    (by decide +kernel)
  obtain ⟨hmem, hfd, hchannels, hdone⟩ := of_decide_eq_true htest
  obtain ⟨ch, hch, hvalues⟩ := List.mem_map.mp (hchannels ▸ List.mem_singleton_self _)
  obtain ⟨hname, hvalues⟩ := Prod.mk.inj hvalues
  obtain ⟨hoperators, hpassword⟩ := Prod.mk.inj hvalues
  obtain ⟨s', hstate, hchanged⟩ := (Option.any_eq_true _ _).mp hdone
  obtain ⟨hreturned, hset⟩ := of_decide_eq_true hchanged
  obtain ⟨after, hafter⟩ := ending_eq_returned.mp hreturned
  rw [hafter] at hstate
  obtain rfl : after = s' := Option.some.inj hstate
  obtain ⟨ch', hfound, hspared⟩ := hall trace w ch 2 run hch hmem (by simp [hoperators]) Env.calm
    "MODE #c +k x".toList after (by unfold OneLine; decide) (hfd.symm ▸ hafter)
  rw [hname] at hfound
  have hsame := congrArg Channel.password hspared.settings
  rw [hfound, Option.map_some, Option.some.injEq, hsame] at hset
  rw [show ch.password = [] from hpassword] at hset
  cases hset

end FtIrc
