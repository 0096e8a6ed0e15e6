import Mathlib.Logic.Equiv.Basic
import IrcServers.Irc.Loop

/-!
# The password and the keys

The server compares the password with what `PASS` gives, and the key of a channel with
what `JOIN` gives, and uses them for nothing else.  So whoever does not give the right
one learns nothing of it: had the server another password, and its channels other keys,
everything would be as it is, up to a line that gives one of the words that differ.
-/

namespace Irc

open Outcome

/-- Other secrets than those of the server, by permutations of the words: what the
password stands for, and what the key of each channel stands for. -/
structure Disguise where
  password : Equiv.Perm Str
  key : Str → Equiv.Perm Str

variable {d : Disguise}

/-- A word the permutation leaves is right for both secrets or for neither. -/
theorem eq_guess_iff {f : Equiv.Perm Str} {secret guess : Str} (h : f guess = guess) :
    f secret = guess ↔ secret = guess := by
  constructor
  · intro heq
    exact f.injective (heq.trans h.symm)
  · rintro rfl
    exact h

/-- A line gives no password and no key that the disguise changes. -/
def Disguise.Spares (d : Disguise) (parts : List Str) : Prop :=
  match parts with
  | [] => True
  | word :: args =>
      (verbOf word = .pass → ∀ guess ∈ args.head?, d.password guess = guess) ∧
        (verbOf word = .join → ∀ name ∈ args.head?,
          d.key name ((args[1]?).getD []) = (args[1]?).getD [])

instance (d : Disguise) (parts : List Str) : Decidable (d.Spares parts) := by
  unfold Disguise.Spares
  split <;> infer_instance

namespace Channel

/-- The channel stored under `name` with another key. -/
def disguised (d : Disguise) (name : Str) (ch : Channel) : Channel :=
  { ch with key := d.key name ch.key }

variable (d : Disguise) (name : Str) (ch : Channel)

@[simp] theorem disguised_name : (ch.disguised d name).name = ch.name := rfl

@[simp] theorem disguised_userLimit : (ch.disguised d name).userLimit = ch.userLimit := rfl

@[simp] theorem disguised_topic : (ch.disguised d name).topic = ch.topic := rfl

@[simp] theorem disguised_opNick : (ch.disguised d name).opNick = ch.opNick := rfl

@[simp] theorem disguised_curClients : (ch.disguised d name).curClients = ch.curClients := rfl

@[simp] theorem disguised_isUserOnChannel (p : ClientPtr) :
    (ch.disguised d name).isUserOnChannel p = ch.isUserOnChannel p := rfl

end Channel

namespace Tables

variable {t : Tables} {name : Str}

/-- The tables with other secrets. -/
def disguised (d : Disguise) (t : Tables) : Tables :=
  { t with
    password := d.password t.password
    channels := t.channels.map fun name ch => ch.disguised d name }

/-- The disguise of a table is looked up entry by entry. -/
theorem disguised_getElem? (d : Disguise) (t : Tables) (name : Str) :
    (t.disguised d).channels[name]? = (t.channels[name]?).map (Channel.disguised d name) := by
  unfold disguised
  exact Std.ExtTreeMap.getElem?_map

/-- A disguised channel may be stored before or after the disguise. -/
theorem disguised_setChannel (d : Disguise) (t : Tables) (name : Str) (ch : Channel) :
    (t.disguised d).setChannel name (ch.disguised d name) = (t.setChannel name ch).disguised d := by
  have hchannels : ((t.disguised d).setChannel name (ch.disguised d name)).channels =
      ((t.setChannel name ch).disguised d).channels := by
    refine Std.ExtTreeMap.ext_getElem? fun other => ?_
    rw [setChannel_getElem?, disguised_getElem?, disguised_getElem?, setChannel_getElem?]
    split
    · rename_i heq
      rw [heq, Option.map_some]
    · rfl
  exact congrArg (fun channels => { t.disguised d with channels := channels }) hchannels

/-- A channel may be erased before or after it. -/
theorem disguised_erase (d : Disguise) (t : Tables) (name : Str) :
    { t.disguised d with channels := (t.disguised d).channels.erase name } =
      { t with channels := t.channels.erase name }.disguised d := by
  have hchannels : (t.disguised d).channels.erase name =
      ({ t with channels := t.channels.erase name }.disguised d).channels := by
    refine Std.ExtTreeMap.ext_getElem? fun other => ?_
    rw [disguised_getElem?, Std.ExtTreeMap.getElem?_erase, Std.ExtTreeMap.getElem?_erase,
      disguised_getElem?]
    split <;> rfl
  exact congrArg (fun channels => { t.disguised d with channels := channels }) hchannels

/-- Closing a connection reads no key. -/
theorem disguised_closeConnection (d : Disguise) (t : Tables) (fd : Fd) :
    (t.disguised d).closeConnection fd = (t.closeConnection fd).disguised d := by
  unfold closeConnection
  split
  · rename_i hopen
    rw [if_pos (show fd ∈ t.openFds from hopen)]
    rfl
  · rename_i hopen
    rw [if_neg (show fd ∉ t.openFds from hopen)]

/-- Nor does the lookup of a client, which may add one. -/
theorem disguised_index (d : Disguise) (t : Tables) (fd : Fd) (junk : Leftover) :
    (t.disguised d).index fd junk = ((t.index fd junk).1.disguised d, (t.index fd junk).2) := by
  unfold index
  rw [show (t.disguised d).clients = t.clients from rfl]
  split <;> rfl

/-- Nor does a new connection. -/
theorem disguised_acceptConnection (d : Disguise) (t : Tables) (fd : Fd) (ip : Str) (port : Nat) :
    (t.disguised d).acceptConnection fd ip port = (t.acceptConnection fd ip port).disguised d := by
  unfold acceptConnection addNewClient index
  rw [show (t.disguised d).clients = t.clients from rfl]
  dsimp only
  split <;> rfl

end Tables

namespace Server

variable {s : Server} {p q : ClientPtr} {name : Str} {ch : Channel}

/-- The server with other secrets. -/
def disguised (d : Disguise) (s : Server) : Server := s.withTables (s.toTables.disguised d)

@[simp] theorem disguised_memory (d : Disguise) (s : Server) :
    (s.disguised d).memory = s.memory := rfl

@[simp] theorem disguised_nickOf (d : Disguise) (s : Server) (p : ClientPtr) :
    (s.disguised d).nickOf p = s.nickOf p := rfl

@[simp] theorem disguised_prefixOf (d : Disguise) (s : Server) (p : ClientPtr) :
    (s.disguised d).prefixOf p = s.prefixOf p := rfl

@[simp] theorem disguised_getClient (d : Disguise) (s : Server) (nick : Str) :
    (s.disguised d).getClient nick = s.getClient nick := rfl

@[simp] theorem disguised_clientFind (d : Disguise) (s : Server) (nick : Str) :
    (s.disguised d).clientFind nick = s.clientFind nick := rfl

/-- Tables may be put in place before or after the disguise. -/
theorem disguised_withTables (d : Disguise) (s : Server) (t : Tables) :
    (s.disguised d).withTables (t.disguised d) = (s.withTables t).disguised d := rfl

/-- The list of members shows no key. -/
theorem disguised_sendChannelUserList (d : Disguise) (s : Server) (name : Str) (ch : Channel)
    (p : ClientPtr) : (s.disguised d).sendChannelUserList (ch.disguised d name) p =
      (s.sendChannelUserList ch p).disguised d := rfl

/-- A use of a channel that is gone shows none. -/
theorem disguised_useFreed (d : Disguise) (s : Server) (name : Str) :
    (s.disguised d).useFreed name = (s.useFreed name).disguised d := rfl

/-- The channels of a disguised server are looked up entry by entry. -/
theorem disguised_channels (d : Disguise) (s : Server) (name : Str) :
    (s.disguised d).channels[name]? = (s.channels[name]?).map (Channel.disguised d name) :=
  s.toTables.disguised_getElem? d name

/-- A channel is written back. -/
theorem disguised_setChannel (d : Disguise) (s : Server) (name : Str) (ch : Channel) :
    (s.disguised d).withTables ((s.disguised d).setChannel name (ch.disguised d name)) =
      (s.withTables (s.setChannel name ch)).disguised d := by
  rw [← disguised_withTables]
  exact congrArg _ (Tables.disguised_setChannel d s.toTables name ch)

/-- The farewell to somebody on a removed channel shows no key. -/
theorem disguised_partRemoved (d : Disguise) (s : Server) (name nick : Str) :
    (s.disguised d).partRemoved name nick = (s.partRemoved name nick).disguised d := by
  unfold partRemoved
  rw [disguised_getClient]
  split <;> rfl

/-- Removing a channel reads no key. -/
theorem disguised_removeChannel (d : Disguise) (s : Server) (name : Str) :
    (s.disguised d).removeChannel name = (s.removeChannel name).disguised d := by
  unfold removeChannel
  rw [disguised_channels]
  cases hch : s.channels[name]? with
  | none => rfl
  | some ch =>
      have htold : (s.getChannelClients ch).foldl (fun s nick => s.partRemoved name nick)
          (s.disguised d) = ((s.getChannelClients ch).foldl (fun s nick => s.partRemoved name nick)
            s).disguised d :=
        List.foldl_hom _ fun s nick => disguised_partRemoved d s name nick
      dsimp only [Option.map_some]
      rw [show (s.disguised d).getChannelClients (ch.disguised d name) = s.getChannelClients ch
        from rfl, htold, ← disguised_withTables]
      exact congrArg _ (Tables.disguised_erase d _ name)

/-- `Channel::removeClientFromChannel` from where the client has been erased. -/
def settle (s : Server) (name : Str) (p : ClientPtr) (left : Channel) : Server :=
  let s := s.withTables (s.setChannel name left)
  match left.curClients with
  | [] => (s.removeChannel left.name).useFreed name
  | front :: _ =>
      if left.opNick = s.nickOf p then
        let led := left.makeOp front (s.nickOf front)
        let s := s.withTables (s.setChannel name led)
        let s := s.sendReply front ("You are now the operator of ".toList ++ led.name)
        s.sendChannelUserList led p
      else s.sendChannelUserList left p

/-- Removing a member is to take it off the list and to settle what is left. -/
theorem removeClientFromChannel_eq (s : Server) (name : Str) (p : ClientPtr) :
    s.removeClientFromChannel name p =
      match s.channels[name]? with
      | none => s.useFreed name
      | some ch =>
          if ch.isUserOnChannel p then
            s.settle name p { ch with curClients := ch.curClients.erase p }
          else s := rfl

/-- Succession and removal of an empty channel read no key. -/
theorem disguised_settle (d : Disguise) (s : Server) (name : Str) (p : ClientPtr)
    (left : Channel) : (s.disguised d).settle name p (left.disguised d name) =
      (s.settle name p left).disguised d := by
  unfold settle
  rw [disguised_setChannel]
  generalize s.withTables (s.setChannel name left) = s
  dsimp only
  rw [Channel.disguised_curClients]
  split
  · rw [Channel.disguised_name, disguised_removeChannel,
      disguised_useFreed]
  · rename_i front rest _
    rw [Channel.disguised_opNick,
      disguised_nickOf]
    split
    · rw [show (left.disguised d name).makeOp front ((s.disguised d).nickOf front) =
        (left.makeOp front (s.nickOf front)).disguised d name from rfl, disguised_setChannel]
      rfl
    · exact disguised_sendChannelUserList d s name left p

/-- So removing a member does not either. -/
theorem disguised_removeClientFromChannel (d : Disguise) (s : Server) (name : Str)
    (p : ClientPtr) : (s.disguised d).removeClientFromChannel name p =
      (s.removeClientFromChannel name p).disguised d := by
  rw [removeClientFromChannel_eq, removeClientFromChannel_eq, disguised_channels]
  cases s.channels[name]? with
  | none => rfl
  | some ch =>
      dsimp only [Option.map_some]
      rw [Channel.disguised_isUserOnChannel]
      split
      · exact disguised_settle d s name p { ch with curClients := ch.curClients.erase p }
      · rfl

/-! ## Handlers -/

/-- The answers of `CAP` depend on no channel. -/
theorem disguised_cap (d : Disguise) (s : Server) (p : ClientPtr) (parts : List Str) :
    (s.disguised d).cap p parts = (s.cap p parts).disguised d := by
  unfold cap
  split
  · split <;> rfl
  · rfl

/-- A `PASS` that does not give one of the words that differ is right or wrong for either
password. -/
theorem disguised_pass (d : Disguise) (s : Server) (p : ClientPtr) {word : Str} {args : List Str}
    (hguess : ∀ guess ∈ args.head?, d.password guess = guess) :
    (s.disguised d).pass p (word :: args) = (s.pass p (word :: args)).disguised d := by
  cases args with
  | nil => rfl
  | cons guess args =>
      have hright : guess = (s.disguised d).password ↔ guess = s.password := by
        rw [eq_comm, eq_comm (a := guess)]
        exact eq_guess_iff (hguess guess rfl)
      unfold pass
      dsimp only
      rw [disguised_memory]
      simp only [hright]
      split
      · rfl
      · split <;> rfl

/-- The answers of `NICK` depend on no channel. -/
theorem disguised_nick (d : Disguise) (s : Server) (p : ClientPtr) (parts : List Str) :
    (s.disguised d).nick p parts = (s.nick p parts).disguised d := by
  unfold nick
  rw [disguised_memory]
  split
  · rfl
  · split
    · rename_i word nick args
      rw [show (s.disguised d).isNickTaken nick = s.isNickTaken nick from rfl]
      split <;> rfl
    · rfl

/-- The answers of `USER` depend on no channel. -/
theorem disguised_user (d : Disguise) (s : Server) (p : ClientPtr) (parts : List Str) :
    (s.disguised d).user p parts = (s.user p parts).disguised d := by
  unfold user
  rw [disguised_memory]
  split
  · rfl
  · split
    · split <;> rfl
    · rfl

/-- A key that is not one of the words that differ opens the channel with either key or
with none. -/
theorem disguised_joinChannel (d : Disguise) (s : Server) (p : ClientPtr) (name : Str)
    (parts : List Str) (hguess : d.key name ((parts[2]?).getD []) = (parts[2]?).getD []) :
    (s.disguised d).joinChannel p name parts = (s.joinChannel p name parts).disguised d := by
  have hjoined : ∀ ch : Channel,
      (((s.disguised d).withTables ((s.disguised d).setChannel name (ch.disguised d name))
        ).broadcastMessage (ch.disguised d name) (rplJoin (s.prefixOf p) ch.name)
          ).sendChannelUserList (ch.disguised d name) p =
      (((s.withTables (s.setChannel name ch)).broadcastMessage ch
        (rplJoin (s.prefixOf p) ch.name)).sendChannelUserList ch p).disguised d := by
    intro ch
    rw [disguised_setChannel]
    rfl
  unfold joinChannel
  dsimp only
  rw [disguised_channels]
  split
  · rfl
  · cases s.channels[name]? with
    | some ch =>
        dsimp only [Option.map_some]
        have hkey : (ch.disguised d name).key ≠ (parts[2]?).getD [] ↔
            ch.key ≠ (parts[2]?).getD [] := not_congr (eq_guess_iff hguess)
        rw [Channel.disguised_isUserOnChannel]
        simp only [hkey]
        split
        · rfl
        · split
          · rfl
          · rw [Channel.disguised_userLimit,
              Channel.disguised_curClients]
            split
            · rfl
            · have hset := hjoined (if (ch.addClient p).userLimit = 1 then
                (ch.addClient p).setOp (s.nickOf p) else ch.addClient p)
              rw [show ((ch.disguised d name).addClient p).userLimit =
                (ch.addClient p).userLimit from rfl]
              split at hset <;> rename_i hlimit
              · rw [if_pos hlimit, if_pos hlimit]
                exact hset
              · rw [if_neg hlimit, if_neg hlimit]
                exact hset
    | none =>
        dsimp only [Option.map_none]
        have hset := hjoined { ((Channel.new name).addClient p).makeOp p (s.nickOf p) with
          key := (parts[2]?).getD [] }
        unfold Channel.disguised at hset
        dsimp only at hset
        rw [hguess] at hset
        exact hset

/-- A `JOIN` with a key that the disguise leaves alone opens the same channels. -/
theorem disguised_join (d : Disguise) (s : Server) (p : ClientPtr) {word : Str} {args : List Str}
    (hguess : ∀ name ∈ args.head?, d.key name ((args[1]?).getD []) = (args[1]?).getD []) :
    (s.disguised d).join p (word :: args) = (s.join p (word :: args)).disguised d := by
  unfold join
  split
  · rename_i word' name args' hparts
    cases hparts
    split
    · exact disguised_joinChannel d s p name _ (hguess name rfl)
    · rfl
  · rfl

/-- The reply to `LIST` shows no key. -/
theorem disguised_list (d : Disguise) (s : Server) (p : ClientPtr) :
    (s.disguised d).list p = (s.list p).disguised d := by
  have hlines : ∀ (entries : List (Str × Channel)) (s : Server),
      (entries.map fun entry => (entry.1, entry.2.disguised d entry.1)).foldl
        (fun s entry => s.listChannel p entry.2) (s.disguised d) =
      (entries.foldl (fun s entry => s.listChannel p entry.2) s).disguised d := by
    intro entries s
    rw [List.foldl_map]
    refine List.foldl_hom _ fun s entry => ?_
    unfold listChannel
    rw [show (entry.2.disguised d entry.1).curClients = entry.2.curClients from rfl]
    split <;> rfl
  have hentries : (s.disguised d).channels.toList =
      s.channels.toList.map fun entry => (entry.1, entry.2.disguised d entry.1) :=
    Std.ExtTreeMap.toList_map
  have hall := hlines s.channels.toList
    (s.sendReply p (rplListStart (s.nickOf p) s.host))
  unfold list
  dsimp only
  rw [show ((s.disguised d).sendReply p (rplListStart ((s.disguised d).nickOf p)
    (s.disguised d).host)).channels = (s.disguised d).channels from rfl, hentries]
  exact congrArg (fun s : Server => s.sendReply p (rplListEnd (s.nickOf p))) hall

/-- The end of a round of `Part::part`: the list of those who are left. -/
def tellLeft (s : Server) (p : ClientPtr) (name : Str) : Server :=
  match s.channels[name]? with
  | some ch => s.sendChannelUserList ch p
  | none => s

/-- What a member is told when it leaves shows no key. -/
theorem disguised_tellLeft (d : Disguise) (s : Server) (p : ClientPtr) (name : Str) :
    (s.disguised d).tellLeft p name = (s.tellLeft p name).disguised d := by
  unfold tellLeft
  rw [disguised_channels]
  cases s.channels[name]? <;> rfl

/-- Leaving one channel reads no key. -/
theorem disguised_partChannel (d : Disguise) (p : ClientPtr) (message : Str) (s : Server)
    (name : Str) : (s.disguised d).partChannel p message name =
      (s.partChannel p message name).disguised d := by
  unfold partChannel
  rw [disguised_channels]
  cases s.channels[name]? with
  | none => rfl
  | some ch =>
      dsimp only [Option.map_some]
      rw [Channel.disguised_isUserOnChannel]
      split
      · have hleft := disguised_removeClientFromChannel d ((s.sendReply p
          (rplPart (s.prefixOf p) ch.name message)).broadcastMessage ch
            (rplPart (s.prefixOf p) ch.name message)) name p
        exact (congrArg (fun s : Server => s.tellLeft p name) hleft).trans
          (disguised_tellLeft d _ p name)
      · rfl

/-- Nor does leaving several. -/
theorem disguised_part (d : Disguise) (s : Server) (p : ClientPtr) (parts : List Str) :
    (s.disguised d).part p parts = (s.part p parts).disguised d := by
  unfold part
  split
  · exact List.foldl_hom _ fun s name => disguised_partChannel d p _ s name
  · rfl

theorem disguised_topic (d : Disguise) (s : Server) (p : ClientPtr) (parts : List Str) :
    (s.disguised d).topic p parts = (s.topic p parts).disguised d := by
  unfold topic
  split
  · rename_i word name words
    rw [disguised_channels]
    cases s.channels[name]? with
    | none => rfl
    | some ch =>
        dsimp only [Option.map_some]
        split
        · rw [Channel.disguised_topic]
          split <;> rfl
        · rw [Channel.disguised_opNick,
            disguised_nickOf]
          split
          · rfl
          · have hset := disguised_setChannel d s name { ch with topic := joinWords words }
            exact congrArg (fun s : Server => s.broadcastMessage
              { ch with topic := joinWords words }
              (rplTopic (s.nickOf p) name (joinWords words))) hset
  · rfl

/-- The end of `KICK` fails, and tells, independently of the key. -/
theorem disguised_kickMember (d : Disguise) (s : Server) (p q : ClientPtr) (name reason : Str) :
    (s.disguised d).kickMember p q name reason =
      (s.kickMember p q name reason).mapState (Server.disguised d) := by
  unfold kickMember
  rw [disguised_removeClientFromChannel]
  dsimp only
  rw [disguised_channels]
  cases (s.removeClientFromChannel name q).channels[name]? <;> rfl

/-- So does all of it: members and operators are no secrets. -/
theorem disguised_kick (d : Disguise) (s : Server) (p : ClientPtr) (parts : List Str) :
    (s.disguised d).kick p parts = (s.kick p parts).mapState (Server.disguised d) := by
  unfold kick
  split
  · rename_i word name nick words
    rw [disguised_channels]
    cases s.channels[name]? with
    | none => rfl
    | some ch =>
        dsimp only [Option.map_some]
        rw [Channel.disguised_opNick,
          disguised_nickOf,
          disguised_getClient]
        split
        · rfl
        · split
          · rfl
          · rename_i q hq
            rw [Channel.disguised_isUserOnChannel]
            split
            · rfl
            · exact disguised_kickMember d s p q name _
  · rfl

/-- The bot sends its messages without looking at a channel. -/
theorem disguised_botSendMsg (d : Disguise) (s : Server) (nick text : Str) :
    (s.disguised d).botSendMsg nick text = (s.botSendMsg nick text).disguised d := rfl

/-- A message of the bot that depends on a test. -/
theorem disguised_ite_botSendMsg (d : Disguise) (s : Server) (c : Prop) [Decidable c]
    (nick text : Str) :
    (if c then (s.disguised d).botSendMsg nick text else s.disguised d) =
      (if c then s.botSendMsg nick text else s).disguised d := by
  split
  · rw [disguised_botSendMsg]
  · rfl

/-- It warns and masks by the text alone. -/
theorem disguised_processMessage (d : Disguise) (s : Server) (now message : Str) :
    (s.disguised d).processMessage now message =
      ((s.processMessage now message).1.disguised d, (s.processMessage now message).2) := by
  unfold processMessage
  split
  · rfl
  · dsimp only
    generalize censorMessage (unpackMessage message).2 blacklist = censored
    rw [disguised_ite_botSendMsg, disguised_ite_botSendMsg]
    split
    · rw [disguised_botSendMsg]
    · rfl

/-- `PRIVMSG` reaches the same clients with the same text. -/
theorem disguised_privmsg (d : Disguise) (env : Env) (s : Server) (p : ClientPtr)
    (parts : List Str) : (s.disguised d).privmsg env p parts =
      (s.privmsg env p parts).mapState (Server.disguised d) := by
  have htext : ∀ words, (s.disguised d).privmsgText env.now p words =
      ((s.privmsgText env.now p words).1.disguised d, (s.privmsgText env.now p words).2) := by
    intro words
    unfold privmsgText
    dsimp only
    rw [disguised_nickOf]
    split
    · exact disguised_processMessage d s env.now _
    · rfl
  have hrelay : ∀ (target message nick : Str) (s : Server),
      relayToMember p target message nick (s.disguised d) =
        (relayToMember p target message nick s).mapState (Server.disguised d) := by
    intro target message nick s
    unfold relayToMember
    rw [disguised_clientFind, disguised_getClient]
    cases s.getClient (s.clientFind nick) with
    | none => rfl
    | some q =>
        dsimp only
        rw [disguised_memory,
          disguised_nickOf]
        split <;> rfl
  unfold privmsg
  split
  · rename_i command target word words
    rw [htext]
    generalize s.privmsgText env.now p (word :: words) = text
    dsimp only
    split
    · rw [disguised_clientFind, disguised_getClient]
      split <;> rfl
    · rw [disguised_channels]
      cases text.1.channels[target]? with
      | none => rfl
      | some ch =>
          dsimp only [Option.map_some]
          rw [Channel.disguised_isUserOnChannel,
            disguised_nickOf]
          split
          · exact each_mapState (fun nick s => hrelay target text.2 nick s) _ _
          · rfl
  · rfl
  · rfl

/-- The farewell of `QUIT` goes to the same clients. -/
theorem disguised_quit (d : Disguise) (env : Env) (s : Server) (p : ClientPtr)
    (parts : List Str) : (s.disguised d).quit env p parts =
      (s.quit env p parts).mapState (Server.disguised d) := by
  have htell : ∀ (text : Str) (other : Client) (s' : Server),
      quitTell env (s.memory p) text other (s'.disguised d) =
        (quitTell env (s.memory p) text other s').mapState (Server.disguised d) := by
    intro text other s'
    unfold quitTell
    rw [show (s'.disguised d).botSocket = s'.botSocket from rfl]
    split
    · split <;> rfl
    · rfl
  unfold quit
  dsimp only
  rw [disguised_memory,
    show (s.disguised d).entries = s.entries from rfl, each_mapState (htell _)]
  refine andThen_mapState (fun s' => ?_) _
  exact congrArg (fun t => Outcome.done (s'.withTables t))
    (Tables.disguised_closeConnection d s'.toTables _)

/-- A line that gives none of the words that differ is handled the same. -/
theorem disguised_commandParser (d : Disguise) (env : Env) (s : Server) (p : ClientPtr)
    {line : Str} (hspares : d.Spares (commandParts line)) :
    commandParser env line p (s.disguised d) =
      (commandParser env line p s).mapState (Server.disguised d) := by
  have hregistered : ∀ parts verb, (verb = .join → (s.disguised d).join p parts =
      (s.join p parts).disguised d) → (s.disguised d).handleRegistered env p parts verb =
        (s.handleRegistered env p parts verb).mapState (Server.disguised d) := by
    intro parts verb hjoin
    unfold handleRegistered
    split
    · exact congrArg Outcome.done (hjoin rfl)
    · exact disguised_privmsg d env s p parts
    · exact congrArg Outcome.done (disguised_list d s p)
    · exact congrArg Outcome.done (disguised_part d s p parts)
    · exact congrArg Outcome.done (disguised_topic d s p parts)
    · exact disguised_kick d s p parts
    · exact disguised_quit d env s p parts
    · rfl
  unfold commandParser
  split
  · rfl
  · generalize commandParts line = parts at hspares ⊢
    unfold handleCommand
    split
    · rfl
    · rename_i word args
      obtain ⟨hpass, hjoin⟩ := hspares
      split
      · exact congrArg Outcome.done (disguised_cap d s p _)
      · rename_i hverb
        exact congrArg Outcome.done (disguised_pass d s p (hpass hverb))
      · exact congrArg Outcome.done (disguised_nick d s p _)
      · exact congrArg Outcome.done (disguised_user d s p _)
      · rw [disguised_memory]
        split
        · exact hregistered _ _ fun hverb => disguised_join d s p (hjoin hverb)
        · rfl

end Server

/-- The server with other secrets, in the middle of the same work. -/
def World.disguised (d : Disguise) (w : World) : World := { w with srv := w.srv.disguised d }

/-- The line that is handled, if one is, gives none of the words that differ. -/
def Unguessed (d : Disguise) (w : World) : Action → Prop
  | .command _ => ∀ current ∈ w.current, d.Spares (commandParts current.2)
  | _ => True

instance (d : Disguise) (w : World) : ∀ a, Decidable (Unguessed d w a)
  | .command _ => inferInstanceAs (Decidable (∀ current ∈ w.current, _))
  | .accept _ _ _ => isTrue trivial
  | .receive _ _ => isTrue trivial

/-- **One step.**  A step that gives none of the words that differ is the same step. -/
theorem step_disguised (d : Disguise) (w : World) (a : Action) (h : Unguessed d w a) :
    step (w.disguised d) a = (step w a).map (World.disguised d) := by
  cases a with
  | accept fd ip port =>
      have haccept := Tables.disguised_acceptConnection d w.srv.toTables fd ip port
      have hnext : (w.srv.disguised d).withTables
          ((w.srv.disguised d).acceptConnection fd ip port) =
          (w.srv.withTables (w.srv.acceptConnection fd ip port)).disguised d :=
        congrArg w.srv.withTables haccept
      change (if w.reading = none ∧ w.srv.serverSocket ∈ w.srv.pollFds ∧ fd ∉ w.srv.openFds then
        some { w with srv :=
          (w.srv.disguised d).withTables ((w.srv.disguised d).acceptConnection fd ip port) }
        else none) = (if _ then some _ else none : Option World).map _
      rw [hnext]
      split <;> rfl
  | receive fd results =>
      have hclose := Tables.disguised_closeConnection d w.srv.toTables fd
      have hreceive : (w.disguised d).receive fd results = (w.receive fd results).disguised d := by
        unfold World.receive
        split
        · rfl
        · exact congrArg (fun t => { w with srv := w.srv.withTables t }) hclose
        · exact congrArg (fun t => { w with srv := w.srv.withTables t }) hclose
      change (if w.reading = none ∧ fd ∈ w.srv.pollFds ∧ fd ≠ w.srv.serverSocket ∧
        results.all Recv.fits = true then some ((w.disguised d).receive fd results) else none) =
          (if _ then some _ else none : Option World).map _
      rw [hreceive]
      split <;> rfl
  | command env =>
      simp only [step]
      rw [show (w.disguised d).reading = w.reading from rfl]
      split
      · rename_i fd line lines hreading
        have hspares : d.Spares (commandParts line) :=
          h (fd, line) (by simp [World.current, hreading])
        have hindex : (w.disguised d).srv.index fd env.leftover = _ :=
          Tables.disguised_index d w.srv.toTables fd env.leftover
        unfold World.command
        dsimp only
        rw [hindex]
        generalize w.srv.index fd env.leftover = indexed
        have hhandled := Server.disguised_commandParser d env (w.srv.withTables indexed.1)
          indexed.2 hspares
        dsimp only
        rw [show (w.disguised d).srv.withTables (indexed.1.disguised d) =
          (w.srv.withTables indexed.1).disguised d from rfl, hhandled]
        cases Server.commandParser env line indexed.2 (w.srv.withTables indexed.1) with
        | done s => rfl
        | thrown e s =>
            have hclose := Tables.disguised_closeConnection d s.toTables fd
            exact congrArg (fun t => some (World.mk (s.withTables t) none)) hclose
        | fault f => rfl
      · rfl

end Irc
