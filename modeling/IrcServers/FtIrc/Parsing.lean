import IrcServers.FtIrc.Channels

/-!
# Words, parsers and the checker

`Utils.cpp`, `Parser.cpp` and `Checker.cpp`.  A vector index that the source
does not guard makes the parser return `none` when the vector is too short.
Each parser and each check splits the text again, some of them after trimming
it and some not.
-/

namespace FtIrc

namespace Utils

/-- `std::isspace` in the C locale. -/
def isspace (c : Char) : Bool :=
  c = ' ' || c = '\t' || c = '\n' || c = '\x0b' || c = '\x0c' || c = '\r'

/-- `Utils::trim`. -/
def trim (s : Str) : Str := (s.dropWhile isspace).rdropWhile isspace

/-- `Utils::split`. -/
def split (s delim : Str) : List Str := Text.cutTrim delim s

/-- `Utils::toUpper`. -/
def toUpper (s : Str) : Str := s.map Char.toUpper

/-- `Utils::toLower`. -/
def toLower (s : Str) : Str := s.map Char.toLower

/-- The value of a text of decimal digits. -/
def decimal (digits : Str) : Nat :=
  digits.foldl (fun n c => 10 * n + (c.toNat - '0'.toNat)) 0

/-- The integer at the start of a text, after white space and a sign; without
digits it is zero. -/
def leadingInt (s : Str) : Int :=
  match s.dropWhile isspace with
  | '-' :: rest => -(decimal (rest.takeWhile Char.isDigit) : Int)
  | '+' :: rest => decimal (rest.takeWhile Char.isDigit)
  | rest => decimal (rest.takeWhile Char.isDigit)

/-- `Utils::toInt`: the stream operator `>>` clips to the range of `int`, and
leaves the variable unassigned when there is nothing but white space. -/
def toInt (unassigned : Int) (s : Str) : Int :=
  if s.dropWhile isspace = [] then unassigned
  else max (-2 ^ 31) (min (2 ^ 31 - 1) (leadingInt s))

/-- `std::atoi`: the value clipped to `long`, then cut to `int`. -/
def atoi (s : Str) : Int :=
  (max (-2 ^ 63) (min (2 ^ 63 - 1) (leadingInt s)) + 2 ^ 31) % 2 ^ 32 - 2 ^ 31

/-- `Utils::toString` of an `int`. -/
def toString (n : Int) : Str := (ToString.toString n).toList

end Utils

open Utils

/-- A space, as most texts are split at. -/
def space : Str := " ".toList

/-- A colon, as trailing texts are cut at. -/
def colon : Str := ":".toList

/-- The separator of a ban mask. -/
def atSign : Str := "@".toList

/-- The loop that joins words from index 2 on, each trimmed, with a space after
every word but the last. -/
def joinTrimmed (words : List Str) : Str :=
  words.zipIdx.foldl (fun text entry =>
    text ++ trim entry.1 ++ (if entry.2 ≠ words.length - 1 then " ".toList else [])) []

/-- `struct reciveMessage`. -/
structure ReciveMessage where
  target : Str
  message : Str

/-- `struct parseInfo`. -/
structure ParseInfo where
  command : Str
  function : Str
  value : Str

/-- `struct modeInfo`. -/
structure ModeInfo where
  channel : Str
  status : Bool
  key : Str
  parameters : Str

namespace Parser

/-- `Parser::privateMessage`: the words at indices 1 and 2 are read. -/
def privateMessage (message : Str) : Option ReciveMessage :=
  match split message space with
  | _ :: target :: word :: words =>
      let word := if word.head? = some ':' then word.drop 1 else word
      some { target := target, message := joinTrimmed (word :: words) }
  | _ => none

/-- `Parser::parse`. -/
def parse (message : Str) : ParseInfo :=
  if Text.contains space message then
    match split message space with
    | [] => { command := [], function := [], value := [] }
    | [command] => { command := trim command, function := [], value := [] }
    | command :: function :: words =>
        { command := trim command, function := trim function, value := joinTrimmed words }
  else { command := message, function := [], value := [] }

/-- `Parser::userParse`: the user name and the real name, from the words at
indices 1 and 4. -/
def userParse (message : Str) : Option (Str × Str) :=
  match split message space with
  | _ :: userName :: _ :: _ :: realName :: _ => some (userName, realName.drop 1)
  | _ => none

/-- `Parser::modeParse`: the words at indices 1 and 2 are read, and two
characters of the latter. -/
def modeParse (env : Env) (message : Str) : Option ModeInfo :=
  match split message space with
  | _ :: channel :: flags :: words =>
      some {
        channel := trim channel
        status := flags.head? = some '+'
        key :=
          match flags with
          | [] => [env.junkChar]
          | [_] => ['\x00']
          | _ :: key :: _ => [key]
        parameters :=
          match words with
          | [] => []
          | [first, second] => trim first ++ trim second
          | first :: _ => trim first }
  | _ => none

end Parser

namespace Checker

/-- `Checker::checkOnlyChannel`. -/
def checkOnlyChannel (format : Str) : Bool :=
  format.head? = some '#' && !Text.contains space format

/-- `Checker::checkOnlyNickName`. -/
def checkOnlyNickName (format : Str) : Bool :=
  format.head? ≠ some '#' && !Text.contains space format

/-- `Checker::checkOnlyNickAndChannelName`. -/
def checkOnlyNickAndChannelName (format : Str) : Bool :=
  if format.head? = some '#' then false
  else
    match Text.find space format with
    | none => false
    | some index =>
        let nick := format.take index
        let channel := format.drop (index + 1)
        channel.head? = some '#' && (!Text.contains space channel && !Text.contains space nick)

/-- `Checker::checkOnlyChannelAndMessage`. -/
def checkOnlyChannelAndMessage (format : Str) : Bool :=
  match Text.find space format with
  | none => false
  | some index =>
      let channel := format.take index
      channel.head? = some '#' && !Text.contains space channel

/-- `Checker::checkOnlyMode`. -/
def checkOnlyMode (format : Str) : Bool :=
  match Text.find space format with
  | none => format.head? = some '#'
  | some index =>
      let channel := format.take index
      let mode := format.drop (index + 1)
      let modeChar := mode[1]?
      if channel.head? ≠ some '#' then false
      else if mode.head? ≠ some '+' ∧ mode.head? ≠ some '-' then false
      else if modeChar ∉ ['o', 'i', 'b', 'k', 't', 'l'].map some then false
      else if modeChar = some 'l' ∧ mode.head? = some '+' then
        mode.length > 2 && atoi (mode.drop 2) ≠ 0
      else if modeChar = some 'l' ∧ mode.head? = some '-' then mode.length = 2
      else !Text.contains space channel

/-- `Checker::checkMoreThanTwoWords`. -/
def checkMoreThanTwoWords (message : Str) : Bool :=
  Text.contains space message && (split message space).length ≥ 2

/-- `Checker::checkOnlyChannelOrNickName`. -/
def checkOnlyChannelOrNickName (format : Str) : Bool := !Text.contains space format

/-- `Checker::checkFirstParamIsChannel`. -/
def checkFirstParamIsChannel (format : Str) : Bool := format.head? = some '#'

/-- `Checker::getCommand`. -/
def getCommand (message : Str) : Str :=
  let message := toUpper message
  match Text.find space message with
  | none => message
  | some index => message.take index

end Checker

/-- The commands of the server. -/
inductive Verb where
  | quit | join | privmsg | part | who | nick | user | pass | notice | mode | kick | invite
  | topic | whois | unknown
deriving DecidableEq

/-- The command names of `Checker` and `Command`. -/
def verbOf (command : Str) : Verb :=
  if command = "QUIT".toList then .quit
  else if command = "JOIN".toList then .join
  else if command = "PRIVMSG".toList then .privmsg
  else if command = "PART".toList then .part
  else if command = "WHO".toList then .who
  else if command = "NICK".toList then .nick
  else if command = "USER".toList then .user
  else if command = "PASS".toList then .pass
  else if command = "NOTICE".toList then .notice
  else if command = "MODE".toList then .mode
  else if command = "KICK".toList then .kick
  else if command = "INVITE".toList then .invite
  else if command = "TOPIC".toList then .topic
  else if command = "WHOIS".toList then .whois
  else .unknown

namespace Checker

/-- The text after the command word: the other words of the trimmed message,
joined by spaces and trimmed. -/
def formatOf (message : Str) : Str :=
  match split (trim message) space with
  | _ :: first :: words => trim (words.foldl (fun text word => text ++ (" ".toList ++ word)) first)
  | _ => []

/-- The check that `Checker::check` makes for a command, and what it throws
when the check fails. -/
def formatError (message : Str) : Verb → Option Exception
  | .who => if checkOnlyChannel (formatOf message) then none else some .onlyChannel
  | .nick => if checkOnlyNickName (formatOf message) then none else some .onlyNickName
  | .invite =>
      if checkOnlyNickAndChannelName (formatOf message) then none
      else some .onlyNickAndChannelName
  | .quit => if formatOf message = [] then some .onlyMessage else none
  | .topic | .kick | .part =>
      if checkOnlyChannelAndMessage (formatOf message) then none
      else some .onlyChannelAndMessage
  | .mode => if checkOnlyMode (formatOf message) then none else some .onlyMode
  | .notice | .privmsg =>
      if checkMoreThanTwoWords (trim message) then none else some .moreThanTwoWords
  | .whois =>
      if checkOnlyChannelOrNickName (formatOf message) then none
      else some .onlyChannelOrNickName
  | .join =>
      if checkFirstParamIsChannel (formatOf message) then none else some .firstParamIsChannel
  | .user | .pass | .unknown => none

/-- `Checker::check` returns true for the message. -/
def accepts (message : Str) : Bool :=
  Text.contains space (trim message) &&
    (decide (formatError message (verbOf (getCommand message)) = none) &&
      decide (verbOf (getCommand message) ≠ .unknown))

/-- `Checker::check` takes the message for an unknown command. -/
def unknown (message : Str) : Bool :=
  !Text.contains space (trim message) || decide (verbOf (getCommand message) = .unknown)

/-- Throw a `ClientException::UnknownCommandException`. -/
def unknownCommand (s : Server) (fd : Fd) (command : Str) : Result :=
  Outcome.require (s.getClient fd) .nullClient fun client =>
    s.throwClient fd .unknownCommand (errUnknownCommand command (s.memory client).nickName)

/-- `Checker::check`: it returns when the check returns true. -/
def check (s : Server) (message : Str) (fd : Fd) : Result :=
  if Text.contains space (trim message) then
    match formatError message (verbOf (getCommand message)) with
    | some e => .thrown e s
    | none =>
        if verbOf (getCommand message) = .unknown then
          unknownCommand s fd ((split (trim message) space).headD [])
        else .done s
  else unknownCommand s fd (trim message)

end Checker

end FtIrc
