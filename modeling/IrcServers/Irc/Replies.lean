import IrcServers.Irc.State

/-!
# Reply texts of the `_irc_` server

The message macros of `Utils.hpp` that some handler uses, each under its own
name and character for character, spaces and the missing leading colons
included.
-/

namespace Irc

def rplJoin (source channel : Str) : Str :=
  ":".toList ++ source ++ " JOIN :".toList ++ channel ++ crlf

def rplEndOfNames (source channel : Str) : Str :=
  "366 ".toList ++ source ++ " ".toList ++ channel ++ " :End of /NAMES list.\r\n".toList

def rplNamReply (source channel nickList : Str) : Str :=
  ": 353 ".toList ++ source ++ " = ".toList ++ channel ++ " :".toList ++ nickList ++ crlf

def rplWelcome (server nick pre : Str) : Str :=
  ":".toList ++ server ++ " 001 ".toList ++ nick ++
    " :Welcome to the Internet Relay Network ".toList ++ pre ++ crlf

def errNoSuchChannel (source channel : Str) : Str :=
  "403 ".toList ++ source ++ " ".toList ++ channel ++ " :No such channel".toList ++ crlf

def errNotOnChannel (source channel : Str) : Str :=
  "442 ".toList ++ source ++ " ".toList ++ channel ++
    " :You're not on that channel".toList ++ crlf

def rplNoTopic (source channel : Str) : Str :=
  "331 ".toList ++ source ++ " ".toList ++ channel ++ " :No topic is set".toList ++ crlf

def rplTopic (source channel topic : Str) : Str :=
  "332 ".toList ++ source ++ " ".toList ++ channel ++ " ".toList ++ topic ++ crlf

def errNoSuchNick (source nick : Str) : Str :=
  "401 ".toList ++ source ++ " ".toList ++ nick ++ " :No such nick".toList ++ crlf

def errNoTextToSend (source : Str) : Str :=
  "412 ".toList ++ source ++ " :No text to send".toList ++ crlf

def errUserNotInChannel (source nick channel : Str) : Str :=
  "441 ".toList ++ source ++ " ".toList ++ nick ++ " ".toList ++ channel ++
    " :They aren't on that channel".toList ++ crlf

def rplKick (source channel target reason : Str) : Str :=
  ":".toList ++ source ++ " KICK ".toList ++ channel ++ " ".toList ++ target ++
    " :".toList ++ reason ++ crlf

def errChanOPrivsNeeded (source channel : Str) : Str :=
  ": 482 ".toList ++ source ++ " ".toList ++ channel ++
    " :You're not the channel operator".toList ++ crlf

def rplQuit (source message : Str) : Str :=
  " :".toList ++ source ++ " QUIT :Quit: ".toList ++ message ++ crlf

def errNeedMoreParams (source command : Str) : Str :=
  "461 ".toList ++ source ++ " ".toList ++ command ++ " :Not enough parameters".toList ++ crlf

def errInvalidCapCmd (source : Str) : Str :=
  "410 ".toList ++ source ++ " :Invalid CAP subcommand".toList ++ crlf

def errAlreadyRegistered (source : Str) : Str :=
  "462 ".toList ++ source ++ " :You may not register".toList ++ crlf

def errNoNicknameGiven (source : Str) : Str :=
  "431 ".toList ++ source ++ " :No nickname given".toList ++ crlf

def errNicknameInUse (source nick : Str) : Str :=
  "433 ".toList ++ source ++ " ".toList ++ nick ++ " :Nickname is already in use".toList ++ crlf

def errUserOnChannel (source channel : Str) : Str :=
  "443 ".toList ++ source ++ " ".toList ++ channel ++ " :is already on channel".toList ++ crlf

def errBadChannelKey (source channel : Str) : Str :=
  "475 ".toList ++ source ++ " ".toList ++ channel ++ " :Cannot join channel (+k)".toList ++ crlf

def errChannelIsFull (source channel : Str) : Str :=
  "471 ".toList ++ source ++ " ".toList ++ channel ++ " :Cannot join channel (+l)".toList ++ crlf

def rplPart (pre channel message : Str) : Str :=
  ":".toList ++ pre ++ " PART ".toList ++ channel ++ " :".toList ++ message ++ crlf

def rplListStart (nick numusers : Str) : Str :=
  ": 321 ".toList ++ nick ++ " Channel : ".toList ++ numusers ++ crlf

def rplList (source channel userCount topic : Str) : Str :=
  ": 322 ".toList ++ source ++ " ".toList ++ channel ++ " ".toList ++ userCount ++
    " ".toList ++ topic ++ crlf

def rplListEnd (source : Str) : Str :=
  "323 ".toList ++ source ++ " :End of /LIST".toList ++ crlf

end Irc
