import IrcServers.Irc.Membership
import IrcServers.Irc.Registration
import IrcServers.Irc.Operators
import IrcServers.Irc.Delivery
import IrcServers.Irc.Released
import IrcServers.Irc.ChannelTable
import IrcServers.Irc.PollTable
import IrcServers.Irc.Injection
import IrcServers.Irc.Framing
import IrcServers.Irc.FreedChannels
import IrcServers.Irc.Refusals
import IrcServers.Irc.ChannelMessages
import IrcServers.Irc.Parting
import IrcServers.Irc.Identities
import IrcServers.Irc.Censoring
import IrcServers.Irc.Sending
import IrcServers.Irc.FreeText
import IrcServers.FtIrc.Messages
import IrcServers.FtIrc.Dangling
import IrcServers.FtIrc.Polling
import IrcServers.FtIrc.Words
import IrcServers.FtIrc.Lookups
import IrcServers.FtIrc.Exceptions
import IrcServers.FtIrc.Packets
import IrcServers.FtIrc.Authority
import IrcServers.FtIrc.Batches
import IrcServers.FtIrc.Relayed
import IrcServers.FtIrc.HostNames
import IrcServers.FtIrc.Parameters
import IrcServers.FtIrc.ChannelCalls
import IrcServers.FtIrc.Modes
import IrcServers.FtIrc.Trailing
import IrcServers.FtIrc.Invites
import IrcServers.FtIrc.Bans
import IrcServers.FtIrc.Dates
import IrcServers.FtIrc.Ports
import IrcServers.FtIrc.Splitting
import IrcServers.FtIrc.Destructor
import IrcServers.Irc.PollRounds
import IrcServers.Irc.Histories
import IrcServers.Irc.Isolation
import IrcServers.Irc.Listing
import IrcServers.Irc.Conversations
import IrcServers.Irc.Recipients
import IrcServers.Irc.Secrets
import IrcServers.FtIrc.Conversations
import IrcServers.FtIrc.Recursion
import IrcServers.FtIrc.Settings
import IrcServers.FtIrc.Histories
import IrcServers.TcpMu2.SelectLoop
import IrcServers.TcpMu2.Relaying
import IrcServers.Bircd.Endings
import IrcServers.Bircd.Relaying
