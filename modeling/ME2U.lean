import ME2U.Found.Effect
import ME2U.Found.Runs
import ME2U.Found.Simulation
import ME2U.Found.Transducer
import ME2U.Found.Text
import ME2U.Found.Terminator
import ME2U.Found.Delimited
import ME2U.Found.Dispatch
import ME2U.Found.Receiver
import ME2U.Found.Memory
import ME2U.Found.ListScan
import ME2U.Found.Linked
import ME2U.Found.Fifo
import ME2U.Found.Interleaving
import ME2U.Found.Queues
import ME2U.Found.Settling
import ME2U.Found.Hub
import ME2U.Protocol
import ME2U.Server.State
import ME2U.Server.Handler
import ME2U.Server.Requests
import ME2U.Server.Framing
import ME2U.Server.Injection
import ME2U.Server.Scans
import ME2U.Server.Names
import ME2U.Server.Registry
import ME2U.Server.Listener
import ME2U.Server.Identity
import ME2U.Server.Departures
import ME2U.Server.Confirmations
import ME2U.Server.Civil
import ME2U.Server.Failures
import ME2U.Server.Grammar
import ME2U.Server.Threads
import ME2U.Server.ThreadRuns
import ME2U.Server.ThreadSafety
import ME2U.Server.ThreadTraffic
import ME2U.Server.ThreadBounds
import ME2U.Server.ThreadLocks
import ME2U.Client.Buffer
import ME2U.Client.Capacity
import ME2U.Client.Framing
import ME2U.Client.Chat
import ME2U.Client.Words
import ME2U.Client.Frames
import ME2U.Client.Input
import ME2U.Client.Dispatch
import ME2U.Client.Errors
import ME2U.Client.Login
import ME2U.Client.Motd
import ME2U.Client.LoginSafety
import ME2U.Client.Windows
import ME2U.Client.Outgoing
import ME2U.Client.ChildFrames
import ME2U.Client.Desk
import ME2U.Client.LiveWindows
import ME2U.Client.Reply
import ME2U.Client.ReadBuf
import ME2U.Client.Arguments
import ME2U.Client.Announced
import ME2U.Client.Typed
import ME2U.Client.Accounts
import ME2U.Client.SelectBound
import ME2U.Client.UserList
import ME2U.Client.UserListRuns
import ME2U.Client.Signals
import ME2U.Client.ChildLoop
import ME2U.Client.ChatProgram
import ME2U.Hw1Client.Login
import ME2U.Hw1Client.Username
import ME2U.Hw1Client.Chat
import ME2U.Hw1Client.Talk
import ME2U.Hw1Client.Reactions
import ME2U.Hw1Client.LoginReactions
import ME2U.Hw1Client.Program
import ME2U.Hw1Client.Traffic
import ME2U.System.Attribution
import ME2U.System.Link
import ME2U.System.Session
import ME2U.System.Login
import ME2U.System.UserList
import ME2U.System.Chats
import ME2U.System.Delivery
import ME2U.System.Relay
import ME2U.System.Isolation
import ME2U.System.Peers
import ME2U.System.Answers
import ME2U.System.Logout
import ME2U.System.ChatWindow
import ME2U.System.Select
import ME2U.System.Deadlock
import ME2U.System.CliSession
import ME2U.System.Conversation
import ME2U.System.ConversationRuns
