import PosixLab.Basis.Runs
import PosixLab.Basis.Atomic
import PosixLab.Basis.Mutex
import PosixLab.Basis.CString
import PosixLab.Basis.Decimal
import PosixLab.Basis.Stream
import PosixLab.Basis.Ring
import PosixLab.Chat.Registry
import PosixLab.Chat.Auth
import PosixLab.Chat.UserMap
import PosixLab.Chat.ConcurrentAuth
import PosixLab.Chat.Requests
import PosixLab.Chat.ChatLoop
import PosixLab.Chat.Segments
import PosixLab.Chat.Receive
import PosixLab.Chat.Server
import PosixLab.Chat.Invariants
import PosixLab.Chat.Broadcast
import PosixLab.Chat.Gate
import PosixLab.Chat.DoubleLogin
import PosixLab.Chat.Refinement
import PosixLab.Chat.LockDiscipline
import PosixLab.Chat.Relay
import PosixLab.Basis.Tokens
import PosixLab.Shell.Line
import PosixLab.Shell.Stages
import PosixLab.Shell.Blanks
import PosixLab.Basis.Prog
import PosixLab.Shell.Commands
import PosixLab.Shell.Main
import PosixLab.Shell.Process
import PosixLab.Shell.Redirections
import PosixLab.Shell.Foreground
import PosixLab.Basis.FileSystem
import PosixLab.Shell.Interactive
import PosixLab.Monitor.BoundedBuffer
import PosixLab.Monitor.Wakeups
import PosixLab.Monitor.FailedCalls
import PosixLab.Shell.Scan
import PosixLab.Web.Children
import PosixLab.Select.Server
import PosixLab.Basis.Search
import PosixLab.Basis.Paths
import PosixLab.Web.Request
import PosixLab.Web.Resource
import PosixLab.Web.Body
import PosixLab.Web.TestAdd
import PosixLab.Chat.Leftovers
import PosixLab.Chat.Buffers
import PosixLab.Basis.Lines
import PosixLab.Shell.ParseArgs
import PosixLab.Shell.SimpleShell
import PosixLab.Shell.ArgArrays
import PosixLab.Shell.TextFiles
import PosixLab.Shell.WholeLines
import PosixLab.Shell.Operands
import PosixLab.Shell.Questions
import PosixLab.Shell.Copy
import PosixLab.Programs.Pibonacci
import PosixLab.Programs.Password
import PosixLab.Programs.SelectPipe
import PosixLab.Basis.Numerals
import PosixLab.Programs.Calculator
import PosixLab.Basis.Descent
import PosixLab.Basis.Preorder
import PosixLab.Programs.ListRecursive
import PosixLab.Select.Broadcast
import PosixLab.Basis.Progress
import PosixLab.Monitor.Turns
import PosixLab.Programs.SendSignal
import PosixLab.Programs.MessageQueue
import PosixLab.Programs.PipeChat
import PosixLab.Chat.Identity
import PosixLab.Select.Session
import PosixLab.Select.Conversation
import PosixLab.Programs.MemoryMap
import PosixLab.Programs.CancelThread
import PosixLab.Basis.FileMoves
import PosixLab.Programs.FileCopy
import PosixLab.Shell.Pipeline
import PosixLab.Shell.PipeFlow
import PosixLab.Shell.Composition
import PosixLab.Programs.Echo
