import Pvos.Support.System
import Pvos.Support.Interleaving
import Pvos.Support.Memory
import Pvos.Support.Cyclic
import Pvos.CustomQueue.Ring
import Pvos.CustomQueue.RingHistory
import Pvos.CustomQueue.Init
import Pvos.CustomQueue.InitSafety
import Pvos.Support.Text
import Pvos.Support.Keyed
import Pvos.TokenCrate.Loop
import Pvos.TokenCrate.Token
import Pvos.TokenCrate.Protocol
import Pvos.TokenCrate.TypedQueue
import Pvos.SemaphoresPr.Crate
import Pvos.SemaphoresPr.Posix
import Pvos.SemaphoresPr.PosixSafety
import Pvos.SemaphoresPr.Sysv
import Pvos.SemaphoresPr.Equivalence
import Pvos.SemaphoresPr.Interrupts
import Pvos.SemaphoresPr.Printed
import Pvos.SemaphoresPr.SlotTexts
import Pvos.Readline.Readline
import Pvos.Readline.Lines
import Pvos.Readline.Bytes
import Pvos.Readline.Ends
import Pvos.Readline.Descriptors
import Pvos.Readline.Incomplete
import Pvos.Readline.Timeouts
import Pvos.Readline.Bounds
import Pvos.Readline.Reset
import Pvos.Readline.EndOfInput
import Pvos.Support.CString
import Pvos.Checksum.Scan
import Pvos.Checksum.Passes
import Pvos.Checksum.Arithmetic
import Pvos.Checksum.Continuation
import Pvos.Readline.Producer
import Pvos.Readline.Consumer
import Pvos.Readline.Pipeline
import Pvos.Readline.LineSelect
import Pvos.Readline.CutOff
import Pvos.Socksrv.Mplex
import Pvos.Socksrv.PollSet
import Pvos.Socksrv.Interference
import Pvos.Socksrv.Communication
import Pvos.Socksrv.StringUses
import Pvos.Socksrv.Segments
import Pvos.Socksrv.Verdicts
import Pvos.Socksrv.Client
import Pvos.Socksrv.Determined
import Pvos.Socksrv.Forking
import Pvos.Socksrv.Threads
import Pvos.PipeThreads.Readers
import Pvos.PipeThreads.Turns
import Pvos.PipeThreads.Output
import Pvos.TokenCrate.Leftovers
import Pvos.CustomQueue.Leftovers
import Pvos.Socksrv.ReadyReads
import Pvos.Socksrv.QuitRequests
import Pvos.Socksrv.Relay
import Pvos.SemaphoresPr.Layout
import Pvos.PipeThreads.ReadFile
import Pvos.PipeThreads.Room
import Pvos.PipeThreads.Returned
import Pvos.PipeThreads.ForkJoin
import Pvos.PipeThreads.Joined
import Pvos.PipeThreads.ChildCopy
import Pvos.Signals.Stopping
import Pvos.Signals.ChildParty
import Pvos.Signals.LostUpdates
import Pvos.Cv1Fork.Pool
import Pvos.Cv1Fork.Counts
import Pvos.Checksum.ScanEnds
import Pvos.Socksrv.Dropped
import Pvos.Socksrv.Batches
import Pvos.Socksrv.Chat
import Pvos.Socksrv.ChatVerdicts
import Pvos.Socksrv.ChatDrains
import Pvos.CustomQueue.Stored
import Pvos.TokenCrate.Rings
import Pvos.TokenCrate.Refinement
import Pvos.TokenCrate.OverRings
import Pvos.TokenCrate.SameHistories
import Pvos.Support.Steps
import Pvos.TokenCrate.Rounds
import Pvos.SemaphoresPr.Progress
import Pvos.PipeRedirect.Shell
import Pvos.PipeRedirect.Moves
import Pvos.PipeRedirect.Transformed
import Pvos.PipeRedirect.Ends
import Pvos.CustomQueue.Completes
import Pvos.Socksrv.Arguments
