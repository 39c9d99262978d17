import LinuxRs.Lib.Run
import LinuxRs.Lib.Exec
import LinuxRs.Lib.Chain
import LinuxRs.Lib.Ring
import LinuxRs.Lib.Count
import LinuxRs.Lib.Locks
import LinuxRs.Lib.Extent
import LinuxRs.Lib.Slice
import LinuxRs.Lib.Result
import LinuxRs.Lib.SortedMap
import LinuxRs.Lib.Asking
import LinuxRs.Lib.Sparse
import LinuxRs.Lib.PartialMemory
import LinuxRs.Lib.Wildcard
import LinuxRs.Lib.Utf8
import LinuxRs.Lib.Balance
import LinuxRs.Lib.Subsequence
import LinuxRs.Lib.RefCount
import LinuxRs.Lib.ByteIndex
import LinuxRs.Sync.WaitQueue
import LinuxRs.Sync.BusyLock
import LinuxRs.Sync.Interruptible
import LinuxRs.Sync.StaleWake
import LinuxRs.Driver.Block
import LinuxRs.Driver.Elevator
import LinuxRs.Driver.TtyRing
import LinuxRs.Driver.Tty
import LinuxRs.Driver.TtyInput
import LinuxRs.Driver.Screen
import LinuxRs.Driver.ScreenRuns
import LinuxRs.Driver.ScreenView
import LinuxRs.Driver.Vga
import LinuxRs.Driver.DiskAddressing
import LinuxRs.Driver.HardDisk
import LinuxRs.Driver.TtyReads
import LinuxRs.Driver.TtyLines
import LinuxRs.Driver.TtyOutput
import LinuxRs.Driver.EscapeOverflow
import LinuxRs.Fs.LockOrder
import LinuxRs.Fs.Mount
import LinuxRs.Fs.Path
import LinuxRs.Fs.PathWalk
import LinuxRs.Fs.Directory
import LinuxRs.Fs.DirEntries
import LinuxRs.Fs.NameTree
import LinuxRs.Fs.LinkCount
import LinuxRs.Fs.DirCalls
import LinuxRs.Fs.DirMoves
import LinuxRs.Fs.DirRuns
import LinuxRs.Fs.DirTree
import LinuxRs.Fs.Pipe
import LinuxRs.Fs.Descriptor
import LinuxRs.Fs.Buffer
import LinuxRs.Fs.BufferPins
import LinuxRs.Fs.BlockIo
import LinuxRs.Fs.Transparency
import LinuxRs.Fs.InodeTable
import LinuxRs.Fs.InodeCache
import LinuxRs.Fs.InodeRuns
import LinuxRs.Fs.BufferIndex
import LinuxRs.Fs.RemovalFrame
import LinuxRs.Fs.MountCalls
import LinuxRs.Fs.MountHeld
import LinuxRs.Fs.MountTrace
import LinuxRs.Fs.DirAtomic
import LinuxRs.Fs.RawCalls
import LinuxRs.Fs.RawNames
import LinuxRs.Fs.PathTotality
import LinuxRs.Fs.RawStore
import LinuxRs.Fs.PipeClosed
import LinuxRs.Task.Signal
import LinuxRs.Task.Segment
import LinuxRs.Task.Exit
import LinuxRs.Task.Fpu
import LinuxRs.Task.Identity
import LinuxRs.Task.Scheduler
import LinuxRs.Task.Kill
import LinuxRs.Task.Waitpid
import LinuxRs.User.Allocator
import LinuxRs.User.HeapBlocks
import LinuxRs.User.HeapRuns
import LinuxRs.User.BufWriter
import LinuxRs.User.HeapAlign
import LinuxRs.User.Path
import LinuxRs.User.PathParts
import LinuxRs.User.PathParent
import LinuxRs.User.PathEdit
import LinuxRs.User.BufReader
import LinuxRs.User.Fnmatch
import LinuxRs.User.FnmatchLaw
import LinuxRs.User.HeapGrowth
import LinuxRs.User.TextRead
import LinuxRs.User.CurrentDir
import LinuxRs.Mbrkit.Commands
import LinuxRs.Mbrkit.Disk
import LinuxRs.Mbrkit.Mbr
import LinuxRs.Mbrkit.Codec
import LinuxRs.Mbrkit.Verify
import LinuxRs.Mbrkit.Overflow
import LinuxRs.Minix.Layout
import LinuxRs.Minix.Volume
import LinuxRs.Minix.FileIo
import LinuxRs.Minix.FileStore
import LinuxRs.Minix.FileBytes
import LinuxRs.Minix.FileWrite
import LinuxRs.Minix.VolumeBounds
import LinuxRs.Minix.BitmapAlloc
import LinuxRs.Miniximg.Geometry
import LinuxRs.Miniximg.Image
import LinuxRs.Miniximg.Ops
import LinuxRs.Miniximg.Zones
import LinuxRs.Miniximg.Sizing
import LinuxRs.Miniximg.FreeCounts
import LinuxRs.Miniximg.Inspect
import LinuxRs.Miniximg.Opening
import LinuxRs.Miniximg.Paths
import LinuxRs.Miniximg.DataSteps
import LinuxRs.Miniximg.Devices
import LinuxRs.Miniximg.KernelReads
import LinuxRs.Shell.Ast
import LinuxRs.Shell.State
import LinuxRs.Shell.RedirScope
import LinuxRs.Shell.Redirect
import LinuxRs.Shell.Lexer
import LinuxRs.Shell.Text
import LinuxRs.Shell.Expand
import LinuxRs.Shell.Quoting
import LinuxRs.Shell.QuotingLaw
import LinuxRs.Shell.Parser
import LinuxRs.Shell.LexerTotal
import LinuxRs.Shell.ParserSteps
import LinuxRs.Shell.ParserComplete
import LinuxRs.Shell.Render
import LinuxRs.Shell.RenderLex
import LinuxRs.Shell.RoundTrip
import LinuxRs.Shell.RoundTripLaw
import LinuxRs.Shell.Alias
import LinuxRs.Shell.Extents
import LinuxRs.Shell.Read
import LinuxRs.Shell.ReadLaw
import LinuxRs.Shell.Exec
import LinuxRs.Shell.Jumps
import LinuxRs.Shell.Prompt
import LinuxRs.Shell.PromptLaw
import LinuxRs.Vi.Buffer
import LinuxRs.Vi.Edit
import LinuxRs.Vi.Editor
import LinuxRs.Vi.Ex
import LinuxRs.Vi.Frames
import LinuxRs.Vi.Motion
import LinuxRs.Vi.Quit
import LinuxRs.Vi.Requests
import LinuxRs.Vi.Search
import LinuxRs.Vi.Text
import LinuxRs.Vi.Tracking
import LinuxRs.Vi.Boundary
import LinuxRs.Vi.CursorEdits
import LinuxRs.Vi.CursorMoves
import LinuxRs.Vi.CursorRuns
import LinuxRs.Vi.CursorText
import LinuxRs.Vi.CursorWords
import LinuxRs.Vi.Changes
import LinuxRs.Vi.UndoLaw
import LinuxRs.Vi.Brackets
import LinuxRs.Vi.Screen
import LinuxRs.Exec.Arguments
import LinuxRs.Exec.Execve
import LinuxRs.Exec.KernelPath
import LinuxRs.Exec.RoundTrip
import LinuxRs.Exec.Stack
import LinuxRs.Exec.Tables
import LinuxRs.Cli.Parser
import LinuxRs.Cli.Values
import LinuxRs.Compiler.Combinators
import LinuxRs.Compiler.DeepestError
import LinuxRs.Compiler.Pratt
import LinuxRs.Compiler.PrattLaw
import LinuxRs.Compiler.Lex
import LinuxRs.Compiler.LexLaw
import LinuxRs.Compiler.LexLossless
import LinuxRs.Compiler.LexRules
import LinuxRs.Dates.Civil
import LinuxRs.Dates.TouchTime
import LinuxRs.Diff.Script
import LinuxRs.Expr.Evaluate
import LinuxRs.Mm.Space
import LinuxRs.Mm.Frames
import LinuxRs.Mm.Mapping
import LinuxRs.Mm.Fork
import LinuxRs.Mm.Sharing
import LinuxRs.Mm.Isolation
import LinuxRs.Mm.Users
