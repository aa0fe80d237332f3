import RedstoneOS.Library.Runs
import RedstoneOS.Library.ParentChain
import RedstoneOS.Library.ByteMemory
import RedstoneOS.Library.SequentialReader
import RedstoneOS.Library.Extents
import RedstoneOS.Library.LineSweep
import RedstoneOS.Library.Packing
import RedstoneOS.Library.Console
import RedstoneOS.Library.Ownership
import RedstoneOS.Library.Processor
import RedstoneOS.Library.AddressSpace
import RedstoneOS.KernelState
import RedstoneOS.Lib
import RedstoneOS.Filesystem
import RedstoneOS.ReadData
import RedstoneOS.Execute
import RedstoneOS.Schedule
import RedstoneOS.ExecuteEffects
import RedstoneOS.Syscalls
import RedstoneOS.KernelRuns
import RedstoneOS.Outcomes
import RedstoneOS.ExecuteChecks
import RedstoneOS.Sessions
import RedstoneOS.SessionSteps
import RedstoneOS.SessionRuns
import RedstoneOS.ProcessStarts
import RedstoneOS.Identification
import RedstoneOS.ParentChains
import RedstoneOS.SlotSafety
import RedstoneOS.CallMatching
import RedstoneOS.ContextSwitch
import RedstoneOS.ReadPcb
import RedstoneOS.SyscallExit
import RedstoneOS.TerminalInput
import RedstoneOS.TerminalDelivery
import RedstoneOS.SequentialReads
import RedstoneOS.Directory
import RedstoneOS.Malloc
import RedstoneOS.HeapBlocks
import RedstoneOS.Paging
import RedstoneOS.FileArrays
import RedstoneOS.Descriptors
import RedstoneOS.DescriptorInheritance
import RedstoneOS.Arguments
import RedstoneOS.BootIndexes
import RedstoneOS.Screen
import RedstoneOS.Keyboard
import RedstoneOS.CursorBounds
import RedstoneOS.TerminalSwitch
import RedstoneOS.Game2048
import RedstoneOS.Merging
import RedstoneOS.MoveLines
import RedstoneOS.BoardMoves
import RedstoneOS.LegalMoves
import RedstoneOS.MallocSearch
import RedstoneOS.GameTurns
import RedstoneOS.GameScore
import RedstoneOS.GameSession
import RedstoneOS.I8259
import RedstoneOS.RtcMask
import RedstoneOS.RtcReaders
import RedstoneOS.FileReads
import RedstoneOS.ReadSafety
import RedstoneOS.DentryNames
import RedstoneOS.CommandStrings
import RedstoneOS.CommandStores
import RedstoneOS.ExecutableFiles
import RedstoneOS.FailedTicks
import RedstoneOS.ScreenCells
import RedstoneOS.ConsoleOutput
import RedstoneOS.LineEditor
import RedstoneOS.EchoedLine
import RedstoneOS.CallerBuffers
import RedstoneOS.TilePlacement
import RedstoneOS.Mouse
import RedstoneOS.RoundRobin
import RedstoneOS.HeapTable
import RedstoneOS.IrqLines
import RedstoneOS.MemoryPhases
import RedstoneOS.EntryLengths
import RedstoneOS.Ece391Support
import RedstoneOS.ScoreText
import RedstoneOS.Printf
import RedstoneOS.FormatScan
import RedstoneOS.BlinkScreen
import RedstoneOS.BlinkCells
import RedstoneOS.FishFrames
import RedstoneOS.Fish
import RedstoneOS.UserProgram
import RedstoneOS.Library.LineReader
import RedstoneOS.Grep
import RedstoneOS.FileTools
import RedstoneOS.Dialogues
import RedstoneOS.MemoryProtection
import RedstoneOS.ImageReads
import RedstoneOS.OwnMemory
import RedstoneOS.Linkage
import RedstoneOS.KernelFrames
import RedstoneOS.TimeSharing
import RedstoneOS.OwnProcessor
