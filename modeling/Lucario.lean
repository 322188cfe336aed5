import Lucario.Core
import Lucario.Threads
import Lucario.Debugger
import Lucario.Lib.BoundedLines
import Lucario.Lib.CyclicScan
import Lucario.Lib.Footprint
import Lucario.Lib.Odometer
import Lucario.Lib.Overlay
import Lucario.Lib.PaddedList
import Lucario.Lib.Runs
import Lucario.Lib.SignMagnitude
import Lucario.Lib.Trace
import Lucario.Proofs.AtomicCreation
import Lucario.Proofs.BlockingIo
import Lucario.Proofs.Confinement
import Lucario.Proofs.ContextSwitch
import Lucario.Proofs.DebugFrame
import Lucario.Proofs.DebugLoad
import Lucario.Proofs.DeferredOverflow
import Lucario.Proofs.DiskLoads
import Lucario.Proofs.DmaAim
import Lucario.Proofs.DmaBounds
import Lucario.Proofs.DmaProgramming
import Lucario.Proofs.ExactArithmetic
import Lucario.Proofs.ExactSleep
import Lucario.Proofs.FailedInstructions
import Lucario.Proofs.FaultAttribution
import Lucario.Proofs.FaultStops
import Lucario.Proofs.LegalWords
import Lucario.Proofs.Ownership
import Lucario.Proofs.PathLookup
import Lucario.Proofs.ProgramImage
import Lucario.Proofs.ProgramText
import Lucario.Proofs.Protection
import Lucario.Proofs.Quantum
import Lucario.Proofs.RoundRobin
import Lucario.Proofs.StackGuard
import Lucario.Proofs.TableIndex
import Lucario.Proofs.Termination
import Lucario.Proofs.Transparency
import Lucario.Proofs.WordConversions
import Lucario.Proofs.ConditionCodes
import Lucario.Proofs.StackBounds
import Lucario.History
import Lucario.Lib.Window
import Lucario.Proofs.KeyboardInput
import Lucario.Proofs.StartContext
import Lucario.Proofs.HistoryWindow
import Lucario.CommandLine
import Lucario.Lib.Words
import Lucario.Proofs.Trimming
import Lucario.Proofs.CommandTokens
import Lucario.ConsoleLoop
import Lucario.Proofs.RefusedLines
import Lucario.DiskStatus
import Lucario.Lib.EndToEnd
import Lucario.Proofs.DiskScan
import Lucario.Bus
import Lucario.Lib.Simulation
import Lucario.Lib.Progress
import Lucario.Proofs.Agreement
import Lucario.Proofs.RaisedCodes
import Lucario.Proofs.ProcessIdentity
import Lucario.Proofs.Isolation
import Lucario.Proofs.RunsAlone
import Lucario.Proofs.Handshake
import Lucario.Proofs.TransferReturns
import Lucario.Proofs.Starvation
import Lucario.Proofs.Completion
import Lucario.Proofs.UnreachedHandlers
import Lucario.Listings
import Lucario.Terminal
import Lucario.Lib.Tally
import Lucario.Proofs.Reboot
import Lucario.Proofs.Accounts
import Lucario.Proofs.TypedCommands
import Lucario.Proofs.Relocation
import Lucario.Proofs.Shelf
import Lucario.Proofs.Placement
