import CompSys.Lib.Store
import CompSys.Lib.Bytes
import CompSys.Lib.Runs
import CompSys.Lib.Ring
import CompSys.Lib.Fifo
import CompSys.Lib.Prefix
import CompSys.Lib.Bag
import CompSys.Lib.OneHot
import CompSys.Lib.Extents
import CompSys.Lib.Links
import CompSys.Lib.Words
import CompSys.Lib.Segregated
import CompSys.Lib.Pointers
import CompSys.Lib.Totals
import CompSys.Lib.Fuel
import CompSys.Lib.Scanf
import CompSys.Lib.SearchTree
import CompSys.Lib.Bisection
import CompSys.Lib.Patches
import CompSys.Lib.CString
import CompSys.Lib.ScanNumbers
import CompSys.Lib.Rv32
import CompSys.Lib.Rv32Machine
import CompSys.Lib.BlockHash
import CompSys.Lib.Sha2
import CompSys.Lib.ClosableQueue
import CompSys.Lib.Feeds
import CompSys.Lib.Least
import CompSys.A0.FindFormat
import CompSys.A0.Grammar
import CompSys.A0.Counting
import CompSys.A0.Classification
import CompSys.A0.Endings
import CompSys.A0.Positions
import CompSys.A1.IdQuery
import CompSys.A1.TreeIndex
import CompSys.A1.TreeLookup
import CompSys.A1.TreeLinks
import CompSys.A1.BinSearch
import CompSys.A1.ReadRecord
import CompSys.A1.ReadRecords
import CompSys.A1.QueryLoop
import CompSys.A1.Programs
import CompSys.A1.Nearest
import CompSys.A2.JobQueue
import CompSys.A2.Threads
import CompSys.A2.Delivery
import CompSys.A2.Shutdown
import CompSys.A2.Exclusion
import CompSys.A2.Linearization
import CompSys.A2.Acceptance
import CompSys.A2.Teardown
import CompSys.A2.Histograms
import CompSys.A2.HistogramThreads
import CompSys.A2.Fauxgrep
import CompSys.A2.FauxgrepThreads
import CompSys.A2.Fibs
import CompSys.A3.Requests
import CompSys.A3.Salts
import CompSys.A3.Responses
import CompSys.A4.Wire
import CompSys.A4.Sha256
import CompSys.A4.Sha256Runs
import CompSys.A4.ReadBuffer
import CompSys.A4.Helpers
import CompSys.A4.SendMessage
import CompSys.A4.Register
import CompSys.A4.ServerRequest
import CompSys.A4.RequestBody
import CompSys.A4.Retrieve
import CompSys.A4.Reassembly
import CompSys.A4.Integrity
import CompSys.A4.Uses
import CompSys.A4.Network
import CompSys.A4.Appends
import CompSys.A4.Listed
import CompSys.A4.Recorded
import CompSys.A4.Copies
import CompSys.A4.CopyBounds
import CompSys.A4.RandomPeer
import CompSys.A4.Validity
import CompSys.A5.PagedMemory
import CompSys.A5.FlatMemory
import CompSys.A5.MemoryRuns
import CompSys.A5.Simulate
import CompSys.A5.StepFacts
import CompSys.A5.ZeroRegister
import CompSys.A5.Frame
import CompSys.A5.InstructionCount
import CompSys.A5.Manual
import CompSys.A5.Progress
import CompSys.A5.Accepts
import CompSys.A5.Encoded
import CompSys.A5.Jumps
import CompSys.A5.Accesses
import CompSys.A5.Arithmetic
import CompSys.A5.Refinement
import CompSys.A5.AssemblyTable
import CompSys.A5.ReadExec
import CompSys.A5.LineBounds
import CompSys.A5.Objdump
import CompSys.A5.LoadRows
import CompSys.A5.LoadLines
import CompSys.A5.LoadText
import CompSys.A5.AssemblyPlaces
import CompSys.A5.AssemblyFills
import CompSys.A5.AssemblyMap
import CompSys.A5.AssemblySlots
import CompSys.A5.LoadImage
import CompSys.A5.ProgramArgs
import CompSys.A5.Main
import CompSys.A6.RadixTree
import CompSys.A6.Radix
import CompSys.A6.RadixHeap
import CompSys.A6.RadixAdd
import CompSys.A6.RadixTake
import CompSys.A6.RadixRuns
import CompSys.A6.RadixInvariant
import CompSys.A6.RadixLow
import CompSys.A6.NodeLedger
import CompSys.A6.RadixMain
import CompSys.A6.ShortWrites
import CompSys.A6.Decimal
import CompSys.A6.Alloc
import CompSys.A6.AllocHeap
import CompSys.A6.AllocSizes
import CompSys.A6.AllocRuns
import CompSys.A6.RadixBytes
import CompSys.A6.NodeBlocks
import CompSys.A6.RadixNodes
import CompSys.A6.RadixRefines
import CompSys.A4.PeerCalls
import CompSys.A4.PeerRuns
