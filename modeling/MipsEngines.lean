import MipsEngines.Proofs.ComputedGoto
import MipsEngines.Proofs.TailCall
import MipsEngines.Proofs.BlockLinks
import MipsEngines.Proofs.SwitchBlocks
import MipsEngines.Proofs.BlockRun
import MipsEngines.Proofs.BlockSimulation
import MipsEngines.Proofs.BlockHalt
import MipsEngines.Proofs.EveryEngine
import MipsEngines.Proofs.RegisterZero
import MipsEngines.Lib.Store
import MipsEngines.Proofs.PagedMemory
import MipsEngines.Proofs.BulkCopies
import MipsEngines.Proofs.MemoryRefinement
import MipsEngines.Model.Loader
import MipsEngines.Proofs.LoadedImage
import MipsEngines.Proofs.AddressSpace
import MipsEngines.Proofs.RegionRuns
import MipsEngines.Proofs.ExitStatus
import MipsEngines.Proofs.Unsupported
import MipsEngines.Proofs.Arithmetic
import MipsEngines.Proofs.WordAccess
import MipsEngines.Proofs.Unaligned
import MipsEngines.Proofs.Transfers
import MipsEngines.Proofs.SyscallConvention
import MipsEngines.Proofs.MmapDelivers
import MipsEngines.Proofs.BrkHeap
import MipsEngines.Proofs.ControlTransfers
import MipsEngines.Proofs.InitialStack
import MipsEngines.Lib.Search
import MipsEngines.Proofs.LoaderChecks
import MipsEngines.Proofs.Operands
import MipsEngines.Model.LoadDelay
import MipsEngines.Proofs.LoadDelay
import MipsEngines.Lib.BitField
import MipsEngines.Model.Assembler
import MipsEngines.Proofs.Assembler
import MipsEngines.Proofs.BlockShape
import MipsEngines.Proofs.UnrolledLoop
import MipsEngines.Proofs.PcPipeline
import MipsEngines.Lib.LinkedList
import MipsEngines.Lib.ChainedTable
import MipsEngines.Model.UtHash
import MipsEngines.Proofs.UtHash
import MipsEngines.Proofs.HashedBlocks
import MipsEngines.Model.Architecture
import MipsEngines.Proofs.ArchDecode
import MipsEngines.Proofs.ArchValues
import MipsEngines.Proofs.Architecture
import MipsEngines.Proofs.ArchStops
import MipsEngines.Lib.BlockHeap
import MipsEngines.Model.HostMemory
import MipsEngines.Proofs.HostMemory
import MipsEngines.Lib.Logged
import MipsEngines.Model.Builds
import MipsEngines.Proofs.Builds
import MipsEngines.Proofs.Profile
import MipsEngines.Proofs.Listings
import MipsEngines.Proofs.BlockListing
import MipsEngines.Proofs.ArchEngines
import MipsEngines.Model.BlockedHeap
import MipsEngines.Proofs.BlockedHeap
