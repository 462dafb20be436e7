import CowPaging.Lib.StateExcept
import CowPaging.Lib.Bytes
import CowPaging.Lib.SlotTable
import CowPaging.Lib.Blocks
import CowPaging.Lib.Linked
import CowPaging.Lib.Ring
import CowPaging.Mmu
import CowPaging.Kernel
import CowPaging.Swap
import CowPaging.Vm
import CowPaging.Proc
import CowPaging.Flat
import CowPaging.Ownership
import CowPaging.PteStore
import CowPaging.Invariant
import CowPaging.MapSteps
import CowPaging.DirSteps
import CowPaging.AllocSpec
import CowPaging.SetupSpec
import CowPaging.GrowSpec
import CowPaging.FreeSpec
import CowPaging.FaultSpec
import CowPaging.AccessSpec
import CowPaging.VictimSpec
import CowPaging.AccessedBits
import CowPaging.EvictSpec
import CowPaging.CopySpec
import CowPaging.ExecSpec
import CowPaging.Refine
import CowPaging.Calls
import CowPaging.ArgStack
import CowPaging.Lifecycle
import CowPaging.Reap
import CowPaging.Run
import CowPaging.Boot
import CowPaging.NoPressure
import CowPaging.Log
import CowPaging.LogSpace
import CowPaging.LogCrash
import CowPaging.BufferCache
import CowPaging.ResidentSize
import CowPaging.Containment
import CowPaging.SwapOutSpec
import CowPaging.DemandPaging
import CowPaging.SharedEviction
import CowPaging.SlotSharers
import CowPaging.KallocContract
import CowPaging.FreeCount
import CowPaging.Files
import CowPaging.Pipes
import CowPaging.Conservation
import CowPaging.Lib.Tally
import CowPaging.FileSystem
import CowPaging.DirTree
import CowPaging.InodeRefs
import CowPaging.NameCalls
import CowPaging.FsCalls
import CowPaging.FsRuns
import CowPaging.Lib.Fifo
import CowPaging.PipeCalls
import CowPaging.PipeSafety
import CowPaging.ProcTable
import CowPaging.Scheduling
import CowPaging.ProcLife
import CowPaging.IdeDriver
import CowPaging.IdeRefinement
import CowPaging.Guarded
import CowPaging.FlatTables
import CowPaging.PageDemand
import CowPaging.Sandbox
import CowPaging.SizeChange
import CowPaging.Exhaustion
import CowPaging.ExecCall
import CowPaging.ExecAtomic
import CowPaging.FaultTransparency
import CowPaging.VictimScan
import CowPaging.Malloc
import CowPaging.MallocRuns
import CowPaging.Console
import CowPaging.Shell
import CowPaging.ShellGrammar
import CowPaging.ShellParser
import CowPaging.Grep
import CowPaging.Isolation
