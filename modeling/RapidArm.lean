import RapidArm.Ir.Types
import RapidArm.Ir.Builder
import RapidArm.Lib.Lists
import RapidArm.Backend.Shift
import RapidArm.Backend.BoolLowering
import RapidArm.Ir.Semantics
import RapidArm.Lib.Assign
import RapidArm.Backend.BlockParams
import RapidArm.Mmu.Memory
import RapidArm.Mmu.PageTable
import RapidArm.Lib.Keeps
import RapidArm.Mmu.Access
import RapidArm.Mmu.World
import RapidArm.Mmu.Stores
import RapidArm.Mmu.Runs
import RapidArm.Mmu.Coherence
import RapidArm.Mmu.Dirty
import RapidArm.Mmu.Isolation
import RapidArm.Mmu.Cow
import RapidArm.Lib.Blocks
import RapidArm.Mmu.Lookups
import RapidArm.Mmu.Bulk
import RapidArm.Mmu.Scalar
import RapidArm.Mmu.FaultAddress
import RapidArm.Mmu.Mapping
import RapidArm.Mmu.FlushDyn
import RapidArm.Mmu.Fork
import RapidArm.Mmu.ReadOnly
import RapidArm.Lib.Trace
import RapidArm.Mmu.ICache
import RapidArm.HaltCheck.Tarjan
import RapidArm.HaltCheck.SccGraph
import RapidArm.HaltCheck.Split
import RapidArm.HaltCheck.Pass
import RapidArm.HaltCheck.Refines
import RapidArm.HaltCheck.Inserter
import RapidArm.Lib.Gaps
import RapidArm.HaltCheck.Countdown
import RapidArm.HaltCheck.Paths
import RapidArm.HaltCheck.Blocks
import RapidArm.HaltCheck.Components
import RapidArm.HaltCheck.Correct
import RapidArm.HaltCheck.Simulation
import RapidArm.HaltCheck.Meaning
import RapidArm.HaltCheck.Validation
import RapidArm.Monitor.Exclusive
import RapidArm.Monitor.Callbacks
import RapidArm.Lib.Indexed
import RapidArm.Objects.Queue
import RapidArm.Objects.Manager
import RapidArm.Objects.Requests
import RapidArm.Objects.WriteBack
import RapidArm.Objects.Barrier
import RapidArm.Objects.Condvars
import RapidArm.Objects.History
import RapidArm.Objects.Callbacks
import RapidArm.Objects.FaultIn
import RapidArm.Memops.Scalar
import RapidArm.Memops.Bulk
import RapidArm.Memops.PageCopy
import RapidArm.Objects.FileIo
import RapidArm.Arena.ArenaSet
import RapidArm.HaltCheck.Capacity
import RapidArm.Backend.TopoSort
import RapidArm.Backend.Lowering
import RapidArm.Exec.FaultSlot
import RapidArm.Jit.Emitters
import RapidArm.Jit.Staged
import RapidArm.Jit.Runs
import RapidArm.Jit.Computes
import RapidArm.Jit.Integers
import RapidArm.Jit.Host
import RapidArm.Jit.Operations
import RapidArm.Jit.Division
import RapidArm.Jit.Flags
import RapidArm.Jit.Shifts
import RapidArm.Jit.VmAccess
import RapidArm.Mmu.Fill
import RapidArm.Jit.TlbProbe
import RapidArm.Tar.Stream
import RapidArm.Mmu.Hit
import RapidArm.Jit.Halting
import RapidArm.Jit.Fallback
import RapidArm.Jit.InlineAccess
import RapidArm.Jit.Join
import RapidArm.Jit.AccessAgrees
import RapidArm.Lib.Simulation
import RapidArm.Clif.Host
import RapidArm.Clif.Code
import RapidArm.Clif.Lowering
import RapidArm.Clif.Emits
import RapidArm.Clif.Integers
import RapidArm.Clif.Statements
import RapidArm.Clif.Fresh
import RapidArm.Clif.Layout
import RapidArm.Clif.Blocks
import RapidArm.Clif.Agreement
import RapidArm.Clif.Preserves
import RapidArm.HaltCheck.Insertions
import RapidArm.Clif.SsaForm
import RapidArm.Clif.HaltChecks
import RapidArm.Clif.Interrupts
import RapidArm.Clif.Stops
import RapidArm.Clif.Build
