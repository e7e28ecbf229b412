import AarchGate.A64.Machine
import AarchGate.A64.Run
import AarchGate.A64.Walk
import AarchGate.A64.Provenance
import AarchGate.A64.Footprint
import AarchGate.Scan.Lanes
import AarchGate.BitPlane.Lanes
import AarchGate.BitPlane.Carry
import AarchGate.BitPlane.Popcount
import AarchGate.BitPlane.Transpose
import AarchGate.Graph.PostOrder
import AarchGate.Graph.Forest
import AarchGate.Ir.Expr
import AarchGate.Ir.Build
import AarchGate.Ir.Program
import AarchGate.Jit.Scratchpad
import AarchGate.Jit.Analyzer
import AarchGate.Jit.Allocation
import AarchGate.Jit.Holding
import AarchGate.Jit.Cache
import AarchGate.Jit.Compile
import AarchGate.Jit.Layout
import AarchGate.Jit.CacheExec
import AarchGate.Jit.CacheRun
import AarchGate.Jit.Operand
import AarchGate.Jit.Blocks
import AarchGate.Jit.NodeCode
import AarchGate.Jit.Flow
import AarchGate.Jit.Simulation
import AarchGate.Jit.Prepare
import AarchGate.Jit.Kernel
import AarchGate.Jit.Abi
import AarchGate.Jit.Comparison
import AarchGate.Jit.Correct
import AarchGate.Jit.Scalar
import AarchGate.Jit.ScalarNodes
import AarchGate.Jit.ScalarCorrect
import AarchGate.Jit.Accept
import AarchGate.Jit.Coverage
import AarchGate.Jit.KernelWalk
import AarchGate.Jit.Bounds
import AarchGate.Jit.Isolation
import AarchGate.Jit.ScalarBounds
import AarchGate.Jit.Patch
import AarchGate.Jit.Reads
import AarchGate.Compute.BitSlicer
import AarchGate.Core.Registry
import AarchGate.Engine.SumMeta
import AarchGate.Gpu.Msl
import AarchGate.Gpu.Group
import AarchGate.Gpu.Transpile
import AarchGate.Engine.Model
import AarchGate.Engine.Schemas
import AarchGate.Engine.Chunk
import AarchGate.Engine.Install
import AarchGate.Engine.Correct
import AarchGate.Gpu.Execute
import AarchGate.Engine.Roots
import AarchGate.Engine.Forest
import AarchGate.Engine.Coverage
import AarchGate.Engine.History
import AarchGate.Gpu.Totals
import AarchGate.Gpu.Layout
import AarchGate.Engine.Lanes
import AarchGate.Engine.Trees
import AarchGate.Ranges.Follow
import AarchGate.Engine.Parallel
import AarchGate.Engine.Legacy
import AarchGate.Engine.Selection
import AarchGate.Engine.ParallelCorrect
import AarchGate.Engine.Width
import AarchGate.Engine.Threshold
import AarchGate.Engine.CApi
import AarchGate.Engine.Resolve
import AarchGate.Engine.Native
import AarchGate.Engine.EntryPoints
import AarchGate.Engine.Modes
import AarchGate.Engine.Vector
import AarchGate.Engine.Leftover
import AarchGate.Engine.RowSums
import AarchGate.Gpu.OnCpu
import AarchGate.Trace.Along
import AarchGate.Trace.Count
import AarchGate.Trace.LastWrite
import AarchGate.Trace.Fair
import AarchGate.Trace.Answers
import AarchGate.Trace.Refine
import AarchGate.Compute.ThreadPool
import AarchGate.Compute.Wakeups
import AarchGate.Engine.SharedPool
import AarchGate.Engine.Session
import AarchGate.Gpu.Device
import AarchGate.Framing.Records
import AarchGate.Framing.LittleEndian
import AarchGate.Host.Policy
import AarchGate.Host.Monitor
import AarchGate.Host.Dashboard
import AarchGate.Host.Ancestry
import AarchGate.Host.PolicyJit
import AarchGate.Host.Collector
import AarchGate.Host.CollectorWait
import AarchGate.Host.Wire
import AarchGate.Host.Telemetry
import AarchGate.Host.Capture
import AarchGate.Host.Address
import AarchGate.Host.KillSwitch
import AarchGate.Host.Daemon
import AarchGate.Host.Pipeline
