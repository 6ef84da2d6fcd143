import ScamMiner.Shared.Transition
import ScamMiner.Shared.Proc
import ScamMiner.Shared.Interleave
import ScamMiner.Shared.Buffer
import ScamMiner.Shared.Decimal
import ScamMiner.Shared.Positional
import ScamMiner.Shared.Sha256
import ScamMiner.Sha.Midstate
import ScamMiner.Sha.Absorb
import ScamMiner.Sha.Finish
import ScamMiner.Sha.Digest
import ScamMiner.Task
import ScamMiner.Sha.Difficulty
import ScamMiner.Sha.WriteDecimal
import ScamMiner.Cpu.Worker
import ScamMiner.Cpu.System
import ScamMiner.Cpu.Accounting
import ScamMiner.Cpu.Mine
import ScamMiner.Cpu.Wrap
import ScamMiner.Cpu.Backend
import ScamMiner.Gpu.Chunks
import ScamMiner.Gpu.Partition
import ScamMiner.Gpu.TailWords
import ScamMiner.Gpu.Kernel
import ScamMiner.Gpu.Division
import ScamMiner.Gpu.Rounds
import ScamMiner.Gpu.Thread
import ScamMiner.Gpu.Refinement
import ScamMiner.Gpu.Slot
import ScamMiner.Gpu.Device
import ScamMiner.Gpu.Host
import ScamMiner.Gpu.Call
import ScamMiner.Gpu.Progress
import ScamMiner.Gpu.Session
import ScamMiner.Backend.Numerals
import ScamMiner.Backend.Difficulty
import ScamMiner.Backend.Range
import ScamMiner.Backend.Contract
import ScamMiner.Backend.Calls
import ScamMiner.Account
import ScamMiner.Orchestrator.Submit
import ScamMiner.Orchestrator.Workers
import ScamMiner.Orchestrator.Distribution
import ScamMiner.Orchestrator.Plain
import ScamMiner.Orchestrator.Shutdown
import ScamMiner.Orchestrator.Books
import ScamMiner.Orchestrator.Run
import ScamMiner.Orchestrator.Stop
import ScamMiner.Orchestrator.Exact
import ScamMiner.Cpu.Latency
import ScamMiner.Message
import ScamMiner.Gpu.Grid
import ScamMiner.Gpu.Earliest
import ScamMiner.Gpu.Steps
import ScamMiner.Backend.Earliest
import ScamMiner.Backend.Counts
import ScamMiner.Display
import ScamMiner.Gpu.Arch
import ScamMiner.Startup
import ScamMiner.Api.Client
import ScamMiner.Backend.Concurrent
import ScamMiner.Benchmark
