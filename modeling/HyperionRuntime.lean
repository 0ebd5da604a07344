import HyperionRuntime.Machine.Memory
import HyperionRuntime.Slab.Allocator
import HyperionRuntime.Slab.FreeList
import HyperionRuntime.Slab.Heap
import HyperionRuntime.Slab.Repr
import HyperionRuntime.Slab.Refinement
import HyperionRuntime.Slab.Invariant
import HyperionRuntime.Slab.Init
import HyperionRuntime.Slab.Correctness
import HyperionRuntime.Slab.Sequences
import HyperionRuntime.Slab.Frame
import HyperionRuntime.Slab.Isolation
import HyperionRuntime.Index.Hnsw
import HyperionRuntime.Core.RingBuffer
import HyperionRuntime.Core.RingQueue
import HyperionRuntime.Core.Tokenizer
import HyperionRuntime.Core.TokenizeCounts
import HyperionRuntime.Core.SetVocab
import HyperionRuntime.Core.Pipeline
import HyperionRuntime.Core.TaggedPtr
import HyperionRuntime.Kernel.Scheduler
import HyperionRuntime.Kernel.RoundRobin
import HyperionRuntime.Kernel.Frame
import HyperionRuntime.Ghost.Arena
import HyperionRuntime.Ghost.Manager
import HyperionRuntime.Ghost.Records
import HyperionRuntime.Jit.Optimizer
import HyperionRuntime.Jit.Emitter
import HyperionRuntime.Math.Dot
import HyperionRuntime.Monitor.Terminal
import HyperionRuntime.Monitor.Screen
import HyperionRuntime.Monitor.Render
import HyperionRuntime.Monitor.Invariant
import HyperionRuntime.Monitor.Layout
