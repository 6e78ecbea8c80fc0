import OpenShmem.Library.Machine
import OpenShmem.Library.Extents
import OpenShmem.Library.Totals
import OpenShmem.Library.Bump
import OpenShmem.Library.LinkedQueue
import OpenShmem.Memory.Session
import OpenShmem.Memory.Safety
import OpenShmem.Memory.NextFit
import OpenShmem.Memory.Lookup
import OpenShmem.Memory.Update
import OpenShmem.Memory.Cursor
import OpenShmem.Memory.Coherence
import OpenShmem.Memory.Filing
import OpenShmem.Memory.NamedFree
import OpenShmem.Memory.Fresh
import OpenShmem.Memory.Initialize
import OpenShmem.Memory.Finalize
import OpenShmem.Memory.Accounting
import OpenShmem.Memory.Capacity
import OpenShmem.Memory.SharedHeap
import OpenShmem.Memory.Alignment
import OpenShmem.Library.Relational
import OpenShmem.Memory.Symmetry
import OpenShmem.Memory.Holdings
import OpenShmem.Comm.Locality
import OpenShmem.Comm.Placement
import OpenShmem.Library.Fields
import OpenShmem.Comm.Hosts
import OpenShmem.Comm.LocalWireup
import OpenShmem.Comm.NodeHeaps
import OpenShmem.Comm.Wireup
import OpenShmem.Comm.Connections
import OpenShmem.Comm.Levels
import OpenShmem.Comm.Handshake
import OpenShmem.Comm.Phases
import OpenShmem.Comm.Tallies
import OpenShmem.Comm.Pairing
import OpenShmem.Comm.Progress
import OpenShmem.Comm.WireupRefinement
import OpenShmem.Comm.Packet
import OpenShmem.Comm.Barrier
import OpenShmem.Comm.BarrierRounds
import OpenShmem.Comm.Receive
import OpenShmem.Comm.Send
import OpenShmem.Comm.System
import OpenShmem.Comm.Queues
import OpenShmem.Comm.Pipeline
import OpenShmem.Comm.Drain
import OpenShmem.Comm.Liveness
import OpenShmem.Comm.Provenance
import OpenShmem.Comm.Visibility
import OpenShmem.Comm.Ordering
import OpenShmem.Comm.Collectives
import OpenShmem.Comm.Tenancy
import OpenShmem.Comm.Standstill
import OpenShmem.Programs.RingProgress
import OpenShmem.Comm.Clients
import OpenShmem.Comm.Gets
import OpenShmem.Comm.Signals
import OpenShmem.Comm.Rounds
import OpenShmem.Comm.Completion
import OpenShmem.Comm.Shutdown
