import KuraMetadata.Kura.Isolation
import KuraMetadata.Kura.Pinning
import KuraMetadata.Kura.Uncertain
import KuraMetadata.Linearizability.Counterexamples
import KuraMetadata.Linearizability.Recording
import KuraMetadata.Raft.Cluster.Safety
import KuraMetadata.Raft.Core.HardStates
import KuraMetadata.Raft.Core.Silence
import KuraMetadata.Raft.Figure2.Compaction
import KuraMetadata.Storage.Canonical
import KuraMetadata.Store.Decisions
import KuraMetadata.Store.Ownership
import KuraMetadata.Store.PointOperations
import KuraMetadata.Store.Watches
