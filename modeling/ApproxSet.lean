import ApproxSet.Bloom.Plan
import ApproxSet.Bloom.Stored
import ApproxSet.Cuckoo.Plan
import ApproxSet.Cuckoo.Stored
import ApproxSet.Decimal.Scientific
import ApproxSet.Interface
import ApproxSet.PackedCuckoo.Stored
import ApproxSet.Proofs.Allocator
import ApproxSet.Proofs.Cuckoo.Table
import ApproxSet.Proofs.Widen
import ApproxSet.ScalableBloom.Stored
import ApproxSet.XorFilter.Stored
import ApproxSet.Proofs.Cuckoo.Settle
import ApproxSet.Proofs.Cuckoo.Growth
import ApproxSet.Proofs.Codec
import ApproxSet.Proofs.Cuckoo.Stored
import ApproxSet.Proofs.Cuckoo.History
import ApproxSet.Proofs.Cuckoo.Union
import ApproxSet.Proofs.XorFilter.Edge
import ApproxSet.Proofs.XorFilter.Hypergraph
import ApproxSet.Proofs.XorFilter.Peeling
import ApproxSet.Proofs.XorFilter.Solving
import ApproxSet.Proofs.XorFilter.Membership
import ApproxSet.Proofs.Cuckoo.Crowded
import ApproxSet.Proofs.Cuckoo.Refusal
import ApproxSet.Proofs.Cuckoo.Occupancy
import ApproxSet.Proofs.PackedCuckoo.Layout
import ApproxSet.Proofs.PackedCuckoo.Lookup
import ApproxSet.Proofs.Codec.Exact
import ApproxSet.Proofs.Codec.Filters
import ApproxSet.Proofs.Codec.Reached
import ApproxSet.Proofs.Bloom.Bounds
import ApproxSet.Proofs.ScalableBloom.Bounds
import ApproxSet.Proofs.XorFilter.Bounds
import ApproxSet.Proofs.Cuckoo.Bounds
import ApproxSet.Proofs.PackedCuckoo.Bounds
import ApproxSet.Proofs.Guarded
import ApproxSet.Proofs.Bloom.Bits
import ApproxSet.Proofs.Bloom.Filling
import ApproxSet.Proofs.Cuckoo.Displacement
import ApproxSet.Proofs.ScalableBloom.Growth
import ApproxSet.Proofs.ScalableBloom.Generations
import ApproxSet.Proofs.Cuckoo.Crossing
import ApproxSet.Proofs.Widen.Steps
import ApproxSet.Proofs.XorFilter.Counters
import ApproxSet.Proofs.XorFilter.Order
import ApproxSet.Proofs.Cuckoo.Room
import ApproxSet.Proofs.Cuckoo.Planned
import ApproxSet.Proofs.Cuckoo.Repetition
import ApproxSet.Proofs.Rate.Order
import ApproxSet.Proofs.Rate.Models
import ApproxSet.Proofs.Sizing
import ApproxSet.Proofs.Sizing.Search
import ApproxSet.Proofs.Sizing.Bytes
import ApproxSet.Proofs.Sizing.Capacity
import ApproxSet.Proofs.ScalableBloom.Countdown
import ApproxSet.Proofs.XorFilter.KeySet
import ApproxSet.Proofs.XorFilter.Probing
import ApproxSet.Proofs.Sampler
