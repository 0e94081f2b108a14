import ApproxSet.Cuckoo.Stored
import ApproxSet.PackedCuckoo

/-!
# Stored packed filters

Both permutations, the side size, the packed bytes after their number, and the stashes.
-/

namespace ApproxSet.PackedCuckoo

/-- Refuses a filter that is not valid: side size first, then the number of packed bytes. -/
def accept (f : PackedCuckoo) : Except Defect PackedCuckoo :=
  if f.logSide = 0 ∨ f.logSide > Cuckoo.maxLogSide then
    .error (.packedSideSize f.logSide)
  else if f.data.size ≠ 2 * bucketBytes * 2 ^ f.logSide then
    .error (.packedBytes f.data.size (2 * bucketBytes * 2 ^ f.logSide))
  else
    .ok f

def codec : Codec PackedCuckoo :=
  ((Both.codec Permutation.codec).pair
    ((Codec.nat 4).pair (Codec.word8.array.pair (Both.codec Codec.word64.array)))).refine
    (fun (entropy, logSide, data, stashes) => accept ⟨logSide, entropy, data, stashes⟩)
    (fun f => (f.entropy, f.logSide, f.data, f.stashes))

end ApproxSet.PackedCuckoo
