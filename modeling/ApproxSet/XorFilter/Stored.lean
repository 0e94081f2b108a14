import ApproxSet.Codec
import ApproxSet.XorFilter.Basic

/-!
# Stored xor filters

The table after its size, then the window and the seed.
-/

namespace ApproxSet.XorFilter

def accept (f : XorFilter) : Except Defect XorFilter :=
  if f.Valid then .ok f else .error (.xorTable f.table.size f.window)

def codec : Codec XorFilter :=
  (Codec.word8.array.pair ((Codec.nat 8).pair Codec.word64)).refine
    (fun (table, window, seed) => accept ⟨table, window, seed⟩)
    (fun f => (f.table, f.window, f.seed))

end ApproxSet.XorFilter
