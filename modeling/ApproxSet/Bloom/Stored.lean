import ApproxSet.Bloom.Basic
import ApproxSet.Codec

/-!
# Stored block filters

The blocks after their number, each as its eight words.
-/

namespace ApproxSet

def Block.codec : Codec Block :=
  (Codec.word32.vector 8).iso Block.mk Block.words

namespace Bloom

def accept (blocks : Array Block) : Except Defect Bloom :=
  if Valid ⟨blocks⟩ then .ok ⟨blocks⟩ else .error (.blockCount blocks.size)

def codec : Codec Bloom :=
  Block.codec.array.refine accept Bloom.blocks

end Bloom

end ApproxSet
