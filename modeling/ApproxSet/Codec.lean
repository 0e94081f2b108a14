import ApproxSet.Error

/-!
# Codecs

A codec writes a value as bytes and reads it back in front of any rest. Numbers are little-endian of
fixed width; a sequence of unknown length is written after its length, eight bytes wide. Records are
pairs of their fields in order, so one description serves both directions.
-/

namespace ApproxSet

/-- Why stored data was refused. -/
inductive ReadError where
  | endOfData
  | defect (d : Defect)
  deriving BEq

/-- A writer and the reader of what it writes. -/
structure Codec (α : Type) where
  encode : α → List UInt8
  decode : List UInt8 → Except ReadError (α × List UInt8)

namespace Codec

variable {α β : Type}

/-- A number in `width` bytes, lowest first; what does not fit is lost. -/
def littleEndian : (width n : Nat) → List UInt8
  | 0, _ => []
  | width + 1, n => UInt8.ofNat n :: littleEndian width (n / 256)

def readLittleEndian : (width : Nat) → List UInt8 → Except ReadError (Nat × List UInt8)
  | 0, bytes => .ok (0, bytes)
  | _ + 1, [] => .error .endOfData
  | width + 1, b :: bytes => do
    let (n, rest) ← readLittleEndian width bytes
    return (b.toNat + 256 * n, rest)

def nat (width : Nat) : Codec Nat where
  encode := littleEndian width
  decode := readLittleEndian width

/-- One value, then another. -/
def pair (a : Codec α) (b : Codec β) : Codec (α × β) where
  encode x := a.encode x.1 ++ b.encode x.2
  decode bytes := do
    let (x, rest) ← a.decode bytes
    let (y, rest) ← b.decode rest
    return ((x, y), rest)

/-- Another view of the same values. -/
def iso (c : Codec α) (make : α → β) (view : β → α) : Codec β where
  encode x := c.encode (view x)
  decode bytes := do
    let (x, rest) ← c.decode bytes
    return (make x, rest)

/-- Values that pass a check once they are read. -/
def refine (c : Codec α) (accept : α → Except Defect β) (view : β → α) : Codec β where
  encode x := c.encode (view x)
  decode bytes := do
    let (x, rest) ← c.decode bytes
    match accept x with
    | .ok y => return (y, rest)
    | .error d => throw (.defect d)

/-- Reads `n` values onto the end of `read`. -/
def readMany (c : Codec α) :
    (n : Nat) → (read : Array α) → List UInt8 → Except ReadError (Array α × List UInt8)
  | 0, read, bytes => .ok (read, bytes)
  | n + 1, read, bytes =>
    match c.decode bytes with
    | .error e => .error e
    | .ok (x, rest) => readMany c n (read.push x) rest

/-- A sequence after its length. -/
def array (c : Codec α) : Codec (Array α) where
  encode xs := littleEndian 8 xs.size ++ xs.toList.flatMap c.encode
  decode bytes := do
    let (n, rest) ← readLittleEndian 8 bytes
    readMany c n #[] rest

def readVector (c : Codec α) :
    (n : Nat) → List UInt8 → Except ReadError (Vector α n × List UInt8)
  | 0, bytes => .ok (#v[], bytes)
  | n + 1, bytes => do
    let (xs, rest) ← readVector c n bytes
    let (x, rest) ← c.decode rest
    return (xs.push x, rest)

def vector (c : Codec α) (n : Nat) : Codec (Vector α n) where
  encode xs := xs.toList.flatMap c.encode
  decode := readVector c n

def word8 : Codec UInt8 := (nat 1).iso UInt8.ofNat UInt8.toNat

def word16 : Codec UInt16 := (nat 2).iso UInt16.ofNat UInt16.toNat

def word32 : Codec UInt32 := (nat 4).iso UInt32.ofNat UInt32.toNat

def word64 : Codec UInt64 := (nat 8).iso UInt64.ofNat UInt64.toNat

/-- A double, as its bits. -/
def double : Codec Float := word64.iso Float.ofBits Float.toBits

/-- Reads one value, whatever follows it. -/
def read (c : Codec α) (bytes : List UInt8) : Except ReadError α :=
  (c.decode bytes).map (·.1)

end Codec

end ApproxSet
