import ApproxSet.Both

/-!
# Events

What a filter reports while it is built or grown: plain data, with a level, a text and numbers.
-/

namespace ApproxSet

inductive Level where
  | trace
  | debug
  deriving DecidableEq

inductive Event where
  | peelFailed (keys slots attempt : Nat)
  | built (keys slots attempts : Nat)
  | generationAdded (generation capacity bytes totalBytes : Nat)
  /-- An evicted entry went to the stash of `side`; `total` entries are stashed now. -/
  | stashed (side : Side) (total logSide : Nat)
  | doubled (generation logSide occupied total : Nat)
  | packed (logSide bytes total : Nat)
  deriving DecidableEq

namespace Event

/-- Failed attempts are traced, everything else is for debugging. -/
def level : Event → Level
  | peelFailed .. => .trace
  | _ => .debug

def message : Event → String
  | peelFailed .. => "static filter peel failed"
  | built .. => "built static filter"
  | generationAdded .. => "upsized taffy block filter"
  | stashed .. => "cuckoo entry stashed"
  | doubled .. => "upsized taffy cuckoo filter"
  | packed .. => "froze taffy cuckoo filter"

def fields : Event → List (String × Nat)
  | peelFailed keys slots attempt => [("keys", keys), ("slots", slots), ("attempt", attempt)]
  | built keys slots attempts => [("keys", keys), ("slots", slots), ("attempts", attempts)]
  | generationAdded generation capacity bytes totalBytes =>
    [("generation", generation), ("capacity", capacity), ("bytes", bytes),
      ("total_bytes", totalBytes)]
  | stashed side total logSide =>
    [("side", side.number), ("stashed", total), ("log_side_size", logSide)]
  | doubled generation logSide occupied total =>
    [("generation", generation), ("log_side_size", logSide), ("occupied", occupied),
      ("stashed", total)]
  | packed logSide bytes total =>
    [("log_side_size", logSide), ("bytes", bytes), ("stashed", total)]

end Event

end ApproxSet
