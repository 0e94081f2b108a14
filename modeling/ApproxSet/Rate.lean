import ApproxSet.Error

/-!
# False positive rates

A block filter sets one bit in each of the eight 32-bit words of one block for every hash. With
hashes spread over the blocks the number landing in a block is Poisson distributed; a block of `i`
hashes has a given bit of a word set with probability `1 - (31/32)^i`, and two hashes agree on all
bits used inside the block with probability `2^-32`. The expected rate is the weighted sum

  `Σ Pois(i) * ((1 - (31/32)^i)^8 + i * 2^-32)`

taken in double precision, smallest `i` first. Searches that invert the rate are written over any
`Model`, of which `poisson` is the one in use.
-/

namespace ApproxSet.Rate

def Valid (rate : Float) : Prop := 0 < rate ∧ rate < 1

instance (rate : Float) : Decidable (Valid rate) :=
  inferInstanceAs (Decidable (_ ∧ _))

def validate (rate : Float) : Except FilterError Unit :=
  if Valid rate then .ok () else .error (.rateOutOfBounds rate)

/-- A count as a double, rounded to nearest. -/
def ofCount (n : Nat) : Float := (UInt64.ofNat n).toFloat

/-- The expected rate of a filter of `bytes` bytes that holds `count` distinct hashes. -/
abbrev Model := (count bytes : Nat) → Float

/-- Terms of the sum. The mean is at most 768, so the terms beyond are zero. -/
def poissonTerms : Nat := 10000

/-- Adds `remaining` terms from the `i`-th on; `logFactorial` is the logarithm of `i!` and
`missPower` is `(31/32)^i`. -/
def poissonSum (mean logMean : Float) :
    (remaining : Nat) → (i logFactorial missPower total : Float) → Float
  | 0, _, _, _, total => total
  | remaining + 1, i, logFactorial, missPower, total =>
    let logWeight := i * logMean - mean - logFactorial
    let logWords := 8 * (1 - missPower).log
    let logCollision := i.log + (-32) * 0.6931471805599453
    let term := (logWeight + logWords).exp + (logWeight + logCollision).exp
    let next := i + 1
    poissonSum mean logMean remaining next (logFactorial + next.log) (missPower * (1 - 1 / 32))
      (total + term)

/-- The Poisson model: zero for no hashes, one for no bytes or more than three hashes per bit. -/
def poisson : Model := fun count bytes =>
  let n := ofCount count
  let bits := ofCount bytes * 8
  if n == 0 then 0
  else if ofCount bytes ≤ 0 then 1
  else if n / bits > 3 then 1
  else
    let mean := 256 / (bits / n)
    let total := poissonSum mean mean.log poissonTerms 0 0 1 0
    if total < 1 then total else 1

/-- The share of a generation in the rate of a whole scalable filter: `6/π²` over the square of its
number counted from one. The shares of all generations add up to at most `rate`. -/
def ofGeneration (rate : Float) (generation : Nat) : Float :=
  let number := ofCount generation + 1
  rate * (6 / (3.141592653589793 * 3.141592653589793)) / (number * number)

end ApproxSet.Rate
