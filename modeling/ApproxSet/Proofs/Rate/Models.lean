import ApproxSet.Proofs.Rate.Order

/-!
# What searches ask of a model

Conditions on a model of the rate, all on counts and sizes of 64 bits: where it gives numbers and which
at the ends, and in which direction it changes. A model with three rates only meets all of them.
-/

namespace ApproxSet.Rate

/-- Nothing but numbers: zero for no hashes, and one for more hashes than 24 a byte. -/
structure Anchored (m : Model) : Prop where
  isNaN_eq : ∀ count bytes, count < 2 ^ 64 → bytes < 2 ^ 64 → (m count bytes).isNaN = false
  of_none : ∀ bytes, bytes < 2 ^ 64 → m 0 bytes = 0
  of_over : ∀ count bytes, count < 2 ^ 64 → 24 * bytes < count → m count bytes = 1

def FallsWithBytes (m : Model) : Prop :=
  ∀ count bytes bytes', count < 2 ^ 64 → bytes ≤ bytes' → bytes' < 2 ^ 64 →
    m count bytes' ≤ m count bytes

def RisesWithCount (m : Model) : Prop :=
  ∀ count count' bytes, count ≤ count' → count' < 2 ^ 64 → bytes < 2 ^ 64 →
    m count bytes ≤ m count' bytes

variable {m : Model} {count bytes : Nat} {rate : Float}

theorem Valid.isNaN_eq (h : Valid rate) : rate.isNaN = false :=
  (isNaN_of_lt h.1).2

/-- A model is below a rate or reaches it. -/
theorem Anchored.not_lt_iff (hm : Anchored m) (hrate : Valid rate) (hcount : count < 2 ^ 64)
    (hbytes : bytes < 2 ^ 64) : ¬ m count bytes < rate ↔ rate ≤ m count bytes :=
  Rate.not_lt (hm.isNaN_eq count bytes hcount hbytes) hrate.isNaN_eq

theorem Anchored.lt_of_none (hm : Anchored m) (hrate : Valid rate) (hbytes : bytes < 2 ^ 64) :
    m 0 bytes < rate := by
  rw [hm.of_none bytes hbytes]
  exact hrate.1

theorem FallsWithBytes.le_of_le (hm : FallsWithBytes m) {bytes' : Nat} (hcount : count < 2 ^ 64)
    (hle : bytes ≤ bytes') (hlt : bytes' < 2 ^ 64) (h : m count bytes ≤ rate) :
    m count bytes' ≤ rate :=
  Rate.le_trans (hm count bytes bytes' hcount hle hlt) h

/-! ## Three rates -/

/-- A model that knows three rates: for no hashes, for up to 24 of them a byte, and for more. -/
def plateau : Model := fun count bytes =>
  if count = 0 then 0 else if 24 * bytes < count then 1 else 0.5

theorem anchored_plateau : Anchored plateau := by
  have hnumbers : (0 : Float).isNaN = false ∧ (0.5 : Float).isNaN = false ∧
      (1 : Float).isNaN = false := by decide +kernel
  constructor
  · intro count bytes _ _
    unfold plateau
    split
    · exact hnumbers.1
    · split
      · exact hnumbers.2.2
      · exact hnumbers.2.1
  · intro bytes _
    rfl
  · intro count bytes _ hover
    unfold plateau
    rw [if_neg (by omega), if_pos hover]

theorem plateau_le {count' bytes' : Nat} (hcount : count ≤ count') (hbytes : bytes' ≤ bytes) :
    plateau count bytes ≤ plateau count' bytes' := by
  have hzero : (0 : Float) ≤ 0 ∧ (0 : Float) ≤ 1 ∧ (0 : Float) ≤ 0.5 := by decide +kernel
  have hhalf : (1 : Float) ≤ 1 ∧ (0.5 : Float) ≤ 1 ∧ (0.5 : Float) ≤ 0.5 := by decide +kernel
  unfold plateau
  by_cases hnone : count = 0
  · rw [if_pos hnone]
    split
    · exact hzero.1
    · split
      · exact hzero.2.1
      · exact hzero.2.2
  · have hsome : count' ≠ 0 := by omega
    rw [if_neg hnone, if_neg hsome]
    by_cases hover : 24 * bytes < count
    · have hover' : 24 * bytes' < count' := by omega
      rw [if_pos hover, if_pos hover']
      exact hhalf.1
    · rw [if_neg hover]
      split
      · exact hhalf.2.1
      · exact hhalf.2.2

theorem fallsWithBytes_plateau : FallsWithBytes plateau :=
  fun _ _ _ _ hle _ => plateau_le (Nat.le_refl _) hle

theorem risesWithCount_plateau : RisesWithCount plateau :=
  fun _ _ _ hle _ _ => plateau_le hle (Nat.le_refl _)

end ApproxSet.Rate
