import ApproxSet.Proofs.Sizing.Bytes

/-!
# How many hashes a budget allows

The search for a capacity doubles without a bound of its own. If the rate is reached at a power of two
that fits in 64 bits, as it is for budgets that allow less than `2 ^ 63` hashes, the search ends at the
last number of hashes below the rate. If not, the candidate wraps around to zero and the search goes on
for ever. A size that was chosen for a number of hashes allows as many, except where the rate of these
is met exactly: sizes are chosen for at most the rate, and capacities are below it.
-/

namespace ApproxSet.Sizing

variable {m : Rate.Model} {count bytes : Nat} {rate : Float}

/-- The first number of hashes that reaches the rate is looked for. -/
def capacityQuery (m : Rate.Model) (bytes : Nat) (rate : Float) : Query where
  holds count := !decide (m count bytes < rate)
  small := 1
  tooLarge _ := false

/-- The answer of a search for a capacity that is over. -/
def capacityAnswer? : Search → Option Nat
  | .settled lo _ => some lo.toNat
  | _ => none

theorem holds_capacityQuery_iff (hm : Rate.Anchored m) (hrate : Rate.Valid rate)
    (hcount : count < 2 ^ 64) (hbytes : bytes < 2 ^ 64) :
    (capacityQuery m bytes rate).holds count = true ↔ rate ≤ m count bytes := by
  show (!decide (m count bytes < rate)) = true ↔ _
  rw [Bool.not_eq_true', decide_eq_false_iff_not, hm.not_lt_iff hrate hcount hbytes]

theorem holds_power (hm : Rate.Anchored m) (hrate : Rate.Valid rate) (hbytes : bytes < 2 ^ 64)
    {k : Nat} (hk : k < 64) (h : rate ≤ m (2 ^ k) bytes) :
    (capacityQuery m bytes rate).holds (2 ^ k) = true :=
  (holds_capacityQuery_iff hm hrate (Word.two_pow_lt hk) hbytes).mpr h

theorem holds_capacityQuery_eq_false_iff :
    (capacityQuery m bytes rate).holds count = false ↔ m count bytes < rate := by
  show (!decide (m count bytes < rate)) = false ↔ _
  rw [Bool.not_eq_false', decide_eq_true_iff]

theorem blockCapacityBy_of_valid (m : Rate.Model) (bytes : Nat) (hrate : Rate.Valid rate) :
    blockCapacityBy m bytes rate =
      .ok ((firstPower? 64 (capacityQuery m bytes rate).holds).map fun bound =>
        bisect (capacityQuery m bytes rate).holds 0 bound - 1) := by
  have hvalidate : Rate.validate rate = .ok () := if_pos hrate
  unfold blockCapacityBy
  rw [hvalidate]
  rfl

/-- A budget for less than `2 ^ 63` hashes is used up by then. -/
theorem exists_power_of_lt (hm : Rate.Anchored m) (hrate : Rate.Valid rate)
    (h : 24 * bytes < 2 ^ 63) : ∃ k < 64, rate ≤ m (2 ^ k) bytes := by
  refine ⟨63, by decide, ?_⟩
  rw [hm.of_over (2 ^ 63) bytes (by decide) h]
  exact Rate.le_of_lt hrate.2

theorem blockCapacityBy_of_never (hrate : Rate.Valid rate)
    (h : ∀ k < 64, m (2 ^ k) bytes < rate) :
    blockCapacityBy m bytes rate = .ok none := by
  have hnone : firstPower? 64 (capacityQuery m bytes rate).holds = none :=
    firstPower?_eq_none_iff.mpr fun k hk => holds_capacityQuery_eq_false_iff.mpr (h k hk)
  rw [blockCapacityBy_of_valid m bytes hrate, hnone, Option.map_none]

theorem after_of_never (hm : Rate.Anchored m) (hrate : Rate.Valid rate) (hbytes : bytes < 2 ^ 64)
    (h : ∀ k < 64, m (2 ^ k) bytes < rate) {turns : Nat} (hturns : 64 ≤ turns) :
    (capacityQuery m bytes rate).after turns = .doubling 0 :=
  Query.after_of_never (fun j hj => ⟨holds_capacityQuery_eq_false_iff.mpr (h j hj), rfl⟩)
    (holds_capacityQuery_eq_false_iff.mpr (hm.lt_of_none hrate hbytes)) rfl hturns

/-- Where the doubling ends, the search ends below the number that halving finds. -/
theorem exists_capacityAnswer {k : Nat} (hk : k < 64)
    (hbefore : ∀ j < k, (capacityQuery m bytes rate).holds (2 ^ j) = false)
    (hholds : (capacityQuery m bytes rate).holds (2 ^ k) = true) :
    ∃ turns, capacityAnswer? ((capacityQuery m bytes rate).after turns) =
      some (bisect (capacityQuery m bytes rate).holds 0 (2 ^ k) - 1) := by
  obtain ⟨turns, lo, hi, hturns, hends⟩ := Query.exists_after_settled hk
    (fun j hj => ⟨hbefore j hj, rfl⟩) hholds
  have hfound := bisect_bounds (capacityQuery m bytes rate).holds (Nat.two_pow_pos k)
  have hsmall : (capacityQuery m bytes rate).small.toNat = 1 := rfl
  have hlo : lo.toNat = bisect (capacityQuery m bytes rate).holds 0 (2 ^ k) - 1 := by
    rw [hsmall] at hends
    split at hends
    · rw [hends.1, UInt64.toNat_zero]
      omega
    · omega
  refine ⟨turns, ?_⟩
  rw [hturns, capacityAnswer?, hlo]

/-- Where the doubling ends, the search ends at the last number of hashes below the rate. -/
theorem exists_blockCapacityBy (hm : Rate.Anchored m) (hrate : Rate.Valid rate)
    (hbytes : bytes < 2 ^ 64) (h : ∃ k < 64, rate ≤ m (2 ^ k) bytes) :
    ∃ capacity, blockCapacityBy m bytes rate = .ok (some capacity) ∧
      (∃ turns, capacityAnswer? ((capacityQuery m bytes rate).after turns) = some capacity) ∧
      capacity + 1 < 2 ^ 64 ∧ m capacity bytes < rate ∧ rate ≤ m (capacity + 1) bytes := by
  rw [blockCapacityBy_of_valid m bytes hrate]
  cases hbound : firstPower? 64 (capacityQuery m bytes rate).holds with
  | none =>
      rcases h with ⟨k, hk, hreached⟩
      have hfails := firstPower?_eq_none_iff.mp hbound k hk
      rw [holds_power hm hrate hbytes hk hreached] at hfails
      cases hfails
  | some bound =>
      rcases firstPower?_eq_some hbound with ⟨k, hk, rfl, hholds, hbefore⟩
      have hpow := Word.two_pow_lt hk
      have hzero := holds_capacityQuery_eq_false_iff.mpr (hm.lt_of_none hrate hbytes)
      have hanswer := exists_capacityAnswer hk hbefore hholds
      obtain ⟨n, hn, hlt, hbelow, hreached⟩ :=
        exists_bisect_eq_succ (Nat.two_pow_pos k) hholds hzero
      rw [hn, Nat.add_sub_cancel] at hanswer
      refine ⟨n, ?_, hanswer, by omega, holds_capacityQuery_eq_false_iff.mp hbelow,
        (holds_capacityQuery_iff hm hrate (by omega) hbytes).mp hreached⟩
      rw [Option.map_some, hn, Nat.add_sub_cancel]

theorem exact_capacityQuery (hm : Rate.Anchored m) (hrate : Rate.Valid rate)
    (hbytes : bytes < 2 ^ 64) (h : ∃ k < 64, rate ≤ m (2 ^ k) bytes) (turns : Nat) :
    (capacityQuery m bytes rate).Exact ((capacityQuery m bytes rate).after turns) := by
  rcases h with ⟨k, hk, hreached⟩
  have hstops : (capacityQuery m bytes rate).StopsAt k :=
    ⟨hk, Or.inl (holds_power hm hrate hbytes hk hreached)⟩
  exact hstops.exact (hstops.within_after turns)

/-- If the rate is reached at a power of two in 64 bits, as it is for budgets that allow less than
`2 ^ 63` hashes, no turn of the search wraps around, and it ends with what is returned: the last number
of hashes below the rate. If it is not, nothing is returned, no error either: in words the candidate
wraps around to zero and stays there. -/
theorem blockCapacityBy_boundary (hm : Rate.Anchored m) (hbytes : bytes < 2 ^ 64)
    (hrate : Rate.Valid rate) :
    let q := capacityQuery m bytes rate
    (24 * bytes < 2 ^ 63 → ∃ k < 64, rate ≤ m (2 ^ k) bytes) ∧
      ((∃ k < 64, rate ≤ m (2 ^ k) bytes) →
        (∀ turns, q.Exact (q.after turns)) ∧
        ∃ capacity, blockCapacityBy m bytes rate = .ok (some capacity) ∧
          (∃ turns, capacityAnswer? (q.after turns) = some capacity) ∧
          capacity + 1 < 2 ^ 64 ∧ m capacity bytes < rate ∧ rate ≤ m (capacity + 1) bytes) ∧
      ((∀ k < 64, m (2 ^ k) bytes < rate) →
        blockCapacityBy m bytes rate = .ok none ∧
        ∀ turns, 64 ≤ turns → q.after turns = .doubling 0) :=
  ⟨exists_power_of_lt hm hrate,
    fun h => ⟨exact_capacityQuery hm hrate hbytes h, exists_blockCapacityBy hm hrate hbytes h⟩,
    fun h => ⟨blockCapacityBy_of_never hrate h,
      fun _ hturns => after_of_never hm hrate hbytes h hturns⟩⟩

/-- With the largest budget the rate of no power of two is above a half. -/
theorem plateau_lt_of_power {k : Nat} (hk : k < 64) : Rate.plateau (2 ^ k) (2 ^ 64 - 1) < 0.75 := by
  have hpow := Word.two_pow_lt hk
  have hpos := Nat.two_pow_pos k
  unfold Rate.plateau
  rw [if_neg (by omega), if_neg (by omega)]
  decide +kernel

/-- A budget of a thousand bytes allows 24 hashes for each, and the search for the largest budget does
not end. -/
theorem blockCapacityBy_boundary_of_plateau :
    Rate.Anchored Rate.plateau ∧ 1000 < 2 ^ 64 ∧ Rate.Valid 0.75 ∧ 24 * 1000 < 2 ^ 63 ∧
      (∃ capacity, blockCapacityBy Rate.plateau 1000 0.75 = .ok (some capacity) ∧
        Rate.plateau capacity 1000 < 0.75 ∧ 0.75 ≤ Rate.plateau (capacity + 1) 1000) ∧
      2 ^ 64 - 1 < 2 ^ 64 ∧ (∀ k < 64, Rate.plateau (2 ^ k) (2 ^ 64 - 1) < 0.75) ∧
      blockCapacityBy Rate.plateau (2 ^ 64 - 1) 0.75 = .ok none ∧
      (capacityQuery Rate.plateau (2 ^ 64 - 1) 0.75).after 1000 = .doubling 0 := by
  have hm := Rate.anchored_plateau
  have hbytes : 1000 < 2 ^ 64 := by decide
  have hlargest : 2 ^ 64 - 1 < 2 ^ 64 := by decide
  have hrate : Rate.Valid 0.75 := by decide +kernel
  have hallowed : 24 * 1000 < 2 ^ 63 := by decide
  have hnever (k : Nat) (hk : k < 64) := plateau_lt_of_power hk
  rcases blockCapacityBy_boundary hm hbytes hrate with ⟨hreached, hends, -⟩
  rcases blockCapacityBy_boundary hm hlargest hrate with ⟨-, -, hfails⟩
  obtain ⟨-, capacity, hcapacity, -, -, hbelow, habove⟩ := hends (hreached hallowed)
  rcases hfails hnever with ⟨hnone, hwraps⟩
  exact ⟨hm, hbytes, hrate, hallowed, ⟨capacity, hcapacity, hbelow, habove⟩, hlargest, hnever,
    hnone, hwraps 1000 (by decide)⟩

/-- There are budgets for which the search does not end at a number of hashes. -/
theorem not_forall_blockCapacityBy_eq_ok :
    ¬ ∀ m bytes rate, Rate.Anchored m → bytes < 2 ^ 64 → Rate.Valid rate →
      ∃ capacity, blockCapacityBy m bytes rate = .ok (some capacity) ∧
        m capacity bytes < rate ∧ rate ≤ m (capacity + 1) bytes := by
  intro hall
  have hrate : Rate.Valid 0.75 := by decide +kernel
  rcases hall _ _ _ Rate.anchored_plateau (by decide : 2 ^ 64 - 1 < 2 ^ 64) hrate with
    ⟨capacity, hcapacity, -⟩
  rw [blockCapacityBy_of_never hrate fun k hk => plateau_lt_of_power hk] at hcapacity
  cases hcapacity

/-! ## Capacities of chosen sizes -/

theorem le_rate_of_bytesNeededBy (hfalls : Rate.FallsWithBytes m) (hcount : count < 2 ^ 64)
    (h : bytesNeededBy m count rate = .ok bytes) :
    bytes ≤ maxBlockFilterBytes ∧ Rate.Valid rate ∧ m count bytes ≤ rate := by
  rcases bytesNeededBy_ok h with ⟨hfits, hrate, n, hn, hle⟩
  have hmax := maxBlockFilterBytes_between.2
  exact ⟨hfits, hrate, hfalls.le_of_le hcount hn (by omega) hle⟩

/-- A size that was chosen for some hashes has a capacity, the last number of hashes below the rate. It
is at least the number the size was chosen for, except where the rate of these is met exactly. -/
theorem count_le_blockCapacityBy_iff (hm : Rate.Anchored m) (hfalls : Rate.FallsWithBytes m)
    (hrises : Rate.RisesWithCount m) (hcount : count < 2 ^ 64)
    (h : bytesNeededBy m count rate = .ok bytes) :
    ∃ capacity, blockCapacityBy m bytes rate = .ok (some capacity) ∧
      (∀ n < 2 ^ 64, n ≤ capacity ↔ m n bytes < rate) ∧
      (count ≤ capacity ↔ ¬ (m count bytes == rate) = true) := by
  rcases le_rate_of_bytesNeededBy hfalls hcount h with ⟨hfits, hrate, hle⟩
  have hmax := maxBlockFilterBytes_between.2
  have hbytes : bytes < 2 ^ 64 := by omega
  obtain ⟨capacity, hcapacity, -, hlt, hbelow, habove⟩ :=
    exists_blockCapacityBy hm hrate hbytes (exists_power_of_lt hm hrate (by omega))
  have hiff (n : Nat) (hn : n < 2 ^ 64) : n ≤ capacity ↔ m n bytes < rate := by
    constructor
    · intro hncap
      exact Rate.lt_of_le_of_lt (hrises n capacity bytes hncap (by omega) hbytes) hbelow
    · intro hnbelow
      refine Nat.le_of_not_lt fun hover => Rate.not_le_of_lt hnbelow ?_
      exact Rate.le_trans habove (hrises (capacity + 1) n bytes hover hn hbytes)
  exact ⟨capacity, hcapacity, hiff, (hiff count hcount).trans (Rate.lt_iff_of_le hle)⟩

/-- One hash needs a block, although its rate in a block is met exactly. -/
theorem bytesNeededBy_of_tie : bytesNeededBy Rate.plateau 1 0.5 = .ok 32 :=
  eq_ok_of_toOption (by decide +kernel)

/-- Seven hundred hashes need a block, which allows as many; one hash needs a block too, but at the rate
that it meets exactly a block allows none. -/
theorem count_le_blockCapacityBy_iff_of_plateau :
    Rate.Anchored Rate.plateau ∧ Rate.FallsWithBytes Rate.plateau ∧
      Rate.RisesWithCount Rate.plateau ∧ 700 < 2 ^ 64 ∧ 1 < 2 ^ 64 ∧
      bytesNeededBy Rate.plateau 700 0.75 = .ok 32 ∧
      (∃ capacity, blockCapacityBy Rate.plateau 32 0.75 = .ok (some capacity) ∧ 700 ≤ capacity) ∧
      bytesNeededBy Rate.plateau 1 0.5 = .ok 32 ∧
      ∃ capacity, blockCapacityBy Rate.plateau 32 0.5 = .ok (some capacity) ∧ capacity < 1 := by
  have hm := Rate.anchored_plateau
  have hfalls := Rate.fallsWithBytes_plateau
  have hrises := Rate.risesWithCount_plateau
  have hmany : 700 < 2 ^ 64 := by decide
  have hone : 1 < 2 ^ 64 := by decide
  have hbytes : bytesNeededBy Rate.plateau 700 0.75 = .ok 32 :=
    eq_ok_of_toOption (by decide +kernel)
  have hloose : ¬ (Rate.plateau 700 32 == 0.75) = true := by decide +kernel
  have htie : (Rate.plateau 1 32 == 0.5) = true := by decide +kernel
  obtain ⟨capacity, hcapacity, -, hiff⟩ :=
    count_le_blockCapacityBy_iff hm hfalls hrises hmany hbytes
  obtain ⟨tied, htied, -, htiediff⟩ :=
    count_le_blockCapacityBy_iff hm hfalls hrises hone bytesNeededBy_of_tie
  exact ⟨hm, hfalls, hrises, hmany, hone, hbytes, ⟨capacity, hcapacity, hiff.mpr hloose⟩,
    bytesNeededBy_of_tie, tied, htied, Nat.lt_of_not_le fun hle => htiediff.mp hle htie⟩

/-- There are sizes chosen for more hashes than they allow. -/
theorem not_forall_count_le_blockCapacityBy :
    ¬ ∀ m count bytes rate, Rate.Anchored m → Rate.FallsWithBytes m → Rate.RisesWithCount m →
      count < 2 ^ 64 → Rate.Valid rate → bytesNeededBy m count rate = .ok bytes →
      ∃ capacity, blockCapacityBy m bytes rate = .ok (some capacity) ∧ count ≤ capacity := by
  intro hall
  have hrate : Rate.Valid 0.5 := by decide +kernel
  have hnone : blockCapacityBy Rate.plateau 32 0.5 = .ok (some 0) := eq_ok_of_toOption (by decide +kernel)
  rcases hall _ _ _ _ Rate.anchored_plateau Rate.fallsWithBytes_plateau
    Rate.risesWithCount_plateau (by decide) hrate bytesNeededBy_of_tie with
    ⟨capacity, hcapacity, hle⟩
  rw [hnone] at hcapacity
  cases hcapacity
  exact absurd hle (by decide)

end ApproxSet.Sizing
