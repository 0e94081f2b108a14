import ApproxSet.Cuckoo.Plan
import ApproxSet.Proofs.Cuckoo.Room

/-!
# Filters planned for a number of items

A plan rounds the slots it asks for up to a power of two, and the size of the sides rounds down to
one. Between them nothing is lost: the filter has room for all items at nine tenths full. Growth is
also due within a bucket of full, and that is the stricter of the two conditions in the smallest
filter, where it takes effect at the thirteenth hash.
-/

namespace ApproxSet

namespace Sizing

theorem cuckooLogSide_two_pow (k : Nat) : cuckooLogSide (2 ^ k) = max 1 (k - 4) := by
  have hpos := Nat.two_pow_pos k
  have hgap : ¬ (2 ^ (k + 1) - 2 ^ k) * 2 ^ 54 ≤ 45 * 2 ^ (k + 1) := by
    rw [Nat.pow_succ]
    omega
  unfold cuckooLogSide
  simp only [if_neg (Nat.ne_of_gt hpos), Nat.log2_two_pow, if_neg hgap, Nat.add_sub_cancel]

end Sizing

namespace Cuckoo

namespace Plan

theorem exists_powerAbove_eq (n : Nat) : ∃ k, powerAbove n = 2 ^ k ∧ n ≤ 2 ^ k := by
  unfold powerAbove
  split
  · rename_i hle
    exact ⟨0, rfl, hle⟩
  · have hlt := Nat.lt_log2_self (n := n - 1)
    exact ⟨_, rfl, by omega⟩

/-- The side size of a planned filter is addressable only if its budget was not cut to 64 bits. -/
theorem logSide_withItems {p : Plan} {items : Nat}
    (h : Sizing.cuckooLogSide (p.withItems items).bytes ≤ maxLogSide) :
    ∃ k, (10 * items + 8) / 9 * slotBytes ≤ 2 ^ k ∧
      Sizing.cuckooLogSide (p.withItems items).bytes = max 1 (k - 4) := by
  rcases exists_powerAbove_eq ((10 * items + 8) / 9 * slotBytes) with ⟨k, hpower, hle⟩
  have hbytes : (p.withItems items).bytes = min (2 ^ k) (2 ^ 64 - 1) :=
    congrArg (min · (2 ^ 64 - 1)) hpower
  rw [hbytes] at h ⊢
  by_cases hfits : 2 ^ k ≤ 2 ^ 64 - 1
  · rw [Nat.min_eq_left hfits]
    exact ⟨k, hle, Sizing.cuckooLogSide_two_pow k⟩
  · rw [Nat.min_eq_right (Nat.le_of_not_le hfits)] at h
    exact absurd h (by decide)

/-- All items fit at nine tenths full. -/
theorem capacity_of_build {p : Plan} {a : Allocator} {items : Nat} {f : Cuckoo}
    (h : (p.withItems items).build a = .ok f) :
    10 * items ≤ 9 * f.capacity ∧ (f.capacity = 16 ∨ 32 ≤ f.capacity) := by
  obtain ⟨hlog, hf⟩ := vacant_ok h
  rcases logSide_withItems hlog with ⟨k, hslots, hside⟩
  have hcapacity : f.capacity = 8 * 2 ^ max 1 (k - 4) := by
    rw [hf, ← hside]
    rfl
  unfold slotBytes at hslots
  rw [hcapacity]
  by_cases hk : k ≤ 5
  · have hpow : 2 ^ k ≤ 2 ^ 5 := Nat.pow_le_pow_right Nat.two_pos hk
    have hmin : max 1 (k - 4) = 1 := by omega
    rw [hmin]
    omega
  · have hpow : 2 ^ k = 2 ^ 4 * 2 ^ (k - 4) := Word.two_pow_eq_mul (by omega)
    have hfour : 2 ^ 2 ≤ 2 ^ (k - 4) := Nat.pow_le_pow_right Nat.two_pos (by omega)
    have hmax : max 1 (k - 4) = k - 4 := by omega
    rw [hmax]
    omega

end Plan

/-- In a filter planned for some items, that many hashes never make it grow, and they are all stored if
arrays may grow. -/
theorem adding_of_build {p : Plan} {a : Allocator} {items : Nat} {f : Cuckoo}
    (h : (p.withItems items).build a = .ok f) (hitems : items ≠ 13 ∧ items ≠ 14) (b : Allocator)
    (hashes : List UInt64) (hlength : hashes.length ≤ items)
    (hstash : StashTolerated b f hashes) :
    Cuckoo.generation ((History.adding b hashes).after f) = 0 ∧
      (b.GrantsRoom →
        (History.adding b hashes).added f = hashes.map fun hash => ⟨hash, f.logSide⟩) := by
  rcases Plan.capacity_of_build h with ⟨hload, hcapacity⟩
  have hvalid := valid_ofBytes h
  obtain ⟨-, hf⟩ := vacant_ok h
  have hoccupied : f.occupied = 0 := by rw [hf]
  have hgeneration : f.generation = 0 := by rw [hf]
  have hbucket : f.occupied + hashes.length + Bucket.slotCount ≤ f.capacity := by
    unfold Bucket.slotCount
    omega
  rcases adding_in_place b hvalid hashes (by omega) hbucket hstash with ⟨hshape, hadded⟩
  exact ⟨hshape.generation.trans hgeneration, hadded⟩

theorem build_of_logSide_eq_one {items : Nat}
    (h : Sizing.cuckooLogSide (Plan.withItems {} items).bytes = 1) :
    (Plan.withItems {} items).build .standard = .ok (fresh 1) := by
  unfold Plan.build ofBytes
  rw [h]
  rfl

theorem eq_fresh_of_build {a : Allocator} {items : Nat} {f : Cuckoo}
    (h : (Plan.withItems {} items).build a = .ok f)
    (hside : Sizing.cuckooLogSide (Plan.withItems {} items).bytes = 1) : f = fresh 1 := by
  obtain ⟨-, hf⟩ := vacant_ok h
  rw [hside] at hf
  exact hf

theorem generation_adding_thirteen :
    StashTolerated .standard (fresh 1) (scattered 13) ∧
      Cuckoo.generation ((History.adding .standard (scattered 13)).after (fresh 1)) = 1 := by
  decide +kernel

/-- A filter planned for a number of items takes any such number of hashes at its first size, as long
as the stashes do not ask for growth and no room in them is refused, unless it is planned for thirteen
or fourteen. -/
theorem planned_items_stay_iff {a : Allocator} {items : Nat} {f : Cuckoo}
    (h : (Plan.withItems {} items).build a = .ok f) :
    (∀ (b : Allocator) (hashes : List UInt64), hashes.length ≤ items → StashTolerated b f hashes →
      Cuckoo.generation ((History.adding b hashes).after f) = 0 ∧
        (b.GrantsRoom →
          (History.adding b hashes).added f = hashes.map fun hash => ⟨hash, f.logSide⟩)) ↔
      items ≠ 13 ∧ items ≠ 14 := by
  constructor
  · intro hstays
    by_contra hitems
    have hsmall : items = 13 ∨ items = 14 := by omega
    have hside : Sizing.cuckooLogSide (Plan.withItems {} items).bytes = 1 := by
      rcases hsmall with rfl | rfl <;> decide
    obtain rfl := eq_fresh_of_build h hside
    rcases generation_adding_thirteen with ⟨hstash, hgrown⟩
    have hlength : (scattered 13).length ≤ items := by
      show 13 ≤ items
      omega
    rcases hstays .standard (scattered 13) hlength hstash with ⟨hgeneration, -⟩
    rw [hgrown] at hgeneration
    exact absurd hgeneration (by decide)
  · intro hitems b hashes
    exact adding_of_build h hitems b hashes

/-- Twelve hashes stay where there is room for twelve, and a thirteenth would not. -/
theorem planned_items_stay_of_twelve :
    let f := (History.adding .standard (scattered 12)).after (fresh 1)
    (Plan.withItems {} 12).build .standard = .ok (fresh 1) ∧ (scattered 12).length ≤ 12 ∧
      StashTolerated .standard (fresh 1) (scattered 12) ∧ f.generation = 0 ∧ f.occupied = 12 ∧
      f.growthDue = true := by
  intro f
  have hbuild : (Plan.withItems {} 12).build .standard = .ok (fresh 1) :=
    build_of_logSide_eq_one (by decide)
  have hlength : (scattered 12).length ≤ 12 := by decide
  have hrun : StashTolerated .standard (fresh 1) (scattered 12) ∧ f.occupied = 12 ∧
      f.growthDue = true := by
    decide +kernel
  rcases hrun with ⟨hstash, hoccupied, hdue⟩
  have hstays := (planned_items_stay_iff hbuild).mpr (by decide) .standard _ hlength hstash
  exact ⟨hbuild, hlength, hstash, hstays.1, hoccupied, hdue⟩

/-- Thirteen hashes make a filter grow that was planned for them. -/
theorem not_forall_planned_items_stay :
    ¬ ∀ (items : Nat) (f : Cuckoo) (hashes : List UInt64),
      (Plan.withItems {} items).build .standard = .ok f → hashes.length ≤ items →
      StashTolerated .standard f hashes →
      Cuckoo.generation ((History.adding .standard hashes).after f) = 0 := by
  intro hstays
  rcases generation_adding_thirteen with ⟨hstash, hgrown⟩
  have hbuild : (Plan.withItems {} 13).build .standard = .ok (fresh 1) :=
    build_of_logSide_eq_one (by decide)
  have hzero := hstays 13 (fresh 1) (scattered 13) hbuild (by decide) hstash
  rw [hgrown] at hzero
  exact absurd hzero (by decide)

end Cuckoo

end ApproxSet
