import ApproxSet.Proofs.Cuckoo.Reached

/-!
# Occupancy

The counter of a filter is the number of its slots in use and of its stashed entries. An eviction
chain counts one exactly when it stores one more stem. No operation leaves more than twice as many
stems as there are slots, so the counter also survives being stored in eight bytes.
-/

namespace ApproxSet

namespace Table

def slots (t : Table) : List Slot := t.buckets.toList.flatMap Vector.toList

def usedSlots (t : Table) : Nat := t.slots.countP (!·.isVacant)

theorem length_flatMap_entriesOf (buckets : List Bucket) (start : Nat) :
    ((buckets.zipIdx start).flatMap entriesOf).length =
      (buckets.flatMap Vector.toList).countP (!·.isVacant) := by
  induction buckets generalizing start with
  | nil => rfl
  | cons b buckets ih =>
      rw [List.zipIdx_cons, List.flatMap_cons, List.flatMap_cons, List.length_append,
        List.countP_append, ih]
      simp only [entriesOf, entriesAt, Bucket.occupants, List.length_map, List.countP_eq_length_filter]

theorem length_entries (t : Table) : t.entries.length = t.usedSlots + t.stash.size := by
  rw [entries_eq, List.length_append, length_flatMap_entriesOf, Array.length_toList, Nat.add_comm]
  rfl

end Table

namespace Cuckoo

/-- Slots that are not vacant, over both sides. -/
def usedSlots (f : Cuckoo) : Nat := f.tables.left.usedSlots + f.tables.right.usedSlots

theorem length_stored (f : Cuckoo) : f.stored.length = f.usedSlots + f.stashSize := by
  rw [stored_eq, List.length_append]
  simp only [stemsOn, List.length_map, Table.length_entries, Both.get, usedSlots, stashSize]
  omega

/-- `f'` has the shape of `f`, counts as many more stems as it stores more, and counts at most
`most` more. -/
structure Counts (f : Cuckoo) (most : Nat) (f' : Cuckoo) : Prop where
  valid : f'.Valid
  shape : SameShape f f'
  occupied_add : f'.occupied + f.stored.length = f.occupied + f'.stored.length
  occupied_le : f'.occupied ≤ f.occupied + most

theorem SameShape.capacity_eq {f f' : Cuckoo} (h : SameShape f f') : f'.capacity = f.capacity := by
  unfold capacity
  rw [h.logSide]

theorem Counts.mono {f f' : Cuckoo} {m n : Nat} (h : Counts f m f') (hmn : m ≤ n) :
    Counts f n f' :=
  ⟨h.valid, h.shape, h.occupied_add, Nat.le_trans h.occupied_le (Nat.add_le_add_left hmn _)⟩

/-- A chain of evictions counts one if it stores one more, and none if it ends where a stem is
covered. -/
theorem Gains.counts {f f' : Cuckoo} {stem : Stem} (h : Gains f stem f') : Counts f 1 f' := by
  rcases h.stored with ⟨hperm, hcount⟩ | ⟨x, hperm, hcount, -⟩
  · have hlen := hperm.length_eq
    rw [List.length_cons] at hlen
    exact ⟨h.valid, h.shape, by omega, by omega⟩
  · have hlen := hperm.length_eq
    rw [List.length_cons, List.length_cons] at hlen
    exact ⟨h.valid, h.shape, by omega, by omega⟩

theorem counts_foldl {α : Type} (step : Cuckoo → α → Cuckoo) (most : Nat) (xs : List α)
    {f : Cuckoo} (hf : f.Valid)
    (hstep : ∀ g x, SameShape f g → g.Valid → x ∈ xs → Counts g most (step g x)) :
    Counts f (xs.length * most) (xs.foldl step f) := by
  induction xs generalizing f with
  | nil => exact ⟨hf, ⟨rfl, rfl, rfl⟩, rfl, Nat.le_add_right _ _⟩
  | cons x xs ih =>
      have hx := hstep f x ⟨rfl, rfl, rfl⟩ hf List.mem_cons_self
      have hrest := ih hx.valid fun g y hg hgvalid hy =>
        hstep g y (hx.shape.trans hg) hgvalid (List.mem_cons_of_mem x hy)
      have hadd := hx.occupied_add
      have hadd' := hrest.occupied_add
      have hle := hx.occupied_le
      have hle' := hrest.occupied_le
      rw [List.foldl_cons, List.length_cons, Nat.add_mul, Nat.one_mul]
      exact ⟨hrest.valid, hx.shape.trans hrest.shape, by omega, by omega⟩

/-! ## Storing stems -/

theorem length_widen_le {old new : Nat} (hon : old ≤ new) (hn : new ≤ 48) {stem : Stem}
    (hstem : stem.Proper old) : (stem.widen old new).length ≤ 2 ^ (new - old) := by
  by_cases hlen : new - old ≤ stem.tail.length
  · rcases Stem.widen_of_le hon hn hstem hlen with ⟨part, hwiden, -⟩
    rw [hwiden]
    exact Nat.two_pow_pos _
  · rcases Stem.widen_of_lt hon hn hstem (Nat.not_le.mp hlen) with ⟨part, hwiden, -⟩
    rw [hwiden, List.length_map, List.length_range]
    exact Nat.pow_le_pow_right Nat.two_pos (Nat.sub_le _ _)

theorem counts_absorbed {old : Nat} {f : Cuckoo} (hf : f.Valid) (hold : old ≤ f.logSide) (s : Side)
    {stem : Stem} (hstem : stem.Proper old) :
    Counts f (2 ^ (f.logSide - old)) (absorbed old f s stem) := by
  have hfold := counts_foldl
    (fun g part => g.settled s (.ofStem (f.entropy.get s) f.logSide part)) 1
    (stem.widen old f.logSide) hf
    (fun g part hshape hg hpart => (gains_part hshape hg hold s hstem hpart).counts)
  rw [Nat.mul_one] at hfold
  exact hfold.mono (length_widen_le hold hf.logSide_le hstem)

theorem counts_put {f : Cuckoo} (hf : f.Valid) (hash : UInt64) : Counts f 1 (f.put hash) :=
  (gains_settled hf .left (proper_entryOf hf .left hash)).counts

/-! ## The invariant -/

/-- The counter is exact, and at most twice the number of slots. -/
structure Tallied (f : Cuckoo) : Prop where
  valid : f.Valid
  occupied_eq : f.occupied = f.stored.length
  occupied_le : f.occupied ≤ 2 * f.capacity

theorem Counts.tallied {f f' : Cuckoo} {most : Nat} (h : Counts f most f')
    (hf : f.occupied = f.stored.length) (hmost : f.occupied + most ≤ 2 * f.capacity) :
    Tallied f' := by
  have hadd := h.occupied_add
  have hle := h.occupied_le
  have hcapacity := h.shape.capacity_eq
  exact ⟨h.valid, by omega, by omega⟩

theorem growthDue_eq_false_iff (f : Cuckoo) :
    f.growthDue = false ↔ 10 * f.occupied ≤ 9 * f.capacity ∧
      f.occupied + Bucket.slotCount < f.capacity ∧ f.stashSize ≤ maxStash := by
  simp only [growthDue, Bool.or_eq_false_iff, decide_eq_false_iff_not, Nat.not_lt, ge_iff_le,
    Nat.not_le, and_assoc, gt_iff_lt]

theorem occupied_lt_of_not_growthDue {f : Cuckoo} (h : f.growthDue = false) :
    f.occupied < f.capacity :=
  Nat.lt_of_le_of_lt (Nat.le_add_right _ _) ((growthDue_eq_false_iff f).mp h).2.1

theorem tallied_of_stored_eq_nil {f : Cuckoo} (hf : f.Valid) (hstored : f.stored = [])
    (hocc : f.occupied = 0) : Tallied f :=
  ⟨hf, by rw [hstored, hocc]; rfl, by rw [hocc]; exact Nat.zero_le _⟩

theorem tallied_ofBytes {a : Allocator} {bytes : Nat} {entropy : Entropy} {f : Cuckoo}
    (h : ofBytes a bytes entropy = .ok f) : Tallied f := by
  have hvalid := valid_ofBytes h
  obtain ⟨-, rfl⟩ := vacant_ok h
  exact tallied_of_stored_eq_nil hvalid (stored_of_vacant rfl rfl) rfl

/-- A doubled filter stores at most two stems for each of `f`, and has twice the slots. -/
theorem Tallied.grow {a : Allocator} {f f' : Cuckoo} (hf : Tallied f)
    (h : (f.grow a).value = .ok f') : Tallied f' := by
  obtain ⟨hlog, rfl⟩ := grow_ok h
  have hdoubled := valid_doubled hlog
  have hfold := counts_foldl (fun g (x : Side × Stem) => absorbed f.logSide g x.1 x.2) 2
    f.stems hdoubled (fun g x hshape hg hx => by
      have hlogSide : g.logSide = f.logSide + 1 := hshape.logSide
      have hcounts := counts_absorbed hg (hlogSide ▸ Nat.le_succ _) x.1 (proper_stems hf.valid x hx)
      rw [hlogSide, Nat.add_sub_cancel_left] at hcounts
      exact hcounts)
  have hlen : f.stems.length = f.occupied := by
    rw [hf.occupied_eq, stored, List.length_map]
  have hcapacity : f.doubled.capacity = 2 * f.capacity := by
    show 2 * Bucket.slotCount * 2 ^ (f.logSide + 1) = 2 * (2 * Bucket.slotCount * 2 ^ f.logSide)
    rw [Nat.pow_succ, ← Nat.mul_assoc, Nat.mul_comm]
  have hle := hf.occupied_le
  apply hfold.tallied
  · rw [stored_of_vacant rfl rfl]
    rfl
  · rw [hlen, hcapacity]
    show 0 + f.occupied * 2 ≤ _
    omega

theorem two_pow_le_capacity (f : Cuckoo) (old : Nat) : 2 ^ (f.logSide - old) ≤ f.capacity := by
  have hpow : 2 ^ (f.logSide - old) ≤ 2 ^ f.logSide :=
    Nat.pow_le_pow_right Nat.two_pos (Nat.sub_le _ _)
  unfold capacity Bucket.slotCount
  omega

theorem Tallied.absorbed {old : Nat} {f : Cuckoo} (hf : Tallied f) (s : Side) {stem : Stem}
    (h : f.growthDue = false) (hold : old ≤ f.logSide) (hstem : stem.Proper old) :
    Tallied (absorbed old f s stem) := by
  have hroom := occupied_lt_of_not_growthDue h
  have hpow := two_pow_le_capacity f old
  exact (counts_absorbed hf.valid hold s hstem).tallied hf.occupied_eq (by omega)

theorem Tallied.put {f : Cuckoo} (hf : Tallied f) (h : f.growthDue = false) (hash : UInt64) :
    Tallied (f.put hash) := by
  have hroom := occupied_lt_of_not_growthDue h
  exact (counts_put hf.valid hash).tallied hf.occupied_eq (by omega)

theorem Tallied.occupied_lt {f : Cuckoo} (hf : Tallied f) : f.occupied < 2 ^ 53 := by
  have hle := hf.occupied_le
  have hpow : 2 ^ f.logSide ≤ 2 ^ 48 := Nat.pow_le_pow_right Nat.two_pos hf.valid.logSide_le
  unfold capacity Bucket.slotCount at hle
  omega

/-- Cutting the counters changes neither what is stored nor its number. -/
theorem Tallied.cutCounters {f : Cuckoo} (hf : Tallied f) : Tallied f.cutCounters := by
  have hcount : f.cutCounters.occupied = f.occupied :=
    Nat.mod_eq_of_lt (Nat.lt_trans hf.occupied_lt (by decide))
  exact ⟨valid_cutCounters hf.valid, hcount.trans hf.occupied_eq, hcount.symm ▸ hf.occupied_le⟩

theorem invariant_tallied : Invariant Tallied where
  valid hf := hf.valid
  grow := Tallied.grow
  put hash hf h := hf.put h hash
  absorbed s _ hf := hf.absorbed s
  cutCounters := Tallied.cutCounters

theorem Reached.tallied {f : Cuckoo} (hf : Reached f) : Tallied f :=
  invariant_tallied.reached tallied_ofBytes hf

/-- The counter of a filter that came about by any calls and unions is the number of its slots in
use and of its stashed entries, and never near the end of its range. -/
theorem occupied_eq_of_reached {f : Cuckoo} (hf : Reached f) :
    f.occupied = f.usedSlots + f.stashSize ∧ f.occupied < 2 ^ 53 := by
  have htallied := hf.tallied
  constructor
  · rw [htallied.occupied_eq, length_stored]
  · exact htallied.occupied_lt

/-- Nine hashes that share their bucket on either side: eight fill the buckets, and one is stashed
after five hundred evictions. -/
def jam : History :=
  (List.range 9).map fun i => (.standard, .insert (UInt64.ofNat (i * 2 ^ 50)))

/-- In a larger filter there is a slot for each of the nine. -/
theorem occupied_eq_of_union_with_jam :
    let f := jam.after (fresh 1)
    let g := History.after (fresh 1) [(.standard, .insert 0x123456789abcdef0), (.standard, .grow),
      (.standard, .reload)]
    Reached f ∧ Reached g ∧ f.occupied = 9 ∧ f.stashSize = 1 ∧
      ∃ m, (f.union .standard g).value = .ok m ∧ Reached m ∧ m.occupied = 10 ∧
        m.occupied = m.usedSlots + m.stashSize := by
  intro f g
  have hfresh : Reached (fresh 1) := .built .standard 1 .standard rfl
  have hf : Reached f := hfresh.history _
  have hg : Reached g := hfresh.history _
  have hcounts : (f.occupied, f.stashSize) = (9, 1) ∧
      (f.union .standard g).value.toOption.map (·.occupied) = some 10 := by
    decide +kernel
  rcases hcounts with ⟨hsmall, hlarge⟩
  rcases Prod.mk.inj hsmall with ⟨hnine, hone⟩
  cases hunion : (f.union .standard g).value with
  | error e =>
      rw [hunion] at hlarge
      cases hlarge
  | ok m =>
      rw [hunion] at hlarge
      have hm : Reached m := hf.union hg .standard hunion
      exact ⟨hf, hg, hnine, hone, m, rfl, hm, Option.some.inj hlarge,
        (occupied_eq_of_reached hm).1⟩

end Cuckoo

end ApproxSet
