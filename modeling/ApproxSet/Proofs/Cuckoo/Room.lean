import ApproxSet.Proofs.Cuckoo.Occupancy

/-!
# Room after an addition

A hash is stored once growth is no longer due, and it takes up one slot or one place in a stash. What
an addition leaves behind is therefore never full, though growth may fill the new tables with copies
of what it moves. Growth itself comes to an end, for each step uses up one of the sizes that are left.
-/

namespace ApproxSet

namespace Table

theorem length_slots {t : Table} {logSide : Nat} (ht : t.Valid logSide) :
    t.slots.length = Bucket.slotCount * 2 ^ logSide := by
  unfold slots
  rw [List.length_flatMap]
  simp only [Vector.length_toList, List.map_const', List.sum_replicate_nat, Array.length_toList,
    ht.size_eq]
  exact Nat.mul_comm _ _

theorem exists_vacant_of_usedSlots_lt {t : Table} (h : t.usedSlots < t.slots.length) :
    ∃ slot ∈ t.slots, slot.isVacant = true := by
  by_contra hnone
  have hused : ∀ slot ∈ t.slots, (!slot.isVacant) = true := by simpa using hnone
  rw [usedSlots, List.countP_eq_length.mpr hused] at h
  exact Nat.lt_irrefl _ h

theorem stash_place (t : Table) (e : Entry) (chooser : Chooser) :
    (t.place e chooser).2.stash = t.stash := by
  cases h : (t.bucketAt e.bucket).receive e.slot <;> rw [place, h] <;> rfl

end Table

namespace Cuckoo

/-! ## Stashes -/

theorem stashSize_place (f : Cuckoo) (s : Side) (e : Entry) :
    (f.place s e).2.stashSize = f.stashSize := by
  rw [place_eq]
  cases s <;> simp [stashSize, Both.update, Table.stash_place]

theorem stashSize_pushStash (f : Cuckoo) (s : Side) (e : Entry) :
    (f.pushStash s e).stashSize = f.stashSize + 1 := by
  cases s with
  | left =>
      show (f.tables.left.stash.push e).size + f.tables.right.stash.size = _
      rw [Array.size_push, Nat.add_right_comm]
      rfl
  | right =>
      show f.tables.left.stash.size + (f.tables.right.stash.push e).size = _
      rw [Array.size_push]
      rfl

/-- A chain of evictions stashes one entry at most. -/
theorem stashSize_settle_le (moves : Nat) (f : Cuckoo) (s : Side) (e : Entry) :
    (settle moves f s e).value.stashSize ≤ f.stashSize + 1 := by
  rcases hg : f.place s e with ⟨placement, g⟩
  have hplace : g.stashSize = f.stashSize := by
    rw [← f.stashSize_place s e, hg]
  cases placement with
  | stored =>
      rw [settle_of_stored hg]
      exact Nat.le_succ_of_le (Nat.le_of_eq hplace)
  | covered =>
      rw [settle_of_covered hg]
      exact Nat.le_succ_of_le (Nat.le_of_eq hplace)
  | evicted victim =>
      cases moves with
      | zero =>
          rw [settle_zero_of_evicted hg, ← hplace, ← g.stashSize_pushStash s victim]
          exact Nat.le_refl _
      | succ moves =>
          rw [settle_succ_of_evicted hg, ← hplace]
          exact stashSize_settle_le moves g s.other (g.cross s victim)

/-! ## One addition -/

/-- What is left free once a hash has been stored. -/
structure Roomy (f : Cuckoo) : Prop where
  occupied_le : f.occupied ≤ 9 * f.capacity / 10 + 1
  occupied_add_le : f.occupied + Bucket.slotCount ≤ f.capacity
  exists_vacant : ∃ s, ∃ slot ∈ (f.tables.get s).slots, slot.isVacant = true
  stashSize_le : f.stashSize ≤ maxStash + 1

theorem exists_vacant_of_usedSlots_lt {f : Cuckoo} (hf : f.Valid) (h : f.usedSlots < f.capacity) :
    ∃ s, ∃ slot ∈ (f.tables.get s).slots, slot.isVacant = true := by
  have hleft := Table.length_slots hf.left_valid
  have hright := Table.length_slots hf.right_valid
  have hcapacity : f.capacity = f.tables.left.slots.length + f.tables.right.slots.length := by
    rw [hleft, hright, capacity, Nat.mul_assoc, Nat.two_mul]
  unfold usedSlots at h
  by_cases hroom : f.tables.left.usedSlots < f.tables.left.slots.length
  · exact ⟨.left, Table.exists_vacant_of_usedSlots_lt hroom⟩
  · have hroom' : f.tables.right.usedSlots < f.tables.right.slots.length := by omega
    exact ⟨.right, Table.exists_vacant_of_usedSlots_lt hroom'⟩

theorem roomy_put {f : Cuckoo} (hf : Tallied f) (h : f.growthDue = false) (hash : UInt64) :
    Roomy (f.put hash) := by
  obtain ⟨hload, hbucket, hstash⟩ := (growthDue_eq_false_iff f).mp h
  have hcounts := counts_put hf.valid hash
  have hcapacity := hcounts.shape.capacity_eq
  have hle := hcounts.occupied_le
  have hexact : (f.put hash).occupied = (f.put hash).usedSlots + (f.put hash).stashSize := by
    have hadd := hcounts.occupied_add
    rw [hf.occupied_eq] at hadd
    rw [← length_stored]
    omega
  constructor
  · rw [hcapacity]
    omega
  · rw [hcapacity]
    omega
  · apply exists_vacant_of_usedSlots_lt hcounts.valid
    rw [hcapacity]
    unfold Bucket.slotCount at hbucket
    omega
  · have hone := stashSize_settle_le maxMoves f .left (f.entryOf .left hash)
    exact Nat.le_trans hone (Nat.add_le_add_right hstash 1)

/-! ## Additions where growth is not due -/

theorem makeRoom_of_not_growthDue (a : Allocator) {f : Cuckoo} (h : f.growthDue = false) :
    f.makeRoom a = pure (.done f) := by
  unfold makeRoom
  cases maxLogSide + 1 - f.logSide with
  | zero => rfl
  | succ limit =>
      unfold growWhileDue
      rw [if_neg (Bool.eq_false_iff.mp h)]

theorem insert_of_not_growthDue (a : Allocator) {f : Cuckoo} (h : f.growthDue = false)
    (hash : UInt64) : f.insert a hash = f.store a hash := by
  unfold Cuckoo.insert
  rw [makeRoom_of_not_growthDue a h, Logged.pure_bind]
  rfl

/-- Stored or not, the hash makes no growth. -/
theorem counts_insert_of_not_growthDue (a : Allocator) {f : Cuckoo} (hf : f.Valid)
    (h : f.growthDue = false) (hash : UInt64) : Counts f 1 (f.insert a hash).value.filter := by
  rw [insert_of_not_growthDue a h, store_value]
  cases a.request f.stashRoom with
  | error refusal => exact ⟨hf, ⟨rfl, rfl, rfl⟩, rfl, Nat.le_add_right _ _⟩
  | ok _ => exact counts_put hf hash

theorem addition_of_not_growthDue {a : Allocator} (ha : a.GrantsRoom) {f : Cuckoo}
    (h : f.growthDue = false) (hash : UInt64) :
    Call.addition a f hash = [⟨hash, f.logSide⟩] := by
  unfold Call.addition
  rw [insert_of_not_growthDue a h, store_value, stashRoom_granted ha,
    makeRoom_of_not_growthDue a h]
  rfl

/-- Adding hashes in order. -/
def History.adding (a : Allocator) (hashes : List UInt64) : History :=
  hashes.map fun hash => (a, .insert hash)

/-- Multiples of an odd constant, which differ in their upper bits. -/
def scattered (count : Nat) : List UInt64 :=
  (List.range count).map fun i => UInt64.ofNat i * 0x9e3779b97f4a7c15

/-- While the hashes are added, the stashes never hold more than is tolerated. -/
def StashTolerated (a : Allocator) (f : Cuckoo) (hashes : List UInt64) : Prop :=
  ∀ n ≤ hashes.length, Cuckoo.stashSize ((History.adding a (hashes.take n)).after f) ≤ maxStash

instance (a : Allocator) (f : Cuckoo) (hashes : List UInt64) :
    Decidable (StashTolerated a f hashes) :=
  inferInstanceAs (Decidable (∀ n ≤ hashes.length, _))

/-- Hashes for which there is room, and which do not fill the stashes, make no growth. If arrays may
grow, they are all stored, at the size that the filter has. -/
theorem adding_in_place (a : Allocator) {f : Cuckoo} (hf : f.Valid) (hashes : List UInt64)
    (hload : 10 * (f.occupied + hashes.length) ≤ 9 * f.capacity)
    (hbucket : f.occupied + hashes.length + Bucket.slotCount ≤ f.capacity)
    (hstash : StashTolerated a f hashes) :
    SameShape f ((History.adding a hashes).after f) ∧
      (a.GrantsRoom →
        (History.adding a hashes).added f = hashes.map fun hash => ⟨hash, f.logSide⟩) := by
  induction hashes generalizing f with
  | nil => exact ⟨⟨rfl, rfl, rfl⟩, fun _ => rfl⟩
  | cons hash hashes ih =>
      rw [List.length_cons] at hload hbucket
      have hdue : f.growthDue = false :=
        (growthDue_eq_false_iff f).mpr ⟨by omega, by omega, hstash 0 (Nat.zero_le _)⟩
      have hcounts := counts_insert_of_not_growthDue a hf hdue hash
      have hle := hcounts.occupied_le
      have hcapacity := hcounts.shape.capacity_eq
      rcases ih hcounts.valid (by omega) (by omega) (fun n hn =>
        hstash (n + 1) (Nat.succ_le_succ hn)) with ⟨hshape, hadded⟩
      refine ⟨hcounts.shape.trans hshape, fun ha => ?_⟩
      show Call.addition a f hash ++
        (History.adding a hashes).added (f.insert a hash).value.filter = _
      rw [addition_of_not_growthDue ha hdue, hadded ha, hcounts.shape.logSide]
      rfl

/-! ## Generations -/

/-- A valid filter whose sides had `2 ^ start` buckets before its first growth. -/
structure StartedAt (start : Nat) (f : Cuckoo) : Prop where
  valid : f.Valid
  logSide_eq : f.logSide = start + f.generation

theorem generation_grow {a : Allocator} {f f' : Cuckoo} (hf : f.Valid)
    (h : (f.grow a).value = .ok f') : f'.generation = f.generation + 1 := by
  obtain ⟨hlog, rfl⟩ := grow_ok h
  exact (finds_foldl_absorbed hf (valid_doubled hlog) (Nat.le_succ _)).shape.generation

variable {start : Nat}

theorem StartedAt.grow {a : Allocator} {f f' : Cuckoo} (hf : StartedAt start f)
    (h : (f.grow a).value = .ok f') : StartedAt start f' := by
  refine ⟨(outgrows_grow hf.valid h).valid, ?_⟩
  rw [logSide_grow hf.valid h, generation_grow hf.valid h, hf.logSide_eq, Nat.add_assoc]

theorem Counts.startedAt {f f' : Cuckoo} {most : Nat} (h : Counts f most f')
    (hf : StartedAt start f) : StartedAt start f' := by
  refine ⟨h.valid, ?_⟩
  rw [h.shape.logSide, h.shape.generation, hf.logSide_eq]

/-- A generation is a doubling, so its number is small and survives being cut. -/
theorem StartedAt.cutCounters {f : Cuckoo} (hf : StartedAt start f) :
    StartedAt start f.cutCounters := by
  have hle := hf.valid.logSide_le
  have heq := hf.logSide_eq
  have hcut : f.generation % 256 ^ 4 = f.generation := by
    apply Nat.mod_eq_of_lt
    unfold maxLogSide at hle
    omega
  exact ⟨valid_cutCounters hf.valid, heq.trans (congrArg (start + ·) hcut.symm)⟩

theorem invariant_startedAt : Invariant (StartedAt start) where
  valid hf := hf.valid
  grow := StartedAt.grow
  put hash hf _ := (counts_put hf.valid hash).startedAt hf
  absorbed s _ hf _ hold hstem := (counts_absorbed hf.valid hold s hstem).startedAt hf
  cutCounters := StartedAt.cutCounters

theorem startedAt_history {a : Allocator} {bytes : Nat} {entropy : Entropy} {f : Cuckoo}
    (h : ofBytes a bytes entropy = .ok f) (calls : History) :
    StartedAt f.logSide (calls.after f) := by
  have hfirst : StartedAt f.logSide f := by
    refine ⟨valid_ofBytes h, ?_⟩
    obtain ⟨-, rfl⟩ := vacant_ok h
    exact (Nat.add_zero _).symm
  exact invariant_startedAt.history hfirst calls

/-- An addition that succeeds has put its hash where growth was no longer due. -/
theorem roomy_of_insert_done {f f' : Cuckoo} (hf : Tallied f) {a : Allocator} {hash : UInt64}
    (h : (f.insert a hash).value = .done f') : Roomy f' := by
  rcases insert_cases hf.valid a hash with ⟨n, g, -, hn, ⟨hdue, hstored⟩ | ⟨-, e, -, hfailed⟩⟩
  · rw [h, store_value] at hstored
    have hg := invariant_tallied.dueGrowths hf hn
    cases hroom : a.request g.stashRoom with
    | error refusal =>
        rw [hroom] at hstored
        cases hstored
    | ok _ =>
        rw [hroom] at hstored
        cases hstored
        exact roomy_put hg hdue hash
  · rw [h] at hfailed
    cases hfailed

/-- After any calls, an addition grows at most once for every larger size there is. One that succeeds
leaves at least a bucket's worth of slots, one of them vacant in a bucket; the load exceeds nine tenths
by one entry at most, as the stashes do their limit; and every growth so far is a generation. -/
theorem room_after_insert {a₀ : Allocator} {bytes : Nat} {entropy : Entropy} {f₀ : Cuckoo}
    (h : ofBytes a₀ bytes entropy = .ok f₀) (calls : History) (a : Allocator) (hash : UInt64)
    (short : UInt32) :
    let f := calls.after f₀
    (∃ n g, n ≤ maxLogSide - f.logSide ∧ DueGrowths a n f g ∧
      (g.growthDue = false ∧ (f.insert a hash).value = (g.store a hash).value ∨
        g.growthDue = true ∧
          ∃ e, (g.grow a).value = .error e ∧ (f.insert a hash).value = .failed g e)) ∧
    ∀ f', (f.insert a hash).value = .done f' ∨ (f.insert32 a short).value = .done f' →
      Roomy f' ∧ f'.logSide = f₀.logSide + f'.generation := by
  intro f
  have hf : Tallied f := ((Reached.built a₀ bytes entropy h).history calls).tallied
  have hstart : StartedAt f₀.logSide f := startedAt_history h calls
  refine ⟨insert_cases hf.valid a hash, fun f' hdone => ?_⟩
  have hroomy (x : UInt64) (hx : (f.insert a x).value = .done f') :
      Roomy f' ∧ f'.logSide = f₀.logSide + f'.generation := by
    have hstarted := (invariant_startedAt.insert a hstart x).logSide_eq
    rw [hx] at hstarted
    exact ⟨roomy_of_insert_done hf hx, hstarted⟩
  rcases hdone with hwhole | hshort
  · exact hroomy hash hwhole
  · exact hroomy (ShortHash.toHighHalf short) hshort

/-- Twelve hashes leave one bucket's worth of slots in a filter of two buckets a side, so the
thirteenth makes it grow. -/
theorem room_after_thirteenth_insert :
    let f := (History.adding .standard (scattered 12)).after (fresh 1)
    ofBytes .standard 1 .standard = .ok (fresh 1) ∧ f.logSide = 1 ∧
      ∃ f', (f.insert .standard 0x6a99b4b1f77dd0fc).value = .done f' ∧ Roomy f' ∧
        f'.generation = 1 ∧ f'.logSide = 2 := by
  intro f
  have hfresh : ofBytes .standard 1 .standard = .ok (fresh 1) := rfl
  have hgrown : f.logSide = 1 ∧ (f.insert .standard 0x6a99b4b1f77dd0fc).value.failure = none ∧
      (f.insert .standard 0x6a99b4b1f77dd0fc).value.filter.generation = 1 := by
    decide +kernel
  rcases hgrown with ⟨hlog, hnone, hgeneration⟩
  rcases hdone : (f.insert .standard 0x6a99b4b1f77dd0fc).value with ⟨f', failure⟩
  rw [hdone] at hnone hgeneration
  cases hnone
  rcases (room_after_insert hfresh _ .standard _ 0).2 f' (Or.inl hdone) with ⟨hroomy, hlog'⟩
  exact ⟨hfresh, hlog, f', rfl, hroomy, hgeneration, hlog'.trans (congrArg (1 + ·) hgeneration)⟩

end Cuckoo

end ApproxSet
