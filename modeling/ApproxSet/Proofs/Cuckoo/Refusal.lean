import ApproxSet.Proofs.Cuckoo.Crowded
import ApproxSet.Proofs.Cuckoo.History

/-!
# Refused growth

Adding a hash grows the filter as long as growth is due, gives up at the first growth that is refused,
and then asks for room in the stashes. Every growth before a refusal is kept: the filter that a failure
leaves behind is the one that was added to only if nothing was granted at all.
-/

namespace ApproxSet.Cuckoo

/-- `f'` is `f` after `n` growths, all of them due. -/
inductive DueGrowths (a : Allocator) : Nat → Cuckoo → Cuckoo → Prop where
  | none (f : Cuckoo) : DueGrowths a 0 f f
  | more {n : Nat} {f g f' : Cuckoo} (hdue : f.growthDue = true) (hgrow : (f.grow a).value = .ok g)
      (h : DueGrowths a n g f') : DueGrowths a (n + 1) f f'

theorem DueGrowths.outgrows {a : Allocator} {n : Nat} {f f' : Cuckoo} (h : DueGrowths a n f f')
    (hf : f.Valid) : Outgrows f f' ∧ f'.logSide = f.logSide + n := by
  induction h with
  | none f => exact ⟨Outgrows.refl hf, rfl⟩
  | @more n f g f' _ hgrow _ ih =>
      have hfirst := outgrows_grow hf hgrow
      rcases ih hfirst.valid with ⟨hrest, hlog⟩
      have hstep := logSide_grow hf hgrow
      exact ⟨hfirst.trans hrest, by omega⟩

theorem dueGrowths_of_growWhileDue {a : Allocator} {limit : Nat} {f f' : Cuckoo}
    {failure : Option FilterError} (h : (growWhileDue a limit f).value = ⟨f', failure⟩) :
    ∃ n, DueGrowths a n f f' := by
  induction limit generalizing f with
  | zero =>
      cases h
      exact ⟨0, .none _⟩
  | succ limit ih =>
      unfold growWhileDue at h
      by_cases hdue : f.growthDue = true
      · rw [if_pos hdue, Logged.value_bind] at h
        cases hgrow : (f.grow a).value with
        | error e =>
            rw [hgrow] at h
            cases h
            exact ⟨0, .none _⟩
        | ok g =>
            rw [hgrow] at h
            rcases ih h with ⟨n, hn⟩
            exact ⟨n + 1, .more hdue hgrow hn⟩
      · rw [if_neg hdue] at h
        cases h
        exact ⟨0, .none _⟩

theorem growWhileDue_of_refused {a : Allocator} {n limit : Nat} {f f' : Cuckoo} {e : FilterError}
    (h : DueGrowths a n f f') (hlimit : n < limit) (hdue : f'.growthDue = true)
    (hgrow : (f'.grow a).value = .error e) :
    (growWhileDue a limit f).value = .failed f' e := by
  induction h generalizing limit with
  | none f =>
      obtain ⟨limit, rfl⟩ := Nat.exists_eq_succ_of_ne_zero (Nat.ne_of_gt hlimit)
      unfold growWhileDue
      rw [if_pos hdue, Logged.value_bind, hgrow]
      rfl
  | @more n f g f' hfdue hfgrow _ ih =>
      obtain ⟨limit, rfl⟩ := Nat.exists_eq_succ_of_ne_zero (Nat.ne_of_gt (Nat.zero_lt_of_lt hlimit))
      unfold growWhileDue
      rw [if_pos hfdue, Logged.value_bind, hfgrow]
      exact ih (Nat.lt_of_succ_lt_succ hlimit) hdue hgrow

theorem growWhileDue_of_not_due {a : Allocator} {n limit : Nat} {f f' : Cuckoo}
    (h : DueGrowths a n f f') (hlimit : n ≤ limit) (hdue : f'.growthDue = false) :
    (growWhileDue a limit f).value = .done f' := by
  induction h generalizing limit with
  | none f =>
      cases limit with
      | zero => rfl
      | succ limit =>
          unfold growWhileDue
          rw [if_neg (Bool.eq_false_iff.mp hdue)]
          rfl
  | @more n f g f' hfdue hfgrow _ ih =>
      obtain ⟨limit, rfl⟩ := Nat.exists_eq_succ_of_ne_zero (Nat.ne_of_gt (Nat.zero_lt_of_lt hlimit))
      unfold growWhileDue
      rw [if_pos hfdue, Logged.value_bind, hfgrow]
      exact ih (Nat.le_of_succ_le_succ hlimit) hdue

/-- Making room that is not refused ends where growth is not due. -/
theorem growthDue_growWhileDue {a : Allocator} {limit : Nat} {f g : Cuckoo} (hf : f.Valid)
    (hlimit : maxLogSide + 1 - f.logSide ≤ limit)
    (h : (growWhileDue a limit f).value = .done g) : g.growthDue = false := by
  induction limit generalizing f with
  | zero =>
      have hle := hf.logSide_le
      omega
  | succ limit ih =>
      unfold growWhileDue at h
      by_cases hdue : f.growthDue = true
      · rw [if_pos hdue, Logged.value_bind] at h
        cases hgrow : (f.grow a).value with
        | error e =>
            rw [hgrow] at h
            cases h
        | ok f' =>
            rw [hgrow] at h
            have hlog := logSide_grow hf hgrow
            exact ih (outgrows_grow hf hgrow).valid (by omega) h
      · rw [if_neg hdue] at h
        cases h
        exact Bool.eq_false_iff.mpr hdue

/-- Growths stop where growth is no longer due, or where the next one is refused. There are no more of
them than larger sizes. -/
theorem makeRoom_cases {f : Cuckoo} (hf : f.Valid) (a : Allocator) :
    ∃ n g, n ≤ maxLogSide - f.logSide ∧ DueGrowths a n f g ∧
      (g.growthDue = false ∧ (f.makeRoom a).value = .done g ∨
        g.growthDue = true ∧
          ∃ e, (g.grow a).value = .error e ∧ (f.makeRoom a).value = .failed g e) := by
  rcases hmake : (f.makeRoom a).value with ⟨g, failure⟩
  rcases dueGrowths_of_growWhileDue hmake with ⟨n, hn⟩
  rcases hn.outgrows hf with ⟨houtgrows, hlog⟩
  have hle := houtgrows.valid.logSide_le
  refine ⟨n, g, by omega, hn, ?_⟩
  cases failure with
  | none => exact Or.inl ⟨growthDue_growWhileDue hf (Nat.le_refl _) hmake, rfl⟩
  | some e =>
      rcases refused_growWhileDue hmake with ⟨hdue, hgrow⟩
      exact Or.inr ⟨hdue, e, hgrow, rfl⟩

/-- After its growths an addition stores the hash, unless the next growth is refused. -/
theorem insert_cases {f : Cuckoo} (hf : f.Valid) (a : Allocator) (hash : UInt64) :
    ∃ n g, n ≤ maxLogSide - f.logSide ∧ DueGrowths a n f g ∧
      (g.growthDue = false ∧ (f.insert a hash).value = (g.store a hash).value ∨
        g.growthDue = true ∧
          ∃ e, (g.grow a).value = .error e ∧ (f.insert a hash).value = .failed g e) := by
  rcases makeRoom_cases hf a with ⟨n, g, hle, hn, ⟨hdue, hmake⟩ | ⟨hdue, e, hgrow, hmake⟩⟩
  · exact ⟨n, g, hle, hn, Or.inl ⟨hdue, by rw [insert_value, hmake]; rfl⟩⟩
  · exact ⟨n, g, hle, hn, Or.inr ⟨hdue, e, hgrow, by rw [insert_value, hmake]; rfl⟩⟩

/-- The first thing that adding a hash to `f` asks for is refused: growth that is due, or else room in
the stashes. -/
def Refuses (a : Allocator) (f : Cuckoo) (e : FilterError) : Prop :=
  f.growthDue = true ∧ (f.grow a).value = .error e ∨
    f.growthDue = false ∧ a.request f.stashRoom = .error e

theorem insert_eq_failed_iff {f : Cuckoo} (hf : f.Valid) (a : Allocator) (hash : UInt64)
    (f' : Cuckoo) (e : FilterError) :
    (f.insert a hash).value = .failed f' e ↔ ∃ n, DueGrowths a n f f' ∧ f'.Refuses a e := by
  constructor
  · intro h
    rcases insert_cases hf a hash with ⟨n, g, -, hn, ⟨hdue, hstored⟩ | ⟨hdue, e', hgrow, hfailed⟩⟩
    · rw [hstored, store_value] at h
      cases hroom : a.request g.stashRoom with
      | ok _ =>
          rw [hroom] at h
          cases h
      | error refusal =>
          rw [hroom] at h
          cases h
          exact ⟨n, hn, Or.inr ⟨hdue, hroom⟩⟩
    · rw [hfailed] at h
      cases h
      exact ⟨n, hn, Or.inl ⟨hdue, hgrow⟩⟩
  · intro hdone
    rcases hdone with ⟨n, hn, hrefuses⟩
    rcases hn.outgrows hf with ⟨houtgrows, hlog⟩
    have hle : f'.logSide ≤ maxLogSide := houtgrows.valid.logSide_le
    rw [insert_value]
    rcases hrefuses with ⟨hdue, hgrow⟩ | ⟨hdue, hroom⟩
    · rw [makeRoom, growWhileDue_of_refused hn (by omega) hdue hgrow]
      rfl
    · rw [makeRoom, growWhileDue_of_not_due hn (by omega) hdue]
      simp only [Outcome.done, store_value, hroom]

/-! ## A filter that never has room -/

theorem absorb_of_grantsRoom {a : Allocator} (ha : a.GrantsRoom) (old : Nat) (f : Cuckoo) (s : Side)
    (stem : Stem) : (absorb a old f s stem).value = .ok (absorbed old f s stem) := by
  rw [absorb_value, absorbed]
  apply foldlM_eq_ok
  intro g part
  rw [insertEntry_value, stashRoom_granted ha]
  rfl

variable {limit : Nat}

theorem bytes_of_mem_tableRequests {logSide : Nat} :
    ∀ r ∈ tableRequests logSide, r.bytes = Table.bucketBytes * 2 ^ logSide := by
  simp [tableRequests, Request.bytes]

theorem grow_of_granted {f : Cuckoo} (hlog : f.logSide < maxLogSide)
    (hbytes : Table.bucketBytes * 2 ^ (f.logSide + 1) < min limit (2 ^ 63)) :
    ∃ g, (f.grow (.upTo limit)).value = .ok g := by
  have hmemory : (Allocator.upTo limit).request (tableRequests (f.logSide + 1)) = .ok () :=
    Allocator.request_upTo fun r hr => (bytes_of_mem_tableRequests r hr).symm ▸ hbytes
  rw [grow_value, vacant_eq, if_neg (Nat.not_lt.mpr hlog), hmemory]
  exact ⟨_, foldlM_eq_ok (fun g x => absorb_of_grantsRoom (Allocator.grantsRoom_upTo limit) _ g _ _)
    f.stems f.doubled⟩

theorem grow_of_refused {f : Cuckoo} (hlog : f.logSide < maxLogSide)
    (hbytes : limit ≤ Table.bucketBytes * 2 ^ (f.logSide + 1)) :
    (f.grow (.upTo limit)).value =
      .error (.allocationRefused (Table.bucketBytes * 2 ^ (f.logSide + 1))) := by
  have hpos := Nat.two_pow_pos (f.logSide + 1)
  have hmemory : (Allocator.upTo limit).request (tableRequests (f.logSide + 1)) =
      .error (.allocationRefused (Table.bucketBytes * 2 ^ (f.logSide + 1))) := by
    cases hrequest : (Allocator.upTo limit).request (tableRequests (f.logSide + 1)) with
    | error e => rw [Allocator.eq_of_refused bytes_of_mem_tableRequests hrequest]
    | ok _ =>
        have hallows := Allocator.request_eq_ok_iff.mp hrequest _ List.mem_cons_self
        simp only [Allocator.allows, Allocator.upTo, Request.bytes, Bool.or_eq_true, beq_iff_eq,
          decide_eq_true_eq, Table.bucketBytes] at hallows hbytes
        omega
  rw [grow_value, vacant_eq, if_neg (Nat.not_lt.mpr hlog), hmemory]
  rfl

/-- A crowded filter grows to the largest side that memory is granted for. -/
theorem Crowded.dueGrowths {n : Nat} {f : Cuckoo} (hf : Crowded f)
    (hlog : f.logSide + n ≤ maxLogSide)
    (hbytes : Table.bucketBytes * 2 ^ (f.logSide + n) < min limit (2 ^ 63)) :
    ∃ f', DueGrowths (.upTo limit) n f f' ∧ Crowded f' := by
  induction n generalizing f with
  | zero => exact ⟨f, .none f, hf⟩
  | succ n ih =>
      have hnext : Table.bucketBytes * 2 ^ (f.logSide + 1) < min limit (2 ^ 63) := by
        apply Nat.lt_of_le_of_lt (Nat.mul_le_mul_left _ _) hbytes
        exact Nat.pow_le_pow_right Nat.two_pos (by omega)
      rcases grow_of_granted (by omega) hnext with ⟨g, hgrow⟩
      have hg := logSide_grow hf.valid hgrow
      have hsum : g.logSide + n = f.logSide + (n + 1) := by omega
      rcases ih (hf.grow hgrow) (by omega) (hsum ▸ hbytes) with ⟨f', hn, hf'⟩
      exact ⟨f', .more hf.growthDue hgrow hn, hf'⟩

/-- Adding to a crowded filter fails, and the filter is left at the largest side that memory is
granted for. -/
theorem Crowded.insert_failed {f : Cuckoo} (hf : Crowded f) (top : Nat)
    (hle : f.logSide ≤ top) (htop : top < maxLogSide)
    (hgrant : Table.bucketBytes * 2 ^ top < min limit (2 ^ 63))
    (hrefuse : limit ≤ Table.bucketBytes * 2 ^ (top + 1)) (hash : UInt64) :
    ∃ f', (f.insert (.upTo limit) hash).value =
        .failed f' (.allocationRefused (Table.bucketBytes * 2 ^ (top + 1))) ∧
      f'.logSide = top := by
  have hsum : f.logSide + (top - f.logSide) = top := Nat.add_sub_cancel' hle
  obtain ⟨f', hn, hf'⟩ := hf.dueGrowths (n := top - f.logSide) (by omega) (hsum.symm ▸ hgrant)
  have hlog := (hn.outgrows hf.valid).2
  rw [hsum] at hlog
  have hgrow := grow_of_refused (hlog.symm ▸ htop) (hlog.symm ▸ hrefuse)
  rw [hlog] at hgrow
  exact ⟨f', (insert_eq_failed_iff hf.valid _ hash f' _).mpr
    ⟨_, hn, Or.inl ⟨hf'.growthDue, hgrow⟩⟩, hlog⟩

/-- Two buckets a side, all of their slots taken by prefixes without tails. -/
def brimming : Cuckoo :=
  let row (first : UInt16) : Bucket :=
    Vector.ofFn fun i : Fin 4 => Slot.pack (first + UInt16.ofNat i) Tail.empty
  ⟨1, .standard, ⟨⟨#[row 0, row 0], #[]⟩, ⟨#[row 4, row 4], #[]⟩⟩, Sampler.start 2, 16, 0⟩

theorem crowded_brimming : Crowded brimming where
  valid := ⟨by decide, by decide, ⟨rfl, by decide⟩, ⟨rfl, by decide⟩⟩
  spread := ⟨by decide +kernel, by decide +kernel⟩
  length_eq := by decide +kernel
  occupied_eq := rfl

theorem initial_brimming : Initial brimming :=
  .read (codec.encode brimming) (read_encode crowded_brimming.valid ⟨by decide, by decide⟩)

/-- With the standard allocator, forty-five growths are kept. -/
theorem brimming_insert_failed :
    ∃ f', (brimming.insert .standard 0).value = .failed f' (.allocationRefused (2 ^ 50)) ∧
      f'.logSide = 46 :=
  crowded_brimming.insert_failed 46 (by decide) (by decide) (by decide) (by decide) 0

/-- Where arrays of 64 bytes are refused, one growth is kept. -/
theorem brimming_insert_failed_of_small_limit :
    ∃ f', (brimming.insert (.upTo 64) 0).value = .failed f' (.allocationRefused 64) ∧
      f'.logSide = 2 :=
  crowded_brimming.insert_failed 2 (by decide) (by decide) (by decide) (by decide) 0

/-! ## What a failure leaves behind -/

/-- An add that fails leaves behind what a number of due growths made of the filter, the next request
being refused: for a growth that is due, or else for room in the stashes. That changes no answer, and
it changes nothing at all exactly if the first request of the add was the one refused. -/
theorem insert_failed_spec {f f' : Cuckoo} (hf : f.Valid) {a : Allocator} {hash : UInt64}
    {e : FilterError} (h : (f.insert a hash).value = .failed f' e) :
    (∃ n, DueGrowths a n f f' ∧ f'.logSide = f.logSide + n ∧ f'.Refuses a e) ∧
    (∀ other, f'.contains other = f.contains other) ∧
    (f' = f ↔ f.Refuses a e) := by
  rcases (insert_eq_failed_iff hf a hash f' e).mp h with ⟨n, hn, hrefuses⟩
  rcases hn.outgrows hf with ⟨houtgrows, hlog⟩
  refine ⟨⟨n, hn, hlog, hrefuses⟩, houtgrows.contains_eq, ?_⟩
  constructor
  · rintro rfl
    exact hrefuses
  · intro hfirst
    cases hn with
    | none => rfl
    | more hdue hgrown _ =>
        rcases hfirst with ⟨-, hrefused⟩ | ⟨hnot, -⟩
        · rw [hrefused] at hgrown
          cases hgrown
        · rw [hdue] at hnot
          cases hnot

/-- Growths are kept when memory for the next one is refused: forty-five with the standard allocator,
and one where arrays of 64 bytes are refused. -/
theorem insert_failed_of_brimming :
    brimming.Valid ∧
      (∃ f', (brimming.insert .standard 0).value = .failed f' (.allocationRefused (2 ^ 50)) ∧
        (∀ hash, f'.contains hash = brimming.contains hash) ∧ f'.logSide = 46) ∧
      ∃ f', (brimming.insert (.upTo 64) 0).value = .failed f' (.allocationRefused 64) ∧
        (∀ hash, f'.contains hash = brimming.contains hash) ∧ f'.logSide = 2 ∧ f' ≠ brimming := by
  have hvalid := crowded_brimming.valid
  rcases brimming_insert_failed with ⟨f₁, hfailed₁, hlog₁⟩
  rcases insert_failed_spec hvalid hfailed₁ with ⟨-, hcontains₁, -⟩
  rcases brimming_insert_failed_of_small_limit with ⟨f₂, hfailed₂, hlog₂⟩
  rcases insert_failed_spec hvalid hfailed₂ with ⟨-, hcontains₂, hsame₂⟩
  refine ⟨hvalid, ⟨f₁, hfailed₁, hcontains₁, hlog₁⟩, f₂, hfailed₂, hcontains₂, hlog₂, fun heq => ?_⟩
  rcases hsame₂.mp heq with ⟨-, hrefused⟩ | ⟨hnot, -⟩
  · have hgranted : ∃ g, (brimming.grow (.upTo 64)).value = .ok g :=
      grow_of_granted (by decide) (by decide)
    rcases hgranted with ⟨g, hgrow⟩
    rw [hgrow] at hrefused
    cases hrefused
  · rw [crowded_brimming.growthDue] at hnot
    cases hnot

/-- A failing add may change the filter. -/
theorem not_forall_insert_failed_eq :
    ¬ ∀ f : Cuckoo, Initial f → ∀ (a : Allocator) (hash : UInt64) (f' : Cuckoo) (e : FilterError),
      (f.insert a hash).value = .failed f' e → f' = f := by
  intro h
  rcases brimming_insert_failed with ⟨f', hfailed, hlog⟩
  have hsame := h brimming initial_brimming _ _ f' _ hfailed
  rw [hsame] at hlog
  exact absurd hlog (by decide)

end ApproxSet.Cuckoo
