import ApproxSet.Proofs.Bloom.Bounds
import ApproxSet.Proofs.Sizing
import ApproxSet.ScalableBloom

/-!
# Block indices over all generations

A lookup finds its block in every generation and an addition in the newest one. A generation is only
ever added below the limit, and is itself a valid block filter.
-/

namespace ApproxSet.ScalableBloom

open Codec (bind_eq_ok_iff)

/-! ## Accesses -/

/-- Looks in one generation after the other and stops where one of them has no block. -/
def anyContains? (hash : UInt64) : List Bloom → Option Bool
  | [] => some false
  | b :: rest => do
    if ← b.contains? hash then some true else anyContains? hash rest

def contains? (f : ScalableBloom) (hash : UInt64) : Option Bool :=
  anyContains? hash (f.newest :: f.older.toList)

def record? (f : ScalableBloom) (hash : UInt64) : Option ScalableBloom := do
  let newest ← f.newest.insert? hash
  some { f with newest := newest, countdown := f.countdown - 1, count := f.count + 1 }

/-- An addition that stops where the newest generation has no block. -/
def insertBy? (m : Rate.Model) (a : Allocator) (f : ScalableBloom) (hash : UInt64) :
    Option (Outcome ScalableBloom) :=
  if f.countdown = 0 then
    match (f.growBy m a).value with
    | ⟨g, some e⟩ => some (.failed g e)
    | ⟨g, none⟩ => (g.record? hash).map .done
  else
    (f.record? hash).map .done

theorem anyContains?_eq (hash : UInt64) {levels : List Bloom} (h : ∀ b ∈ levels, b.Valid) :
    anyContains? hash levels = some (levels.any (·.contains hash)) := by
  induction levels with
  | nil => rfl
  | cons b levels ih =>
      have hb := Bloom.contains?_eq (h b List.mem_cons_self) hash
      have hrest := ih fun x hx => h x (List.mem_cons_of_mem b hx)
      unfold anyContains?
      rw [hb, List.any_cons]
      cases b.contains hash with
      | true => rfl
      | false => exact hrest

theorem contains?_eq {f : ScalableBloom} (hf : f.Valid) (hash : UInt64) :
    f.contains? hash = some (f.contains hash) := by
  have hlevels : ∀ b ∈ f.newest :: f.older.toList, b.Valid := by
    intro b hb
    rcases List.mem_cons.mp hb with rfl | hb
    · exact hf.newest_valid
    · exact hf.older_valid b (Array.mem_toList_iff.mp hb)
  unfold contains? contains
  rw [anyContains?_eq hash hlevels, List.any_cons, Array.any_toList]

theorem record?_eq {f : ScalableBloom} (hf : f.Valid) (hash : UInt64) :
    f.record? hash = some (f.record hash) := by
  unfold record?
  rw [Bloom.insert?_eq hf.newest_valid]
  rfl

/-! ## Growth and additions -/

variable {m : Rate.Model} {a : Allocator} {f : ScalableBloom}

theorem nextLevel_ok {bytes : Nat} {level : Bloom} (h : f.nextLevel m a = .ok (bytes, level)) :
    Sizing.bytesNeededBy m (f.capacityOf (f.generation + 1))
        (Rate.ofGeneration f.rate (f.generation + 1)) = .ok bytes ∧
      Bloom.ofBytes a bytes = .ok level := by
  obtain ⟨size, hsize, hsized⟩ := bind_eq_ok_iff.mp h
  obtain ⟨fresh, hfresh, hroomy⟩ := bind_eq_ok_iff.mp hsized
  obtain ⟨_, -, hpair⟩ := bind_eq_ok_iff.mp hroomy
  cases hpair
  exact ⟨hsize, hfresh⟩

theorem growBy_of_no_room (m : Rate.Model) (a : Allocator)
    (h : ¬ (f.generation + 1 < maxGenerations ∧ f.capacityOf (f.generation + 1) < 2 ^ 64)) :
    (f.growBy m a).value = .failed f (.capacityExceeded maxGenerations "generations") := by
  unfold growBy
  simp only [if_neg h]
  rfl

/-- Growth leaves the filter as it was and says why, or starts the next generation. -/
theorem growBy_cases (m : Rate.Model) (a : Allocator) (f : ScalableBloom) :
    (∃ e, (f.growBy m a).value = .failed f e) ∨
      ∃ bytes level, f.generation + 1 < maxGenerations ∧
        f.capacityOf (f.generation + 1) < 2 ^ 64 ∧ f.nextLevel m a = .ok (bytes, level) ∧
        (f.growBy m a).value = .done (f.start level) := by
  by_cases hroom : f.generation + 1 < maxGenerations ∧ f.capacityOf (f.generation + 1) < 2 ^ 64
  · unfold growBy
    simp only [if_pos hroom]
    cases hnext : f.nextLevel m a with
    | error e => exact Or.inl ⟨e, rfl⟩
    | ok next => exact Or.inr ⟨next.1, next.2, hroom.1, hroom.2, rfl, rfl⟩
  · exact Or.inl ⟨_, growBy_of_no_room m a hroom⟩

theorem insertBy_value (m : Rate.Model) (a : Allocator) (f : ScalableBloom) (hash : UInt64) :
    (f.insertBy m a hash).value =
      if f.countdown = 0 then
        match (f.growBy m a).value with
        | ⟨g, some e⟩ => .failed g e
        | ⟨g, none⟩ => .done (g.record hash)
      else .done (f.record hash) := by
  unfold insertBy
  split
  · rw [Logged.value_bind]
    split <;> simp_all
  · rfl

/-- An addition fails with the growth that it needs, or is recorded where there is room. -/
theorem insertBy_cases (m : Rate.Model) (a : Allocator) (f : ScalableBloom) (hash : UInt64) :
    (f.countdown = 0 ∧ ∃ e, (f.growBy m a).value = .failed f e ∧
        (f.insertBy m a hash).value = .failed f e) ∨
      (f.countdown = 0 ∧ ∃ g, (f.growBy m a).value = .done g ∧
        (f.insertBy m a hash).value = .done (g.record hash)) ∨
      f.countdown ≠ 0 ∧ (f.insertBy m a hash).value = .done (f.record hash) := by
  rw [insertBy_value]
  by_cases hfull : f.countdown = 0
  · rw [if_pos hfull]
    rcases growBy_cases m a f with ⟨e, hfailed⟩ | ⟨_, level, -, -, -, hdone⟩
    · rw [hfailed]
      exact Or.inl ⟨hfull, e, rfl, rfl⟩
    · rw [hdone]
      exact Or.inr (Or.inl ⟨hfull, _, rfl, rfl⟩)
  · rw [if_neg hfull]
    exact Or.inr (Or.inr ⟨hfull, rfl⟩)

/-! ## Valid filters -/

theorem eq_of_copy {g : ScalableBloom} (h : f.copy a = .ok g) : g = f := by
  unfold copy at h
  split at h
  · cases h
  · obtain ⟨_, -, hcopy⟩ := bind_eq_ok_iff.mp h
    cases hcopy
    rfl

theorem valid_record (hf : f.Valid) (hash : UInt64) : (f.record hash).Valid :=
  ⟨hf.older_valid, Bloom.valid_insert hf.newest_valid hash, hf.generations_le,
    hf.baseCapacity_ne_zero, hf.rate_valid⟩

theorem valid_start (hf : f.Valid) (hroom : f.generation + 1 < maxGenerations) {level : Bloom}
    (hlevel : level.Valid) : (f.start level).Valid := by
  refine ⟨?_, hlevel, ?_, hf.baseCapacity_ne_zero, hf.rate_valid⟩
  · intro b hb
    rcases Array.mem_push.mp hb with hb | rfl
    · exact hf.older_valid b hb
    · exact hf.newest_valid
  · unfold generation at hroom
    simp only [start, levels, Array.size_push]
    omega

theorem valid_growBy (hf : f.Valid) (m : Rate.Model) (a : Allocator) :
    (f.growBy m a).value.filter.Valid := by
  rcases growBy_cases m a f with ⟨e, hfailed⟩ | ⟨_, level, hroom, -, hnext, hdone⟩
  · rw [hfailed]
    exact hf
  · rw [hdone]
    exact valid_start hf hroom (Bloom.valid_ofBytes (nextLevel_ok hnext).2)

theorem valid_insertBy (hf : f.Valid) (m : Rate.Model) (a : Allocator) (hash : UInt64) :
    (f.insertBy m a hash).value.filter.Valid := by
  rcases insertBy_cases m a f hash with
    ⟨-, e, -, hfailed⟩ | ⟨-, g, hgrow, hdone⟩ | ⟨-, hdone⟩
  · rw [hfailed]
    exact hf
  · have hg := valid_growBy hf m a
    rw [hgrow] at hg
    rw [hdone]
    exact valid_record hg hash
  · rw [hdone]
    exact valid_record hf hash

theorem insertBy?_eq (hf : f.Valid) (m : Rate.Model) (a : Allocator) (hash : UInt64) :
    f.insertBy? m a hash = some (f.insertBy m a hash).value := by
  have hg := valid_growBy hf m a
  rw [insertBy_value]
  unfold insertBy?
  split
  · rcases hgrow : (f.growBy m a).value with ⟨g, failure⟩
    rw [hgrow] at hg
    cases failure with
    | some e => rfl
    | none =>
        simp only [record?_eq hg]
        rfl
  · rw [record?_eq hf]
    rfl

/-- What a new filter is made of. -/
theorem ofCountBy_ok {count : Nat} {rate : Float} (h : ofCountBy m a count rate = .ok (some f)) :
    ∃ least first, Rate.Valid rate ∧
      Sizing.blockCapacityBy m 1 (Rate.ofGeneration rate 0) = .ok (some least) ∧
      Bloom.ofCountBy m a (max (max count least) 1) (Rate.ofGeneration rate 0) = .ok first ∧
      f = ⟨#[], first, max (max count least) 1, rate, max (max count least) 1, 0⟩ := by
  obtain ⟨_, hrate, hsearched⟩ := bind_eq_ok_iff.mp h
  obtain ⟨found, hfound, hsized⟩ := bind_eq_ok_iff.mp hsearched
  cases found with
  | none => cases hsized
  | some least =>
      obtain ⟨first, hfirst, hfilter⟩ := bind_eq_ok_iff.mp hsized
      cases hfilter
      exact ⟨least, first, Rate.valid_of_validate hrate, hfound, hfirst, rfl⟩

theorem valid_ofCountBy {count : Nat} {rate : Float} (h : ofCountBy m a count rate = .ok (some f)) :
    f.Valid := by
  obtain ⟨least, first, hrate, -, hfirst, rfl⟩ := ofCountBy_ok h
  have hbase : max (max count least) 1 ≠ 0 :=
    Nat.ne_of_gt (Nat.lt_of_lt_of_le Nat.one_pos (Nat.le_max_right _ _))
  exact ⟨by simp, Bloom.valid_ofCountBy hfirst, by simp [maxGenerations], hbase, hrate⟩

theorem valid_planned {items : Nat} {rate : Float} (h : planned a items rate = .ok (some f)) :
    f.Valid := by
  unfold planned at h
  split at h
  · cases h
  · exact valid_ofCountBy h

end ApproxSet.ScalableBloom
