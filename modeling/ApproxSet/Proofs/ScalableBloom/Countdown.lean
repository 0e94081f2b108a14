import ApproxSet.Proofs.Rate.Saturation
import ApproxSet.Proofs.ScalableBloom.Generations
import ApproxSet.Proofs.Word
import Mathlib.Order.Bounds.Defs

/-!
# Room in the generations

A generation is opened with twice the room of the one below it, and its countdown is the room that is
left. So none is ever overfilled, whenever growth came. If only additions made the filter grow, every
generation below the newest is full, and the number of hashes tells how many generations there are.
-/

namespace ApproxSet.ScalableBloom

open Codec (bind_eq_ok_iff)

variable {m : Rate.Model} {a : Allocator} {f₀ f g : ScalableBloom} {added : List Addition}

/-! ## Capacities -/

/-- The capacity of a generation in a 64-bit word: the base moved up, if that loses no bit. -/
def capacityWord? (f : ScalableBloom) (generation : Nat) : Option UInt64 :=
  let base := UInt64.ofNat f.baseCapacity
  let shifted := base <<< UInt64.ofNat generation
  if generation < 64 ∧ shifted >>> UInt64.ofNat generation = base then some shifted else none

theorem capacityWord?_eq (hbase : f.baseCapacity < 2 ^ 64) (generation : Nat) :
    f.capacityWord? generation =
      if generation < maxGenerations ∧ f.capacityOf generation < 2 ^ 64 then
        some (UInt64.ofNat (f.capacityOf generation))
      else none := by
  have hword : (UInt64.ofNat f.baseCapacity).toNat = f.baseCapacity := by
    rw [UInt64.toNat_ofNat', Nat.mod_eq_of_lt hbase]
  unfold capacityWord?
  by_cases hroom : generation < maxGenerations ∧ f.capacityOf generation < 2 ^ 64
  · have hgen : generation < 64 := hroom.1
    have hshift : UInt64.ofNat f.baseCapacity <<< UInt64.ofNat generation =
        UInt64.ofNat (f.capacityOf generation) := by
      apply UInt64.toNat_inj.mp
      rw [Word.toNat_shiftLeft_ofNat _ hgen, hword, UInt64.toNat_ofNat']
      rfl
    have hback := (Word.shiftLeft_shiftRight_eq_iff (UInt64.ofNat f.baseCapacity) hgen).mpr
      (hword.symm ▸ hroom.2)
    rw [if_pos hroom, ← hshift]
    exact if_pos ⟨hgen, hback⟩
  · rw [if_neg hroom]
    apply if_neg
    intro h
    rcases h with ⟨hgen, hback⟩
    have hfits := (Word.shiftLeft_shiftRight_eq_iff _ hgen).mp hback
    rw [hword] at hfits
    exact hroom ⟨hgen, hfits⟩

/-- Growth computes the next capacity in 64 bits and is refused where it does not fit. -/
theorem growBy_of_capacityWord? (hbase : f.baseCapacity < 2 ^ 64) (a : Allocator) :
    match f.capacityWord? (f.generation + 1) with
    | none =>
      (f.growBy m a).value = .failed f (.capacityExceeded maxGenerations "generations")
    | some capacity => ∀ g, (f.growBy m a).value = .done g → g.countdown = capacity.toNat := by
  rw [capacityWord?_eq hbase]
  by_cases hroom : f.generation + 1 < maxGenerations ∧ f.capacityOf (f.generation + 1) < 2 ^ 64
  · rw [if_pos hroom]
    intro g hgrow
    obtain ⟨-, level, -, rfl⟩ := growBy_done hgrow
    rw [UInt64.toNat_ofNat', Nat.mod_eq_of_lt hroom.2]
    rfl
  · rw [if_neg hroom]
    exact growBy_of_no_room m a hroom

/-- Room in the generations up to the given one. -/
def roomUpTo (f : ScalableBloom) (generation : Nat) : Nat :=
  f.baseCapacity * (2 ^ (generation + 1) - 1)

theorem roomUpTo_succ (f : ScalableBloom) (generation : Nat) :
    f.roomUpTo (generation + 1) = f.roomUpTo generation + f.capacityOf (generation + 1) := by
  have hpos := Nat.two_pow_pos (generation + 1)
  unfold roomUpTo capacityOf
  rw [← Nat.mul_add, Nat.pow_succ 2 (generation + 1)]
  congr 1
  omega

theorem roomUpTo_mono (f : ScalableBloom) {g h : Nat} (hgh : g ≤ h) :
    f.roomUpTo g ≤ f.roomUpTo h := by
  induction hgh with
  | refl => exact Nat.le_refl _
  | step _ ih =>
      rw [roomUpTo_succ]
      exact Nat.le_add_right_of_le ih

theorem roomUpTo_lt (f : ScalableBloom) (hbase : f.baseCapacity ≠ 0) (generation : Nat) :
    f.roomUpTo generation < 2 * f.capacityOf generation := by
  have hpos := Nat.two_pow_pos (generation + 1)
  unfold roomUpTo capacityOf
  rw [Nat.mul_left_comm, ← Nat.pow_succ']
  exact Nat.mul_lt_mul_of_pos_left (by omega) (Nat.pos_of_ne_zero hbase)

/-! ## Accounts -/

/-- `f` came from `f₀` by the additions, each of which used up one place of the generation it went to:
the countdown is what is left in the newest one. -/
structure Accounts (f₀ : ScalableBloom) (added : List Addition) (f : ScalableBloom) : Prop where
  baseCapacity_eq : f.baseCapacity = f₀.baseCapacity
  generation_le : ∀ x ∈ added, x.generation ≤ f.generation
  capacity_lt : f₀.capacityOf f.generation < 2 ^ 64
  countdown_add :
    f.countdown + (hashesOf added f.generation).length = f₀.capacityOf f.generation
  level_le : ∀ g, (hashesOf added g).length ≤ f₀.capacityOf g
  count_eq : f.count = added.length
  count_add_le : f.countdown + f.count ≤ f₀.roomUpTo f.generation

theorem length_hashesOf_append_single (added : List Addition) (x : Addition) (g : Nat) :
    (hashesOf (added ++ [x]) g).length =
      (hashesOf added g).length + if x.generation = g then 1 else 0 := by
  rw [hashesOf_append, List.length_append]
  congr 1
  by_cases hg : x.generation = g
  · rw [if_pos hg]
    simp [hashesOf, hg]
  · rw [if_neg hg, hashesOf_eq_nil (by simpa using hg)]
    rfl

namespace Accounts

theorem capacityOf_eq (hf : Accounts f₀ added f) (g : Nat) : f.capacityOf g = f₀.capacityOf g := by
  unfold capacityOf
  rw [hf.baseCapacity_eq]

theorem baseCapacity_lt (hf : Accounts f₀ added f) : f.baseCapacity < 2 ^ 64 := by
  rw [hf.baseCapacity_eq]
  exact Nat.lt_of_le_of_lt (Nat.le_mul_of_pos_right _ (Nat.two_pow_pos _)) hf.capacity_lt

theorem record (hf : Accounts f₀ added f) (h : f.countdown ≠ 0) (hash : UInt64) :
    Accounts f₀ (added ++ [⟨hash, f.generation⟩]) (f.record hash) := by
  have hcountdown : (f.record hash).countdown + 1 = f.countdown :=
    Nat.succ_pred_eq_of_ne_zero h
  have hcount : (f.record hash).count = f.count + 1 := rfl
  have hnewest := hf.countdown_add
  constructor
  · exact hf.baseCapacity_eq
  · intro x hx
    rcases List.mem_append.mp hx with hx | hx
    · exact hf.generation_le x hx
    · cases List.mem_singleton.mp hx
      exact Nat.le_refl _
  · exact hf.capacity_lt
  · rw [generation_record, length_hashesOf_append_single, if_pos rfl]
    omega
  · intro g
    have hle := hf.level_le g
    rw [length_hashesOf_append_single]
    split
    · rename_i hg
      rw [← show f.generation = g from hg]
      omega
    · exact hle
  · rw [hcount, hf.count_eq, List.length_append]
    rfl
  · have hle := hf.count_add_le
    rw [generation_record, hcount]
    omega

theorem start (hf : Accounts f₀ added f) (h : f.capacityOf (f.generation + 1) < 2 ^ 64)
    (level : Bloom) : Accounts f₀ added (f.start level) := by
  have hcapacity := hf.capacityOf_eq (f.generation + 1)
  have hcountdown : (f.start level).countdown = f₀.capacityOf (f.generation + 1) := hcapacity
  have hunused : hashesOf added (f.generation + 1) = [] := by
    apply hashesOf_eq_nil
    intro x hx
    have hle := hf.generation_le x hx
    omega
  constructor
  · exact hf.baseCapacity_eq
  · intro x hx
    rw [generation_start]
    exact Nat.le_succ_of_le (hf.generation_le x hx)
  · rw [generation_start, ← hcapacity]
    exact h
  · rw [generation_start, hunused, hcountdown]
    rfl
  · exact hf.level_le
  · exact hf.count_eq
  · have hle := hf.count_add_le
    have hcount : (f.start level).count = f.count := rfl
    rw [generation_start, roomUpTo_succ, hcountdown, hcount]
    omega

end Accounts

theorem countdown_growBy (h : (f.growBy m a).value = .done g) :
    g.countdown = f.capacityOf (f.generation + 1) := by
  obtain ⟨-, level, -, rfl⟩ := growBy_done h
  rfl

theorem Accounts.growBy (hf : Accounts f₀ added f) (m : Rate.Model) (a : Allocator) :
    Accounts f₀ added (f.growBy m a).value.filter := by
  rcases growBy_cases m a f with ⟨e, hfailed⟩ | ⟨_, level, -, hcapacity, -, hdone⟩
  · rw [hfailed]
    exact hf
  · rw [hdone]
    exact hf.start hcapacity level

theorem countdown_growBy_ne_zero (hbase : f.baseCapacity ≠ 0)
    (h : (f.growBy m a).value = .done g) : g.countdown ≠ 0 := by
  rw [countdown_growBy h]
  exact Nat.mul_ne_zero hbase (Nat.ne_of_gt (Nat.two_pow_pos _))

/-- A hash is only ever recorded where the countdown is not used up. -/
theorem recorded_of_insertBy_done (hbase : f.baseCapacity ≠ 0) {hash : UInt64}
    {f' : ScalableBloom} (h : (f.insertBy m a hash).value = .done f') :
    ∃ g, (g = f ∨ (f.growBy m a).value = .done g) ∧ g.countdown ≠ 0 ∧ f' = g.record hash := by
  rcases insertBy_cases m a f hash with
    ⟨-, e, -, hfailed⟩ | ⟨-, g, hgrow, hdone⟩ | ⟨hroom, hdone⟩
  · rw [hfailed] at h
    cases h
  · rw [hdone] at h
    cases h
    exact ⟨g, Or.inr hgrow, countdown_growBy_ne_zero hbase hgrow, rfl⟩
  · rw [hdone] at h
    cases h
    exact ⟨f, Or.inl rfl, hroom, rfl⟩

theorem Accounts.insertBy (hbase : f₀.baseCapacity ≠ 0) (hf : Accounts f₀ added f)
    (m : Rate.Model) (a : Allocator) (hash : UInt64) :
    Accounts f₀ (added ++ addition m a f hash) (f.insertBy m a hash).value.filter := by
  unfold addition
  rcases insertBy_cases m a f hash with
    ⟨-, e, -, hfailed⟩ | ⟨-, g, hgrow, hdone⟩ | ⟨hroom, hdone⟩
  · rw [hfailed]
    show Accounts f₀ (added ++ []) f
    rw [List.append_nil]
    exact hf
  · have hroom := countdown_growBy_ne_zero (hf.baseCapacity_eq ▸ hbase) hgrow
    have hgrown := hf.growBy m a
    rw [hgrow] at hgrown
    rw [hdone]
    exact hgrown.record hroom hash
  · rw [hdone]
    exact hf.record hroom hash

theorem Accounts.call (hbase : f₀.baseCapacity ≠ 0) (hf : Accounts f₀ added f) (m : Rate.Model)
    (a : Allocator) (c : Call) : Accounts f₀ (added ++ c.added m a f) (c.after m a f) := by
  cases c with
  | insert hash => exact hf.insertBy hbase m a hash
  | insert32 hash => exact hf.insertBy hbase m a (ShortHash.toLowHalf hash)
  | grow =>
      unfold Call.added
      rw [List.append_nil]
      exact hf.growBy m a

theorem Accounts.history (hbase : f₀.baseCapacity ≠ 0) (hf : Accounts f₀ added f) (m : Rate.Model)
    (calls : History) : Accounts f₀ (added ++ calls.added m f) (calls.after m f) := by
  induction calls generalizing added f with
  | nil =>
      show Accounts f₀ (added ++ []) f
      rw [List.append_nil]
      exact hf
  | cons call calls ih =>
      rcases call with ⟨a, c⟩
      have hrest := ih (hf.call hbase m a c)
      rw [List.append_assoc] at hrest
      exact hrest

/-- The model bounds the number of hashes far below what 64 bits count. -/
theorem Accounts.count_lt (hm : Rate.Saturates m) (hbase : f₀.baseCapacity ≠ 0)
    (hf : Accounts f₀ added f) (hfilled : Filled m f₀ added f) : f.count < 2 ^ 43 := by
  rcases hfilled.level f.generation (Nat.le_refl _) with ⟨level, hlevel, -⟩
  obtain ⟨bytes, hbytes, -⟩ := bind_eq_ok_iff.mp hlevel
  have hcapacity := Sizing.count_le_of_bytesNeededBy hm hf.capacity_lt hbytes
  have hroom := f₀.roomUpTo_lt hbase f.generation
  have hle := hf.count_add_le
  unfold Sizing.maxBlockFilterBytes Sizing.blockBytes at hcapacity
  omega

/-! ## Failed calls -/

/-- Why a call fails, if it does. -/
def Call.failure (m : Rate.Model) (a : Allocator) (f : ScalableBloom) : Call → Option FilterError
  | insert hash => (f.insertBy m a hash).value.failure
  | insert32 hash => (f.insertBy m a (ShortHash.toLowHalf hash)).value.failure
  | grow => (f.growBy m a).value.failure

theorem unchanged_of_insertBy_failure {hash : UInt64} {e : FilterError}
    (h : (f.insertBy m a hash).value.failure = some e) :
    (f.insertBy m a hash).value.filter = f ∧ addition m a f hash = [] := by
  unfold addition
  rcases insertBy_cases m a f hash with
    ⟨-, e', -, hfailed⟩ | ⟨-, g, -, hdone⟩ | ⟨-, hdone⟩
  · rw [hfailed]
    exact ⟨rfl, rfl⟩
  · rw [hdone] at h
    cases h
  · rw [hdone] at h
    cases h

/-- A new generation is sized, allocated and given room before anything is written. -/
theorem Call.unchanged_of_failure {c : Call} {e : FilterError} (h : c.failure m a f = some e) :
    c.after m a f = f ∧ c.added m a f = [] := by
  cases c with
  | insert hash => exact unchanged_of_insertBy_failure h
  | insert32 hash => exact unchanged_of_insertBy_failure h
  | grow => exact ⟨filter_growBy_of_failure h, rfl⟩

/-! ## Additions only -/

/-- Nothing but additions. -/
def History.AddsOnly (calls : History) : Prop := ∀ call ∈ calls, call.2 ≠ .grow

/-- All generations below the newest are full, and the newest has been added to unless it is the
first. -/
structure FilledUp (f₀ : ScalableBloom) (added : List Addition) (f : ScalableBloom) : Prop extends
    Accounts f₀ added f where
  count_add_eq : f.countdown + f.count = f₀.roomUpTo f.generation
  opened : f.generation = 0 ∨ f.countdown < f₀.capacityOf f.generation

theorem filledUp_record (hf : Accounts f₀ added f)
    (hall : f.countdown + f.count = f₀.roomUpTo f.generation) (h : f.countdown ≠ 0)
    (hash : UInt64) : FilledUp f₀ (added ++ [⟨hash, f.generation⟩]) (f.record hash) := by
  have hcountdown : (f.record hash).countdown + 1 = f.countdown :=
    Nat.succ_pred_eq_of_ne_zero h
  have hcount : (f.record hash).count = f.count + 1 := rfl
  have hnewest := hf.countdown_add
  refine ⟨hf.record h hash, ?_, Or.inr ?_⟩
  · rw [generation_record, hcount]
    omega
  · rw [generation_record]
    omega

theorem FilledUp.insertBy (hbase : f₀.baseCapacity ≠ 0) (hf : FilledUp f₀ added f)
    (m : Rate.Model) (a : Allocator) (hash : UInt64) :
    FilledUp f₀ (added ++ addition m a f hash) (f.insertBy m a hash).value.filter := by
  unfold addition
  rcases insertBy_cases m a f hash with
    ⟨-, e, -, hfailed⟩ | ⟨hfull, g, hgrow, hdone⟩ | ⟨hroom, hdone⟩
  · rw [hfailed]
    show FilledUp f₀ (added ++ []) f
    rw [List.append_nil]
    exact hf
  · have hroom := countdown_growBy_ne_zero (hf.baseCapacity_eq ▸ hbase) hgrow
    have hgrown := hf.toAccounts.growBy m a
    rw [hgrow] at hgrown
    have haccounts : Accounts f₀ added g := hgrown
    rw [hdone]
    -- growth alone leaves the newest generation unused, so `opened` holds again only with the record
    have hcapacity := countdown_growBy hgrow
    obtain ⟨-, level, -, rfl⟩ := growBy_done hgrow
    refine filledUp_record haccounts ?_ hroom hash
    have hall := hf.count_add_eq
    have hcount : (f.start level).count = f.count := rfl
    rw [generation_start, roomUpTo_succ, hcapacity, hf.capacityOf_eq, hcount]
    omega
  · rw [hdone]
    exact filledUp_record hf.toAccounts hf.count_add_eq hroom hash

theorem FilledUp.history (hbase : f₀.baseCapacity ≠ 0) (hf : FilledUp f₀ added f)
    (m : Rate.Model) {calls : History} (h : calls.AddsOnly) :
    FilledUp f₀ (added ++ calls.added m f) (calls.after m f) := by
  induction calls generalizing added f with
  | nil =>
      show FilledUp f₀ (added ++ []) f
      rw [List.append_nil]
      exact hf
  | cons call calls ih =>
      rcases call with ⟨a, c⟩
      rcases List.forall_mem_cons.mp h with ⟨hcall, hcalls⟩
      have hnext : FilledUp f₀ (added ++ c.added m a f) (c.after m a f) := by
        cases c with
        | insert hash => exact hf.insertBy hbase m a hash
        | insert32 hash => exact hf.insertBy hbase m a (ShortHash.toLowHalf hash)
        | grow => exact absurd rfl hcall
      have hrest := ih hnext hcalls
      rw [List.append_assoc] at hrest
      exact hrest

/-- There are no more generations than the hashes need. -/
theorem FilledUp.isLeast_generation (hf : FilledUp f₀ added f) :
    IsLeast {g | added.length ≤ f₀.roomUpTo g} f.generation := by
  have hcount := hf.count_eq
  have hall := hf.count_add_eq
  constructor
  · show added.length ≤ f₀.roomUpTo f.generation
    omega
  · intro g hg
    have hle : added.length ≤ f₀.roomUpTo g := hg
    refine Nat.le_of_not_lt fun hlt => ?_
    obtain ⟨below, hbelow⟩ : ∃ below, f.generation = below + 1 := ⟨f.generation - 1, by omega⟩
    have hopened := hf.opened
    have hmono := f₀.roomUpTo_mono (Nat.le_of_lt_succ (hbelow ▸ hlt))
    rw [hbelow, roomUpTo_succ] at hall
    rw [hbelow] at hopened
    omega

/-! ## New filters -/

theorem filledUp_ofCountBy {count : Nat} {rate : Float} (hcount : count < 2 ^ 64)
    (h : ofCountBy m a count rate = .ok (some f)) : FilledUp f [] f ∧ f.baseCapacity ≠ 0 := by
  obtain ⟨least, first, -, hleast, -, rfl⟩ := ofCountBy_ok h
  have hlt := Sizing.blockCapacityBy_lt hleast
  have hbase : max (max count least) 1 < 2 ^ 64 ∧ max (max count least) 1 ≠ 0 := by omega
  rcases hbase with ⟨hfits, hpos⟩
  refine ⟨⟨⟨rfl, ?_, ?_, ?_, ?_, rfl, ?_⟩, ?_, Or.inl rfl⟩, hpos⟩
  · simp
  · simpa [capacityOf, generation] using hfits
  · simp [capacityOf, generation, hashesOf]
  · simp [hashesOf]
  · simp [roomUpTo, generation]
  · simp [roomUpTo, generation]

/-- What the countdown of `f₀` is worth after calls: with the hashes that went to the newest generation
it makes up its capacity, which fits in 64 bits; no generation got more than its capacity, and all
successful additions were counted. An addition is only recorded where the countdown is not used up;
growth computes the next capacity in 64 bits; a call that fails changes nothing. If there were only
additions, the newest generation is the first for which there is room for all hashes up to it. A model
that saturates keeps the number of hashes small. -/
structure Paces (m : Rate.Model) (f₀ : ScalableBloom) (calls : History) : Prop where
  accounts : Accounts f₀ (calls.added m f₀) (calls.after m f₀)
  recorded : ∀ (a : Allocator) (hash : UInt64) (f' : ScalableBloom),
    ((calls.after m f₀).insertBy m a hash).value = .done f' →
      ∃ g, (g = calls.after m f₀ ∨ ((calls.after m f₀).growBy m a).value = .done g) ∧
        g.countdown ≠ 0 ∧ f' = g.record hash
  grown : ∀ a : Allocator,
    match (calls.after m f₀).capacityWord? ((calls.after m f₀).generation + 1) with
    | none => ((calls.after m f₀).growBy m a).value =
        .failed (calls.after m f₀) (.capacityExceeded maxGenerations "generations")
    | some capacity => ∀ g, ((calls.after m f₀).growBy m a).value = .done g →
        g.countdown = capacity.toNat
  unchanged : ∀ (a : Allocator) (c : Call) (e : FilterError),
    c.failure m a (calls.after m f₀) = some e →
      c.after m a (calls.after m f₀) = calls.after m f₀ ∧ c.added m a (calls.after m f₀) = []
  isLeast : calls.AddsOnly →
    IsLeast {g | (calls.added m f₀).length ≤ f₀.roomUpTo g} (calls.after m f₀).generation
  count_lt : Rate.Saturates m → (calls.after m f₀).count < 2 ^ 43

theorem paces_of_filledUp (hfirst : FilledUp f₀ [] f₀) (hbase : f₀.baseCapacity ≠ 0)
    (hfresh : Filled m f₀ [] f₀) (calls : History) : Paces m f₀ calls := by
  have haccounts := hfirst.toAccounts.history hbase m calls
  rw [List.nil_append] at haccounts
  have hbase' : (calls.after m f₀).baseCapacity ≠ 0 := haccounts.baseCapacity_eq ▸ hbase
  constructor
  · exact haccounts
  · intro a hash f'
    exact recorded_of_insertBy_done hbase'
  · exact growBy_of_capacityWord? haccounts.baseCapacity_lt
  · intro a c e
    exact Call.unchanged_of_failure
  · intro hcalls
    exact (hfirst.history hbase m hcalls).isLeast_generation
  · intro hm
    have hfilled := hfresh.evolves (evolves_history m f₀ calls)
    rw [List.nil_append] at hfilled
    exact haccounts.count_lt hm hbase hfilled

/-- The countdown of a new filter paces its growth, whatever is called and whichever of the calls fail,
under any model of the rate. -/
theorem countdown_after_history {count : Nat} {rate : Float} (hcount : count < 2 ^ 64)
    (h : ofCountBy m a count rate = .ok (some f₀)) (calls : History) : Paces m f₀ calls := by
  rcases filledUp_ofCountBy hcount h with ⟨hfirst, hbase⟩
  exact paces_of_filledUp hfirst hbase (filled_ofCountBy h) calls

theorem saturates_hashPerByte : Rate.Saturates hashPerByte := by
  intro count bytes _ _ hover
  exact if_neg (by omega)

/-- Four hashes, one of them short and one added only at the second attempt, need three generations of
one, two and four places. -/
theorem countdown_after_refused_insert :
    let f₀ : ScalableBloom := ⟨#[], .empty 1, 1, 0.5, 1, 0⟩
    let calls : History := [(.standard, .insert 1), (.upTo 0, .insert 2), (.standard, .insert 2),
      (.standard, .insert32 3), (.standard, .insert 5)]
    let f := calls.after hashPerByte f₀
    ofCountBy hashPerByte .standard 1 0.5 = .ok (some f₀) ∧ f.generation = 2 ∧ f.countdown = 3 ∧ f.count = 4 ∧
      IsLeast {g | 4 ≤ f₀.roomUpTo g} 2 ∧ f.count < 2 ^ 43 := by
  intro f₀ calls f
  have hfirst : ofCountBy hashPerByte .standard 1 0.5 = .ok (some f₀) := by
    decide +kernel
  have hadded : calls.added hashPerByte f₀ =
      [⟨1, 0⟩, ⟨2, 1⟩, ⟨ShortHash.toLowHalf 3, 1⟩, ⟨5, 2⟩] := by
    decide +kernel
  have hgeneration : (calls.after hashPerByte f₀).generation = 2 := by
    decide +kernel
  have hadds : calls.AddsOnly := by
    simp [History.AddsOnly, calls]
  have hpaces := countdown_after_history (by decide) hfirst calls
  have hcount := hpaces.accounts.count_eq
  have hcountdown : f.countdown + 1 = 4 := by
    have hnewest := hpaces.accounts.countdown_add
    rw [hgeneration, hadded] at hnewest
    exact hnewest
  have hneeded := hpaces.isLeast hadds
  rw [hadded] at hcount
  rw [hgeneration, hadded] at hneeded
  exact ⟨hfirst, hgeneration, Nat.succ.inj hcountdown, hcount, hneeded,
    hpaces.count_lt saturates_hashPerByte⟩

/-! ## The filter in use -/

theorem Call.failure_poisson (a : Allocator) (f : ScalableBloom) (c : Call) :
    c.failure Rate.poisson a f =
      match c with
      | insert hash => (f.insert a hash).value.failure
      | insert32 hash => (f.insert32 a hash).value.failure
      | grow => (f.grow a).value.failure := by
  cases c <;> rfl

/-- The countdown of the filter in use paces its growth. -/
theorem paces_of_ofCount {count : Nat} {rate : Float} (hcount : count < 2 ^ 64)
    (h : ofCount a count rate = .ok (some f₀)) (calls : History) : Paces Rate.poisson f₀ calls := by
  rcases filledUp_ofCountBy hcount h with ⟨hfirst, hbase⟩
  exact paces_of_filledUp hfirst hbase (filled_ofCountBy h) calls

theorem count_lt_of_ofCount {count : Nat} {rate : Float} (hcount : count < 2 ^ 64)
    (h : ofCount a count rate = .ok (some f₀)) (calls : History) :
    (calls.after Rate.poisson f₀).count < 2 ^ 43 :=
  (paces_of_ofCount hcount h calls).count_lt Rate.saturates_poisson

end ApproxSet.ScalableBloom
