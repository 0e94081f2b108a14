import ApproxSet.Proofs.Cuckoo.Refusal

/-!
# Union

The stems of the smaller filter are stored one by one in the larger one, which may grow before each
of them. The size at which the stems were cut stays the same while the size of the target moves.
-/

namespace ApproxSet.Cuckoo

open Codec (bind_eq_ok_iff)

/-- `f'` is no smaller than `f`, has its keys, and finds what `f` finds and the hashes in `new`. -/
structure Merges (f : Cuckoo) (new : UInt64 → Prop) (f' : Cuckoo) : Prop where
  valid : f'.Valid
  logSide_le : f.logSide ≤ f'.logSide
  entropy : f'.entropy = f.entropy
  contains_iff : ∀ hash, f'.contains hash = true ↔ f.contains hash = true ∨ new hash

theorem Outgrows.merges {f g f' : Cuckoo} {new : UInt64 → Prop} (hfg : Outgrows f g)
    (h : Finds g new f') : Merges f new f' := by
  refine ⟨h.valid, ?_, h.shape.entropy.trans hfg.entropy, fun hash => ?_⟩
  · rw [h.shape.logSide]
    exact hfg.logSide_le
  · rw [h.contains_iff, hfg.contains_eq]

theorem Merges.trans {f g h : Cuckoo} {new more : UInt64 → Prop} (hfg : Merges f new g)
    (hgh : Merges g more h) : Merges f (fun hash => new hash ∨ more hash) h := by
  refine ⟨hgh.valid, Nat.le_trans hfg.logSide_le hgh.logSide_le, hgh.entropy.trans hfg.entropy,
    fun hash => ?_⟩
  rw [hgh.contains_iff, hfg.contains_iff, or_assoc]

/-! ## One stem -/

theorem absorbWithRoom_value (a : Allocator) (old : Nat) (f : Cuckoo) (x : Side × Stem) :
    (absorbWithRoom a old f x).value =
      match (f.makeRoom a).value with
      | ⟨_, some e⟩ => .error e
      | ⟨g, none⟩ => (absorb a old g x.1 x.2).value := by
  unfold absorbWithRoom
  rw [Logged.value_bind]
  split <;> simp_all

/-- Grown a number of times, `f` is due to grow again and refused, or has no room in its stashes for a
part of the stem. -/
def StemRefused (a : Allocator) (old : Nat) (f : Cuckoo) (x : Side × Stem) (e : FilterError) : Prop :=
  ∃ n g, DueGrowths a n f g ∧
    (g.growthDue = true ∧ (g.grow a).value = .error e ∨
      g.growthDue = false ∧ (absorb a old g x.1 x.2).value = .error e)

theorem absorbWithRoom_spec (a : Allocator) {old : Nat} {f : Cuckoo} (hf : f.Valid)
    (hold : old ≤ f.logSide) {x : Side × Stem} (hx : x.2.Proper old) :
    match (absorbWithRoom a old f x).value with
    | .ok m => Merges f (x.2.Begins old) m
    | .error e => StemRefused a old f x e := by
  rw [absorbWithRoom_value]
  rcases makeRoom_cases hf a with ⟨n, g, -, hn, ⟨hdue, hmake⟩ | ⟨hdue, e, hgrow, hmake⟩⟩
  · have hroom := (hn.outgrows hf).1
    rw [hmake]
    simp only [Outcome.done]
    cases hstem : (absorb a old g x.1 x.2).value with
    | error e => exact ⟨n, g, hn, Or.inr ⟨hdue, hstem⟩⟩
    | ok m =>
        rw [eq_absorbed_of_absorb hstem]
        exact hroom.merges
          (finds_absorbed hroom.valid (Nat.le_trans hold hroom.logSide_le) x.1 hx)
  · rw [hmake]
    exact ⟨n, g, hn, Or.inl ⟨hdue, hgrow⟩⟩

/-! ## All stems -/

/-- Stores stems in order, making room before each. -/
def absorbAll (a : Allocator) (old : Nat) (f : Cuckoo) (stems : List (Side × Stem)) :
    Except FilterError Cuckoo :=
  stems.foldlM (fun f x => (absorbWithRoom a old f x).value) f

theorem absorbAll_cons (a : Allocator) (old : Nat) (f : Cuckoo) (x : Side × Stem)
    (stems : List (Side × Stem)) :
    absorbAll a old f (x :: stems) =
      (absorbWithRoom a old f x).value >>= fun g => absorbAll a old g stems :=
  List.foldlM_cons

/-- The stems before one of them are stored, and that one is refused. -/
def StemsRefused (a : Allocator) (old : Nat) (f : Cuckoo) (stems : List (Side × Stem))
    (e : FilterError) : Prop :=
  ∃ before x after g, stems = before ++ x :: after ∧ absorbAll a old f before = .ok g ∧
    StemRefused a old g x e

theorem StemsRefused.cons {a : Allocator} {old : Nat} {f g : Cuckoo} {x : Side × Stem}
    {stems : List (Side × Stem)} {e : FilterError} (hx : (absorbWithRoom a old f x).value = .ok g)
    (h : StemsRefused a old g stems e) : StemsRefused a old f (x :: stems) e := by
  rcases h with ⟨before, y, after, m, rfl, hbefore, hy⟩
  refine ⟨x :: before, y, after, m, rfl, ?_, hy⟩
  rw [absorbAll_cons, hx]
  exact hbefore

/-- Storing the stems one after the other adds what all of them stand for, unless one is refused. -/
theorem absorbAll_spec (a : Allocator) {old : Nat} {stems : List (Side × Stem)} {f : Cuckoo}
    (hf : f.Valid) (hold : old ≤ f.logSide) (hstems : ∀ x ∈ stems, x.2.Proper old) :
    match absorbAll a old f stems with
    | .ok m => Merges f (fun hash => ∃ x ∈ stems, x.2.Begins old hash) m
    | .error e => StemsRefused a old f stems e := by
  induction stems generalizing f with
  | nil => exact ⟨hf, Nat.le_refl _, rfl, by simp⟩
  | cons x stems ih =>
      have hfirst := absorbWithRoom_spec a hf hold (hstems x List.mem_cons_self)
      rw [absorbAll_cons]
      cases hx : (absorbWithRoom a old f x).value with
      | error e =>
          rw [hx] at hfirst
          exact ⟨[], x, stems, f, rfl, rfl, hfirst⟩
      | ok g =>
          rw [hx] at hfirst
          have hrest := ih hfirst.valid (Nat.le_trans hold hfirst.logSide_le)
            fun y hy => hstems y (List.mem_cons_of_mem x hy)
          show match absorbAll a old g stems with
            | .ok m => _
            | .error e => _
          cases hall : absorbAll a old g stems with
          | error e =>
              rw [hall] at hrest
              exact hrest.cons hx
          | ok m =>
              rw [hall] at hrest
              refine ⟨(hfirst.trans hrest).valid, (hfirst.trans hrest).logSide_le,
                (hfirst.trans hrest).entropy, fun hash => ?_⟩
              rw [(hfirst.trans hrest).contains_iff]
              simp

/-! ## Two filters -/

theorem proper_stems {f : Cuckoo} (hf : f.Valid) : ∀ x ∈ f.stems, x.2.Proper f.logSide :=
  fun _ hx => proper_of_mem_stored hf (List.mem_map_of_mem hx)

theorem contains_iff_stems {f : Cuckoo} (hf : f.Valid) (hash : UInt64) :
    f.contains hash = true ↔ ∃ x ∈ f.stems, x.2.Begins f.logSide hash := by
  rw [contains_iff hf]
  simp only [stored, List.mem_map, exists_exists_and_eq_and]

/-- Memory for a copy of the larger filter is refused, or one of the stems of the smaller one. -/
def MergeRefused (a : Allocator) (large small : Cuckoo) (e : FilterError) : Prop :=
  large.copy a = .error e ∨ StemsRefused a small.logSide large small.stems e

/-- The stems of the smaller filter stored in a copy of the larger one. -/
def merge (a : Allocator) (large small : Cuckoo) : Except FilterError Cuckoo :=
  large.copy a >>= fun merged => absorbAll a small.logSide merged small.stems

theorem union_value (a : Allocator) {f g : Cuckoo} (h : f.entropy = g.entropy) :
    (f.union a g).value = merge a (bySize f g).1 (bySize f g).2 := by
  unfold union merge
  rw [if_pos h]
  rcases bySize f g with ⟨large, small⟩
  simp only
  cases large.copy a with
  | error e => rfl
  | ok merged => exact Logged.value_foldTry _ _ _

/-- The larger filter takes in what the smaller one finds. -/
theorem merge_spec (a : Allocator) {large small : Cuckoo} (hlarge : large.Valid)
    (hsmall : small.Valid) (hle : small.logSide ≤ large.logSide) :
    match merge a large small with
    | .ok m => Merges large (fun hash => small.contains hash = true) m
    | .error e => MergeRefused a large small e := by
  unfold merge
  cases hcopy : large.copy a with
  | error e => exact Or.inl hcopy
  | ok merged =>
      obtain rfl := eq_of_copy hcopy
      have hspec := absorbAll_spec a hlarge hle (proper_stems hsmall)
      show match absorbAll a small.logSide merged small.stems with
        | .ok m => _
        | .error e => _
      cases hall : absorbAll a small.logSide merged small.stems with
      | error e =>
          rw [hall] at hspec
          exact Or.inr hspec
      | ok m =>
          rw [hall] at hspec
          refine ⟨hspec.valid, hspec.logSide_le, hspec.entropy, fun hash => ?_⟩
          rw [hspec.contains_iff, contains_iff_stems hsmall]

/-- The larger filter first; what holds of both filters holds of both then too. -/
theorem bySize_spec {P : Cuckoo → Prop} {f g : Cuckoo} (hf : P f) (hg : P g) :
    P (bySize f g).1 ∧ P (bySize f g).2 ∧ (bySize f g).2.logSide ≤ (bySize f g).1.logSide := by
  unfold bySize
  split
  · rename_i hle
    exact ⟨hf, hg, hle⟩
  · rename_i hlt
    exact ⟨hg, hf, Nat.le_of_not_le hlt⟩

theorem contains_bySize (f g : Cuckoo) (hash : UInt64) :
    (bySize f g).1.contains hash = true ∨ (bySize f g).2.contains hash = true ↔
      f.contains hash = true ∨ g.contains hash = true := by
  unfold bySize
  split
  · exact Iff.rfl
  · exact or_comm

theorem union_spec (a : Allocator) {f g : Cuckoo} (hf : f.Valid) (hg : g.Valid)
    (hkeys : f.entropy = g.entropy) :
    match (f.union a g).value with
    | .ok m => m.Valid ∧
      ∀ hash, m.contains hash = true ↔ f.contains hash = true ∨ g.contains hash = true
    | .error e => MergeRefused a (bySize f g).1 (bySize f g).2 e := by
  rcases bySize_spec hf hg with ⟨hlarge, hsmall, hle⟩
  have hspec := merge_spec a hlarge hsmall hle
  rw [union_value a hkeys]
  cases hmerge : merge a (bySize f g).1 (bySize f g).2 with
  | error e =>
      rw [hmerge] at hspec
      exact hspec
  | ok m =>
      rw [hmerge] at hspec
      exact ⟨hspec.valid, fun hash => (hspec.contains_iff hash).trans (contains_bySize f g hash)⟩

theorem entropy_eq_of_union {a : Allocator} {f g m : Cuckoo} (h : (f.union a g).value = .ok m) :
    f.entropy = g.entropy := by
  by_cases hkeys : f.entropy = g.entropy
  · exact hkeys
  · unfold union at h
    rw [if_neg hkeys] at h
    cases h

theorem valid_union {a : Allocator} {f g m : Cuckoo} (hf : f.Valid) (hg : g.Valid)
    (h : (f.union a g).value = .ok m) : m.Valid := by
  have hspec := union_spec a hf hg (entropy_eq_of_union h)
  rw [h] at hspec
  exact hspec.1

/-- Filters that can come about: new ones and accepted ones, and what calls and unions make. -/
inductive Made : Cuckoo → Prop where
  | initial {f : Cuckoo} (hf : Initial f) : Made f
  | call {f : Cuckoo} (hf : Made f) (a : Allocator) (c : Call) : Made (c.after a f)
  | union {f g m : Cuckoo} (hf : Made f) (hg : Made g) (a : Allocator)
      (h : (f.union a g).value = .ok m) : Made m

theorem Made.valid {f : Cuckoo} (hf : Made f) : f.Valid := by
  induction hf with
  | initial hf => exact hf.valid
  | call _ a c ih => exact (adds_call a ih c).valid
  | union _ _ _ h ihf ihg => exact valid_union ihf ihg h

/-- The union of two filters with the same keys finds exactly what either finds. There is one unless
memory is refused, for a copy of the larger filter or for a stem of the smaller one, or that copy would
have to outgrow the largest size. Filters with different keys have none. -/
theorem contains_union_iff {f g : Cuckoo} (hf : Made f) (hg : Made g) (a : Allocator) :
    (f.entropy = g.entropy →
      (∀ m, (f.union a g).value = .ok m → ∀ hash,
        m.contains hash = true ↔ f.contains hash = true ∨ g.contains hash = true) ∧
      ∀ e, (f.union a g).value = .error e →
        MergeRefused a (bySize f g).1 (bySize f g).2 e) ∧
    (f.entropy ≠ g.entropy → (f.union a g).value = .error .differentEntropy) := by
  constructor
  · intro hkeys
    have hspec := union_spec a hf.valid hg.valid hkeys
    constructor
    · intro m hm
      rw [hm] at hspec
      exact hspec.2
    · intro e he
      rw [he] at hspec
      exact hspec
  · intro hkeys
    unfold union
    rw [if_neg hkeys]
    rfl

/-- A hash known by sixteen bits moves to a filter of 128 buckets a side: its tail is one bit short
of the six doublings, so two stems are stored, and it stays known by sixteen bits. -/
theorem contains_union_of_short_tail :
    let f := (Call.insert 0x123456789abcdef0).after .standard (fresh 1)
    let g := (Call.insert 0xfedcba9876543210).after .standard (fresh 7)
    Made f ∧ Made g ∧ f.entropy = g.entropy ∧ ∃ m, (f.union .standard g).value = .ok m ∧
      m.stored.length = 3 ∧ ∀ hash, m.contains hash = true ↔
        hash.toNat / 2 ^ 48 = 0x1234 ∨ hash.toNat / 2 ^ 42 = 0x3fb72e := by
  intro f g
  have hsmall : Initial (fresh 1) := .built .standard 1 .standard rfl
  have hlarge : Initial (fresh 7) := .built .standard 2048 .standard rfl
  have hf : Made f := .call (.initial hsmall) .standard _
  have hg : Made g := .call (.initial hlarge) .standard _
  have hkeys : f.entropy = g.entropy := by decide +kernel
  have hcount : (f.union .standard g).value.toOption.map (·.stored.length) = some 3 := by
    decide +kernel
  cases hunion : (f.union .standard g).value with
  | error e =>
      rw [hunion] at hcount
      cases hcount
  | ok m =>
      rw [hunion] at hcount
      refine ⟨hf, hg, hkeys, m, rfl, Option.some.inj hcount, fun hash => ?_⟩
      rw [((contains_union_iff hf hg .standard).1 hkeys).1 m hunion hash,
        (adds_call .standard hsmall.valid (.insert 0x123456789abcdef0)).contains_iff hash,
        (adds_call .standard hlarge.valid (.insert 0xfedcba9876543210)).contains_iff hash,
        contains_fresh hsmall.valid, contains_fresh hlarge.valid]
      have hfirst : (Call.insert 0x123456789abcdef0).added .standard (fresh 1) =
          [⟨0x123456789abcdef0, 1⟩] := by decide +kernel
      have hsecond : (Call.insert 0xfedcba9876543210).added .standard (fresh 7) =
          [⟨0xfedcba9876543210, 7⟩] := by decide +kernel
      rw [hfirst, hsecond]
      simp [Addition.Matches]

end ApproxSet.Cuckoo
