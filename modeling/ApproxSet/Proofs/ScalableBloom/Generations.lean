import ApproxSet.Proofs.Bloom.Filling
import ApproxSet.Proofs.ScalableBloom.Growth
import Mathlib.Control.Monad.Basic

/-!
# What the generations hold

Each generation holds the hashes that were added while it was the newest one, and nothing else. So a
filter is known from the calls that led to it, whatever growth came between them and whichever of them
failed.
-/

namespace ApproxSet

deriving instance DecidableEq for FilterError, ScalableBloom

namespace ScalableBloom

open Codec (bind_eq_ok_iff)

variable {m : Rate.Model} {a : Allocator}

/-- A hash that was added, with the generation it went to. -/
structure Addition where
  hash : UInt64
  generation : Nat
  deriving DecidableEq

def hashesOf (added : List Addition) (generation : Nat) : List UInt64 :=
  (added.filter (·.generation = generation)).map (·.hash)

/-! ## Moves -/

/-- What calls make of `f`: hashes are recorded in the newest generation and new ones start above it. -/
inductive Evolves (m : Rate.Model) : ScalableBloom → List Addition → ScalableBloom → Prop where
  | stay (f : ScalableBloom) : Evolves m f [] f
  | record (f : ScalableBloom) (hash : UInt64) :
      Evolves m f [⟨hash, f.generation⟩] (f.record hash)
  | start {f : ScalableBloom} {level : Bloom}
      (h : f.freshLevel m (f.generation + 1) = .ok level) : Evolves m f [] (f.start level)
  | trans {f g h : ScalableBloom} {xs ys : List Addition} (hfg : Evolves m f xs g)
      (hgh : Evolves m g ys h) : Evolves m f (xs ++ ys) h

theorem generation_record (f : ScalableBloom) (hash : UInt64) :
    (f.record hash).generation = f.generation :=
  rfl

theorem generation_start (f : ScalableBloom) (level : Bloom) :
    (f.start level).generation = f.generation + 1 :=
  Array.size_push _

theorem getElem?_levels (f : ScalableBloom) (g : Nat) :
    f.levels[g]? = if g = f.generation then some f.newest else f.older[g]? :=
  Array.getElem?_push

theorem getElem?_levels_record (f : ScalableBloom) (hash : UInt64) (g : Nat) :
    (f.record hash).levels[g]? =
      if g = f.generation then some (f.newest.insert hash) else f.levels[g]? := by
  rw [getElem?_levels, getElem?_levels, generation_record]
  split <;> rfl

theorem getElem?_levels_start (f : ScalableBloom) (level : Bloom) (g : Nat) :
    (f.start level).levels[g]? = if g = f.generation + 1 then some level else f.levels[g]? := by
  rw [getElem?_levels, generation_start]
  rfl

/-- The generations of `f` below its newest are those of `f'`. -/
structure Extends (f f' : ScalableBloom) : Prop where
  generation_le : f.generation ≤ f'.generation
  getElem?_eq : ∀ g < f.generation, f'.levels[g]? = f.levels[g]?

theorem Evolves.extends {f f' : ScalableBloom} {added : List Addition}
    (h : Evolves m f added f') : Extends f f' := by
  induction h with
  | stay f => exact ⟨Nat.le_refl _, fun _ _ => rfl⟩
  | record f hash =>
      constructor
      · exact Nat.le_refl _
      · intro g hg
        rw [getElem?_levels_record, if_neg (Nat.ne_of_lt hg)]
  | @start f level _ =>
      constructor
      · rw [generation_start]
        exact Nat.le_succ _
      · intro g hg
        rw [getElem?_levels_start, if_neg (by omega)]
  | trans _ _ hfg hgh =>
      constructor
      · exact Nat.le_trans hfg.generation_le hgh.generation_le
      · intro g hg
        rw [hgh.getElem?_eq g (Nat.lt_of_lt_of_le hg hfg.generation_le), hfg.getElem?_eq g hg]

/-- `f` came from `f₀` by the additions: each of its generations is a fresh one of the size chosen for
it, filled with the hashes that went there. -/
structure Filled (m : Rate.Model) (f₀ : ScalableBloom) (added : List Addition)
    (f : ScalableBloom) : Prop where
  baseCapacity_eq : f.baseCapacity = f₀.baseCapacity
  rate_eq : f.rate = f₀.rate
  generation_le : ∀ x ∈ added, x.generation ≤ f.generation
  level : ∀ g ≤ f.generation, ∃ level, f₀.freshLevel m g = .ok level ∧
    f.levels[g]? = some (level.insertAll (hashesOf added g))

theorem hashesOf_append (xs ys : List Addition) (generation : Nat) :
    hashesOf (xs ++ ys) generation = hashesOf xs generation ++ hashesOf ys generation := by
  simp [hashesOf]

theorem hashesOf_eq_nil {added : List Addition} {generation : Nat}
    (h : ∀ x ∈ added, x.generation ≠ generation) : hashesOf added generation = [] := by
  simpa [hashesOf] using h

theorem mem_hashesOf {added : List Addition} {x : Addition} (h : x ∈ added) :
    x.hash ∈ hashesOf added x.generation := by
  simp only [hashesOf, List.mem_map, List.mem_filter, decide_eq_true_eq]
  exact ⟨x, ⟨h, rfl⟩, rfl⟩

namespace Filled

variable {f₀ f : ScalableBloom} {added : List Addition}

theorem freshLevel_eq (hf : Filled m f₀ added f) (g : Nat) :
    f.freshLevel m g = f₀.freshLevel m g := by
  unfold freshLevel capacityOf
  rw [hf.baseCapacity_eq, hf.rate_eq]

theorem record (hf : Filled m f₀ added f) (hash : UInt64) :
    Filled m f₀ (added ++ [⟨hash, f.generation⟩]) (f.record hash) := by
  constructor
  · exact hf.baseCapacity_eq
  · exact hf.rate_eq
  · intro x hx
    rcases List.mem_append.mp hx with hx | hx
    · exact hf.generation_le x hx
    · cases List.mem_singleton.mp hx
      exact Nat.le_refl _
  · intro g hg
    rcases hf.level g hg with ⟨level, hlevel, hget⟩
    rw [getElem?_levels_record, hashesOf_append]
    by_cases hnewest : g = f.generation
    · have hnew : hashesOf [⟨hash, f.generation⟩] g = [hash] := by
        simp [hashesOf, hnewest]
      rw [getElem?_levels, if_pos hnewest] at hget
      have hfill : level.insertAll (hashesOf added g ++ [hash]) = f.newest.insert hash := by
        rw [Bloom.insertAll_append, ← Option.some.inj hget]
        rfl
      rw [if_pos hnewest, hnew]
      exact ⟨level, hlevel, congrArg some hfill.symm⟩
    · have hnone : hashesOf [⟨hash, f.generation⟩] g = [] :=
        hashesOf_eq_nil (by simpa using Ne.symm hnewest)
      rw [if_neg hnewest, hnone, List.append_nil]
      exact ⟨level, hlevel, hget⟩

theorem start (hf : Filled m f₀ added f) {level : Bloom}
    (h : f.freshLevel m (f.generation + 1) = .ok level) : Filled m f₀ added (f.start level) := by
  constructor
  · exact hf.baseCapacity_eq
  · exact hf.rate_eq
  · intro x hx
    rw [generation_start]
    exact Nat.le_succ_of_le (hf.generation_le x hx)
  · intro g hg
    rw [generation_start] at hg
    rw [getElem?_levels_start]
    by_cases hnewest : g = f.generation + 1
    · have hnone : hashesOf added g = [] := by
        apply hashesOf_eq_nil
        intro x hx
        have hle := hf.generation_le x hx
        omega
      rw [if_pos hnewest, hnone, hnewest, ← hf.freshLevel_eq]
      exact ⟨level, h, rfl⟩
    · rw [if_neg hnewest]
      exact hf.level g (by omega)

theorem evolves {new : List Addition} {f' : ScalableBloom} (hf : Filled m f₀ added f)
    (h : Evolves m f new f') : Filled m f₀ (added ++ new) f' := by
  induction h generalizing added with
  | stay f => rwa [List.append_nil]
  | record f hash => exact hf.record hash
  | start h =>
      rw [List.append_nil]
      exact hf.start h
  | trans _ _ hfg hgh =>
      rw [← List.append_assoc]
      exact hgh (hfg hf)

end Filled

theorem filled_ofCountBy {count : Nat} {rate : Float} {f : ScalableBloom}
    (h : ofCountBy m a count rate = .ok (some f)) : Filled m f [] f := by
  obtain ⟨least, first, -, -, hfirst, rfl⟩ := ofCountBy_ok h
  constructor
  · rfl
  · rfl
  · simp
  · intro g hg
    cases Nat.le_zero.mp hg
    simp only [freshLevel, capacityOf, Nat.pow_zero, Nat.mul_one]
    exact ⟨first, Bloom.ofCountBy_standard hfirst, rfl⟩

/-! ## Lookups -/

theorem contains_iff (f : ScalableBloom) (hash : UInt64) :
    f.contains hash = true ↔ ∃ level ∈ f.levels, level.contains hash = true := by
  simp only [contains, levels, Bool.or_eq_true, Array.any_eq_true', Array.mem_push]
  constructor
  · intro h
    rcases h with hnewest | ⟨level, hlevel, hfound⟩
    · exact ⟨f.newest, Or.inr rfl, hnewest⟩
    · exact ⟨level, Or.inl hlevel, hfound⟩
  · intro h
    rcases h with ⟨level, hlevel | rfl, hfound⟩
    · exact Or.inr ⟨level, hlevel, hfound⟩
    · exact Or.inl hfound

theorem Filled.contains_of_mem {f₀ f : ScalableBloom} {added : List Addition}
    (hf : Filled m f₀ added f) {x : Addition} (hx : x ∈ added) : f.contains x.hash = true := by
  rcases hf.level x.generation (hf.generation_le x hx) with ⟨level, hlevel, hget⟩
  rcases Bloom.ofCountBy_eq_empty hlevel with ⟨blocks, hblocks, rfl⟩
  rw [contains_iff]
  exact ⟨_, Array.mem_of_getElem? hget, Bloom.contains_fill_of_mem hblocks (mem_hashesOf hx)⟩

theorem Filled.contains_nil {f₀ f : ScalableBloom} (hf : Filled m f₀ [] f) (hash : UInt64) :
    f.contains hash = false := by
  rw [Bool.eq_false_iff, ne_eq, contains_iff]
  intro hfound
  rcases hfound with ⟨level, hmem, hlevel⟩
  rcases Array.mem_iff_getElem?.mp hmem with ⟨g, hget⟩
  have hlt : g < f.levels.size := (Array.getElem?_eq_some_iff.mp hget).1
  have hg : g ≤ f.generation := by
    rw [levels, Array.size_push] at hlt
    exact Nat.le_of_lt_succ hlt
  rcases hf.level g hg with ⟨fresh, hfresh, hfill⟩
  rcases Bloom.ofCountBy_eq_empty hfresh with ⟨blocks, hblocks, rfl⟩
  rw [hget] at hfill
  cases hfill
  exact absurd hlevel (Bool.eq_false_iff.mp (Bloom.contains_empty hblocks hash))

/-! ## Calls -/

/-- What can be asked of a filter, apart from lookups. -/
inductive Call where
  | insert (hash : UInt64)
  | insert32 (hash : UInt32)
  | grow

/-- The addition that a call makes, if it succeeds, under the generation that is then the newest. -/
def addition (m : Rate.Model) (a : Allocator) (f : ScalableBloom) (hash : UInt64) :
    List Addition :=
  match (f.insertBy m a hash).value with
  | ⟨g, none⟩ => [⟨hash, g.generation⟩]
  | ⟨_, some _⟩ => []

namespace Call

/-- The filter after a call. -/
def after (m : Rate.Model) (a : Allocator) (f : ScalableBloom) : Call → ScalableBloom
  | insert hash => (f.insertBy m a hash).value.filter
  | insert32 hash => (f.insertBy m a (ShortHash.toLowHalf hash)).value.filter
  | grow => (f.growBy m a).value.filter

def added (m : Rate.Model) (a : Allocator) (f : ScalableBloom) : Call → List Addition
  | insert hash => addition m a f hash
  | insert32 hash => addition m a f (ShortHash.toLowHalf hash)
  | grow => []

end Call

/-- Calls in order, each with the allocator that it meets. -/
abbrev History := List (Allocator × Call)

namespace History

def after (m : Rate.Model) : (f : ScalableBloom) → History → ScalableBloom
  | f, [] => f
  | f, (a, c) :: rest => after m (c.after m a f) rest

def added (m : Rate.Model) : (f : ScalableBloom) → History → List Addition
  | _, [] => []
  | f, (a, c) :: rest => c.added m a f ++ added m (c.after m a f) rest

end History

theorem evolves_growBy (m : Rate.Model) (a : Allocator) (f : ScalableBloom) :
    Evolves m f [] (f.growBy m a).value.filter := by
  rcases growBy_cases m a f with ⟨e, hfailed⟩ | ⟨_, level, -, -, hnext, hdone⟩
  · rw [hfailed]
    exact .stay f
  · rw [hdone]
    exact .start (freshLevel_of_nextLevel hnext)

theorem evolves_insertBy (m : Rate.Model) (a : Allocator) (f : ScalableBloom) (hash : UInt64) :
    Evolves m f (addition m a f hash) (f.insertBy m a hash).value.filter := by
  unfold addition
  rcases insertBy_cases m a f hash with
    ⟨-, e, -, hfailed⟩ | ⟨-, g, hgrow, hdone⟩ | ⟨-, hdone⟩
  · rw [hfailed]
    exact .stay f
  · have hgrown := evolves_growBy m a f
    rw [hgrow] at hgrown
    rw [hdone]
    exact .trans hgrown (.record g hash)
  · rw [hdone]
    exact .record f hash

theorem evolves_call (m : Rate.Model) (a : Allocator) (f : ScalableBloom) (c : Call) :
    Evolves m f (c.added m a f) (c.after m a f) := by
  cases c with
  | insert hash => exact evolves_insertBy m a f hash
  | insert32 hash => exact evolves_insertBy m a f (ShortHash.toLowHalf hash)
  | grow => exact evolves_growBy m a f

theorem evolves_history (m : Rate.Model) (f : ScalableBloom) (calls : History) :
    Evolves m f (calls.added m f) (calls.after m f) := by
  induction calls generalizing f with
  | nil => exact .stay f
  | cons call calls ih =>
      rcases call with ⟨a, c⟩
      exact .trans (evolves_call m a f c) (ih _)

/-- What the generations of `f` hold after calls: each is the fresh table of its size with just the
hashes that were added while it was the newest one, and those below the newest stay as they are ever
after. A hash is found if some generation has it, so no added hash is lost, and nothing is found if
nothing was added. -/
structure Keeps (m : Rate.Model) (f : ScalableBloom) (calls : History) : Prop where
  level : ∀ g ≤ (calls.after m f).generation, ∃ level, f.freshLevel m g = .ok level ∧
    (calls.after m f).levels[g]? = some (level.insertAll (hashesOf (calls.added m f) g))
  below : ∀ more : History, ∀ g < (calls.after m f).generation,
    (more.after m (calls.after m f)).levels[g]? = (calls.after m f).levels[g]?
  contains_iff : ∀ hash, (calls.after m f).contains hash = true ↔
    ∃ level ∈ (calls.after m f).levels, level.contains hash = true
  contains_added : ∀ x ∈ calls.added m f, (calls.after m f).contains x.hash = true
  contains_nothing : calls.added m f = [] → ∀ hash, (calls.after m f).contains hash = false

theorem keeps_of_filled {f : ScalableBloom} (hf : Filled m f [] f) (calls : History) :
    Keeps m f calls := by
  have hfilled := hf.evolves (evolves_history m f calls)
  rw [List.nil_append] at hfilled
  constructor
  · exact hfilled.level
  · intro more
    exact (evolves_history m (calls.after m f) more).extends.getElem?_eq
  · exact contains_iff _
  · intro x hx
    exact hfilled.contains_of_mem hx
  · intro hnone
    rw [hnone] at hfilled
    exact hfilled.contains_nil

/-- A new filter keeps every hash in the generation it went to, whatever is called and whichever of the
calls fail, under any model of the rate. -/
theorem levels_after_history {count : Nat} {rate : Float} {f : ScalableBloom}
    (h : ofCountBy m a count rate = .ok (some f)) (calls : History) : Keeps m f calls :=
  keeps_of_filled (filled_ofCountBy h) calls

/-- A model that allows a hash for every byte. -/
def hashPerByte : Rate.Model := fun count bytes => if count ≤ bytes then 0 else 1

/-- The second generation starts when the first one is full and memory is granted; it takes a whole
hash and a short one before the third starts. -/
theorem levels_after_refused_growth :
    let f : ScalableBloom := ⟨#[], .empty 1, 1, 0.5, 1, 0⟩
    let calls : History := [(.standard, .insert 1), (.upTo 0, .insert 2), (.standard, .insert 2),
      (.standard, .insert32 3), (.tight, .grow), (.standard, .grow), (.standard, .insert 5)]
    ofCountBy hashPerByte .standard 1 0.5 = .ok (some f) ∧
      (calls.after hashPerByte f).levels[1]? =
        some ((Bloom.empty 1).insertAll [2, ShortHash.toLowHalf 3]) ∧
      (calls.after hashPerByte f).contains 5 = true := by
  intro f calls
  have hfirst : ofCountBy hashPerByte .standard 1 0.5 = .ok (some f) := by
    decide +kernel
  have hadded : calls.added hashPerByte f =
      [⟨1, 0⟩, ⟨2, 1⟩, ⟨ShortHash.toLowHalf 3, 1⟩, ⟨5, 2⟩] := by
    decide +kernel
  have hfresh : f.freshLevel hashPerByte 1 = .ok (.empty 1) := by
    decide +kernel
  have hkeeps := levels_after_history hfirst calls
  constructor
  · exact hfirst
  constructor
  · rcases hkeeps.level 1 (by decide +kernel) with ⟨level, hlevel, hget⟩
    rw [hfresh] at hlevel
    cases hlevel
    rw [hget, hadded]
    rfl
  · exact hkeeps.contains_added ⟨5, 2⟩ (by simp [hadded])

/-! ## The filter in use -/

/-- In the filter in use, calls are its own operations. -/
theorem Call.after_poisson (a : Allocator) (f : ScalableBloom) (c : Call) :
    c.after Rate.poisson a f =
      match c with
      | insert hash => (f.insert a hash).value.filter
      | insert32 hash => (f.insert32 a hash).value.filter
      | grow => (f.grow a).value.filter := by
  cases c <;> rfl

/-- So the filter in use keeps what is added to it. -/
theorem keeps_of_ofCount {count : Nat} {rate : Float} {f : ScalableBloom}
    (h : ofCount a count rate = .ok (some f)) (calls : History) : Keeps Rate.poisson f calls :=
  keeps_of_filled (filled_ofCountBy h) calls

end ScalableBloom

end ApproxSet
