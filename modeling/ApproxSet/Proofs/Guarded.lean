import ApproxSet.Cuckoo.Plan
import ApproxSet.Proofs.Codec.Filters
import ApproxSet.Proofs.PackedCuckoo.Bounds
import ApproxSet.Proofs.ScalableBloom.Bounds
import ApproxSet.Proofs.XorFilter.Bounds

/-!
# What reading checks

For each kind of filter, the checks made when a filter is read are an invariant of everything that
can be done with it, and enough for every index of every operation to be in range: the operations
that stop at an index out of range (those with a `?`) never stop. So a filter is as safe to use when
its bytes come from elsewhere as when it was built here.
-/

namespace ApproxSet

variable {φ : Type}

/-- Reading accepts `f` from some bytes. -/
def Codec.Accepts (c : Codec φ) (f : φ) : Prop := ∃ bytes rest, c.decode bytes = .ok (f, rest)

theorem Codec.Exact.accepts_iff {c : Codec φ} {Fits : φ → Prop} (hc : c.Exact Fits) (f : φ) :
    c.Accepts f ↔ Fits f := by
  constructor
  · rintro ⟨bytes, rest, h⟩
    exact ((hc f bytes rest).mp h).1
  · intro hfits
    exact ⟨c.encode f ++ [], [], (hc f _ _).mpr ⟨hfits, rfl⟩⟩

/-- What is accepted are the valid filters whose numbers fit; what is built is valid, and so is what
comes next after a valid filter; and all indices into a valid filter are in bounds. -/
structure Guarded (codec : Codec φ) (Valid Fits Built : φ → Prop) (Next : φ → φ → Prop)
    (InBounds : φ → Prop) : Prop where
  accepts_iff : ∀ f, codec.Accepts f ↔ Valid f ∧ Fits f
  valid_of_built : ∀ f, Built f → Valid f
  valid_of_next : ∀ f g, Valid f → Next f g → Valid g
  inBounds : ∀ f, Valid f → InBounds f

/-- From a filter that was built or accepted, no run of operations leaves the bounds. -/
theorem Guarded.inBounds_of_run {codec : Codec φ} {Valid Fits Built InBounds : φ → Prop}
    {Next : φ → φ → Prop} (h : Guarded codec Valid Fits Built Next InBounds) {f g : φ}
    (hf : Built f ∨ codec.Accepts f) (hrun : Relation.ReflTransGen Next f g) : InBounds g := by
  have hvalid : Valid g := by
    induction hrun with
    | refl =>
        rcases hf with hbuilt | haccepted
        · exact h.valid_of_built f hbuilt
        · exact ((h.accepts_iff f).mp haccepted).1
    | tail _ hnext ih => exact h.valid_of_next _ _ ih hnext
  exact h.inBounds g hvalid

/-! ## Block filters -/

namespace Bloom

inductive Built (f : Bloom) : Prop where
  | ofBytes (a : Allocator) (bytes : Nat) (h : ofBytes a bytes = .ok f)
  | ofCount (a : Allocator) (count : Nat) (rate : Float) (h : ofCount a count rate = .ok f)
  | planned (a : Allocator) (items : Nat) (rate : Float) (plan : Plan)
      (h : planned a items rate = .ok (f, plan))

inductive Next (f : Bloom) : Bloom → Prop where
  | insert (hash : UInt64) : Next f (f.insert hash)
  | insert32 (hash : UInt32) : Next f (f.insert32 hash)
  | union (g : Bloom) {m : Bloom} (h : f.union g = .ok m) : Next f m
  | copy (a : Allocator) {g : Bloom} (h : f.copy a = .ok g) : Next f g

structure InBounds (f : Bloom) : Prop where
  contains : ∀ hash, f.contains? hash = some (f.contains hash)
  insert : ∀ hash, f.insert? hash = some (f.insert hash)

theorem guarded : Guarded codec Valid (fun _ => True) Built Next InBounds where
  accepts_iff f := by
    rw [exact_codec.accepts_iff, and_true]
  valid_of_built f hf := by
    cases hf with
    | ofBytes _ _ h => exact valid_ofBytes h
    | ofCount _ _ _ h => exact valid_ofCountBy h
    | planned _ _ _ _ h => exact valid_planned h
  valid_of_next f g hf hg := by
    cases hg with
    | insert hash => exact valid_insert hf hash
    | insert32 hash => exact valid_insert hf (ShortHash.toLowHalf hash)
    | union _ h => exact valid_union hf h
    | copy _ h => exact eq_of_copy h ▸ hf
  inBounds f hf := ⟨contains?_eq hf, insert?_eq hf⟩

end Bloom

/-! ## Xor filters -/

namespace XorFilter

inductive Built (f : XorFilter) : Prop where
  | ofHashes (a : Allocator) (hashes : List UInt64) (seed : UInt64)
      (h : (ofHashes a hashes seed).value = .ok f)

inductive Next (f : XorFilter) : XorFilter → Prop where
  | copy (a : Allocator) {g : XorFilter} (h : f.copy a = .ok g) : Next f g

/-- Probing ends and all three slots are in the table. -/
structure InBounds (f : XorFilter) : Prop where
  contains : ∀ hash, f.contains? hash = some (f.contains hash)

theorem guarded : Guarded codec Valid Fits Built Next InBounds where
  accepts_iff := exact_codec.accepts_iff
  valid_of_built f hf := by
    cases hf with
    | ofHashes _ _ _ h => exact valid_ofHashes h
  valid_of_next f g hf hg := by
    cases hg with
    | copy _ h => exact eq_of_copy h ▸ hf
  inBounds f hf := ⟨contains?_eq hf⟩

end XorFilter

/-! ## Scalable Bloom filters -/

namespace ScalableBloom

inductive Built (f : ScalableBloom) : Prop where
  | ofCount (a : Allocator) (count : Nat) (rate : Float) (h : ofCount a count rate = .ok (some f))
  | planned (a : Allocator) (items : Nat) (rate : Float) (h : planned a items rate = .ok (some f))

/-- An addition or a growth that fails leaves a filter as well. -/
inductive Next (f : ScalableBloom) : ScalableBloom → Prop where
  | insert (a : Allocator) (hash : UInt64) : Next f (f.insert a hash).value.filter
  | insert32 (a : Allocator) (hash : UInt32) : Next f (f.insert32 a hash).value.filter
  | grow (a : Allocator) : Next f (f.grow a).value.filter
  | copy (a : Allocator) {g : ScalableBloom} (h : f.copy a = .ok g) : Next f g

structure InBounds (f : ScalableBloom) : Prop where
  contains : ∀ hash, f.contains? hash = some (f.contains hash)
  insert : ∀ a hash, f.insertBy? Rate.poisson a hash = some (f.insert a hash).value

theorem guarded : Guarded codec Valid Fits Built Next InBounds where
  accepts_iff := exact_codec.accepts_iff
  valid_of_built f hf := by
    cases hf with
    | ofCount _ _ _ h => exact valid_ofCountBy h
    | planned _ _ _ h => exact valid_planned h
  valid_of_next f g hf hg := by
    cases hg with
    | insert a hash => exact valid_insertBy hf _ a hash
    | insert32 a hash => exact valid_insertBy hf _ a (ShortHash.toLowHalf hash)
    | grow a => exact valid_growBy hf _ a
    | copy _ h => exact eq_of_copy h ▸ hf
  inBounds f hf := ⟨contains?_eq hf, insertBy?_eq hf Rate.poisson⟩

end ScalableBloom

/-! ## Cuckoo filters -/

namespace Cuckoo

inductive Built (f : Cuckoo) : Prop where
  | ofBytes (a : Allocator) (bytes : Nat) (entropy : Entropy) (h : ofBytes a bytes entropy = .ok f)
  | planned (a : Allocator) (plan : Plan) (h : plan.build a = .ok f)

/-- An addition that fails leaves a filter as well. A union is of two valid filters, in either
order. -/
inductive Next (f : Cuckoo) : Cuckoo → Prop where
  | insert (a : Allocator) (hash : UInt64) : Next f (f.insert a hash).value.filter
  | insert32 (a : Allocator) (hash : UInt32) : Next f (f.insert32 a hash).value.filter
  | grow (a : Allocator) {g : Cuckoo} (h : (f.grow a).value = .ok g) : Next f g
  | union (a : Allocator) {g m : Cuckoo} (hg : g.Valid) (h : (f.union a g).value = .ok m) : Next f m
  | unionOf (a : Allocator) {g m : Cuckoo} (hg : g.Valid) (h : (g.union a f).value = .ok m) :
      Next f m
  | copy (a : Allocator) {g : Cuckoo} (h : f.copy a = .ok g) : Next f g

structure InBounds (f : Cuckoo) : Prop where
  contains : ∀ hash, f.contains? hash = some (f.contains hash)
  insert : ∀ a hash, f.insert? a hash = some (f.insert a hash).value
  grow : ∀ a, f.grow? a = some (f.grow a).value
  union : ∀ a (g : Cuckoo), g.Valid → f.union? a g = some (f.union a g).value
  unionOf : ∀ a (g : Cuckoo), g.Valid → g.union? a f = some (g.union a f).value
  pack : ∀ a, PackedCuckoo.ofCuckoo? a f = some (PackedCuckoo.ofCuckoo a f).value

theorem guarded : Guarded codec Valid Fits Built Next InBounds where
  accepts_iff := exact_codec.accepts_iff
  valid_of_built f hf := by
    cases hf with
    | ofBytes _ _ _ h => exact valid_ofBytes h
    | planned _ _ h => exact valid_ofBytes h
  valid_of_next f g hf hg := by
    cases hg with
    | insert a hash => exact valid_insert a hf hash
    | insert32 a hash => exact valid_insert a hf (ShortHash.toHighHalf hash)
    | grow _ h => exact (outgrows_grow hf h).valid
    | union _ hother h => exact valid_union hf hother h
    | unionOf _ hother h => exact valid_union hother hf h
    | copy _ h => exact eq_of_copy h ▸ hf
  inBounds f hf :=
    { contains := contains?_eq hf
      insert := fun a hash => insert?_eq a hf hash
      grow := fun a => grow?_eq a hf
      union := fun a _ hg => union?_eq a hf hg
      unionOf := fun a _ hg => union?_eq a hg hf
      pack := fun a => PackedCuckoo.ofCuckoo?_eq a hf }

end Cuckoo

/-! ## Packed cuckoo filters -/

namespace PackedCuckoo

inductive Built (p : PackedCuckoo) : Prop where
  | ofCuckoo (a : Allocator) {f : Cuckoo} (hf : f.Valid) (h : (ofCuckoo a f).value = .ok p)

inductive Next (f : PackedCuckoo) : PackedCuckoo → Prop where
  | copy : Next f f

structure InBounds (f : PackedCuckoo) : Prop where
  contains : ∀ hash, f.contains? hash = some (f.contains hash)

theorem guarded : Guarded codec Valid Fits Built Next InBounds where
  accepts_iff := exact_codec.accepts_iff
  valid_of_built f hf := by
    cases hf with
    | ofCuckoo _ hf h => exact valid_ofCuckoo hf h
  valid_of_next f g hf hg := by
    cases hg with
    | copy => exact hf
  inBounds f hf := ⟨contains?_eq hf⟩

end PackedCuckoo

/-! ## All five -/

/-- All kinds of filter are guarded by what is checked when they are read. -/
theorem guarded_filters :
    Guarded Bloom.codec Bloom.Valid (fun _ => True) Bloom.Built Bloom.Next Bloom.InBounds ∧
    Guarded XorFilter.codec XorFilter.Valid XorFilter.Fits XorFilter.Built XorFilter.Next
      XorFilter.InBounds ∧
    Guarded ScalableBloom.codec ScalableBloom.Valid ScalableBloom.Fits ScalableBloom.Built
      ScalableBloom.Next ScalableBloom.InBounds ∧
    Guarded Cuckoo.codec Cuckoo.Valid Cuckoo.Fits Cuckoo.Built Cuckoo.Next Cuckoo.InBounds ∧
    Guarded PackedCuckoo.codec PackedCuckoo.Valid PackedCuckoo.Fits PackedCuckoo.Built
      PackedCuckoo.Next PackedCuckoo.InBounds :=
  ⟨Bloom.guarded, XorFilter.guarded, ScalableBloom.guarded, Cuckoo.guarded, PackedCuckoo.guarded⟩

end ApproxSet
