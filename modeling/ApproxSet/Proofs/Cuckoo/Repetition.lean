import ApproxSet.Proofs.Cuckoo.Room

/-!
# Adding a hash again

A bucket is searched up to its first vacant slot. A slot that covers a hash is found on the way only
if no vacant slot comes before it, and that is so in every filter that comes about: a slot is stored
in the first vacant place, evictions only replace what is in use, and nothing is ever removed. A hash
whose bucket on the left covers it is then added without any effect.
-/

namespace ApproxSet

namespace Bucket

/-- No vacant slot comes before one that is in use. -/
def FrontFilled (b : Bucket) : Prop :=
  ∀ i j : Fin 4, i < j → (b.get i).isVacant = true → (b.get j).isVacant = true

instance (b : Bucket) : Decidable b.FrontFilled :=
  inferInstanceAs (Decidable (∀ i j : Fin 4, i < j → _ → _))

theorem frontFilled_vacant : vacant.FrontFilled := by decide

theorem get_set_of_ne (b : Bucket) {i j : Fin 4} (h : i ≠ j) (s : Slot) :
    Vector.get (b.set i s i.isLt) j = b.get j :=
  Vector.getElem_set_ne i.isLt j.isLt (Fin.val_ne_of_ne h)

/-- The first vacant place is filled. -/
theorem FrontFilled.stored {b b' : Bucket} {s : Slot} (hb : b.FrontFilled)
    (h : b.receive s = .stored b') : b'.FrontFilled := by
  obtain ⟨k, hk, hbefore, rfl⟩ := receive_stored h
  intro i j hij hi
  -- all places before `k` are in use, so the vacant one is `k` itself or comes after it
  have hkj : k < j := by
    by_cases hki : k = i
    · exact hki ▸ hij
    · rw [get_set_of_ne b hki] at hi
      refine Nat.lt_of_le_of_lt (Nat.le_of_not_lt fun hik => ?_) hij
      rw [(hbefore i hik).1] at hi
      cases hi
  rw [get_set_of_ne b (Fin.ne_of_lt hkj)]
  exact hb k j hkj hk

/-- A full bucket stays full when a slot is replaced by one in use. -/
theorem frontFilled_of_full {b : Bucket} {s t : Slot} (h : b.receive s = .full)
    (ht : t.isVacant = false) (i : Fin 4) : FrontFilled (b.set i t i.isLt) := by
  intro j k _ hj
  by_cases hij : i = j
  · have hget : Vector.get (b.set i t i.isLt) j = t := hij ▸ Vector.getElem_set_self i.isLt
    rw [hget, ht] at hj
    cases hj
  · rw [get_set_of_ne b hij, (receive_full h j).1] at hj
    cases hj

end Bucket

namespace Table

/-- All buckets are filled from the front. -/
def FrontFilled (t : Table) : Prop := ∀ b ∈ t.buckets, b.FrontFilled

theorem frontFilled_vacant (logSide : Nat) : (vacant logSide).FrontFilled := by
  intro b hb
  rw [(Array.mem_replicate.mp hb).2]
  exact Bucket.frontFilled_vacant

theorem FrontFilled.bucketAt {t : Table} (ht : t.FrontFilled) (i : UInt64) :
    (t.bucketAt i).FrontFilled := by
  by_cases hi : i.toNat < t.buckets.size
  · rw [bucketAt_of_lt hi]
    exact ht _ (Array.getElem_mem hi)
  · rw [Table.bucketAt, Array.getD_eq_getD_getElem?, Array.getElem?_eq_none (Nat.le_of_not_lt hi)]
    exact Bucket.frontFilled_vacant

theorem FrontFilled.setBucket {t : Table} (ht : t.FrontFilled) (i : UInt64) {b : Bucket}
    (hb : b.FrontFilled) : (t.setBucket i b).FrontFilled := by
  intro x hx
  rcases Array.mem_or_eq_of_mem_setIfInBounds hx with hx | rfl
  · exact ht x hx
  · exact hb

theorem FrontFilled.place {t : Table} (ht : t.FrontFilled) {e : Entry}
    (he : e.slot.isVacant = false) (chooser : Chooser) :
    (t.place e chooser).2.FrontFilled := by
  have hb := ht.bucketAt e.bucket
  cases hreceive : (t.bucketAt e.bucket).receive e.slot with
  | stored b =>
      rw [Table.place, hreceive]
      exact ht.setBucket e.bucket (hb.stored hreceive)
  | covered =>
      rw [Table.place, hreceive]
      exact ht
  | full =>
      rw [Table.place, hreceive]
      exact ht.setBucket e.bucket (Bucket.frontFilled_of_full hreceive he _)

end Table

namespace Cuckoo

/-- A valid filter whose tables are both filled from the front. -/
structure FrontFilled (f : Cuckoo) : Prop where
  valid : f.Valid
  table : ∀ s, (f.tables.get s).FrontFilled

theorem FrontFilled.place {f : Cuckoo} (hf : f.FrontFilled) (s : Side) {e : Entry}
    (he : e.slot.isVacant = false) (s' : Side) : ((f.place s e).2.tables.get s').FrontFilled := by
  have hs := (hf.table s).place he f.chooser
  have hother := hf.table s.other
  rw [← Both.get_update f.tables s fun t => t.place e f.chooser] at hs
  rw [← Both.get_other_update f.tables s fun t => t.place e f.chooser] at hother
  rw [place_eq]
  cases s <;> cases s' <;> assumption

/-- A chain of evictions leaves no gap. -/
theorem FrontFilled.settle {f : Cuckoo} (hf : f.FrontFilled) (moves : Nat) (s : Side) {e : Entry}
    (he : e.Proper f.logSide) : (settle moves f s e).value.FrontFilled := by
  have hplace := hf.place s he.occupied
  rcases place_cases hf.valid he with ⟨g, hg, hvalid, -⟩ | ⟨hg, -⟩ | ⟨v, g, hg, hvalid, -, hv, -⟩
  · rw [hg] at hplace
    rw [settle_of_stored hg]
    exact ⟨valid_countOne hvalid, hplace⟩
  · rw [settle_of_covered hg]
    exact hf
  · have hshape := f.place_shape s e
    rw [hg] at hplace hshape
    have hv' : v.Proper g.logSide := hshape.logSide.symm ▸ hv
    cases moves with
    | zero =>
        rw [settle_zero_of_evicted hg]
        refine ⟨(gains_pushStash hvalid s hv').valid, fun s' => ?_⟩
        have hs' := hplace s'
        cases s <;> cases s' <;> exact hs'
    | succ moves =>
        rw [settle_succ_of_evicted hg]
        have hg' : g.FrontFilled := ⟨hvalid, hplace⟩
        exact hg'.settle moves s.other (proper_cross hvalid.logSide_le s hv')

theorem FrontFilled.absorbed {old : Nat} {f : Cuckoo} (hf : f.FrontFilled) (hold : old ≤ f.logSide)
    (s : Side) {stem : Stem} (hstem : stem.Proper old) :
    (absorbed old f s stem).FrontFilled := by
  refine (List.foldlRecOn (motive := fun g => SameShape f g ∧ g.FrontFilled) _ _
    ⟨⟨rfl, rfl, rfl⟩, hf⟩ ?_).2
  intro g hg part hpart
  rcases hg with ⟨hshape, hg⟩
  have hgains := gains_part hshape hg.valid hold s hstem hpart
  exact ⟨hshape.trans hgains.shape,
    hg.settle maxMoves s (proper_part hshape hg.valid hold s hstem hpart)⟩

theorem frontFilled_of_vacant {f : Cuckoo} (hf : f.Valid) {logSide : Nat}
    (h : f.tables = ⟨Table.vacant logSide, Table.vacant logSide⟩) : f.FrontFilled := by
  refine ⟨hf, fun s => ?_⟩
  rw [h]
  cases s <;> exact Table.frontFilled_vacant logSide

theorem FrontFilled.grow {a : Allocator} {f f' : Cuckoo} (hf : f.FrontFilled)
    (h : (f.grow a).value = .ok f') : f'.FrontFilled := by
  obtain ⟨hlog, rfl⟩ := grow_ok h
  refine (List.foldlRecOn (motive := fun g => SameShape f.doubled g ∧ g.FrontFilled) _ _
    ⟨⟨rfl, rfl, rfl⟩, frontFilled_of_vacant (valid_doubled hlog) rfl⟩ ?_).2
  intro g hg x hx
  rcases hg with ⟨hshape, hg⟩
  have hold : f.logSide ≤ g.logSide := by
    rw [hshape.logSide]
    exact Nat.le_succ _
  have hstem := proper_stems hf.valid x hx
  exact ⟨hshape.trans (counts_absorbed hg.valid hold x.1 hstem).shape, hg.absorbed hold x.1 hstem⟩

end Cuckoo

end ApproxSet
