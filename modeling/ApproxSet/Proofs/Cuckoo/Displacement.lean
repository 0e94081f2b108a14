import ApproxSet.Proofs.Cuckoo.Occupancy
import Mathlib.Data.Multiset.ZeroCons

/-!
# Displacement conserves entries

A chain of evictions changes sides with every move, comes back to buckets it has been in and may
evict what it has just placed. Seen as a multiset of stems the filter takes in the new stem, and loses
nothing but at most one stem whose prefix is kept by another with a tail that its own tail begins
with. This holds for whatever victims are drawn, so the chooser plays no part in it.
-/

namespace ApproxSet.Cuckoo

/-- As a multiset, `f'` stores what `f` stores and `stem`; or all of that but one stem, while another
with the same prefix and a tail that is a prefix of its tail is stored. -/
def Conserves (f : Cuckoo) (stem : Stem) (f' : Cuckoo) : Prop :=
  (f'.stored : Multiset Stem) = stem ::ₘ (f.stored : Multiset Stem) ∨
    ∃ gone kept : Stem,
      gone ::ₘ (f'.stored : Multiset Stem) = stem ::ₘ (f.stored : Multiset Stem) ∧
        kept ∈ f'.stored ∧ kept.bits = gone.bits ∧ kept.tail.string <+: gone.tail.string

theorem Gains.conserves {f f' : Cuckoo} {stem : Stem} (hf : f.Valid)
    (hstem : stem.Proper f.logSide) (h : Gains f stem f') : Conserves f stem f' := by
  unfold Conserves
  simp only [Multiset.cons_coe, Multiset.coe_eq_coe]
  rcases h.stored with ⟨hperm, -⟩ | ⟨x, hperm, -, y, hy, hbits, htail⟩
  · exact Or.inl hperm
  · have hx : x.tail.Ended := by
      rcases List.mem_cons.mp (hperm.mem_iff.mp List.mem_cons_self) with rfl | hmem
      · exact hstem.ended
      · exact (proper_of_mem_stored hf hmem).ended
    have hy' := (proper_of_mem_stored h.valid hy).ended
    exact Or.inr ⟨x, y, hperm, hy, hbits, (Tail.isPrefixOf_iff_string hy' hx).mp htail⟩

/-- However victims are drawn, an entry is put on a side in at most five hundred and one placements,
and the stems are conserved. -/
theorem conserves_run {f : Cuckoo} (hf : f.Valid) (s : Side) {e : Entry} (he : e.Proper f.logSide)
    (choosers : Nat → Chooser) :
    ∃ f', Displaced.run choosers (maxMoves + 1) ⟨f, s, e, maxMoves⟩ = .inl f' ∧
      Conserves f (e.toStem (f.entropy.get s) f.logSide) f' := by
  rcases Displaced.run_spec (d := ⟨f, s, e, maxMoves⟩) ⟨hf, he⟩ choosers with ⟨f', hrun, hgains⟩
  exact ⟨f', hrun, hgains.conserves hf (Entry.proper_toStem _ hf.logSide_le he)⟩

/-- Putting an entry on a side asks for room in both stashes first. Where that is refused, nothing
changes. Otherwise it ends after at most five hundred and one placements, whatever victims are drawn,
and conserves the stems. -/
theorem conserves_insertEntry {f : Cuckoo} (hf : f.Valid) (a : Allocator) (s : Side) {e : Entry}
    (he : e.Proper f.logSide) :
    let start : Displaced := ⟨f, s, e, maxMoves⟩
    let stem := e.toStem (f.entropy.get s) f.logSide
    (∀ refusal, a.request f.stashRoom = .error refusal →
      refusal = .allocationRefused Table.stashEntryBytes ∧
        (f.insertEntry a s e).value = .failed f refusal) ∧
    (a.request f.stashRoom = .ok () → ∃ f', (f.insertEntry a s e).value = .done f' ∧
      Conserves f stem f' ∧ ∃ choosers, start.run choosers (maxMoves + 1) = .inl f') ∧
    ∀ choosers, ∃ f', start.run choosers (maxMoves + 1) = .inl f' ∧ Conserves f stem f' := by
  intro start stem
  have hvalue := insertEntry_value a f s e
  constructor
  · intro refusal hrefused
    rw [hrefused] at hvalue
    exact ⟨eq_of_stashRoom_refused hrefused, hvalue⟩
  constructor
  · intro hroom
    rw [hroom] at hvalue
    have hgains := gains_settled hf s he
    exact ⟨f.settled s e, hvalue,
      hgains.conserves hf (Entry.proper_toStem _ hf.logSide_le he), start.exists_run_eq_settle⟩
  · exact conserves_run hf s he

/-- Eight hashes fill the bucket that they share on either side. With a ninth, entries go back and
forth between the two until one is stashed. The first again, which is on the right by now, displaces
others from the left until an entry is covered. -/
theorem conserves_insertEntry_of_jam :
    let f := History.after (fresh 1) (jam.take 8)
    let ninth := f.entryOf .left (UInt64.ofNat (8 * 2 ^ 50))
    let first := f.entryOf .left 0
    f.Valid ∧ ninth.Proper f.logSide ∧ first.Proper f.logSide ∧
      (∃ f', (f.insertEntry .standard .left ninth).value = .done f' ∧
        Conserves f (ninth.toStem f.entropy.left f.logSide) f' ∧ f'.stashSize = 1) ∧
      ∃ f', (f.insertEntry .standard .left first).value = .done f' ∧
        Conserves f (first.toStem f.entropy.left f.logSide) f' ∧
        f'.stored.length = f.stored.length ∧ f'.tables ≠ f.tables := by
  intro f ninth first
  have hfresh : Reached (fresh 1) := .built .standard 1 .standard rfl
  have hf : f.Valid := (hfresh.history _).tallied.valid
  have hninth : ninth.Proper f.logSide := proper_entryOf hf .left _
  have hfirst : first.Proper f.logSide := proper_entryOf hf .left _
  have hroom := stashRoom_granted Allocator.grantsRoom_standard f
  have hends : (f.insertEntry .standard .left ninth).value.filter.stashSize = 1 ∧
      (f.insertEntry .standard .left first).value.filter.stored.length = f.stored.length ∧
      (f.insertEntry .standard .left first).value.filter.tables ≠ f.tables := by
    decide +kernel
  rcases (conserves_insertEntry hf .standard .left hninth).2.1 hroom with ⟨f₁, hdone₁, hkept₁, -⟩
  rcases (conserves_insertEntry hf .standard .left hfirst).2.1 hroom with ⟨f₂, hdone₂, hkept₂, -⟩
  rw [hdone₁, hdone₂] at hends
  exact ⟨hf, hninth, hfirst, ⟨f₁, hdone₁, hkept₁, hends.1⟩, f₂, hdone₂, hkept₂, hends.2⟩

end ApproxSet.Cuckoo
