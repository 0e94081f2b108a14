import ApproxSet.Proofs.XorFilter.Membership

/-!
# Slot indices

Probing goes on from a slot to the next one in the window while the slot is taken. It ends within as
many steps as there are slots taken, at slots of the table, so a lookup reads three of those.
-/

namespace ApproxSet

namespace Edge

/-- Probes from place `v` of the window on, and stops if it has not ended after `steps` steps. -/
def probe? (start window : Nat) (taken : List Nat) : (steps v : Nat) → Option Nat
  | steps, v =>
    if taken.contains (start + v) then
      match steps with
      | 0 => none
      | steps + 1 => probe? start window taken steps (if v + 1 = window then 0 else v + 1)
    else some (start + v)

theorem candidates_succ (start steps : Nat) {window v : Nat} (hv : v < window) :
    candidates start window v (steps + 1) =
      (start + v) :: candidates start window ((v + 1) % window) steps := by
  unfold candidates
  rw [List.range_succ_eq_map, List.map_cons, List.map_map, Nat.add_zero, Nat.mod_eq_of_lt hv]
  congr 2
  funext k
  simp only [Function.comp, Nat.mod_add_mod]
  congr 2
  omega

theorem next_eq_mod {window v : Nat} (hv : v < window) :
    (if v + 1 = window then 0 else v + 1) = (v + 1) % window := by
  split
  · rename_i hend
    rw [hend, Nat.mod_self]
  · rw [Nat.mod_eq_of_lt (by omega)]

theorem probe?_eq_find? (start : Nat) {window : Nat} (taken : List Nat) (steps : Nat) {v : Nat}
    (hv : v < window) :
    probe? start window taken steps v =
      (candidates start window v (steps + 1)).find? fun u => !taken.contains u := by
  induction steps generalizing v with
  | zero =>
      rw [candidates_succ start 0 hv, List.find?_cons, probe?]
      cases taken.contains (start + v) <;> rfl
  | succ steps ih =>
      have hnext : (v + 1) % window < window := Nat.mod_lt _ (Nat.zero_lt_of_lt hv)
      rw [candidates_succ start (steps + 1) hv, List.find?_cons, probe?, next_eq_mod hv, ih hnext]
      cases taken.contains (start + v) <;> rfl

/-- The free slot, found by as many steps as there are slots taken. -/
def freeSlot? (start window : Nat) (taken : List Nat) (offset : Nat) : Option Nat :=
  probe? start window taken taken.length offset

theorem freeSlot?_eq (start : Nat) {window offset : Nat} {taken : List Nat}
    (h : taken.length < window) (hoffset : offset < window) :
    freeSlot? start window taken offset = some (freeSlot start window taken offset) := by
  obtain ⟨v, hfind, -⟩ := exists_free_candidate start offset h
  rw [freeSlot?, probe?_eq_find? start taken _ hoffset, freeSlot_eq, hfind]
  rfl

/-- The edge of a key, its slots found by probing. -/
def ofKey? (key : UInt64) (slots window : Nat) : Option Edge := do
  let h := Word.mix key
  let start := Word.scale64 h (slots - window)
  let digits := Word.mix (h ^^^ 0x9e3779b97f4a7c15)
  let first ← freeSlot? start window [] (Word.scale64 digits window)
  let digits := nextDigits digits
  let second ← freeSlot? start window [first] (Word.scale64 digits window)
  let digits := nextDigits digits
  let third ← freeSlot? start window [first, second] (Word.scale64 digits window)
  some ⟨first, second, third, h.toUInt8⟩

theorem ofKey?_eq (key : UInt64) (slots : Nat) {window : Nat} (h3 : 3 ≤ window) :
    ofKey? key slots window = some (ofKey key slots window) := by
  have hfree (start : Nat) (taken : List Nat) (h : taken.length < 3) (digits : UInt64) :
      freeSlot? start window taken (Word.scale64 digits window) =
        some (freeSlot start window taken (Word.scale64 digits window)) :=
    freeSlot?_eq start (Nat.lt_of_lt_of_le h h3) (Word.scale64_lt digits (by omega))
  unfold ofKey?
  simp only [Option.bind_eq_bind]
  rw [hfree _ [] (by decide), Option.bind_some, hfree _ [_] (by simp), Option.bind_some,
    hfree _ [_, _] (by simp), Option.bind_some]
  rfl

/-- Checks the equation of an edge, and stops where a slot is not in the table. -/
def check? (e : Edge) (table : Array UInt8) : Option Bool := do
  let a ← table[e.first]?
  let b ← table[e.second]?
  let c ← table[e.third]?
  some (e.fingerprint ^^^ a ^^^ b ^^^ c == 0)

theorem check?_eq {e : Edge} {table : Array UInt8} (h : e.Fits table.size) :
    e.check? table = some (e.check table) := by
  have hfirst : e.first < table.size := h.lt _ (by simp [vertices])
  have hsecond : e.second < table.size := h.lt _ (by simp [vertices])
  have hthird : e.third < table.size := h.lt _ (by simp [vertices])
  simp [check?, check, residue, hfirst, hsecond, hthird]

end Edge

namespace XorFilter

/-- A lookup that stops where probing does not end or a slot is not in the table. -/
def contains? (f : XorFilter) (hash : UInt64) : Option Bool := do
  let e ← Edge.ofKey? (Word.keyed f.seed hash) f.table.size f.window
  e.check? f.table

theorem contains?_eq {f : XorFilter} (hf : f.Valid) (hash : UInt64) :
    f.contains? hash = some (f.contains hash) := by
  have hfits := Edge.fits_ofKey (Word.keyed f.seed hash) hf.2.1 hf.2.2
  rw [contains?, contains, Edge.ofKey?_eq _ _ hf.2.1, Option.bind_eq_bind, Option.bind_some,
    Edge.check?_eq hfits]

/-- Two slots are too few for three vertices, so the third probe does not end. -/
example : (⟨Array.replicate 8 0, 2, 0⟩ : XorFilter).contains? 1 = none := by
  decide

/-! ## Valid filters -/

theorem eq_of_copy {a : Allocator} {f g : XorFilter} (h : f.copy a = .ok g) : g = f := by
  obtain ⟨_, -, hcopy⟩ := Codec.bind_eq_ok_iff.mp h
  cases hcopy
  rfl

theorem eight_le_firstSize (keys : Nat) : sizeStep ≤ firstSize keys := by
  rcases firstSize_spec keys with ⟨hpos, hdvd⟩
  exact Nat.le_of_dvd hpos hdvd

theorem Solves.valid {f : XorFilter} {keys : List UInt64} {seed : UInt64} {attempt : Nat}
    (h : f.Solves keys seed attempt) : f.Valid := by
  have hsize : sizeStep ≤ f.table.size :=
    h.size_eq ▸ Nat.le_trans (eight_le_firstSize keys.length) (Nat.le_add_right _ _)
  have hwindow := windowOf_spec (Nat.le_trans (by decide) hsize)
  exact ⟨hsize, h.window_eq ▸ hwindow.1, h.window_eq ▸ hwindow.2⟩

theorem exists_solves_of_ofHashes {a : Allocator} {hashes : List UInt64} {seed : UInt64}
    {f : XorFilter} (h : (ofHashes a hashes seed).value = .ok f) :
    ∃ attempt, f.Solves (keysOf hashes seed) seed attempt := by
  have hne : hashes ≠ [] := by
    rintro rfl
    cases h
  have hcases := ofHashes_cases a hne seed
  rw [h] at hcases
  rcases hcases.exists_solves with ⟨attempt, -, hsolves, -⟩
  exact ⟨attempt, hsolves⟩

theorem valid_ofHashes {a : Allocator} {hashes : List UInt64} {seed : UInt64} {f : XorFilter}
    (h : (ofHashes a hashes seed).value = .ok f) : f.Valid :=
  (exists_solves_of_ofHashes h).choose_spec.valid

end XorFilter

end ApproxSet
