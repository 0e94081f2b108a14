import ApproxSet.Proofs.XorFilter.Bounds

/-!
# Edges in machine words

A machine keeps the places of a probe in 64-bit words, and reduces a word to a range by the upper
half of a 128-bit product. On any table that such words can address nothing wraps around: each probe
ends within two steps, and the three slots are those of the edge.
-/

namespace ApproxSet

namespace Word

/-- The upper half of a product of 128 bits. -/
def scaleWord (x n : UInt64) : UInt64 :=
  .ofBitVec (((x.toBitVec.setWidth 128 * n.toBitVec.setWidth 128) >>> 64).setWidth 64)

theorem toNat_scaleWord (x n : UInt64) : (scaleWord x n).toNat = scale64 x n.toNat := by
  have hx := x.toNat_lt
  have hn := n.toNat_lt
  have hproduct : x.toNat * n.toNat < 2 ^ 128 :=
    calc x.toNat * n.toNat < 2 ^ 64 * 2 ^ 64 := Nat.mul_lt_mul'' hx hn
      _ = 2 ^ 128 := by decide
  have hupper : x.toNat * n.toNat / 2 ^ 64 < 2 ^ 64 := Nat.div_lt_of_lt_mul hproduct
  rw [scaleWord, scale64, UInt64.toNat_ofBitVec, BitVec.toNat_setWidth, BitVec.toNat_ushiftRight,
    BitVec.toNat_mul, BitVec.toNat_setWidth, BitVec.toNat_setWidth, UInt64.toNat_toBitVec,
    UInt64.toNat_toBitVec, Nat.mod_eq_of_lt (Nat.lt_trans hx (by decide)),
    Nat.mod_eq_of_lt (Nat.lt_trans hn (by decide)), Nat.mod_eq_of_lt hproduct,
    Nat.shiftRight_eq_div_pow, Nat.mod_eq_of_lt hupper]

theorem scaleWord_lt (x : UInt64) {n : UInt64} (hn : 0 < n.toNat) :
    (scaleWord x n).toNat < n.toNat := by
  rw [toNat_scaleWord]
  exact scale64_lt x hn

end Word

namespace Edge

/-! ## Probes -/

def nextPlace (window place : UInt64) : UInt64 :=
  if place + 1 = window then 0 else place + 1

/-- Probes from a place of the window on, and stops if it has not ended after `steps` steps. -/
def probeWord? (start window : UInt64) (taken : List UInt64) :
    (steps : Nat) → (place : UInt64) → Option UInt64
  | steps, place =>
    if taken.contains (place + start) then
      match steps with
      | 0 => none
      | steps + 1 => probeWord? start window taken steps (nextPlace window place)
    else some (place + start)

theorem toNat_slot {start window place : UInt64} (hroom : start.toNat + window.toNat < 2 ^ 64)
    (hplace : place.toNat < window.toNat) : (place + start).toNat = start.toNat + place.toNat := by
  rw [UInt64.toNat_add, Nat.mod_eq_of_lt (by omega), Nat.add_comm]

theorem toNat_nextPlace {window place : UInt64} (hplace : place.toNat < window.toNat) :
    (nextPlace window place).toNat = (place.toNat + 1) % window.toNat := by
  have hnext : (place + 1).toNat = place.toNat + 1 := by
    rw [UInt64.toNat_add]
    exact Nat.mod_eq_of_lt (Nat.lt_of_le_of_lt hplace window.toNat_lt)
  rw [← next_eq_mod hplace, nextPlace]
  simp only [← UInt64.toNat_inj, hnext]
  split
  · rfl
  · exact hnext

theorem contains_map_toNat (taken : List UInt64) (slot : UInt64) :
    (taken.map UInt64.toNat).contains slot.toNat = taken.contains slot := by
  rw [Bool.eq_iff_iff, List.contains_iff_mem, List.contains_iff_mem]
  exact List.mem_map_of_injective fun _ _ => UInt64.toNat_inj.mp

/-- A probe in words takes the same way as one in numbers. -/
theorem map_probeWord? {start window : UInt64} (hroom : start.toNat + window.toNat < 2 ^ 64)
    (taken : List UInt64) (steps : Nat) {place : UInt64} (hplace : place.toNat < window.toNat) :
    (probeWord? start window taken steps place).map UInt64.toNat =
      probe? start.toNat window.toNat (taken.map UInt64.toNat) steps place.toNat := by
  have htaken {place : UInt64} (hplace : place.toNat < window.toNat) :
      (taken.map UInt64.toNat).contains (start.toNat + place.toNat) =
        taken.contains (place + start) := by
    rw [← toNat_slot hroom hplace, contains_map_toNat]
  have hfree {place : UInt64} (hplace : place.toNat < window.toNat) :
      (some (place + start)).map UInt64.toNat = some (start.toNat + place.toNat) :=
    congrArg some (toNat_slot hroom hplace)
  induction steps generalizing place with
  | zero =>
      rw [probeWord?, probe?, htaken hplace]
      cases taken.contains (place + start) with
      | true => rfl
      | false => exact hfree hplace
  | succ steps ih =>
      rw [probeWord?, probe?, htaken hplace]
      cases taken.contains (place + start) with
      | true =>
          have hnext := toNat_nextPlace hplace
          have hlt : (nextPlace window place).toNat < window.toNat := by
            rw [hnext]
            exact Nat.mod_lt _ (Nat.zero_lt_of_lt hplace)
          rw [next_eq_mod hplace, ← hnext]
          exact ih hlt
      | false => exact hfree hplace

/-- A probe that has ended ends the same way with more steps allowed. -/
theorem probe?_of_le {start window : Nat} {taken : List Nat} {steps steps' v slot : Nat}
    (hle : steps ≤ steps') (h : probe? start window taken steps v = some slot) :
    probe? start window taken steps' v = some slot := by
  induction steps generalizing steps' v with
  | zero =>
      unfold probe? at h ⊢
      cases hv : taken.contains (start + v) with
      | true =>
          rw [hv] at h
          cases h
      | false =>
          rw [hv] at h
          exact h
  | succ steps ih =>
      obtain ⟨more, rfl⟩ := Nat.exists_eq_succ_of_ne_zero (Nat.ne_of_gt (Nat.zero_lt_of_lt hle))
      rw [probe?] at h ⊢
      cases hv : taken.contains (start + v) with
      | true =>
          rw [hv] at h
          exact ih (Nat.le_of_succ_le_succ hle) h
      | false =>
          rw [hv] at h
          exact h

/-- With at most two slots taken, two steps are enough. -/
theorem exists_probeWord? {start window : UInt64} (hroom : start.toNat + window.toNat < 2 ^ 64)
    (h3 : 3 ≤ window.toNat) (taken : List UInt64) (htaken : taken.length ≤ 2) (digits : UInt64) :
    ∃ slot, probeWord? start window taken 2 (Word.scaleWord digits window) = some slot ∧
      slot.toNat = freeSlot start.toNat window.toNat (taken.map UInt64.toNat)
        (Word.scale64 digits window.toNat) := by
  have hplace := Word.scaleWord_lt digits (Nat.zero_lt_of_lt h3)
  have hlength : (taken.map UInt64.toNat).length ≤ 2 := by rwa [List.length_map]
  have hends := probe?_of_le hlength
    (freeSlot?_eq start.toNat (Nat.lt_of_le_of_lt hlength h3) hplace)
  rw [← map_probeWord? hroom taken 2 hplace, Word.toNat_scaleWord] at hends
  exact Option.map_eq_some_iff.mp hends

/-! ## Edges -/

/-- The edge of a key, its slots found by probes in words of at most `steps` steps each. -/
def ofKeyWord? (steps : Nat) (key slots window : UInt64) : Option Edge := do
  let h := Word.mix key
  let start := Word.scaleWord h (slots - window)
  let digits := Word.mix (h ^^^ 0x9e3779b97f4a7c15)
  let first ← probeWord? start window [] steps (Word.scaleWord digits window)
  let digits := nextDigits digits
  let second ← probeWord? start window [first] steps (Word.scaleWord digits window)
  let digits := nextDigits digits
  let third ← probeWord? start window [first, second] steps (Word.scaleWord digits window)
  some ⟨first.toNat, second.toNat, third.toNat, h.toUInt8⟩

/-- In words, too, every key has its edge, and no probe takes more than two steps to it. -/
theorem ofKeyWord?_eq (key : UInt64) {slots window : UInt64} (h3 : 3 ≤ window.toNat)
    (hw : window ≤ slots) :
    ofKeyWord? 2 key slots window = some (ofKey key slots.toNat window.toNat) := by
  unfold ofKeyWord?
  extract_lets h start digits digits' digits''
  have hstart : start.toNat = Word.scale64 h (slots.toNat - window.toNat) := by
    rw [Word.toNat_scaleWord, UInt64.toNat_sub_of_le _ _ hw]
  have hroom : start.toNat + window.toNat < 2 ^ 64 := by
    rw [hstart]
    exact Nat.lt_of_le_of_lt (start_add_window_le h (UInt64.le_iff_toNat_le.mp hw)) slots.toNat_lt
  -- each slot is looked for around those before it, so one search is settled after the other
  obtain ⟨u, hprobe, hu⟩ := exists_probeWord? hroom h3 [] (Nat.zero_le 2) digits
  obtain ⟨v, hprobe', hv⟩ := exists_probeWord? hroom h3 [u] (Nat.le_succ 1) digits'
  obtain ⟨w, hprobe'', hw⟩ := exists_probeWord? hroom h3 [u, v] (Nat.le_refl 2) digits''
  simp only [List.map_cons, List.map_nil, hstart] at hu hv hw
  simp only [Option.bind_eq_bind]
  rw [hprobe, Option.bind_some, hprobe', Option.bind_some, hprobe'', Option.bind_some, hw, hv, hu]
  rfl

/-! ## Windows -/

theorem le_freeSlot (start window offset : Nat) (taken : List Nat) :
    start ≤ freeSlot start window taken offset := by
  rw [freeSlot_eq]
  cases hfind : (candidates start window offset (taken.length + 1)).find?
      (fun v => !taken.contains v) with
  | none => exact Nat.le_refl start
  | some v =>
      obtain ⟨k, -, rfl⟩ := List.mem_map.mp (List.mem_of_find?_eq_some hfind)
      exact Nat.le_add_right _ _

theorem mem_vertices_ofKey {key : UInt64} {slots window v : Nat} (h3 : 3 ≤ window)
    (hv : v ∈ (ofKey key slots window).vertices) :
    Word.scale64 (Word.mix key) (slots - window) ≤ v ∧
      v < Word.scale64 (Word.mix key) (slots - window) + window := by
  refine ⟨?_, (fits_freeSlots _ h3 _ _ _ _).lt v hv⟩
  simp only [vertices, List.mem_cons, List.not_mem_nil, or_false] at hv
  rcases hv with rfl | rfl | rfl
  · exact le_freeSlot _ window _ []
  · exact le_freeSlot _ window _ [_]
  · exact le_freeSlot _ window _ [_, _]

/-- The edge of a key on any table a word can address: no probe for its slots takes more than two
steps, the slots are distinct, and they lie in one window of the table. -/
theorem vertices_ofKey_in_window (key : UInt64) {slots window : UInt64} (h3 : 3 ≤ window.toNat)
    (hw : window ≤ slots) :
    ofKeyWord? 2 key slots window = some (ofKey key slots.toNat window.toNat) ∧
      (ofKey key slots.toNat window.toNat).vertices.Nodup ∧
      ∃ start, start + window.toNat ≤ slots.toNat ∧
        ∀ v ∈ (ofKey key slots.toNat window.toNat).vertices,
          start ≤ v ∧ v < start + window.toNat := by
  have hw' : window.toNat ≤ slots.toNat := UInt64.le_iff_toNat_le.mp hw
  refine ⟨ofKeyWord?_eq key h3 hw, (fits_ofKey key h3 hw').nodup, _,
    start_add_window_le (Word.mix key) hw', ?_⟩
  intro v hv
  exact mem_vertices_ofKey h3 hv

/-- A window as large as its table. All three probes begin at slot 2, so the third one passes slots 2
and 0 and ends, around the window, at slot 1: one step would not do. -/
theorem vertices_ofKey_in_whole_table :
    3 ≤ (3 : UInt64).toNat ∧ (3 : UInt64) ≤ 3 ∧ ofKeyWord? 1 7 3 3 = none ∧
      ofKeyWord? 2 7 3 3 = some (ofKey 7 3 3) ∧ (ofKey 7 3 3).vertices = [2, 0, 1] ∧
      (ofKey 7 3 3).vertices.Nodup ∧
      ∃ start, start + 3 ≤ 3 ∧ ∀ v ∈ (ofKey 7 3 3).vertices, start ≤ v ∧ v < start + 3 := by
  have h3 : 3 ≤ (3 : UInt64).toNat := by decide
  have hw : (3 : UInt64) ≤ 3 := by decide
  rcases vertices_ofKey_in_window 7 h3 hw with ⟨hprobes, hnodup, hwindow⟩
  exact ⟨h3, hw, by decide, hprobes, by decide, hnodup, hwindow⟩

end Edge

end ApproxSet
