import ApproxSet.XorFilter.Edge
import Mathlib.Data.List.Nodup
import Mathlib.Data.Nat.ModEq

/-!
# Edges of keys

The three slots of a key's edge are distinct and lie in the table, whatever the key, as long as the
window holds three slots and lies in the table itself.
-/

namespace ApproxSet.Edge

/-- The slots of the edge are distinct slots of a table of `slots` slots. -/
structure Fits (e : Edge) (slots : Nat) : Prop where
  nodup : e.vertices.Nodup
  lt : ∀ v ∈ e.vertices, v < slots

instance (e : Edge) (slots : Nat) : Decidable (e.Fits slots) :=
  decidable_of_iff (e.vertices.Nodup ∧ ∀ v ∈ e.vertices, v < slots)
    ⟨fun h => ⟨h.1, h.2⟩, fun h => ⟨h.nodup, h.lt⟩⟩

theorem mod_add_inj {window offset i j : Nat} (hi : i < window) (hj : j < window)
    (h : (offset + i) % window = (offset + j) % window) : i = j := by
  have hmod : i ≡ j [MOD window] := Nat.ModEq.add_left_cancel' offset h
  exact Nat.ModEq.eq_of_lt_of_lt hmod hi hj

def candidates (start window offset tries : Nat) : List Nat :=
  (List.range tries).map fun k => start + (offset + k) % window

theorem nodup_candidates {window tries : Nat} (h : tries ≤ window) (start offset : Nat) :
    (candidates start window offset tries).Nodup := by
  refine List.Nodup.map_on ?_ List.nodup_range
  intro i hi j hj hij
  rw [List.mem_range] at hi hj
  exact mod_add_inj (by omega) (by omega) (Nat.add_left_cancel hij)

theorem lt_of_mem_candidates {start window offset tries v : Nat} (h : 0 < window)
    (hv : v ∈ candidates start window offset tries) : v < start + window := by
  obtain ⟨k, -, rfl⟩ := List.mem_map.mp hv
  exact Nat.add_lt_add_left (Nat.mod_lt _ h) start

/-- A window that is larger than `taken` has a slot that is not, and trying one slot more than are
taken finds it. -/
theorem exists_free_candidate {window : Nat} {taken : List Nat} (start offset : Nat)
    (h : taken.length < window) :
    ∃ v, (candidates start window offset (taken.length + 1)).find? (fun v => !taken.contains v) =
      some v ∧ v ∉ taken ∧ v < start + window := by
  have hnodup := nodup_candidates (Nat.succ_le_of_lt h) start offset
  cases hfind : (candidates start window offset (taken.length + 1)).find?
      (fun v => !taken.contains v) with
  | none =>
      have hsub : candidates start window offset (taken.length + 1) ⊆ taken := by
        intro v hv
        have hv' := List.find?_eq_none.mp hfind v hv
        simpa using hv'
      have hle := hnodup.length_le_of_subset hsub
      simp only [candidates, List.length_map, List.length_range] at hle
      omega
  | some w =>
      have hw := List.find?_some hfind
      refine ⟨w, rfl, by simpa using hw, ?_⟩
      exact lt_of_mem_candidates (by omega) (List.mem_of_find?_eq_some hfind)

theorem freeSlot_eq (start window offset : Nat) (taken : List Nat) :
    freeSlot start window taken offset =
      ((candidates start window offset (taken.length + 1)).find?
        fun v => !taken.contains v).getD start := rfl

theorem freeSlot_spec {window : Nat} {taken : List Nat} (start offset : Nat)
    (h : taken.length < window) :
    freeSlot start window taken offset ∉ taken ∧
      freeSlot start window taken offset < start + window := by
  obtain ⟨v, hfind, hv⟩ := exists_free_candidate start offset h
  rw [freeSlot_eq, hfind]
  exact hv

theorem start_add_window_le (h : UInt64) {slots window : Nat} (hw : window ≤ slots) :
    Word.scale64 h (slots - window) + window ≤ slots := by
  rcases Nat.eq_zero_or_pos (slots - window) with hzero | hpos
  · rw [hzero, Word.scale64, Nat.mul_zero, Nat.zero_div]
    omega
  · have hlt := Word.scale64_lt h hpos
    omega

/-- Three free slots, each looked for around the slots before it. -/
theorem fits_freeSlots (start : Nat) {window : Nat} (h3 : 3 ≤ window) (i j k : Nat)
    (fingerprint : UInt8) :
    let u := freeSlot start window [] i
    let v := freeSlot start window [u] j
    Fits ⟨u, v, freeSlot start window [u, v] k, fingerprint⟩ (start + window) := by
  intro u v
  have hzero : ([] : List Nat).length < window := Nat.lt_of_lt_of_le (by omega : 0 < 3) h3
  have hone : [u].length < window := Nat.lt_of_lt_of_le (by omega : 1 < 3) h3
  have htwo : [u, v].length < window := Nat.lt_of_lt_of_le (by omega : 2 < 3) h3
  rcases freeSlot_spec start i hzero with ⟨-, hu⟩
  rcases freeSlot_spec start j hone with ⟨huv, hv⟩
  rcases freeSlot_spec start k htwo with ⟨huvw, hw⟩
  simp only [List.mem_cons, List.not_mem_nil, or_false, not_or] at huv huvw
  constructor
  · simp only [vertices, List.nodup_cons, List.mem_cons, List.not_mem_nil, or_false, not_or,
      not_false_eq_true, List.nodup_nil, and_true]
    exact ⟨⟨Ne.symm huv, Ne.symm huvw.1⟩, Ne.symm huvw.2⟩
  · intro x hx
    simp only [vertices, List.mem_cons, List.not_mem_nil, or_false] at hx
    rcases hx with rfl | rfl | rfl
    · exact hu
    · exact hv
    · exact hw

theorem fits_ofKey (key : UInt64) {slots window : Nat} (h3 : 3 ≤ window) (hw : window ≤ slots) :
    (ofKey key slots window).Fits slots := by
  have hstart := start_add_window_le (Word.mix key) hw
  have hfits := fits_freeSlots (Word.scale64 (Word.mix key) (slots - window)) h3
  exact ⟨(hfits _ _ _ _).nodup, fun v hv => Nat.lt_of_lt_of_le ((hfits _ _ _ _).lt v hv) hstart⟩

end ApproxSet.Edge
