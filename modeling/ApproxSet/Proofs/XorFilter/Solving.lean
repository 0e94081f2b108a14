import ApproxSet.Proofs.XorFilter.Peeling

/-!
# Solving the equations

Slots are set in the order opposite to peeling. The slot an edge was peeled from belongs to no edge
that was left then, and those are the edges whose equations hold already, so setting it keeps them.
-/

namespace ApproxSet

namespace Edge

theorem residue_congr (e : Edge) {t t' : Array UInt8}
    (h : ∀ v ∈ e.vertices, t'.getD v 0 = t.getD v 0) : e.residue t' = e.residue t := by
  have hfirst := h e.first (by simp [vertices])
  have hsecond := h e.second (by simp [vertices])
  have hthird := h e.third (by simp [vertices])
  simp only [residue, hfirst, hsecond, hthird]

end Edge

namespace Peeling

variable {edges : Array Edge} {slots : Nat}

theorem getD_setIfInBounds {t : Array UInt8} {v : Nat} (hv : v < t.size) (x : UInt8) (w : Nat) :
    (t.setIfInBounds v x).getD w 0 = if w = v then x else t.getD w 0 := by
  rw [Array.getD_eq_getD_getElem?, Array.getD_eq_getD_getElem?, Array.getElem?_setIfInBounds]
  by_cases h : v = w
  · subst h
    simp [hv]
  · simp [h, Ne.symm h]

def completion (e : Edge) (t : Array UInt8) (slot : Nat) : UInt8 :=
  (e.vertices.filter (· != slot)).foldl (fun x v => x ^^^ t.getD v 0) e.fingerprint

theorem settle_eq {e : Edge} {step : Step} (he : edges[step.edge]? = some e) (t : Array UInt8) :
    settle edges t step = t.setIfInBounds step.slot (completion e t step.slot) := by
  simp only [settle, he]
  rfl

theorem residue_set_completion {e : Edge} {t : Array UInt8} (hfits : e.Fits t.size) {slot : Nat}
    (hslot : slot ∈ e.vertices) :
    e.residue (t.setIfInBounds slot (completion e t slot)) = 0 := by
  have hlt := hfits.lt slot hslot
  rcases e with ⟨a, b, c, fingerprint⟩
  have hnodup := hfits.nodup
  simp only [Edge.vertices, List.nodup_cons, List.mem_cons, List.not_mem_nil, or_false, not_or,
    not_false_eq_true, List.nodup_nil, and_true] at hnodup
  rcases hnodup with ⟨⟨hab, hac⟩, hbc⟩
  simp only [Edge.vertices, List.mem_cons, List.not_mem_nil, or_false] at hslot
  simp only [Edge.residue, getD_setIfInBounds hlt]
  rcases hslot with rfl | rfl | rfl
  · have hvalue : completion ⟨slot, b, c, fingerprint⟩ t slot =
        fingerprint ^^^ t.getD b 0 ^^^ t.getD c 0 := by
      simp [completion, Edge.vertices, Ne.symm hab, Ne.symm hac]
    rw [hvalue, if_pos rfl, if_neg (Ne.symm hab), if_neg (Ne.symm hac)]
    generalize t.getD b 0 = x
    generalize t.getD c 0 = y
    have hxor : fingerprint ^^^ (fingerprint ^^^ x ^^^ y) ^^^ x ^^^ y =
        (fingerprint ^^^ x ^^^ y) ^^^ (fingerprint ^^^ x ^^^ y) := by ac_rfl
    rw [hxor, UInt8.xor_self]
  · have hvalue : completion ⟨a, slot, c, fingerprint⟩ t slot =
        fingerprint ^^^ t.getD a 0 ^^^ t.getD c 0 := by
      simp [completion, Edge.vertices, hab, Ne.symm hbc]
    rw [hvalue, if_pos rfl, if_neg hab, if_neg (Ne.symm hbc)]
    generalize t.getD a 0 = x
    generalize t.getD c 0 = y
    have hxor : fingerprint ^^^ x ^^^ (fingerprint ^^^ x ^^^ y) ^^^ y =
        (fingerprint ^^^ x ^^^ y) ^^^ (fingerprint ^^^ x ^^^ y) := by ac_rfl
    rw [hxor, UInt8.xor_self]
  · have hvalue : completion ⟨a, b, slot, fingerprint⟩ t slot =
        fingerprint ^^^ t.getD a 0 ^^^ t.getD b 0 := by
      simp [completion, Edge.vertices, hac, hbc]
    rw [hvalue, if_pos rfl, if_neg hac, if_neg hbc, UInt8.xor_self]

theorem size_settle (t : Array UInt8) (step : Step) : (settle edges t step).size = t.size := by
  unfold settle
  split
  · exact Array.size_setIfInBounds
  · rfl

theorem settle_solves (hfit : AllFit edges slots) {t : Array UInt8} (ht : t.size = slots)
    {step : Step} {e : Edge} (he : edges[step.edge]? = some e) (hslot : step.slot ∈ e.vertices) :
    e.residue (settle edges t step) = 0 := by
  have hfits : e.Fits t.size := ht ▸ hfit e (Array.mem_of_getElem? he)
  rw [settle_eq he]
  exact residue_set_completion hfits hslot

/-- An edge that does not have the slot keeps its residue. -/
theorem residue_settle (hfit : AllFit edges slots) {t : Array UInt8} (ht : t.size = slots)
    {step : Step} (hslot : step.slot ∈ slotsOf edges step.edge) {e : Edge}
    (he : step.slot ∉ e.vertices) : e.residue (settle edges t step) = e.residue t := by
  have hlt : step.slot < t.size := ht ▸ (hfit.slotsOf step.edge).2 _ hslot
  apply e.residue_congr
  intro v hv
  have hne : v ≠ step.slot := fun h => he (h ▸ hv)
  unfold settle
  split
  · rw [getD_setIfInBounds hlt, if_neg hne]
  · rfl

/-- Setting slots in the order opposite to peeling solves the equations of all edges peeled. -/
theorem solves_of_peels (hfit : AllFit edges slots) {left rest : List Nat} {steps : List Step}
    (h : Peels edges left steps rest) {start : Array UInt8} (hstart : start.size = slots) :
    (steps.foldr (fun step t => settle edges t step) start).size = slots ∧
      ∀ i ∈ left, i ∉ rest → ∀ e, edges[i]? = some e →
        e.residue (steps.foldr (fun step t => settle edges t step) start) = 0 := by
  induction h with
  | done left => exact ⟨hstart, fun i hi hnot => absurd hi hnot⟩
  | @step left rest steps i v hi hv hlone hpeels ih =>
      rcases ih with ⟨hsize, hsolved⟩
      rw [List.foldr_cons]
      refine ⟨(size_settle _ _).trans hsize, fun j hj hnot e he => ?_⟩
      have hslots : slotsOf edges j = e.vertices := by simp only [slotsOf, he]
      by_cases hji : j = i
      · subst hji
        exact settle_solves hfit hsize he (hslots ▸ hv)
      · have hve : v ∉ e.vertices := fun hmem => hji (hlone j hj (hslots.symm ▸ hmem))
        have hslot : (Step.mk i v).slot ∈ slotsOf edges (Step.mk i v).edge := hv
        have hkeep := residue_settle hfit hsize hslot hve
        exact hkeep.trans (hsolved j ((List.mem_erase_of_ne hji).mpr hj) hnot e he)

/-- Solving succeeds exactly if all edges can be peeled, and then the table satisfies all
equations. -/
theorem solve?_spec (hfit : AllFit edges slots) :
    match solve? edges slots with
    | some table => table.size = slots ∧ (∀ e ∈ edges, e.check table = true) ∧ Peelable edges
    | none => ¬ Peelable edges := by
  have horder := order?_spec hfit
  unfold solve?
  cases hsteps : order? edges slots with
  | none =>
      rw [hsteps] at horder
      exact horder
  | some steps =>
      rw [hsteps] at horder
      have hpeels : Peels edges (List.range edges.size) steps [] := horder
      have hstart : (Array.replicate slots (0 : UInt8)).size = slots := Array.size_replicate
      rcases solves_of_peels hfit hpeels hstart with ⟨hsize, hsolved⟩
      rw [Option.map_some, List.foldl_reverse]
      refine ⟨hsize, fun e he => ?_, steps, hpeels⟩
      rcases Array.mem_iff_getElem.mp he with ⟨i, hi, hget⟩
      have hzero := hsolved i (List.mem_range.mpr hi) List.not_mem_nil e
        (by rw [Array.getElem?_eq_getElem hi, hget])
      exact beq_iff_eq.mpr hzero

end Peeling

end ApproxSet
