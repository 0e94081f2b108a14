import ApproxSet.XorFilter.Peeling
import Mathlib.Data.List.Perm.Basic

/-!
# Peelable hypergraphs

The edges of a list are named by their positions. Peeling may take away an edge that has a slot to
itself, in any order; a core is a set of edges none of which ever has one. Whatever the order, no
edge of a core is peeled.
-/

namespace ApproxSet.Peeling

variable {edges : Array Edge}

def slotsOf (edges : Array Edge) (i : Nat) : List Nat :=
  match edges[i]? with
  | some e => e.vertices
  | none => []

/-- Taking away edges of `left` in the order of `steps` leaves `rest`: every edge goes at a slot
that no other edge left touches. -/
inductive Peels (edges : Array Edge) : (left : List Nat) → List Step → (rest : List Nat) → Prop where
  | done (left : List Nat) : Peels edges left [] left
  | step {left rest : List Nat} {steps : List Step} {i v : Nat} (hi : i ∈ left)
      (hv : v ∈ slotsOf edges i) (hlone : ∀ j ∈ left, v ∈ slotsOf edges j → j = i)
      (h : Peels edges (left.erase i) steps rest) : Peels edges left (⟨i, v⟩ :: steps) rest

/-- All edges can be taken away in some order. -/
def Peelable (edges : Array Edge) : Prop :=
  ∃ steps, Peels edges (List.range edges.size) steps []

theorem peelable_singleton (e : Edge) : Peelable #[e] := by
  have hi : 0 ∈ List.range #[e].size := by simp
  have hv : e.first ∈ slotsOf #[e] 0 := by simp [slotsOf, Edge.vertices]
  have hlone : ∀ j ∈ List.range #[e].size, e.first ∈ slotsOf #[e] j → j = 0 := by simp
  exact ⟨[⟨0, e.first⟩], .step hi hv hlone (.done [])⟩

/-- Every slot of every edge of the core is also a slot of another one. -/
def IsCore (edges : Array Edge) (core : List Nat) : Prop :=
  ∀ i ∈ core, ∀ v ∈ slotsOf edges i, ∃ j ∈ core, j ≠ i ∧ v ∈ slotsOf edges j

theorem Peels.length {left rest : List Nat} {steps : List Step} (h : Peels edges left steps rest) :
    steps.length + rest.length = left.length := by
  induction h with
  | done left => simp
  | @step left rest steps i v hi _ _ _ ih =>
      have herase := List.length_erase_of_mem hi
      have hpos := List.length_pos_of_mem hi
      rw [List.length_cons]
      omega

theorem Peels.core_subset {left rest core : List Nat} {steps : List Step}
    (h : Peels edges left steps rest) (hcore : IsCore edges core) (hsub : core ⊆ left) :
    core ⊆ rest := by
  induction h with
  | done left => exact hsub
  | @step left rest steps i v hi hv hlone _ ih =>
      have hi' : i ∉ core := by
        intro hmem
        rcases hcore i hmem v hv with ⟨j, hj, hne, hjv⟩
        exact hne (hlone j (hsub hj) hjv)
      apply ih
      intro j hj
      have hne : j ≠ i := fun h => hi' (h ▸ hj)
      exact (List.mem_erase_of_ne hne).mpr (hsub hj)

theorem Peels.rest_subset {left rest : List Nat} {steps : List Step}
    (h : Peels edges left steps rest) : rest ⊆ left := by
  induction h with
  | done left => exact List.Subset.refl _
  | step _ _ _ _ ih => exact fun j hj => List.mem_of_mem_erase (ih hj)

/-- What was taken away and what is left are the edges there were. -/
theorem Peels.edges_perm {left rest : List Nat} {steps : List Step}
    (h : Peels edges left steps rest) : (steps.map Step.edge ++ rest).Perm left := by
  induction h with
  | done left => exact List.Perm.refl left
  | step hi _ _ _ ih => exact (ih.cons _).trans (List.perm_cons_erase hi).symm

theorem Peels.edge_mem {left rest : List Nat} {steps : List Step}
    (h : Peels edges left steps rest) {step : Step} (hstep : step ∈ steps) : step.edge ∈ left :=
  h.edges_perm.subset (List.mem_append_left rest (List.mem_map_of_mem hstep))

theorem Peels.slot_mem {left rest : List Nat} {steps : List Step}
    (h : Peels edges left steps rest) : ∀ step ∈ steps, step.slot ∈ slotsOf edges step.edge := by
  induction h with
  | done left => exact fun step hstep => absurd hstep List.not_mem_nil
  | step _ hv _ _ ih =>
      intro step hstep
      rcases List.mem_cons.mp hstep with rfl | hstep
      · exact hv
      · exact ih step hstep

/-- No edge touches a slot that an edge before it was taken away from. -/
theorem Peels.pairwise {left rest : List Nat} {steps : List Step}
    (h : Peels edges left steps rest) (hleft : left.Nodup) :
    steps.Pairwise fun earlier later => earlier.slot ∉ slotsOf edges later.edge := by
  induction h with
  | done left => exact List.Pairwise.nil
  | @step left rest steps i v _ _ hlone hpeels ih =>
      refine List.pairwise_cons.mpr ⟨fun later hlater hv => ?_, ih (hleft.erase i)⟩
      have hmem := (hleft.mem_erase_iff).mp (hpeels.edge_mem hlater)
      exact hmem.1 (hlone later.edge hmem.2 hv)

/-- Peeling that ends at a core has decided whether all edges can be peeled. -/
theorem peelable_iff_of_core {steps : List Step} {rest : List Nat}
    (h : Peels edges (List.range edges.size) steps rest) (hrest : IsCore edges rest) :
    Peelable edges ↔ rest = [] := by
  constructor
  · intro hpeelable
    rcases hpeelable with ⟨order, horder⟩
    exact List.subset_nil.mp (horder.core_subset hrest h.rest_subset)
  · rintro rfl
    exact ⟨steps, h⟩

/-! ## The edges at a slot -/

def touching (edges : Array Edge) (left : List Nat) (v : Nat) : List Nat :=
  left.filter fun i => decide (v ∈ slotsOf edges i)

theorem mem_touching {left : List Nat} {i v : Nat} :
    i ∈ touching edges left v ↔ i ∈ left ∧ v ∈ slotsOf edges i := by
  simp [touching]

theorem touching_cons (i : Nat) (left : List Nat) (v : Nat) :
    touching edges (i :: left) v =
      if v ∈ slotsOf edges i then i :: touching edges left v else touching edges left v := by
  simp only [touching, List.filter_cons, decide_eq_true_eq]

theorem touching_perm {left : List Nat} {i : Nat} (hi : i ∈ left) (v : Nat) :
    (touching edges left v).Perm
      (if v ∈ slotsOf edges i then i :: touching edges (left.erase i) v
        else touching edges (left.erase i) v) := by
  rw [← touching_cons]
  exact (List.perm_cons_erase hi).filter _

theorem lone_of_touching_eq {left : List Nat} {i v : Nat} (h : touching edges left v = [i]) :
    i ∈ left ∧ v ∈ slotsOf edges i ∧ ∀ j ∈ left, v ∈ slotsOf edges j → j = i := by
  have hmem (j : Nat) : j ∈ left ∧ v ∈ slotsOf edges j ↔ j = i := by
    rw [← mem_touching, h, List.mem_singleton]
  rcases (hmem i).mpr rfl with ⟨hi, hv⟩
  exact ⟨hi, hv, fun j hj hjv => (hmem j).mp ⟨hj, hjv⟩⟩

/-- Where no slot has exactly one edge left, the edges left are a core. -/
theorem isCore_of_length_ne_one {left : List Nat} (hleft : left.Nodup)
    (h : ∀ v, (touching edges left v).length ≠ 1) : IsCore edges left := by
  intro i hi v hv
  by_contra hall
  push Not at hall
  have hsub : touching edges left v ⊆ [i] := by
    intro j hj
    rcases mem_touching.mp hj with ⟨hjleft, hjv⟩
    by_contra hne
    exact hall j hjleft (fun heq => hne (heq ▸ List.mem_singleton_self i)) hjv
  have hnodup : (touching edges left v).Nodup := hleft.filter _
  have hle : (touching edges left v).length ≤ 1 := hnodup.length_le_of_subset hsub
  have hpos := List.length_pos_of_mem (mem_touching.mpr ⟨hi, hv⟩)
  exact h v (by omega)

/-! ## Xor of names -/

def xorAll (xs : List Nat) : Nat := xs.foldr (· ^^^ ·) 0

theorem xorAll_cons (x : Nat) (xs : List Nat) : xorAll (x :: xs) = x ^^^ xorAll xs := rfl

theorem xorAll_perm {xs ys : List Nat} (h : xs.Perm ys) : xorAll xs = xorAll ys := by
  induction h with
  | nil => rfl
  | cons x _ ih => rw [xorAll_cons, xorAll_cons, ih]
  | swap x y l => simp only [xorAll_cons, ← Nat.xor_assoc, Nat.xor_comm x y]
  | trans _ _ ih₁ ih₂ => exact ih₁.trans ih₂

end ApproxSet.Peeling
