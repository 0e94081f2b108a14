import ApproxSet.Proofs.XorFilter.Counters
import Mathlib.Data.Finset.Card

/-!
# Which lists of edges have an order

Edges that hold each other, so that none of them ever has a slot to itself, are never peeled, whatever
the order; and if peeling stops before all edges are gone, those that are left hold each other. So
going for the first slot at hand misses no order: there is one exactly if no edges hold each other.
-/

namespace ApproxSet.Peeling

variable {edges : Array Edge} {slots : Nat}

/-- Some edges, by their positions, that hold each other: a slot that one of them touches is touched
by two at least. -/
structure Stuck (edges : Array Edge) (core : Finset Nat) : Prop where
  nonempty : core.Nonempty
  lt_size : ∀ i ∈ core, i < edges.size
  two_le : ∀ v, (∃ i ∈ core, v ∈ slotsOf edges i) →
    2 ≤ (core.filter fun i => v ∈ slotsOf edges i).card

theorem Stuck.isCore {core : Finset Nat} (h : Stuck edges core) : IsCore edges core.toList := by
  intro i hi v hv
  have htwo := h.two_le v ⟨i, Finset.mem_toList.mp hi, hv⟩
  rcases Finset.exists_mem_ne htwo i with ⟨j, hj, hne⟩
  rcases Finset.mem_filter.mp hj with ⟨hjcore, hjv⟩
  exact ⟨j, Finset.mem_toList.mpr hjcore, hne, hjv⟩

theorem IsCore.stuck {rest : List Nat} (h : IsCore edges rest) (hrest : rest ≠ [])
    (hlt : ∀ i ∈ rest, i < edges.size) : Stuck edges rest.toFinset := by
  refine ⟨List.toFinset_nonempty_iff rest |>.mpr hrest,
    fun i hi => hlt i (List.mem_toFinset.mp hi), ?_⟩
  intro v htouched
  rcases htouched with ⟨i, hi, hv⟩
  rcases h i (List.mem_toFinset.mp hi) v hv with ⟨j, hj, hne, hjv⟩
  have hifilter : i ∈ rest.toFinset.filter fun i => v ∈ slotsOf edges i :=
    Finset.mem_filter.mpr ⟨hi, hv⟩
  have hjfilter : j ∈ rest.toFinset.filter fun i => v ∈ slotsOf edges i :=
    Finset.mem_filter.mpr ⟨List.mem_toFinset.mpr hj, hjv⟩
  exact Finset.one_lt_card.mpr ⟨j, hjfilter, i, hifilter, hne⟩

/-- Edges that hold each other are never peeled. -/
theorem Peels.not_stuck {steps : List Step} (h : Peels edges (List.range edges.size) steps []) :
    ¬ ∃ core, Stuck edges core := by
  intro hstuck
  rcases hstuck with ⟨core, hcore⟩
  have hsub : core.toList ⊆ List.range edges.size :=
    fun i hi => List.mem_range.mpr (hcore.lt_size i (Finset.mem_toList.mp hi))
  have hnil := List.subset_nil.mp (h.core_subset hcore.isCore hsub)
  exact hcore.nonempty.ne_empty (Finset.toList_eq_nil.mp hnil)

/-- Where peeling stops early, the edges left hold each other. -/
theorem exists_stuck_of_not_peelable (hfit : AllFit edges slots) (h : ¬ Peelable edges) :
    ∃ core, Stuck edges core := by
  have hlength : (List.range edges.size).length ≤ edges.size := Nat.le_of_eq List.length_range
  obtain ⟨rest, hpeels, hcore⟩ := peels_peelFrom hfit edges.size List.nodup_range hlength
    (consistent_start hfit)
  have hrest : rest ≠ [] := fun hnil => h ((peelable_iff_of_core hpeels hcore).mpr hnil)
  exact ⟨rest.toFinset, hcore.stuck hrest
    fun i hi => List.mem_range.mp (hpeels.rest_subset hi)⟩

/-- There is an order exactly if no edges hold each other. It has every edge once, each with a slot of
its own that no later edge touches, and no counter leaves its range while it is looked for, however
long that may go on. -/
theorem exists_order_iff_not_stuck (hfit : AllFit edges slots) (hsize : edges.size < 2 ^ 32) :
    ((∃ steps, order? edges slots = some steps) ↔ ¬ ∃ core, Stuck edges core) ∧
      (∀ steps, order? edges slots = some steps →
        (steps.map Step.edge).Perm (List.range edges.size) ∧
        (∀ step ∈ steps, step.slot ∈ slotsOf edges step.edge) ∧
        steps.Pairwise fun earlier later => earlier.slot ∉ slotsOf edges later.edge) ∧
      ∀ limit, edges.size ≤ limit →
        orderChecked edges slots limit = some (order? edges slots) := by
  have hspec := order?_spec hfit
  have hpeels (steps : List Step) (hsteps : order? edges slots = some steps) :
      Peels edges (List.range edges.size) steps [] := by
    rw [hsteps] at hspec
    exact hspec
  refine ⟨⟨?_, ?_⟩, ?_, fun limit hlimit => orderChecked_eq hfit hsize hlimit⟩
  · intro hexists
    rcases hexists with ⟨steps, hsteps⟩
    exact (hpeels steps hsteps).not_stuck
  · intro hfree
    cases horder : order? edges slots with
    | some steps => exact ⟨steps, rfl⟩
    | none =>
        rw [horder] at hspec
        exact absurd (exists_stuck_of_not_peelable hfit hspec) hfree
  · intro steps hsteps
    have h := hpeels steps hsteps
    have hperm := h.edges_perm
    rw [List.append_nil] at hperm
    exact ⟨hperm, h.slot_mem, h.pairwise List.nodup_range⟩

/-- Three edges in a chain are peeled from its far end, and slots of degree zero stay on the stack. Two
edges on the same slots hold each other. -/
theorem exists_order_iff_not_stuck_of_chain :
    let chain : Array Edge := #[⟨0, 1, 2, 9⟩, ⟨1, 2, 3, 9⟩, ⟨2, 3, 4, 9⟩]
    let twins : Array Edge := #[⟨0, 1, 2, 9⟩, ⟨2, 1, 0, 9⟩]
    let steps : List Step := [⟨2, 4⟩, ⟨1, 3⟩, ⟨0, 2⟩]
    AllFit chain 5 ∧ chain.size < 2 ^ 32 ∧ order? chain 5 = some steps ∧
      (¬ ∃ core, Stuck chain core) ∧ (steps.map Step.edge).Perm (List.range 3) ∧
      steps.Pairwise (fun earlier later => earlier.slot ∉ slotsOf chain later.edge) ∧
      orderChecked chain 5 100 = some (some steps) ∧
      AllFit twins 3 ∧ twins.size < 2 ^ 32 ∧ order? twins 3 = none ∧ ∃ core, Stuck twins core := by
  intro chain twins steps
  have hchain : AllFit chain 5 := by decide
  have hchainsize : chain.size < 2 ^ 32 := by decide
  have htwins : AllFit twins 3 := by decide
  have htwinsize : twins.size < 2 ^ 32 := by decide
  have hsteps : order? chain 5 = some steps := by decide
  have hnone : order? twins 3 = none := by decide
  rcases exists_order_iff_not_stuck hchain hchainsize with ⟨hfree, horder, hchecked⟩
  rcases exists_order_iff_not_stuck htwins htwinsize with ⟨htwinsfree, -, -⟩
  rcases horder steps hsteps with ⟨hperm, -, hpairwise⟩
  refine ⟨hchain, hchainsize, hsteps, hfree.mp ⟨steps, hsteps⟩, hperm, hpairwise,
    hsteps ▸ hchecked 100 (by decide), htwins, htwinsize, hnone, ?_⟩
  by_contra hstuck
  rcases htwinsfree.mpr hstuck with ⟨steps', hsteps'⟩
  rw [hnone] at hsteps'
  cases hsteps'

end ApproxSet.Peeling
