import ApproxSet.Proofs.Cuckoo.Growth
import Mathlib.Data.List.Nodup

/-!
# Crowded filters

A filter is crowded if it stores as many stems as it has slots, no two with the same prefix and none
with a tail. Growth has to list both halves of every stem then, so what it fills is twice as large
and crowded again: growth stays due until it is refused.
-/

namespace ApproxSet.Cuckoo

open List (Perm)

/-- No stem has a tail, and no two have the same number. -/
structure Spread (logSide : Nat) (stems : List Stem) : Prop where
  tail_eq : ∀ x ∈ stems, x.tail = Tail.empty
  nodup : (stems.map (Stem.value logSide)).Nodup

theorem Spread.perm {logSide : Nat} {xs ys : List Stem} (h : Spread logSide xs)
    (hperm : xs.Perm ys) : Spread logSide ys :=
  ⟨fun x hx => h.tail_eq x (hperm.mem_iff.mpr hx), (hperm.map _).nodup_iff.mp h.nodup⟩

theorem Spread.of_append_right {logSide : Nat} {xs ys : List Stem}
    (h : Spread logSide (xs ++ ys)) : Spread logSide ys := by
  refine ⟨fun x hx => h.tail_eq x (List.mem_append_right xs hx), ?_⟩
  have hnodup := h.nodup
  rw [List.map_append] at hnodup
  exact hnodup.of_append_right

/-- A stem that is gone while another one covers it had the number of that one. -/
theorem Spread.not_covers {logSide : Nat} {x y : Stem} {xs : List Stem}
    (h : Spread logSide (x :: xs)) (hy : y ∈ xs) : ¬ y.Covers x := by
  intro hcovers
  have htails : y.tail = x.tail := by
    rw [h.tail_eq x List.mem_cons_self, h.tail_eq y (List.mem_cons_of_mem x hy)]
  have hvalue : y.value logSide = x.value logSide := by
    unfold Stem.value
    rw [hcovers.1, htails]
  have hnodup := h.nodup
  rw [List.map_cons, List.nodup_cons] at hnodup
  exact hnodup.1 (hvalue ▸ List.mem_map_of_mem hy)

/-- If all stems together are spread, `f'` stores those of `f` and the new ones. -/
def Places (f : Cuckoo) (new : List Stem) (f' : Cuckoo) : Prop :=
  Spread f.logSide (new ++ f.stored) →
    f'.Valid ∧ SameShape f f' ∧ f'.stored.Perm (new ++ f.stored) ∧
      f'.occupied = f.occupied + new.length

theorem Gains.places {f f' : Cuckoo} {stem : Stem} (h : Gains f stem f') : Places f [stem] f' := by
  intro hspread
  refine ⟨h.valid, h.shape, ?_⟩
  rcases h.stored with hstored | ⟨x, hperm, -, y, hy, hcovers⟩
  · exact hstored
  · exact absurd hcovers ((hspread.perm hperm.symm).not_covers hy)

theorem places_foldl {α : Type} (step : Cuckoo → α → Cuckoo) (new : α → List Stem) (xs : List α)
    {f : Cuckoo} (hf : f.Valid)
    (hstep : ∀ g x, SameShape f g → g.Valid → x ∈ xs → Places g (new x) (step g x)) :
    Places f (xs.flatMap new) (xs.foldl step f) := by
  induction xs generalizing f with
  | nil => exact fun _ => ⟨hf, ⟨rfl, rfl, rfl⟩, Perm.refl _, rfl⟩
  | cons x xs ih =>
      intro hspread
      rw [List.flatMap_cons, List.append_assoc] at hspread
      have hswap : (new x ++ (xs.flatMap new ++ f.stored)).Perm
          (xs.flatMap new ++ (new x ++ f.stored)) := by
        rw [← List.append_assoc, ← List.append_assoc]
        exact List.perm_append_comm.append_right _
      have hspread' := hspread.perm hswap
      obtain ⟨hvalid, hshape, hperm, hcount⟩ :=
        hstep f x ⟨rfl, rfl, rfl⟩ hf List.mem_cons_self hspread'.of_append_right
      have hrest := ih hvalid fun g y hg hgvalid hy =>
        hstep g y (hshape.trans hg) hgvalid (List.mem_cons_of_mem x hy)
      have hafter : Spread (step f x).logSide (xs.flatMap new ++ (step f x).stored) := by
        rw [hshape.logSide]
        exact hspread'.perm (hperm.symm.append_left _)
      rcases hrest hafter with ⟨hvalid', hshape', hperm', hcount'⟩
      refine ⟨hvalid', hshape.trans hshape', ?_, ?_⟩
      · rw [List.flatMap_cons, List.append_assoc]
        exact (hperm'.trans (hperm.append_left _)).trans hswap.symm
      · rw [List.foldl_cons, hcount', hcount, List.flatMap_cons, List.length_append]
        omega

def children (old new : Nat) (stem : Stem) : List Stem :=
  (stem.widen old new).map (·.trim new)

theorem places_absorbed {old : Nat} {f : Cuckoo} (hf : f.Valid) (hold : old ≤ f.logSide) (s : Side)
    {stem : Stem} (hstem : stem.Proper old) :
    Places f (children old f.logSide stem) (absorbed old f s stem) := by
  rw [absorbed, children, List.map_eq_flatMap]
  apply places_foldl _ _ _ hf
  intro g part hshape hg hpart
  exact (gains_part hshape hg hold s hstem hpart).places

/-- A stem without a tail has two children, whose numbers are twice its own and one more. -/
theorem children_of_empty {old : Nat} (hold : old + 1 ≤ 48) {stem : Stem} (hstem : stem.Proper old)
    (htail : stem.tail = Tail.empty) :
    (∀ x ∈ children old (old + 1) stem, x.tail = Tail.empty) ∧
      (children old (old + 1) stem).map (Stem.value (old + 1)) =
        [2 * stem.value old, 2 * stem.value old + 1] := by
  have hlen : stem.tail.length = 0 := by rw [htail, Tail.length_empty]
  rcases Stem.widen_of_lt (Nat.le_succ old) hold hstem (by omega) with ⟨part, hwiden, hpart⟩
  have hgrowth : 2 ^ (old + 1 - old - stem.tail.length) = 2 := by
    have hone : old + 1 - old - stem.tail.length = 1 := by omega
    rw [hone, Nat.pow_one]
  rw [hgrowth] at hwiden hpart
  rcases hpart 0 (by omega) with ⟨htail₀, hvalue₀⟩
  rcases hpart 1 (by omega) with ⟨htail₁, hvalue₁⟩
  have hchildren : children old (old + 1) stem =
      [(part 0).trim (old + 1), (part 1).trim (old + 1)] := by
    unfold children
    rw [hwiden]
    rfl
  rw [hchildren]
  constructor
  · intro x hx
    simp only [List.mem_cons, List.not_mem_nil, or_false] at hx
    rcases hx with rfl | rfl
    · exact htail₀
    · exact htail₁
  · simp only [List.map_cons, List.map_nil]
    rw [Stem.value_trim hold, Stem.value_trim hold, hvalue₀, hvalue₁, Nat.add_zero, Nat.mul_comm]

theorem length_flatMap_pair (ns : List Nat) :
    (ns.flatMap fun n => [2 * n, 2 * n + 1]).length = 2 * ns.length := by
  induction ns with
  | nil => rfl
  | cons n ns ih =>
      rw [List.flatMap_cons, List.length_append, ih]
      simp only [List.length_cons, List.length_nil]
      omega

theorem nodup_flatMap_pair {ns : List Nat} (h : ns.Nodup) :
    (ns.flatMap fun n => [2 * n, 2 * n + 1]).Nodup := by
  rw [List.nodup_flatMap]
  constructor
  · intro n _
    simp
  · apply h.imp
    intro m n hne k hm hn
    simp only [List.mem_cons, List.not_mem_nil, or_false] at hm hn
    omega

theorem values_children {old : Nat} (hold : old + 1 ≤ 48) {stems : List Stem}
    (hproper : ∀ x ∈ stems, x.Proper old) (htails : ∀ x ∈ stems, x.tail = Tail.empty) :
    (stems.flatMap (children old (old + 1))).map (Stem.value (old + 1)) =
      (stems.map (Stem.value old)).flatMap fun n => [2 * n, 2 * n + 1] := by
  rw [List.map_flatMap, List.flatMap_map]
  apply List.flatMap_congr
  intro x hx
  exact (children_of_empty hold (hproper x hx) (htails x hx)).2

theorem spread_children {old : Nat} (hold : old + 1 ≤ 48) {stems : List Stem}
    (hproper : ∀ x ∈ stems, x.Proper old) (h : Spread old stems) :
    Spread (old + 1) (stems.flatMap (children old (old + 1))) ∧
      (stems.flatMap (children old (old + 1))).length = 2 * stems.length := by
  have hvalues := values_children hold hproper h.tail_eq
  refine ⟨⟨fun y hy => ?_, ?_⟩, ?_⟩
  · rcases List.mem_flatMap.mp hy with ⟨x, hx, hy⟩
    exact (children_of_empty hold (hproper x hx) (h.tail_eq x hx)).1 y hy
  · rw [hvalues]
    exact nodup_flatMap_pair h.nodup
  · have hlength := congrArg List.length hvalues
    rwa [List.length_map, length_flatMap_pair, List.length_map] at hlength

/-! ## Growth of a crowded filter -/

/-- As many stems are stored as there are slots, and they are spread. -/
structure Crowded (f : Cuckoo) : Prop where
  valid : f.Valid
  spread : Spread f.logSide f.stored
  length_eq : f.stored.length = f.capacity
  occupied_eq : f.occupied = f.capacity

theorem Crowded.growthDue {f : Cuckoo} (hf : Crowded f) : f.growthDue = true := by
  have hfull : f.occupied + Bucket.slotCount ≥ f.capacity :=
    hf.occupied_eq ▸ Nat.le_add_right _ _
  simp [Cuckoo.growthDue, hfull]

theorem Crowded.grow {a : Allocator} {f f' : Cuckoo} (hf : Crowded f)
    (h : (f.grow a).value = .ok f') : Crowded f' := by
  have hlogSide := logSide_grow hf.valid h
  obtain ⟨hlog, rfl⟩ := grow_ok h
  have hempty : f.doubled.stored = [] := stored_of_vacant rfl rfl
  have hproper (x : Stem) (hx : x ∈ f.stored) : x.Proper f.logSide :=
    proper_of_mem_stored hf.valid hx
  rcases spread_children hlog hproper hf.spread with ⟨hspread, hlength⟩
  have hplaces := places_foldl (fun g (x : Side × Stem) => absorbed f.logSide g x.1 x.2)
    (fun x => children f.logSide (f.logSide + 1) x.2) f.stems (valid_doubled hlog)
    fun g x hshape hg hx => by
      have hsize : g.logSide = f.logSide + 1 := hshape.logSide
      rw [← hsize]
      exact places_absorbed hg (by omega) x.1 (hproper x.2 (List.mem_map_of_mem hx))
  have hstems : f.stems.flatMap (fun x => children f.logSide (f.logSide + 1) x.2) =
      f.stored.flatMap (children f.logSide (f.logSide + 1)) := by
    rw [stored, List.flatMap_map]
  rw [hstems] at hplaces
  rcases hplaces (by rw [hempty, List.append_nil]; exact hspread) with ⟨hvalid, -, hperm, hcount⟩
  rw [hempty, List.append_nil] at hperm
  have hcapacity : Cuckoo.capacity (f.stems.foldl
      (fun g x => absorbed f.logSide g x.1 x.2) f.doubled) = 2 * f.capacity := by
    unfold Cuckoo.capacity
    rw [hlogSide, Nat.pow_succ, ← Nat.mul_assoc, Nat.mul_comm]
  refine ⟨hvalid, ?_, ?_, ?_⟩
  · rw [hlogSide]
    exact hspread.perm hperm.symm
  · rw [hcapacity, hperm.length_eq, hlength, hf.length_eq]
  · rw [hcapacity, hcount, hlength, hf.length_eq]
    exact Nat.zero_add _

end ApproxSet.Cuckoo
