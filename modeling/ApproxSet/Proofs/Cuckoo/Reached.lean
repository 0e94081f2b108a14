import ApproxSet.Proofs.Cuckoo.Refusal
import ApproxSet.Proofs.Cuckoo.Union

/-!
# Reachable filters

Calls and unions change a filter in few ways: it doubles, it stores a hash or a stem while growth is
not due, and its counters are cut when it is stored. What these keep holds of every filter that comes
about.
-/

namespace ApproxSet.Cuckoo

open Codec (bind_eq_ok_iff)

/-- Filters that calls and unions make of new ones. -/
inductive Reached : Cuckoo → Prop where
  | built {f : Cuckoo} (a : Allocator) (bytes : Nat) (entropy : Entropy)
      (h : ofBytes a bytes entropy = .ok f) : Reached f
  | call {f : Cuckoo} (hf : Reached f) (a : Allocator) (c : Call) : Reached (c.after a f)
  | union {f g m : Cuckoo} (hf : Reached f) (hg : Reached g) (a : Allocator)
      (h : (f.union a g).value = .ok m) : Reached m

theorem Reached.history {f : Cuckoo} (hf : Reached f) (calls : History) :
    Reached (calls.after f) := by
  induction calls generalizing f with
  | nil => exact hf
  | cons call calls ih =>
      rcases call with ⟨a, c⟩
      exact ih (hf.call a c)

/-- What all changes to a filter keep. -/
structure Invariant (P : Cuckoo → Prop) : Prop where
  valid {f : Cuckoo} : P f → f.Valid
  grow {a : Allocator} {f f' : Cuckoo} : P f → (f.grow a).value = .ok f' → P f'
  put {f : Cuckoo} (hash : UInt64) : P f → f.growthDue = false → P (f.put hash)
  absorbed {old : Nat} {f : Cuckoo} (s : Side) {stem : Stem} : P f → f.growthDue = false →
    old ≤ f.logSide → stem.Proper old → P (absorbed old f s stem)
  cutCounters {f : Cuckoo} : P f → P f.cutCounters

namespace Invariant

variable {P : Cuckoo → Prop}

theorem dueGrowths (hP : Invariant P) {a : Allocator} {n : Nat} {f f' : Cuckoo} (hf : P f)
    (h : DueGrowths a n f f') : P f' := by
  induction h with
  | none f => exact hf
  | more _ hgrow _ ih => exact ih (hP.grow hf hgrow)

theorem insert (hP : Invariant P) (a : Allocator) {f : Cuckoo} (hf : P f) (hash : UInt64) :
    P (f.insert a hash).value.filter := by
  rcases insert_cases (hP.valid hf) a hash with
    ⟨n, g, -, hn, ⟨hdue, hstored⟩ | ⟨-, e, -, hfailed⟩⟩
  · have hg := hP.dueGrowths hf hn
    rw [hstored, store_value]
    cases a.request g.stashRoom with
    | error refusal => exact hg
    | ok _ => exact hP.put hash hg hdue
  · rw [hfailed]
    exact hP.dueGrowths hf hn

theorem absorbWithRoom (hP : Invariant P) {a : Allocator} {old : Nat} {f m : Cuckoo} (hf : P f)
    (hold : old ≤ f.logSide) {x : Side × Stem} (hx : x.2.Proper old)
    (h : (absorbWithRoom a old f x).value = .ok m) : P m ∧ old ≤ m.logSide := by
  have hvalid := hP.valid hf
  have hspec := absorbWithRoom_spec a hvalid hold hx
  rw [h] at hspec
  refine ⟨?_, Nat.le_trans hold hspec.logSide_le⟩
  rw [absorbWithRoom_value] at h
  rcases makeRoom_cases hvalid a with ⟨n, g, -, hn, ⟨hdue, hmake⟩ | ⟨-, e, -, hmake⟩⟩
  · rw [hmake] at h
    rw [eq_absorbed_of_absorb h]
    have hgrown := (hn.outgrows hvalid).1
    exact hP.absorbed x.1 (hP.dueGrowths hf hn) hdue (Nat.le_trans hold hgrown.logSide_le) hx
  · rw [hmake] at h
    cases h

theorem absorbAll (hP : Invariant P) {a : Allocator} {old : Nat} {stems : List (Side × Stem)}
    {f m : Cuckoo} (hf : P f) (hold : old ≤ f.logSide) (hstems : ∀ x ∈ stems, x.2.Proper old)
    (h : absorbAll a old f stems = .ok m) : P m := by
  induction stems generalizing f with
  | nil =>
      cases h
      exact hf
  | cons x stems ih =>
      rw [absorbAll_cons] at h
      obtain ⟨g, hx, hrest⟩ := bind_eq_ok_iff.mp h
      rcases hP.absorbWithRoom hf hold (hstems x List.mem_cons_self) hx with ⟨hg, hle⟩
      exact ih hg hle (fun y hy => hstems y (List.mem_cons_of_mem x hy)) hrest

theorem merge (hP : Invariant P) {a : Allocator} {large small m : Cuckoo} (hlarge : P large)
    (hsmall : P small) (hle : small.logSide ≤ large.logSide)
    (h : merge a large small = .ok m) : P m := by
  obtain ⟨copied, hcopy, hall⟩ := bind_eq_ok_iff.mp h
  obtain rfl := eq_of_copy hcopy
  exact hP.absorbAll hlarge hle (proper_stems (hP.valid hsmall)) hall

theorem union (hP : Invariant P) {a : Allocator} {f g m : Cuckoo} (hf : P f) (hg : P g)
    (h : (f.union a g).value = .ok m) : P m := by
  rw [union_value a (entropy_eq_of_union h)] at h
  rcases bySize_spec hf hg with ⟨hlarge, hsmall, hle⟩
  exact hP.merge hlarge hsmall hle h

theorem call (hP : Invariant P) (a : Allocator) {f : Cuckoo} (hf : P f) (c : Call) :
    P (c.after a f) := by
  cases c with
  | insert hash => exact hP.insert a hf hash
  | insert32 hash => exact hP.insert a hf (ShortHash.toHighHalf hash)
  | grow =>
      cases hgrow : (f.grow a).value with
      | error e =>
          rw [Call.after_grow_of_error hgrow]
          exact hf
      | ok g =>
          rw [Call.after_grow_of_ok hgrow]
          exact hP.grow hf hgrow
  | copy =>
      rw [Call.after_copy]
      exact hf
  | reload =>
      rw [Call.after_reload a (hP.valid hf)]
      split
      · exact hP.cutCounters hf
      · exact hf

theorem history (hP : Invariant P) {f : Cuckoo} (hf : P f) (calls : History) :
    P (calls.after f) := by
  induction calls generalizing f with
  | nil => exact hf
  | cons call calls ih =>
      rcases call with ⟨a, c⟩
      exact ih (hP.call a hf c)

/-- What new filters have then holds of every reachable one. -/
theorem reached (hP : Invariant P)
    (hbuilt : ∀ {a bytes entropy f}, ofBytes a bytes entropy = .ok f → P f) {f : Cuckoo}
    (hf : Reached f) : P f := by
  induction hf with
  | built a bytes entropy h => exact hbuilt h
  | call _ a c ih => exact hP.call a ih c
  | union _ _ a h ihf ihg => exact hP.union ihf ihg h

end Invariant

end ApproxSet.Cuckoo
