import ApproxSet.Proofs.Allocator
import ApproxSet.Proofs.XorFilter.Solving
import ApproxSet.XorFilter.Basic

/-!
# What xor filters find

A filter that was built finds all its keys. Table sizes are tried in order, so it has the first size
at which the edges of the distinct keys can be peeled. Building fails only if there is none, or where
memory is refused on the way.
-/

namespace ApproxSet.XorFilter

open Peeling

/-! ## Distinct keys -/

def dropRepeated (sorted : List UInt64) : List UInt64 :=
  sorted.foldr (fun w rest => if rest.head? = some w then rest else w :: rest) []

theorem dropRepeated_cons (w : UInt64) (sorted : List UInt64) :
    dropRepeated (w :: sorted) =
      if (dropRepeated sorted).head? = some w then dropRepeated sorted
      else w :: dropRepeated sorted := rfl

theorem mem_dropRepeated {w : UInt64} {sorted : List UInt64} :
    w ∈ dropRepeated sorted ↔ w ∈ sorted := by
  induction sorted with
  | nil => exact Iff.rfl
  | cons x sorted ih =>
      rw [dropRepeated_cons, List.mem_cons, ← ih]
      by_cases hhead : (dropRepeated sorted).head? = some x
      · rw [if_pos hhead]
        have hx : x ∈ dropRepeated sorted := List.mem_of_mem_head? hhead
        exact ⟨Or.inr, fun h => h.elim (fun heq => heq ▸ hx) id⟩
      · rw [if_neg hhead, List.mem_cons]

/-- A word that is not below the next one repeats it, so what is kept ascends strictly. -/
theorem pairwise_dropRepeated {sorted : List UInt64} (h : sorted.Pairwise (· ≤ ·)) :
    (dropRepeated sorted).Pairwise (· < ·) := by
  induction sorted with
  | nil => exact List.Pairwise.nil
  | cons x sorted ih =>
      rcases List.pairwise_cons.mp h with ⟨hx, hsorted⟩
      have hrest := ih hsorted
      rw [dropRepeated_cons]
      split
      · exact hrest
      · rename_i hhead
        refine List.pairwise_cons.mpr ⟨fun y hy => ?_, hrest⟩
        have hle : x ≤ y := hx y (mem_dropRepeated.mp hy)
        have hne : x ≠ y := by
          rintro rfl
          cases hdrop : dropRepeated sorted with
          | nil =>
              rw [hdrop] at hy
              cases hy
          | cons z rest =>
              rw [hdrop] at hy hrest hhead
              have hzx : z < x := by
                refine (List.pairwise_cons.mp hrest).1 x ?_
                refine (List.mem_cons.mp hy).resolve_left fun heq => hhead ?_
                rw [heq]
                rfl
              have hxz : x ≤ z := hx z (mem_dropRepeated.mp (hdrop ▸ List.mem_cons_self))
              exact UInt64.not_lt.mpr hxz hzx
        exact UInt64.lt_of_le_of_ne hle hne

theorem distinct_eq (words : List UInt64) :
    distinct words = dropRepeated (words.mergeSort fun a b => decide (a ≤ b)) := rfl

theorem mem_distinct {w : UInt64} {words : List UInt64} : w ∈ distinct words ↔ w ∈ words := by
  rw [distinct_eq, mem_dropRepeated, List.mem_mergeSort]

theorem pairwise_distinct (words : List UInt64) : (distinct words).Pairwise (· < ·) := by
  have htrans (a b c : UInt64) (hab : decide (a ≤ b) = true) (hbc : decide (b ≤ c) = true) :
      decide (a ≤ c) = true :=
    decide_eq_true (UInt64.le_trans (of_decide_eq_true hab) (of_decide_eq_true hbc))
  have htotal (a b : UInt64) : (decide (a ≤ b) || decide (b ≤ a)) = true := by
    simpa using UInt64.le_total a b
  have hsorted : (words.mergeSort fun a b => decide (a ≤ b)).Pairwise (· ≤ ·) :=
    (List.pairwise_mergeSort htrans htotal words).imp of_decide_eq_true
  rw [distinct_eq]
  exact pairwise_dropRepeated hsorted

theorem nodup_distinct (words : List UInt64) : (distinct words).Nodup :=
  (pairwise_distinct words).imp UInt64.ne_of_lt

theorem mem_keysOf {hashes : List UInt64} {seed key : UInt64} :
    key ∈ keysOf hashes seed ↔ ∃ hash ∈ hashes, Word.keyed seed hash = key := by
  rw [keysOf, mem_distinct, List.mem_map]

/-! ## Sizes -/

theorem firstSize_spec (keys : Nat) : 0 < firstSize keys ∧ sizeStep ∣ firstSize keys := by
  unfold firstSize
  refine ⟨Nat.mul_pos ?_ (by decide), Nat.dvd_mul_left _ _⟩
  exact Nat.lt_of_lt_of_le Nat.one_pos (Nat.le_max_right _ _)

theorem windowOf_spec {slots : Nat} (h : 3 ≤ slots) : 3 ≤ windowOf slots ∧ windowOf slots ≤ slots :=
  ⟨Nat.le_min.mpr ⟨Nat.le_add_right 3 _, h⟩, Nat.min_le_right _ _⟩

/-- The table size of attempt number `attempt`, from zero. -/
def sizeAt (keys attempt : Nat) : Nat := firstSize keys + sizeStep * attempt

theorem three_le_sizeAt (keys attempt : Nat) : 3 ≤ sizeAt keys attempt := by
  rcases firstSize_spec keys with ⟨hpos, hdvd⟩
  have hle := Nat.le_of_dvd hpos hdvd
  unfold sizeAt
  have hstep : sizeStep = 8 := rfl
  omega

/-! ## One table size -/

def graphOf (keys : List UInt64) (slots : Nat) : Array Edge :=
  (keys.map fun key => Edge.ofKey key slots (windowOf slots)).toArray

theorem allFit_graphOf (keys : List UInt64) {slots : Nat} (h : 3 ≤ slots) :
    AllFit (graphOf keys slots) slots := by
  rcases windowOf_spec h with ⟨h3, hle⟩
  intro e he
  obtain ⟨key, -, rfl⟩ := List.mem_map.mp (List.mem_toArray.mp he)
  exact Edge.fits_ofKey key h3 hle

theorem encode?_spec (keys : List UInt64) {slots : Nat} (h : 3 ≤ slots) :
    match encode? keys slots with
    | some table => table.size = slots ∧ Peelable (graphOf keys slots) ∧
      ∀ key ∈ keys, (Edge.ofKey key slots (windowOf slots)).check table = true
    | none => ¬ Peelable (graphOf keys slots) := by
  have hsolve := solve?_spec (allFit_graphOf keys h)
  have hencode : encode? keys slots = solve? (graphOf keys slots) slots := rfl
  rw [hencode]
  cases htable : solve? (graphOf keys slots) slots with
  | none =>
      rw [htable] at hsolve
      exact hsolve
  | some table =>
      rw [htable] at hsolve
      rcases hsolve with ⟨hsize, hcheck, hpeelable⟩
      refine ⟨hsize, hpeelable, fun key hkey => hcheck _ ?_⟩
      exact List.mem_toArray.mpr (List.mem_map_of_mem hkey)

/-- Memory for a table is only asked for once the edges have been peeled in memory that was granted. -/
def EncodingRefused (a : Allocator) (attempt : Nat) (keys : List UInt64) (slots : Nat)
    (e : FilterError) : Prop :=
  a.request (peelingRequests attempt keys.length slots) = .error e ∨
    a.request (peelingRequests attempt keys.length slots) = .ok () ∧
      Peelable (graphOf keys slots) ∧ a.request [.fresh (5 * attempt + 4) slots] = .error e

theorem EncodingRefused.exists_bytes {a : Allocator} {attempt : Nat} {keys : List UInt64}
    {slots : Nat} {e : FilterError} (h : EncodingRefused a attempt keys slots e) :
    ∃ bytes, e = .allocationRefused bytes := by
  rcases h with hpeeling | ⟨-, -, htable⟩
  · exact Allocator.exists_bytes hpeeling
  · exact Allocator.exists_bytes htable

/-- Encoding gives what it would give with all the memory it asks for, unless some is refused. -/
theorem encode_cases (a : Allocator) (attempt : Nat) (keys : List UInt64) (slots : Nat) :
    match encode a attempt keys slots with
    | .ok found => encode? keys slots = found ∧ (found.isSome = true → slots < 2 ^ 63)
    | .error e => a.request (peelingRequests attempt keys.length slots) = .error e ∨
        a.request (peelingRequests attempt keys.length slots) = .ok () ∧
          (encode? keys slots).isSome = true ∧
          a.request [.fresh (5 * attempt + 4) slots] = .error e := by
  unfold encode
  cases hpeeling : a.request (peelingRequests attempt keys.length slots) with
  | error e => exact Or.inl rfl
  | ok _ =>
      rw [Codec.ok_bind]
      cases encode? keys slots with
      | none => exact ⟨rfl, fun h => by cases h⟩
      | some table =>
          cases hmemory : a.request [.fresh (5 * attempt + 4) slots] with
          | error e => exact Or.inr ⟨rfl, rfl, rfl⟩
          | ok _ => exact ⟨rfl, fun _ => Allocator.lt_of_request_fresh hmemory⟩

theorem encode_spec (a : Allocator) (attempt : Nat) (keys : List UInt64) {slots : Nat}
    (h : 3 ≤ slots) :
    match encode a attempt keys slots with
    | .ok (some table) => table.size = slots ∧ slots < 2 ^ 63 ∧ Peelable (graphOf keys slots) ∧
      ∀ key ∈ keys, (Edge.ofKey key slots (windowOf slots)).check table = true
    | .ok none => ¬ Peelable (graphOf keys slots)
    | .error e => EncodingRefused a attempt keys slots e := by
  have hspec := encode?_spec keys h
  have hcases := encode_cases a attempt keys slots
  cases hencode : encode a attempt keys slots with
  | error e =>
      rw [hencode] at hcases
      rcases hcases with hpeeling | ⟨hpeeling, hsome, hmemory⟩
      · exact Or.inl hpeeling
      · rcases Option.isSome_iff_exists.mp hsome with ⟨table, htable⟩
        rw [htable] at hspec
        exact Or.inr ⟨hpeeling, hspec.2.1, hmemory⟩
  | ok found =>
      rw [hencode] at hcases
      rcases hcases with ⟨hfound, hlt⟩
      rw [hfound] at hspec
      cases found with
      | none => exact hspec
      | some table => exact ⟨hspec.1, hlt rfl, hspec.2⟩

/-- The edges of the keys can be peeled at attempt number `attempt`, from zero. -/
def PeelableAt (keys : List UInt64) (attempt : Nat) : Prop :=
  Peelable (graphOf keys (sizeAt keys.length attempt))

/-- `f` was solved for the keys at attempt number `attempt`, from zero. -/
structure Solves (f : XorFilter) (keys : List UInt64) (seed : UInt64) (attempt : Nat) : Prop where
  seed_eq : f.seed = seed
  size_eq : f.table.size = sizeAt keys.length attempt
  window_eq : f.window = windowOf f.table.size
  size_lt : f.table.size < 2 ^ 63
  check : ∀ key ∈ keys, (Edge.ofKey key f.table.size f.window).check f.table = true

/-- No attempt from number `done` on to the one before `attempt` ends in a peeled table, and that one is
refused memory. -/
def RefusedAt (a : Allocator) (keys : List UInt64) (done attempt : Nat) (e : FilterError) : Prop :=
  (∀ j, done ≤ j → j < attempt → ¬ PeelableAt keys j) ∧
    EncodingRefused a (attempt + 1) keys (sizeAt keys.length attempt) e

/-- Trying the sizes from attempt number `done` on ends at the first that can be peeled, unless memory is
refused before. -/
theorem attempts_spec (a : Allocator) (keys : List UInt64) (seed : UInt64) (left done : Nat) :
    match (attempts a keys seed left (done + 1) (sizeAt keys.length done)).value with
    | .ok f => ∃ k, done ≤ k ∧ k < done + left ∧ f.Solves keys seed k ∧ PeelableAt keys k ∧
        ∀ j, done ≤ j → j < k → ¬ PeelableAt keys j
    | .error e =>
        (e = .constructionFailed keys.length maxAttempts ∧
          ∀ j, done ≤ j → j < done + left → ¬ PeelableAt keys j) ∨
        ∃ k, done ≤ k ∧ k < done + left ∧ RefusedAt a keys done k e := by
  induction left generalizing done with
  | zero => exact Or.inl ⟨rfl, fun j hj hlt => absurd hlt (by omega)⟩
  | succ left ih =>
      have hencode := encode_spec a (done + 1) keys (three_le_sizeAt keys.length done)
      have hnone (j : Nat) (hj : done ≤ j) (hlt : j < done) : ¬ PeelableAt keys j :=
        absurd hlt (Nat.not_lt.mpr hj)
      unfold attempts
      cases hresult : encode a (done + 1) keys (sizeAt keys.length done) with
      | error e =>
          rw [hresult] at hencode
          exact Or.inr ⟨done, Nat.le_refl _, by omega, hnone, hencode⟩
      | ok found =>
          cases found with
          | some table =>
              rw [hresult] at hencode
              rcases hencode with ⟨hsize, hlt, hpeelable, hcheck⟩
              have hsolves : Solves ⟨table, windowOf (sizeAt keys.length done), seed⟩ keys seed
                  done := ⟨rfl, hsize, congrArg windowOf hsize.symm, hsize.symm ▸ hlt,
                by simpa only [hsize] using hcheck⟩
              exact ⟨done, Nat.le_refl _, by omega, hsolves, hpeelable, hnone⟩
          | none =>
              rw [hresult] at hencode
              have hnot : ¬ PeelableAt keys done := hencode
              have hfirst (j : Nat) (hj : done ≤ j) (hlater : done + 1 ≤ j → ¬ PeelableAt keys j) :
                  ¬ PeelableAt keys j := by
                rcases Nat.eq_or_lt_of_le hj with rfl | hlt
                · exact hnot
                · exact hlater hlt
              have hrest := ih (done + 1)
              have hnext : sizeAt keys.length done + sizeStep = sizeAt keys.length (done + 1) := rfl
              rw [Logged.value_bind, hnext]
              cases hvalue : (attempts a keys seed left (done + 1 + 1)
                  (sizeAt keys.length (done + 1))).value with
              | ok f =>
                  rw [hvalue] at hrest
                  rcases hrest with ⟨k, hk, hlt, hsolves, hpeelable, hbefore⟩
                  exact ⟨k, by omega, by omega, hsolves, hpeelable,
                    fun j hj hjk => hfirst j hj fun hlater => hbefore j hlater hjk⟩
              | error e =>
                  rw [hvalue] at hrest
                  rcases hrest with ⟨he, hall⟩ | ⟨k, hk, hlt, hbefore, hrefused⟩
                  · exact Or.inl ⟨he, fun j hj hlt => hfirst j hj fun hlater =>
                      hall j hlater (by omega)⟩
                  · exact Or.inr ⟨k, by omega, by omega, fun j hj hjk => hfirst j hj fun hlater =>
                      hbefore j hlater hjk, hrefused⟩

/-! ## All of building -/

/-- Memory for a copy of the hashes. -/
def copyRequests (hashes : List UInt64) : List Request :=
  [.fresh 0 (hashBytes * hashes.length)]

theorem ofHashes_of_ne_nil (a : Allocator) {hashes : List UInt64} (h : hashes ≠ [])
    (seed : UInt64) :
    ofHashes a hashes seed =
      match a.request (copyRequests hashes) with
      | .error e => pure (.error e)
      | .ok () => attempts a (keysOf hashes seed) seed maxAttempts 1
          (sizeAt (keysOf hashes seed).length 0) := by
  have hempty : hashes.isEmpty = false := List.isEmpty_eq_false_iff.mpr h
  unfold ofHashes
  rw [hempty]
  rfl

/-- Memory is refused for a copy of the hashes, or at some attempt before which none could be peeled. -/
def MemoryRefused (a : Allocator) (hashes : List UInt64) (seed : UInt64) (e : FilterError) : Prop :=
  a.request (copyRequests hashes) = .error e ∨
    ∃ k < maxAttempts, RefusedAt a (keysOf hashes seed) 0 k e

theorem MemoryRefused.exists_bytes {a : Allocator} {hashes : List UInt64} {seed : UInt64}
    {e : FilterError} (h : MemoryRefused a hashes seed e) :
    ∃ bytes, e = .allocationRefused bytes := by
  rcases h with hcopy | ⟨k, -, -, hrefused⟩
  · exact Allocator.exists_bytes hcopy
  · exact hrefused.exists_bytes

/-- What is known of a filter once building has ended in it. -/
structure BuiltFrom (f : XorFilter) (hashes : List UInt64) (seed : UInt64) : Prop where
  contains : ∀ hash ∈ hashes, f.contains hash = true
  exists_solves : ∃ k < maxAttempts, f.Solves (keysOf hashes seed) seed k ∧
    PeelableAt (keysOf hashes seed) k ∧ ∀ j < k, ¬ PeelableAt (keysOf hashes seed) j

theorem Solves.contains {f : XorFilter} {hashes : List UInt64} {seed : UInt64} {k : Nat}
    (hf : f.Solves (keysOf hashes seed) seed k) {hash : UInt64} (h : hash ∈ hashes) :
    f.contains hash = true := by
  unfold XorFilter.contains
  rw [hf.seed_eq]
  exact hf.check _ (mem_keysOf.mpr ⟨hash, h, rfl⟩)

/-- Building ends in a filter, or there is no size to build it with, or memory is refused. -/
theorem ofHashes_cases (a : Allocator) {hashes : List UInt64} (h : hashes ≠ []) (seed : UInt64) :
    match (ofHashes a hashes seed).value with
    | .ok f => BuiltFrom f hashes seed
    | .error e =>
        (e = .constructionFailed (keysOf hashes seed).length maxAttempts ∧
          ∀ j < maxAttempts, ¬ PeelableAt (keysOf hashes seed) j) ∨
        MemoryRefused a hashes seed e := by
  have hspec := attempts_spec a (keysOf hashes seed) seed maxAttempts 0
  rw [Nat.zero_add] at hspec
  rw [ofHashes_of_ne_nil a h]
  cases hcopy : a.request (copyRequests hashes) with
  | error e => exact Or.inr (Or.inl hcopy)
  | ok _ =>
      simp only
      cases hvalue : (attempts a (keysOf hashes seed) seed maxAttempts 1
          (sizeAt (keysOf hashes seed).length 0)).value with
      | ok f =>
          rw [hvalue] at hspec
          rcases hspec with ⟨k, -, hlt, hsolves, hpeelable, hfirst⟩
          exact ⟨fun hash => hsolves.contains, k, by omega, hsolves, hpeelable,
            fun j => hfirst j (Nat.zero_le j)⟩
      | error e =>
          rw [hvalue] at hspec
          rcases hspec with ⟨he, hnone⟩ | ⟨k, -, hlt, hrefused⟩
          · exact Or.inl ⟨he, fun j hj => hnone j (Nat.zero_le j) (by omega)⟩
          · exact Or.inr (Or.inr ⟨k, by omega, hrefused⟩)

/-- A filter that is built finds all its hashes, and its table has the first of the sizes tried at
which the edges of the distinct keys can be peeled. If building fails, there is no such size, or memory
is refused before it is found. -/
theorem ofHashes_spec (a : Allocator) {hashes : List UInt64} (h : hashes ≠ []) (seed : UInt64) :
    (keysOf hashes seed).Nodup ∧
    (∀ key, key ∈ keysOf hashes seed ↔ ∃ hash ∈ hashes, Word.keyed seed hash = key) ∧
    match (ofHashes a hashes seed).value with
    | .ok f => (∀ hash ∈ hashes, f.contains hash = true) ∧
        ∃ k < maxAttempts, f.table.size = sizeAt (keysOf hashes seed).length k ∧
          PeelableAt (keysOf hashes seed) k ∧ ∀ j < k, ¬ PeelableAt (keysOf hashes seed) j
    | .error e =>
        (e = .constructionFailed (keysOf hashes seed).length maxAttempts ∧
          ∀ j < maxAttempts, ¬ PeelableAt (keysOf hashes seed) j) ∨
        (∃ bytes, e = .allocationRefused bytes) ∧ MemoryRefused a hashes seed e := by
  refine ⟨nodup_distinct _, fun key => mem_keysOf, ?_⟩
  have hspec := ofHashes_cases a h seed
  cases hvalue : (ofHashes a hashes seed).value with
  | ok f =>
      rw [hvalue] at hspec
      rcases hspec.exists_solves with ⟨k, hk, hsolves, hpeelable, hfirst⟩
      exact ⟨hspec.contains, k, hk, hsolves.size_eq, hpeelable, hfirst⟩
  | error e =>
      rw [hvalue] at hspec
      rcases hspec with hnone | hrefused
      · exact Or.inl hnone
      · exact Or.inr ⟨hrefused.exists_bytes, hrefused⟩

/-- The standard allocator refuses no attempt at a table that is small enough. -/
theorem not_encodingRefused_standard (attempt : Nat) {keys : List UInt64} {slots : Nat}
    {e : FilterError} (hkeys : keys.length < 2 ^ 40) (hslots : slots < 2 ^ 40) :
    ¬ EncodingRefused .standard attempt keys slots e := by
  have hpeeling : Allocator.standard.request (peelingRequests attempt keys.length slots) = .ok () :=
    Allocator.request_upTo (by
      simp only [peelingRequests, List.forall_mem_cons, List.not_mem_nil, IsEmpty.forall_iff,
        implies_true, and_true, Request.bytes, edgeBytes, degreeBytes, nameBytes, stepBytes]
      omega)
  have htable : Allocator.standard.request [.fresh (5 * attempt + 4) slots] = .ok () :=
    Allocator.request_upTo (by
      simp only [List.forall_mem_singleton, Request.bytes]
      omega)
  rintro (hrefused | ⟨-, -, hrefused⟩)
  · rw [hpeeling] at hrefused
    cases hrefused
  · rw [htable] at hrefused
    cases hrefused

/-- Nothing is refused to a few keys by the standard allocator, so if their edges can be peeled at the
first size, that is the size of the filter. -/
theorem exists_ofHashes_of_peelable {hashes : List UInt64} (h : hashes ≠ []) (seed : UInt64)
    (hlength : hashes.length < 2 ^ 40) (hkeys : (keysOf hashes seed).length < 2 ^ 40)
    (hsize : firstSize (keysOf hashes seed).length < 2 ^ 40)
    (hpeelable : PeelableAt (keysOf hashes seed) 0) :
    ∃ f, (ofHashes .standard hashes seed).value = .ok f ∧ BuiltFrom f hashes seed ∧
      f.table.size = firstSize (keysOf hashes seed).length := by
  have hspec := ofHashes_cases .standard h seed
  cases hvalue : (ofHashes .standard hashes seed).value with
  | ok f =>
      rw [hvalue] at hspec
      rcases hspec.exists_solves with ⟨k, -, hsolves, -, hfirst⟩
      have hk : k = 0 := by
        by_contra hpos
        exact hfirst 0 (Nat.pos_of_ne_zero hpos) hpeelable
      refine ⟨f, rfl, hspec, ?_⟩
      rw [hsolves.size_eq, hk]
      rfl
  | error e =>
      rw [hvalue] at hspec
      rcases hspec with ⟨-, hnone⟩ | hcopy | ⟨k, -, hbefore, hrefused⟩
      · exact absurd hpeelable (hnone 0 (by decide))
      · have hgranted : Allocator.standard.request (copyRequests hashes) = .ok () :=
          Allocator.request_upTo (by
            simp only [copyRequests, List.forall_mem_singleton, Request.bytes, hashBytes]
            omega)
        rw [hgranted] at hcopy
        cases hcopy
      · have hk : k = 0 := by
          by_contra hpos
          exact hbefore 0 (Nat.le_refl _) (Nat.pos_of_ne_zero hpos) hpeelable
        rw [hk] at hrefused
        exact absurd hrefused (not_encodingRefused_standard _ hkeys hsize)

/-- A hash that is given three times is one key, and one edge can be peeled at the first size. -/
theorem ofHashes_of_repeated_hash :
    ([5, 5, 5] : List UInt64) ≠ [] ∧ ∃ f, (ofHashes .standard [5, 5, 5] 9).value = .ok f ∧
      f.contains 5 = true ∧ f.table.size = 8 := by
  have hne : ([5, 5, 5] : List UInt64) ≠ [] := by decide
  have hkeys : keysOf [5, 5, 5] 9 = [Word.keyed 9 5] := by
    rw [keysOf, distinct_eq, List.mergeSort_of_pairwise (by decide)]
    decide
  have hlength : (keysOf [5, 5, 5] 9).length = 1 := congrArg List.length hkeys
  have hfirst : firstSize (keysOf [5, 5, 5] 9).length = 8 := by
    rw [hlength]
    decide +kernel
  have hpeelable : PeelableAt (keysOf [5, 5, 5] 9) 0 := hkeys ▸ peelable_singleton _
  rcases exists_ofHashes_of_peelable hne 9 (by decide) (by omega) (by omega) hpeelable with
    ⟨f, hf, -, hsize⟩
  have hspec := (ofHashes_spec .standard hne 9).2.2
  rw [hf] at hspec
  exact ⟨hne, f, hf, hspec.1 5 (by decide), hsize.trans hfirst⟩

end ApproxSet.XorFilter
