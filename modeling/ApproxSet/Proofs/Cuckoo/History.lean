import ApproxSet.Proofs.Cuckoo.Stored

/-!
# Histories

A filter that is new or was read goes through calls, each under an allocator of its own. What it
finds in the end is what it found in the beginning and, for every hash that was added, the hashes
that agree with it on the bits that the filter kept at the time.
-/

namespace ApproxSet.Cuckoo

open Codec (bind_eq_ok_iff)

/-- `f` is a new filter, or was accepted when it was read. -/
inductive Initial (f : Cuckoo) : Prop where
  | built (a : Allocator) (bytes : Nat) (entropy : Entropy) (h : ofBytes a bytes entropy = .ok f)
  | read (bytes : List UInt8) (h : codec.read bytes = .ok f)

theorem one_le_cuckooLogSide (bytes : Nat) : 1 ≤ Sizing.cuckooLogSide bytes :=
  Nat.le_max_left 1 _

theorem valid_ofBytes {a : Allocator} {bytes : Nat} {entropy : Entropy} {f : Cuckoo}
    (h : ofBytes a bytes entropy = .ok f) : f.Valid := by
  obtain ⟨hlog, rfl⟩ := vacant_ok h
  exact ⟨one_le_cuckooLogSide bytes, hlog, Table.valid_vacant _, Table.valid_vacant _⟩

theorem Initial.valid {f : Cuckoo} (hf : Initial f) : f.Valid := by
  cases hf with
  | built _ _ _ h => exact valid_ofBytes h
  | read _ h => exact valid_of_read h

/-- A hash that was added, with the side size at which it was stored. -/
structure Addition where
  hash : UInt64
  logSide : Nat
  deriving DecidableEq

/-- Does `hash` agree with the added hash on its fifteen bits beyond the bucket number? -/
def Addition.Matches (x : Addition) (hash : UInt64) : Prop :=
  hash.toNat / 2 ^ (64 - (x.logSide + 15)) = x.hash.toNat / 2 ^ (64 - (x.logSide + 15))

/-- What can be asked of a filter, apart from lookups. -/
inductive Call where
  | insert (hash : UInt64)
  | insert32 (hash : UInt32)
  | grow
  | copy
  /-- Storing the filter and reading it back. -/
  | reload

namespace Call

/-- The filter after a call. A growth or a copy that is refused leaves it as it was, and so does storing
it when a stash is too long to be stored. -/
def after (a : Allocator) (f : Cuckoo) : Call → Cuckoo
  | insert hash => (f.insert a hash).value.filter
  | insert32 hash => (f.insert32 a hash).value.filter
  | grow =>
    match (f.grow a).value with
    | .ok g => g
    | .error _ => f
  | copy =>
    match f.copy a with
    | .ok g => g
    | .error _ => f
  | reload =>
    match (if f.Storable then codec.read (codec.encode f) else .error .endOfData) with
    | .ok g => g
    | .error _ => f

def addition (a : Allocator) (f : Cuckoo) (hash : UInt64) : List Addition :=
  match (f.insert a hash).value.failure with
  | none => [⟨hash, (f.makeRoom a).value.filter.logSide⟩]
  | some _ => []

def added (a : Allocator) (f : Cuckoo) : Call → List Addition
  | insert hash => addition a f hash
  | insert32 hash => addition a f (ShortHash.toHighHalf hash)
  | grow => []
  | copy => []
  | reload => []

end Call

/-- Calls in order, each with the allocator that it meets. -/
abbrev History := List (Allocator × Call)

namespace History

def after : (f : Cuckoo) → History → Cuckoo
  | f, [] => f
  | f, (a, c) :: rest => after (c.after a f) rest

def added : (f : Cuckoo) → History → List Addition
  | _, [] => []
  | f, (a, c) :: rest => c.added a f ++ added (c.after a f) rest

theorem after_append (f : Cuckoo) (calls more : History) :
    after f (calls ++ more) = after (after f calls) more := by
  induction calls generalizing f with
  | nil => rfl
  | cons call calls ih => exact ih _

end History

/-! ## One call -/

/-- `f'` finds what `f` finds and what the additions match. -/
structure Adds (f : Cuckoo) (new : List Addition) (f' : Cuckoo) : Prop where
  valid : f'.Valid
  contains_iff : ∀ hash,
    f'.contains hash = true ↔ f.contains hash = true ∨ ∃ x ∈ new, x.Matches hash

theorem adds_nil {f f' : Cuckoo} (hvalid : f'.Valid)
    (h : ∀ hash, f'.contains hash = f.contains hash) : Adds f [] f' := by
  refine ⟨hvalid, fun hash => ?_⟩
  rw [h]
  simp

theorem Adds.append {f g h : Cuckoo} {xs ys : List Addition} (hfg : Adds f xs g)
    (hgh : Adds g ys h) : Adds f (xs ++ ys) h := by
  refine ⟨hgh.valid, fun hash => ?_⟩
  rw [hgh.contains_iff, hfg.contains_iff, or_assoc]
  simp only [List.mem_append, or_and_right, exists_or]

theorem adds_put {f : Cuckoo} (hf : f.Valid) (hash : UInt64) :
    Adds f [⟨hash, f.logSide⟩] (f.put hash) := by
  have hfinds := finds_put hf hash
  refine ⟨hfinds.valid, fun other => ?_⟩
  rw [hfinds.contains_iff, Stem.begins_ofHash_iff hf.logSide_le]
  have hbits : 64 - (f.logSide + 15) = 49 - f.logSide := by omega
  simp only [List.mem_singleton, exists_eq_left, Addition.Matches, hbits]

/-- Adding a hash adds it at the size that the filter has grown to; if growth or room in the stashes is
refused, whatever growth came before changes no answer. -/
theorem adds_insert (a : Allocator) {f : Cuckoo} (hf : f.Valid) (hash : UInt64) :
    Adds f (Call.addition a f hash) (f.insert a hash).value.filter := by
  have hroom := outgrows_makeRoom a hf
  unfold Call.addition
  rw [insert_value]
  cases hmake : (f.makeRoom a).value with
  | mk g failure =>
      rw [hmake] at hroom
      cases failure with
      | some e => exact adds_nil hroom.valid hroom.contains_eq
      | none =>
          have hgrown := adds_nil hroom.valid hroom.contains_eq
          simp only [store_value]
          cases a.request g.stashRoom with
          | error refusal => exact hgrown
          | ok _ => exact hgrown.append (adds_put hroom.valid hash)

theorem Call.after_grow_of_ok {a : Allocator} {f g : Cuckoo} (h : (f.grow a).value = .ok g) :
    Call.grow.after a f = g := by
  simp only [Call.after, h]

theorem Call.after_grow_of_error {a : Allocator} {f : Cuckoo} {e : FilterError}
    (h : (f.grow a).value = .error e) : Call.grow.after a f = f := by
  simp only [Call.after, h]

theorem eq_of_copy {a : Allocator} {f g : Cuckoo} (h : f.copy a = .ok g) : g = f := by
  obtain ⟨_, -, hcopy⟩ := bind_eq_ok_iff.mp h
  cases hcopy
  rfl

theorem Call.after_copy (a : Allocator) (f : Cuckoo) : Call.copy.after a f = f := by
  unfold Call.after
  cases hcopy : f.copy a with
  | error e => rfl
  | ok g => exact eq_of_copy hcopy

theorem adds_grow (a : Allocator) {f : Cuckoo} (hf : f.Valid) :
    Adds f [] (Call.grow.after a f) := by
  cases hgrow : (f.grow a).value with
  | error e =>
      rw [Call.after_grow_of_error hgrow]
      exact adds_nil hf fun _ => rfl
  | ok g =>
      rw [Call.after_grow_of_ok hgrow]
      exact adds_nil (outgrows_grow hf hgrow).valid (outgrows_grow hf hgrow).contains_eq

theorem Call.after_reload (a : Allocator) {f : Cuckoo} (hf : f.Valid) :
    Call.reload.after a f = if f.Storable then f.cutCounters else f := by
  by_cases hstash : f.Storable
  · simp only [Call.after, if_pos hstash, read_encode hf hstash]
  · simp only [Call.after, if_neg hstash]

theorem adds_reload (a : Allocator) {f : Cuckoo} (hf : f.Valid) :
    Adds f [] (Call.reload.after a f) := by
  rw [Call.after_reload a hf]
  split
  · exact adds_nil (valid_cutCounters hf) fun _ => rfl
  · exact adds_nil hf fun _ => rfl

theorem adds_call (a : Allocator) {f : Cuckoo} (hf : f.Valid) (c : Call) :
    Adds f (c.added a f) (c.after a f) := by
  cases c with
  | insert hash => exact adds_insert a hf hash
  | insert32 hash => exact adds_insert a hf (ShortHash.toHighHalf hash)
  | grow => exact adds_grow a hf
  | copy =>
      rw [Call.after_copy]
      exact adds_nil hf fun _ => rfl
  | reload => exact adds_reload a hf

/-! ## All calls -/

theorem adds_history {f : Cuckoo} (hf : f.Valid) (calls : History) :
    Adds f (calls.added f) (calls.after f) := by
  induction calls generalizing f with
  | nil => exact adds_nil hf fun _ => rfl
  | cons call calls ih =>
      rcases call with ⟨a, c⟩
      have hcall := adds_call a hf c
      exact hcall.append (ih hcall.valid)

/-- Lookups after any history are exact: a hash is found if and only if the filter found it at first
or it agrees with an added hash on all the bits that were kept of that one. So no added hash is lost,
and growth changes no answer. -/
theorem contains_after_iff {f : Cuckoo} (hf : Initial f) (calls : History) :
    (∀ hash, (calls.after f).contains hash = true ↔
      f.contains hash = true ∨ ∃ x ∈ calls.added f, x.Matches hash) ∧
    (∀ x ∈ calls.added f, (calls.after f).contains x.hash = true) ∧
    ∀ a hash, (History.after f (calls ++ [(a, .grow)])).contains hash =
      (calls.after f).contains hash := by
  have hcalls := adds_history hf.valid calls
  refine ⟨hcalls.contains_iff, fun x hx => ?_, fun a hash => ?_⟩
  · exact (hcalls.contains_iff x.hash).mpr (Or.inr ⟨x, hx, rfl⟩)
  · have hgrow := adds_grow a hcalls.valid
    rw [History.after_append, Bool.eq_iff_iff]
    exact (hgrow.contains_iff hash).trans (by simp)

def fresh (logSide : Nat) : Cuckoo :=
  ⟨logSide, .standard, ⟨Table.vacant logSide, Table.vacant logSide⟩, Sampler.start 2, 0, 0⟩

theorem contains_fresh {logSide : Nat} (h : (fresh logSide).Valid) (hash : UInt64) :
    (fresh logSide).contains hash = false :=
  contains_of_stored_eq_nil h (stored_of_vacant rfl rfl) hash

/-- A hash that is added to two buckets a side is known by its upper sixteen bits ever after. -/
theorem contains_after_grow_and_reload :
    Initial (fresh 1) ∧
      let calls : History := [(.standard, .insert 0x123456789abcdef0), (.standard, .grow),
        (.standard, .reload), (.upTo 0, .grow)]
      ∀ hash, (calls.after (fresh 1)).contains hash = true ↔ hash.toNat / 2 ^ 48 = 0x1234 := by
  have hfresh : Initial (fresh 1) := .built .standard 1 .standard rfl
  refine ⟨hfresh, fun hash => ?_⟩
  rw [(contains_after_iff hfresh _).1 hash, contains_fresh hfresh.valid]
  have hadded : History.added (fresh 1) [(.standard, .insert 0x123456789abcdef0),
      (.standard, .grow), (.standard, .reload), (.upTo 0, .grow)] = [⟨0x123456789abcdef0, 1⟩] := by
    decide +kernel
  rw [hadded]
  simp [Addition.Matches]

end ApproxSet.Cuckoo
