import ApproxSet.Proofs.Cuckoo.Settle
import ApproxSet.Proofs.Widen

/-!
# What growing filters find

A filter finds the hashes its stems stand for. Storing an entry adds the hashes of its stem, widening
one adds the hashes it had before, and growth moves every stem, so it changes no answer.
-/

namespace ApproxSet.Cuckoo

open Codec (bind_eq_ok_iff)
open List (Perm)

/-- A hash is found exactly if some stored stem stands for it. -/
theorem contains_iff {f : Cuckoo} (hf : f.Valid) (hash : UInt64) :
    f.contains hash = true ↔ ∃ stem ∈ f.stored, stem.Begins f.logSide hash := by
  have hL := hf.logSide_le
  have hside (s : Side) :
      (f.tables.get s).covers (.ofHash (f.entropy.get s) f.logSide hash) = true ↔
        ∃ stem ∈ f.stemsOn s, stem.Begins f.logSide hash := by
    rw [Table.covers_iff (hf.table s) hL (Entry.bucket_ofHash_lt _ hL _)]
    simp only [stemsOn, List.mem_map, exists_exists_and_eq_and]
    refine exists_congr fun e => and_congr_right fun he => ?_
    have hproper := Table.proper_of_mem_entries (hf.table s) hL he
    rw [Entry.covers_iff (f.entropy.get s) hL hproper (Entry.bucket_ofHash_lt _ hL _),
      Entry.toStem_ofHash _ hL]
    rfl
  have hleft := hside .left
  have hright := hside .right
  simp only [stored_eq, List.mem_append, or_and_right, exists_or]
  rw [← hleft, ← hright, ← Bool.or_eq_true]
  rfl

theorem contains_of_stored_eq_nil {f : Cuckoo} (hf : f.Valid) (h : f.stored = []) (hash : UInt64) :
    f.contains hash = false := by
  rw [Bool.eq_false_iff, ne_eq, contains_iff hf, h]
  simp

/-- `f'` has the shape of `f` and finds what `f` finds and the hashes in `new`, no others. -/
structure Finds (f : Cuckoo) (new : UInt64 → Prop) (f' : Cuckoo) : Prop where
  valid : f'.Valid
  shape : SameShape f f'
  contains_iff : ∀ hash, f'.contains hash = true ↔ f.contains hash = true ∨ new hash

theorem Gains.finds {f f' : Cuckoo} {stem : Stem} (hf : f.Valid) (hstem : stem.Proper f.logSide)
    (h : Gains f stem f') : Finds f (stem.Begins f.logSide) f' := by
  refine ⟨h.valid, h.shape, fun hash => ?_⟩
  rw [Cuckoo.contains_iff h.valid, Cuckoo.contains_iff hf, h.shape.logSide]
  have hcons : (∃ x ∈ stem :: f.stored, x.Begins f.logSide hash) ↔
      (∃ x ∈ f.stored, x.Begins f.logSide hash) ∨ stem.Begins f.logSide hash := by
    simp only [List.mem_cons, exists_eq_or_imp]
    exact or_comm
  rw [← hcons]
  rcases h.stored with ⟨hperm, -⟩ | ⟨x, hperm, -, y, hy, hcovers⟩
  · exact exists_congr fun z => and_congr_left fun _ => hperm.mem_iff
  · have hmem (z : Stem) : z ∈ stem :: f.stored ↔ z = x ∨ z ∈ f'.stored := by
      rw [← hperm.mem_iff, List.mem_cons]
    have hproper (z : Stem) (hz : z ∈ stem :: f.stored) : z.tail.Ended := by
      rcases List.mem_cons.mp hz with rfl | hz
      · exact hstem.ended
      · exact (proper_of_mem_stored hf hz).ended
    have hx := hproper x ((hmem x).mpr (Or.inl rfl))
    have hy' := hproper y ((hmem y).mpr (Or.inr hy))
    constructor
    · intro ⟨z, hz, hbegins⟩
      exact ⟨z, (hmem z).mpr (Or.inr hz), hbegins⟩
    · intro ⟨z, hz, hbegins⟩
      rcases (hmem z).mp hz with rfl | hz
      -- the stem that is gone stood for nothing that `y` does not stand for
      · exact ⟨y, hy, hbegins.of_covers hf.logSide_le hy' hx hcovers⟩
      · exact ⟨z, hz, hbegins⟩

theorem finds_settled {f : Cuckoo} (hf : f.Valid) (s : Side) {e : Entry}
    (he : e.Proper f.logSide) :
    Finds f ((e.toStem (f.entropy.get s) f.logSide).Begins f.logSide) (f.settled s e) :=
  (gains_settled hf s he).finds hf (Entry.proper_toStem _ hf.logSide_le he)

theorem finds_foldl {α : Type} (step : Cuckoo → α → Cuckoo) (new : α → UInt64 → Prop)
    (xs : List α) {f : Cuckoo} (hf : f.Valid)
    (hstep : ∀ g x, SameShape f g → g.Valid → x ∈ xs → Finds g (new x) (step g x)) :
    Finds f (fun hash => ∃ x ∈ xs, new x hash) (xs.foldl step f) := by
  induction xs generalizing f with
  | nil => exact ⟨hf, ⟨rfl, rfl, rfl⟩, by simp⟩
  | cons x xs ih =>
      have hx := hstep f x ⟨rfl, rfl, rfl⟩ hf List.mem_cons_self
      have hrest := ih hx.valid fun g y hg hgvalid hy =>
        hstep g y (hx.shape.trans hg) hgvalid (List.mem_cons_of_mem x hy)
      refine ⟨hrest.valid, hx.shape.trans hrest.shape, fun hash => ?_⟩
      simp only [List.foldl_cons, List.mem_cons, exists_eq_or_imp]
      rw [hrest.contains_iff, hx.contains_iff, or_assoc]

/-! ## Widened stems -/

/-- The filter with all parts of a stem settled in it. -/
def absorbed (old : Nat) (f : Cuckoo) (s : Side) (stem : Stem) : Cuckoo :=
  (stem.widen old f.logSide).foldl
    (fun g part => g.settled s (.ofStem (f.entropy.get s) f.logSide part)) f

theorem absorb_value (a : Allocator) (old : Nat) (f : Cuckoo) (s : Side) (stem : Stem) :
    (absorb a old f s stem).value = (stem.widen old f.logSide).foldlM
      (fun g part =>
        (g.insertEntry a s (.ofStem (f.entropy.get s) f.logSide part)).value.toExcept) f := by
  unfold absorb
  rw [Logged.value_foldTry]
  rfl

theorem eq_absorbed_of_absorb {a : Allocator} {old : Nat} {f g : Cuckoo} {s : Side} {stem : Stem}
    (h : (absorb a old f s stem).value = .ok g) : g = absorbed old f s stem := by
  rw [absorb_value] at h
  exact eq_foldl_of_foldlM (fun _ _ _ hstep => eq_settled_of_insertEntry hstep) h

theorem proper_part {old : Nat} {f g : Cuckoo} (hshape : SameShape f g) (hg : g.Valid)
    (hold : old ≤ f.logSide) (s : Side) {stem part : Stem} (hstem : stem.Proper old)
    (hpart : part ∈ stem.widen old f.logSide) :
    (Entry.ofStem (f.entropy.get s) f.logSide part).Proper g.logSide := by
  have hL : f.logSide ≤ 48 := hshape.logSide ▸ hg.logSide_le
  rw [hshape.logSide]
  exact Entry.proper_ofStem _ hL (Stem.ended_of_mem_widen hold hL hstem hpart)

/-- A part of a widened stem is stored with the bits of its prefix that the table reads. -/
theorem gains_part {old : Nat} {f g : Cuckoo} (hshape : SameShape f g) (hg : g.Valid)
    (hold : old ≤ f.logSide) (s : Side) {stem part : Stem} (hstem : stem.Proper old)
    (hpart : part ∈ stem.widen old f.logSide) :
    Gains g (part.trim f.logSide)
      (g.settled s (.ofStem (f.entropy.get s) f.logSide part)) := by
  have hL : f.logSide ≤ 48 := hshape.logSide ▸ hg.logSide_le
  have hgains := gains_settled hg s (proper_part hshape hg hold s hstem hpart)
  rw [hshape.logSide, hshape.entropy,
    Entry.toStem_ofStem _ hL (Stem.ended_of_mem_widen hold hL hstem hpart)] at hgains
  exact hgains

theorem finds_absorbed {old : Nat} {f : Cuckoo} (hf : f.Valid) (hold : old ≤ f.logSide) (s : Side)
    {stem : Stem} (hstem : stem.Proper old) :
    Finds f (stem.Begins old) (absorbed old f s stem) := by
  have hL := hf.logSide_le
  have hfold := finds_foldl
    (fun g part => g.settled s (.ofStem (f.entropy.get s) f.logSide part))
    (fun part => (part.trim f.logSide).Begins f.logSide) (stem.widen old f.logSide) hf
    (fun g part hshape hg hpart => by
      have hgains := gains_part hshape hg hold s hstem hpart
      have hended := Stem.ended_of_mem_widen hold hL hstem hpart
      have hproper : (part.trim f.logSide).Proper g.logSide :=
        hshape.logSide.symm ▸ Stem.proper_trim hL hended
      have hfinds := hgains.finds hg hproper
      rw [hshape.logSide] at hfinds
      exact hfinds)
  refine ⟨hfold.valid, hfold.shape, fun hash => ?_⟩
  rw [absorbed, hfold.contains_iff, Stem.begins_widen_iff hold hL hstem]

theorem finds_foldl_absorbed {f g : Cuckoo} (hf : f.Valid) (hg : g.Valid)
    (hlog : f.logSide ≤ g.logSide) :
    Finds g (fun hash => f.contains hash = true)
      (f.stems.foldl (fun g x => absorbed f.logSide g x.1 x.2) g) := by
  have hfold := finds_foldl (fun g (x : Side × Stem) => absorbed f.logSide g x.1 x.2)
    (fun x => x.2.Begins f.logSide) f.stems hg (fun g' x hshape hg' hx =>
      finds_absorbed hg' (hshape.logSide.symm ▸ hlog) x.1
        (proper_of_mem_stored hf (List.mem_map_of_mem hx)))
  refine ⟨hfold.valid, hfold.shape, fun hash => ?_⟩
  rw [hfold.contains_iff, Cuckoo.contains_iff hf hash]
  simp only [stored, List.mem_map, exists_exists_and_eq_and]

/-! ## New tables -/

/-- Memory for the buckets of both sides. -/
def tableRequests (logSide : Nat) : List Request :=
  [.fresh Side.left.number (Table.bucketBytes * 2 ^ logSide),
    .fresh Side.right.number (Table.bucketBytes * 2 ^ logSide)]

theorem vacant_eq (a : Allocator) (logSide : Nat) (entropy : Entropy) :
    vacant a logSide entropy =
      if maxLogSide < logSide then .error (.capacityExceeded maxLogSide "log side size")
      else (a.request (tableRequests logSide)).map fun _ =>
        ⟨logSide, entropy, ⟨Table.vacant logSide, Table.vacant logSide⟩, Sampler.start 2, 0, 0⟩ := by
  unfold vacant
  by_cases hlog : maxLogSide < logSide
  · rw [if_pos hlog, if_pos hlog]
    rfl
  · rw [if_neg hlog, if_neg hlog]
    show (a.request (tableRequests logSide) >>= fun _ => _) = _
    cases a.request (tableRequests logSide) <;> rfl

theorem vacant_ok {a : Allocator} {logSide : Nat} {entropy : Entropy} {f : Cuckoo}
    (h : vacant a logSide entropy = .ok f) :
    logSide ≤ maxLogSide ∧ f =
      ⟨logSide, entropy, ⟨Table.vacant logSide, Table.vacant logSide⟩, Sampler.start 2, 0, 0⟩ := by
  rw [vacant_eq] at h
  split at h
  · cases h
  · rename_i hlog
    cases hmemory : a.request (tableRequests logSide) with
    | error e =>
        rw [hmemory] at h
        cases h
    | ok _ =>
        rw [hmemory] at h
        cases h
        exact ⟨Nat.not_lt.mp hlog, rfl⟩

theorem stored_of_vacant {f : Cuckoo} (hleft : f.tables.left = Table.vacant f.logSide)
    (hright : f.tables.right = Table.vacant f.logSide) : f.stored = [] := by
  simp [stored_eq, stemsOn, Both.get, hleft, hright, Table.entries_vacant]

/-! ## Growth -/

def doubled (f : Cuckoo) : Cuckoo :=
  ⟨f.logSide + 1, f.entropy, ⟨Table.vacant (f.logSide + 1), Table.vacant (f.logSide + 1)⟩,
    f.chooser, 0, f.generation + 1⟩

theorem grow_value (a : Allocator) (f : Cuckoo) :
    (f.grow a).value = vacant a (f.logSide + 1) f.entropy >>= fun _ =>
      f.stems.foldlM (fun g x => (absorb a f.logSide g x.1 x.2).value) f.doubled := by
  unfold grow
  cases hnext : vacant a (f.logSide + 1) f.entropy with
  | error e => rfl
  | ok next =>
      obtain ⟨-, rfl⟩ := vacant_ok hnext
      rw [Logged.value_bind, Logged.value_foldTry]
      show _ = f.stems.foldlM (fun g x => (absorb a f.logSide g x.1 x.2).value) f.doubled
      unfold doubled
      split <;> simp_all

theorem grow_ok {a : Allocator} {f f' : Cuckoo} (h : (f.grow a).value = .ok f') :
    f.logSide + 1 ≤ maxLogSide ∧
      f' = f.stems.foldl (fun g x => absorbed f.logSide g x.1 x.2) f.doubled := by
  rw [grow_value] at h
  obtain ⟨next, hnext, hmoved⟩ := bind_eq_ok_iff.mp h
  exact ⟨(vacant_ok hnext).1,
    eq_foldl_of_foldlM (fun _ _ _ hstep => eq_absorbed_of_absorb hstep) hmoved⟩

theorem valid_doubled {f : Cuckoo} (hlog : f.logSide + 1 ≤ maxLogSide) : f.doubled.Valid :=
  ⟨Nat.le_add_left 1 _, hlog, Table.valid_vacant _, Table.valid_vacant _⟩

/-- `f'` is larger than `f`, if anything, and has its keys and its answers. -/
structure Outgrows (f f' : Cuckoo) : Prop where
  valid : f'.Valid
  logSide_le : f.logSide ≤ f'.logSide
  entropy : f'.entropy = f.entropy
  contains_eq : ∀ hash, f'.contains hash = f.contains hash

theorem Outgrows.refl {f : Cuckoo} (hf : f.Valid) : Outgrows f f :=
  ⟨hf, Nat.le_refl _, rfl, fun _ => rfl⟩

theorem Outgrows.trans {f g h : Cuckoo} (hfg : Outgrows f g) (hgh : Outgrows g h) :
    Outgrows f h :=
  ⟨hgh.valid, Nat.le_trans hfg.logSide_le hgh.logSide_le, hgh.entropy.trans hfg.entropy,
    fun hash => (hgh.contains_eq hash).trans (hfg.contains_eq hash)⟩

theorem logSide_grow {a : Allocator} {f f' : Cuckoo} (hf : f.Valid)
    (h : (f.grow a).value = .ok f') : f'.logSide = f.logSide + 1 := by
  obtain ⟨hlog, rfl⟩ := grow_ok h
  exact (finds_foldl_absorbed hf (valid_doubled hlog) (Nat.le_succ _)).shape.logSide

/-- Growth changes no answer. -/
theorem outgrows_grow {a : Allocator} {f f' : Cuckoo} (hf : f.Valid)
    (h : (f.grow a).value = .ok f') : Outgrows f f' := by
  have hlogSide := logSide_grow hf h
  obtain ⟨hlog, rfl⟩ := grow_ok h
  have hfinds := finds_foldl_absorbed hf (valid_doubled hlog) (Nat.le_succ _)
  refine ⟨hfinds.valid, by omega, hfinds.shape.entropy, fun hash => ?_⟩
  have hempty : f.doubled.contains hash = false :=
    contains_of_stored_eq_nil (valid_doubled hlog) (stored_of_vacant rfl rfl) hash
  rw [Bool.eq_iff_iff, hfinds.contains_iff, hempty]
  simp

theorem outgrows_growWhileDue (a : Allocator) (limit : Nat) {f : Cuckoo} (hf : f.Valid) :
    Outgrows f (growWhileDue a limit f).value.filter := by
  induction limit generalizing f with
  | zero => exact Outgrows.refl hf
  | succ limit ih =>
      unfold growWhileDue
      split
      · cases hgrow : (f.grow a).value with
        | error e =>
            rw [Logged.value_bind, hgrow]
            exact Outgrows.refl hf
        | ok g =>
            have hg := outgrows_grow hf hgrow
            rw [Logged.value_bind, hgrow]
            exact hg.trans (ih hg.valid)
      · exact Outgrows.refl hf

theorem outgrows_makeRoom (a : Allocator) {f : Cuckoo} (hf : f.Valid) :
    Outgrows f (f.makeRoom a).value.filter :=
  outgrows_growWhileDue a _ hf

/-- Making room fails only where growth is due and refused. -/
theorem refused_growWhileDue {a : Allocator} {limit : Nat} {f g : Cuckoo} {e : FilterError}
    (h : (growWhileDue a limit f).value = ⟨g, some e⟩) :
    g.growthDue = true ∧ (g.grow a).value = .error e := by
  induction limit generalizing f with
  | zero => cases h
  | succ limit ih =>
      unfold growWhileDue at h
      by_cases hdue : f.growthDue = true
      · rw [if_pos hdue, Logged.value_bind] at h
        cases hgrow : (f.grow a).value with
        | error e' =>
            rw [hgrow] at h
            cases h
            exact ⟨hdue, hgrow⟩
        | ok f' =>
            rw [hgrow] at h
            exact ih h
      · rw [if_neg hdue] at h
        cases h

/-! ## Adding a hash -/

theorem proper_entryOf {f : Cuckoo} (hf : f.Valid) (s : Side) (hash : UInt64) :
    (f.entryOf s hash).Proper f.logSide := by
  have hL := hf.logSide_le
  refine ⟨Entry.bucket_ofHash_lt _ hL hash, ?_⟩
  rw [Slot.isVacant_eq_false_iff]
  exact (Entry.tail_ofHash (f.entropy.get s) hL hash).symm ▸ Stem.ended_ofHash hL hash

/-- The filter with a hash stored in it. -/
def put (f : Cuckoo) (hash : UInt64) : Cuckoo := f.settled .left (f.entryOf .left hash)

theorem store_value (a : Allocator) (f : Cuckoo) (hash : UInt64) :
    (f.store a hash).value =
      match a.request f.stashRoom with
      | .ok () => .done (f.put hash)
      | .error refusal => .failed f refusal :=
  insertEntry_value a f .left (f.entryOf .left hash)

theorem finds_put {f : Cuckoo} (hf : f.Valid) (hash : UInt64) :
    Finds f ((Stem.ofHash f.logSide hash).Begins f.logSide) (f.put hash) := by
  have h := finds_settled hf .left (proper_entryOf hf .left hash)
  unfold entryOf at h
  rw [Entry.toStem_ofHash _ hf.logSide_le] at h
  exact h

theorem insert_value (a : Allocator) (f : Cuckoo) (hash : UInt64) :
    (f.insert a hash).value =
      match (f.makeRoom a).value with
      | ⟨g, some e⟩ => .failed g e
      | ⟨g, none⟩ => (g.store a hash).value := by
  unfold insert
  rw [Logged.value_bind]
  split <;> simp_all

end ApproxSet.Cuckoo
