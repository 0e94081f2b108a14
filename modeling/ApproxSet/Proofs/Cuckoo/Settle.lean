import ApproxSet.Cuckoo.Growth
import ApproxSet.Proofs.Allocator
import ApproxSet.Proofs.Cuckoo.Table

/-!
# Storing an entry

A filter is looked at as the list of the stems it stores, whatever side they stand on. Moving an
entry to the other side does not change its stem, so a chain of evictions only passes one stem on
until it is stored, stashed, or found to be covered.
-/

namespace ApproxSet

open List (Perm)

namespace Both

variable {α β : Type}

theorem get_update (b : Both α) (s : Side) (f : α → β × α) :
    (b.update s f).2.get s = (f (b.get s)).2 := by
  cases s <;> rfl

theorem get_other_update (b : Both α) (s : Side) (f : α → β × α) :
    (b.update s f).2.get s.other = b.get s.other := by
  cases s <;> rfl

theorem update_eq_of_snd (b : Both α) (s : Side) (f : α → β × α) (h : (f (b.get s)).2 = b.get s) :
    (b.update s f).2 = b := by
  cases s <;> cases b <;> simp_all [update, get]

end Both

namespace Cuckoo

theorem Valid.table {f : Cuckoo} (hf : f.Valid) (s : Side) :
    (f.tables.get s).Valid f.logSide := by
  cases s
  · exact hf.left_valid
  · exact hf.right_valid

theorem Valid.of_tables {f f' : Cuckoo} (hf : f.Valid) (hlog : f'.logSide = f.logSide) (s : Side)
    (hs : (f'.tables.get s).Valid f.logSide) (hother : (f'.tables.get s.other).Valid f.logSide) :
    f'.Valid := by
  refine ⟨hlog ▸ hf.logSide_pos, hlog ▸ hf.logSide_le, ?_, ?_⟩ <;> rw [hlog] <;> cases s <;>
    assumption

def stemsOn (f : Cuckoo) (s : Side) : List Stem :=
  (f.tables.get s).entries.map fun e => e.toStem (f.entropy.get s) f.logSide

def stored (f : Cuckoo) : List Stem :=
  f.stems.map (·.2)

theorem stored_eq (f : Cuckoo) : f.stored = f.stemsOn .left ++ f.stemsOn .right := by
  simp only [stored, stems, List.map_append, List.map_map]
  rfl

theorem stored_perm (f : Cuckoo) (s : Side) :
    f.stored.Perm (f.stemsOn s ++ f.stemsOn s.other) := by
  rw [stored_eq]
  cases s
  · exact Perm.refl _
  · exact List.perm_append_comm

theorem proper_of_mem_stored {f : Cuckoo} (hf : f.Valid) {stem : Stem} (h : stem ∈ f.stored) :
    stem.Proper f.logSide := by
  have hside (s : Side) (hs : stem ∈ f.stemsOn s) : stem.Proper f.logSide := by
    obtain ⟨e, he, rfl⟩ := List.mem_map.mp hs
    have hproper := Table.proper_of_mem_entries (hf.table s) hf.logSide_le he
    exact Entry.proper_toStem _ hf.logSide_le hproper
  rw [stored_eq, List.mem_append] at h
  exact h.elim (hside .left) (hside .right)

/-- `f'` has the size, keys and generation of `f`. -/
structure SameShape (f f' : Cuckoo) : Prop where
  logSide : f'.logSide = f.logSide
  entropy : f'.entropy = f.entropy
  generation : f'.generation = f.generation

theorem SameShape.trans {f g h : Cuckoo} (hfg : SameShape f g) (hgh : SameShape g h) :
    SameShape f h :=
  ⟨hgh.logSide.trans hfg.logSide, hgh.entropy.trans hfg.entropy,
    hgh.generation.trans hfg.generation⟩

/-- A change of the entries on one side is a change of what is stored. -/
theorem stored_perm_of_side {f f' : Cuckoo} (shape : SameShape f f') (s : Side)
    (hother : f'.tables.get s.other = f.tables.get s.other) (gone come : List Entry)
    (hside : (gone ++ (f'.tables.get s).entries).Perm (come ++ (f.tables.get s).entries)) :
    (gone.map (·.toStem (f.entropy.get s) f.logSide) ++ f'.stored).Perm
      (come.map (·.toStem (f.entropy.get s) f.logSide) ++ f.stored) := by
  have hstems : f'.stemsOn s.other = f.stemsOn s.other := by
    unfold stemsOn
    rw [hother, shape.entropy, shape.logSide]
  have hmap := hside.map (·.toStem (f.entropy.get s) f.logSide)
  rw [List.map_append, List.map_append] at hmap
  have hf' : f'.stemsOn s = (f'.tables.get s).entries.map
      (·.toStem (f.entropy.get s) f.logSide) := by
    unfold stemsOn
    rw [shape.entropy, shape.logSide]
  have hbefore : (f'.stemsOn s ++ f'.stemsOn s.other).Perm f'.stored := (f'.stored_perm s).symm
  have hafter := f.stored_perm s
  rw [hstems, hf'] at hbefore
  have hchange := hmap.append_right (f.stemsOn s.other)
  rw [List.append_assoc, List.append_assoc] at hchange
  exact ((hbefore.symm.append_left _).trans hchange).trans (hafter.symm.append_left _)

/-! ## One placement -/

theorem place_eq (f : Cuckoo) (s : Side) (e : Entry) :
    f.place s e = (((f.tables.get s).place e f.chooser).1.1,
      { f with
        tables := (f.tables.update s fun t => t.place e f.chooser).2
        chooser := ((f.tables.get s).place e f.chooser).1.2 }) := by
  cases s <;> rfl

theorem place_shape (f : Cuckoo) (s : Side) (e : Entry) : SameShape f (f.place s e).2 := by
  rw [place_eq]
  exact ⟨rfl, rfl, rfl⟩

/-- What one placement does to the filter: the entry is stored, or covered and nothing changes, or a
victim leaves. -/
theorem place_cases {f : Cuckoo} (hf : f.Valid) {s : Side} {e : Entry} (he : e.Proper f.logSide) :
    (∃ f', f.place s e = (.stored, f') ∧ f'.Valid ∧ f'.occupied = f.occupied ∧
      f'.stored.Perm (e.toStem (f.entropy.get s) f.logSide :: f.stored)) ∨
    (f.place s e = (.covered, f) ∧
      ∃ y ∈ f.stored, y.Covers (e.toStem (f.entropy.get s) f.logSide)) ∨
    (∃ victim f', f.place s e = (.evicted victim, f') ∧ f'.Valid ∧ f'.occupied = f.occupied ∧
      victim.Proper f.logSide ∧
      (victim.toStem (f.entropy.get s) f.logSide :: f'.stored).Perm
        (e.toStem (f.entropy.get s) f.logSide :: f.stored)) := by
  have hshape := f.place_shape s e
  have htable : (f.place s e).2.tables.get s = ((f.tables.get s).place e f.chooser).2 := by
    rw [place_eq]
    exact Both.get_update _ _ _
  have hother : (f.place s e).2.tables.get s.other = f.tables.get s.other := by
    rw [place_eq]
    exact Both.get_other_update _ _ _
  have hvalid (h : ((f.tables.get s).place e f.chooser).2.Valid f.logSide) :
      (f.place s e).2.Valid :=
    hf.of_tables hshape.logSide s (htable ▸ h) (hother ▸ hf.table s.other)
  have hfst : (f.place s e).1 = ((f.tables.get s).place e f.chooser).1.1 := by rw [place_eq]
  have hocc : (f.place s e).2.occupied = f.occupied := by rw [place_eq]
  rcases Table.place_cases (hf.table s) he f.chooser with
    ⟨t, ht, htvalid, -, hperm⟩ | ⟨ht, x, hx, hbucket, hcovers⟩ | ⟨v, t, ht, htvalid, -, hv, hperm⟩
  · rw [ht] at htable hvalid hfst
    refine Or.inl ⟨_, Prod.ext hfst rfl, hvalid htvalid, hocc, ?_⟩
    exact stored_perm_of_side hshape s hother [] [e] (by rw [htable]; exact hperm)
  · refine Or.inr (Or.inl ⟨?_, ?_⟩)
    · rw [place_eq, Both.update_eq_of_snd _ _ _ (by rw [ht]), ht]
    · have hmem : x.toStem (f.entropy.get s) f.logSide ∈ f.stored :=
        (f.stored_perm s).mem_iff.mpr (List.mem_append_left _ (List.mem_map_of_mem hx))
      have hproper := Table.proper_of_mem_entries (hf.table s) hf.logSide_le hx
      exact ⟨_, hmem, (Entry.covers_iff _ hf.logSide_le hproper he.bucket_lt).mp ⟨hbucket, hcovers⟩⟩
  · rw [ht] at htable hvalid hfst
    refine Or.inr (Or.inr ⟨v, _, Prod.ext hfst rfl, hvalid htvalid, hocc, hv, ?_⟩)
    exact stored_perm_of_side hshape s hother [v] [e]
      (by rw [htable]; exact hperm)

/-! ## A chain of placements -/

/-- What `f'` stores is what `f` stores and `stem`, or all of that but one stem that another stem of
`f'` covers. -/
structure Gains (f : Cuckoo) (stem : Stem) (f' : Cuckoo) : Prop where
  valid : f'.Valid
  shape : SameShape f f'
  stored :
    f'.stored.Perm (stem :: f.stored) ∧ f'.occupied = f.occupied + 1 ∨
      ∃ x, (x :: f'.stored).Perm (stem :: f.stored) ∧ f'.occupied = f.occupied ∧
        ∃ y ∈ f'.stored, y.Covers x

/-- A placement that evicts only passes the victim on. -/
theorem Gains.of_evicted {f g f' : Cuckoo} {stem victim : Stem} (hshape : SameShape f g)
    (hocc : g.occupied = f.occupied) (hperm : (victim :: g.stored).Perm (stem :: f.stored))
    (h : Gains g victim f') : Gains f stem f' := by
  refine ⟨h.valid, hshape.trans h.shape, ?_⟩
  rcases h.stored with ⟨hstored, hcount⟩ | ⟨x, hstored, hcount, hcovers⟩
  · exact Or.inl ⟨hstored.trans hperm, by omega⟩
  · exact Or.inr ⟨x, hstored.trans hperm, by omega, hcovers⟩

theorem valid_countOne {f : Cuckoo} (hf : f.Valid) : f.countOne.Valid :=
  ⟨hf.logSide_pos, hf.logSide_le, hf.left_valid, hf.right_valid⟩

theorem gains_countOne {f g : Cuckoo} {stem : Stem} (hshape : SameShape f g) (hg : g.Valid)
    (hocc : g.occupied = f.occupied) (hperm : g.stored.Perm (stem :: f.stored)) :
    Gains f stem g.countOne :=
  ⟨valid_countOne hg, ⟨hshape.logSide, hshape.entropy, hshape.generation⟩,
    Or.inl ⟨hperm, congrArg (· + 1) hocc⟩⟩

theorem gains_of_covered {f : Cuckoo} (hf : f.Valid) {stem : Stem}
    (h : ∃ y ∈ f.stored, y.Covers stem) : Gains f stem f :=
  ⟨hf, ⟨rfl, rfl, rfl⟩, Or.inr ⟨stem, Perm.refl _, rfl, h⟩⟩

theorem pushStash_shape (f : Cuckoo) (s : Side) (e : Entry) : SameShape f (f.pushStash s e) :=
  ⟨rfl, rfl, rfl⟩

theorem gains_pushStash {f : Cuckoo} (hf : f.Valid) (s : Side) {e : Entry}
    (he : e.Proper f.logSide) :
    Gains f (e.toStem (f.entropy.get s) f.logSide) (f.pushStash s e).countOne := by
  have hself : (f.pushStash s e).tables.get s = (f.tables.get s).pushStash e :=
    Both.get_update _ _ _
  have hother : (f.pushStash s e).tables.get s.other = f.tables.get s.other :=
    Both.get_other_update _ _ _
  have hvalid : (f.pushStash s e).Valid :=
    hf.of_tables rfl s (hself ▸ Table.valid_pushStash (hf.table s) he) (hother ▸ hf.table s.other)
  apply gains_countOne (pushStash_shape f s e) hvalid rfl
  exact stored_perm_of_side (pushStash_shape f s e) s hother [] [e]
    (by rw [hself]; exact Table.entries_pushStash _ _)

theorem proper_cross {f : Cuckoo} (hL : f.logSide ≤ maxLogSide) (s : Side) {e : Entry}
    (he : e.Proper f.logSide) : (f.cross s e).Proper f.logSide :=
  Entry.proper_ofStem _ hL (Entry.proper_toStem _ hL he).ended

theorem toStem_cross {f : Cuckoo} (hL : f.logSide ≤ maxLogSide) (s : Side) {e : Entry}
    (he : e.Proper f.logSide) :
    (f.cross s e).toStem (f.entropy.get s.other) f.logSide =
      e.toStem (f.entropy.get s) f.logSide := by
  have hproper := Entry.proper_toStem (f.entropy.get s) hL he
  unfold cross
  rw [Entry.toStem_ofStem _ hL hproper.ended, Stem.trim_of_aligned hL hproper.aligned]

theorem settle_of_stored {f g : Cuckoo} {s : Side} {e : Entry} (h : f.place s e = (.stored, g))
    (moves : Nat) : settle moves f s e = pure g.countOne := by
  rw [settle.eq_def]
  simp only [h]

theorem settle_of_covered {f g : Cuckoo} {s : Side} {e : Entry} (h : f.place s e = (.covered, g))
    (moves : Nat) : settle moves f s e = pure g := by
  rw [settle.eq_def]
  simp only [h]

theorem settle_zero_of_evicted {f g : Cuckoo} {s : Side} {e victim : Entry}
    (h : f.place s e = (.evicted victim, g)) :
    (settle 0 f s e).value = (g.pushStash s victim).countOne := by
  rw [settle.eq_def]
  simp only [h, Logged.value_report]

theorem settle_succ_of_evicted {f g : Cuckoo} {s : Side} {e victim : Entry}
    (h : f.place s e = (.evicted victim, g)) (moves : Nat) :
    settle (moves + 1) f s e = settle moves g s.other (g.cross s victim) := by
  rw [settle.eq_def]
  simp only [h]

/-! ## One placement after another -/

/-- An entry that is to be placed, and the evictions that may follow. -/
structure Displaced where
  filter : Cuckoo
  side : Side
  entry : Entry
  moves : Nat

namespace Displaced

structure Valid (d : Displaced) : Prop where
  filter : d.filter.Valid
  entry : d.entry.Proper d.filter.logSide

def stem (d : Displaced) : Stem :=
  d.entry.toStem (d.filter.entropy.get d.side) d.filter.logSide

/-- One placement, with any chooser for the victim: that is all, or the victim is displaced. -/
def next (chooser : Chooser) (d : Displaced) : Cuckoo ⊕ Displaced :=
  match Cuckoo.place { d.filter with chooser := chooser } d.side d.entry with
  | (.stored, f) => .inl f.countOne
  | (.covered, f) => .inl f
  | (.evicted victim, f) =>
    match d.moves with
    | 0 => .inl (f.pushStash d.side victim).countOne
    | moves + 1 => .inr ⟨f, d.side.other, f.cross d.side victim, moves⟩

/-- At most `n` placements, each with a chooser of its own. -/
def run (choosers : Nat → Chooser) : (n : Nat) → Displaced → Cuckoo ⊕ Displaced
  | 0, d => .inr d
  | n + 1, d =>
    match d.next (choosers 0) with
    | .inl f => .inl f
    | .inr victim => run (fun k => choosers (k + 1)) n victim

theorem next_of_stored {chooser : Chooser} {d : Displaced} {f : Cuckoo}
    (h : Cuckoo.place { d.filter with chooser := chooser } d.side d.entry = (.stored, f)) :
    d.next chooser = .inl f.countOne := by
  unfold next
  rw [h]

theorem next_of_covered {chooser : Chooser} {d : Displaced} {f : Cuckoo}
    (h : Cuckoo.place { d.filter with chooser := chooser } d.side d.entry = (.covered, f)) :
    d.next chooser = .inl f := by
  unfold next
  rw [h]

theorem next_of_evicted {chooser : Chooser} {d : Displaced} {victim : Entry} {f : Cuckoo}
    (h : Cuckoo.place { d.filter with chooser := chooser } d.side d.entry =
      (.evicted victim, f)) :
    d.next chooser =
      match d.moves with
      | 0 => .inl (f.pushStash d.side victim).countOne
      | moves + 1 => .inr ⟨f, d.side.other, f.cross d.side victim, moves⟩ := by
  unfold next
  rw [h]

/-- The state of the chooser is nothing that is stored. -/
theorem gains_of_chooser {f f' : Cuckoo} {stem : Stem} {chooser : Chooser}
    (h : Gains { f with chooser := chooser } stem f') : Gains f stem f' :=
  ⟨h.valid, ⟨h.shape.logSide, h.shape.entropy, h.shape.generation⟩, h.stored⟩

/-- Placing an entry either gains its stem, or leaves a victim to be placed with fewer moves, and what
the victim gains is what the entry gains. -/
theorem next_spec {d : Displaced} (hd : d.Valid) (chooser : Chooser) :
    (∃ f, d.next chooser = .inl f ∧ Gains d.filter d.stem f) ∨
      ∃ victim, d.next chooser = .inr victim ∧ victim.Valid ∧ victim.moves + 1 = d.moves ∧
        ∀ f, Gains victim.filter victim.stem f → Gains d.filter d.stem f := by
  let f : Cuckoo := { d.filter with chooser := chooser }
  have hf : f.Valid := ⟨hd.filter.logSide_pos, hd.filter.logSide_le, hd.filter.left_valid,
    hd.filter.right_valid⟩
  have hshape := f.place_shape d.side d.entry
  rcases place_cases hf (s := d.side) hd.entry with
    ⟨g, hg, hvalid, hocc, hperm⟩ | ⟨hg, hcovers⟩ | ⟨v, g, hg, hvalid, hocc, hv, hperm⟩
  · rw [hg] at hshape
    have hgains := gains_countOne hshape hvalid hocc hperm
    exact Or.inl ⟨_, next_of_stored hg, gains_of_chooser hgains⟩
  · have hgains := gains_of_covered hf hcovers
    exact Or.inl ⟨_, next_of_covered hg, gains_of_chooser hgains⟩
  · rw [hg] at hshape
    have hv' : v.Proper g.logSide := hshape.logSide.symm ▸ hv
    have hnext := next_of_evicted hg
    cases hmoves : d.moves with
    | zero =>
        rw [hmoves] at hnext
        have hpush := gains_pushStash hvalid d.side hv'
        rw [hshape.entropy, hshape.logSide] at hpush
        have hgains := Gains.of_evicted hshape hocc hperm hpush
        exact Or.inl ⟨_, hnext, gains_of_chooser hgains⟩
    | succ moves =>
        rw [hmoves] at hnext
        have hcross := toStem_cross hvalid.logSide_le d.side hv'
        rw [hshape.entropy, hshape.logSide] at hcross
        refine Or.inr ⟨_, hnext, ⟨hvalid, proper_cross hvalid.logSide_le d.side hv'⟩, rfl, ?_⟩
        intro f' hgains
        unfold stem at hgains
        rw [hshape.entropy, hshape.logSide, hcross] at hgains
        exact gains_of_chooser (Gains.of_evicted hshape hocc hperm hgains)

/-- Whatever is drawn, one placement more than there are moves is enough, and the stem of the entry
is gained. -/
theorem run_spec {d : Displaced} (hd : d.Valid) (choosers : Nat → Chooser) :
    ∃ f, d.run choosers (d.moves + 1) = .inl f ∧ Gains d.filter d.stem f := by
  rcases next_spec hd (choosers 0) with ⟨f, hf, hgains⟩ | ⟨victim, hv, hvalid, hless, hgain⟩
  · exact ⟨f, by rw [run, hf], hgains⟩
  · rcases run_spec hvalid (fun k => choosers (k + 1)) with ⟨f, hf, hgains⟩
    rw [hless] at hf
    exact ⟨f, by rw [run, hv]; exact hf, hgain f hgains⟩
termination_by d.moves

theorem moves_next {chooser : Chooser} {d victim : Displaced}
    (h : d.next chooser = .inr victim) : victim.moves + 1 = d.moves := by
  unfold next at h
  split at h
  · cases h
  · cases h
  · split at h
    · cases h
    · rename_i hmoves
      cases h
      exact hmoves.symm

theorem settle_value (d : Displaced) :
    (settle d.moves d.filter d.side d.entry).value =
      match d.next d.filter.chooser with
      | .inl f => f
      | .inr victim => (settle victim.moves victim.filter victim.side victim.entry).value := by
  rcases d with ⟨f, s, e, moves⟩
  rcases hg : f.place s e with ⟨placement, g⟩
  cases placement with
  | stored =>
      rw [settle_of_stored hg, next_of_stored (d := ⟨f, s, e, moves⟩) hg]
      rfl
  | covered =>
      rw [settle_of_covered hg, next_of_covered (d := ⟨f, s, e, moves⟩) hg]
      rfl
  | evicted v =>
      rw [next_of_evicted (d := ⟨f, s, e, moves⟩) hg]
      cases moves with
      | zero => exact settle_zero_of_evicted hg
      | succ moves => rw [settle_succ_of_evicted hg]

def chooserThen (chooser : Chooser) (choosers : Nat → Chooser) : Nat → Chooser
  | 0 => chooser
  | k + 1 => choosers k

/-- Settling an entry is a run in which the chooser of the filter draws every victim. -/
theorem exists_run_eq_settle (d : Displaced) :
    ∃ choosers, d.run choosers (d.moves + 1) =
      .inl (settle d.moves d.filter d.side d.entry).value := by
  have hsettle := d.settle_value
  cases hnext : d.next d.filter.chooser with
  | inl f =>
      rw [hnext] at hsettle
      exact ⟨fun _ => d.filter.chooser, by rw [run, hnext, hsettle]⟩
  | inr victim =>
      rw [hnext] at hsettle
      rcases exists_run_eq_settle victim with ⟨choosers, hrun⟩
      have hfirst : d.next (chooserThen d.filter.chooser choosers 0) = .inr victim := hnext
      rw [moves_next hnext] at hrun
      exact ⟨chooserThen d.filter.chooser choosers, by rw [run, hfirst, hsettle]; exact hrun⟩
termination_by d.moves
decreasing_by
  have hmoves := moves_next hnext
  omega

end Displaced

/-- However many moves are allowed and whatever is drawn, an entry that is settled is stored and
nothing else changes, except that a stem may go which another one covers. -/
theorem gains_settle (moves : Nat) {f : Cuckoo} (hf : f.Valid) (s : Side) {e : Entry}
    (he : e.Proper f.logSide) :
    Gains f (e.toStem (f.entropy.get s) f.logSide) (settle moves f s e).value := by
  rcases Displaced.exists_run_eq_settle ⟨f, s, e, moves⟩ with ⟨choosers, hrun⟩
  rcases Displaced.run_spec (d := ⟨f, s, e, moves⟩) ⟨hf, he⟩ choosers with ⟨g, hg, hgains⟩
  rw [hrun] at hg
  cases hg
  exact hgains

/-- The filter with an entry settled in it. -/
def settled (f : Cuckoo) (s : Side) (e : Entry) : Cuckoo := (settle maxMoves f s e).value

theorem gains_settled {f : Cuckoo} (hf : f.Valid) (s : Side) {e : Entry}
    (he : e.Proper f.logSide) :
    Gains f (e.toStem (f.entropy.get s) f.logSide) (f.settled s e) :=
  gains_settle maxMoves hf s he

/-! ## Room in the stashes -/

theorem insertEntry_value (a : Allocator) (f : Cuckoo) (s : Side) (e : Entry) :
    (f.insertEntry a s e).value =
      match a.request f.stashRoom with
      | .ok () => .done (f.settled s e)
      | .error refusal => .failed f refusal := by
  unfold insertEntry
  cases a.request f.stashRoom <;> rfl

theorem eq_settled_of_insertEntry {a : Allocator} {f g : Cuckoo} {s : Side} {e : Entry}
    (h : (f.insertEntry a s e).value.toExcept = .ok g) : g = f.settled s e := by
  rw [insertEntry_value] at h
  cases hroom : a.request f.stashRoom with
  | error refusal =>
      rw [hroom] at h
      cases h
  | ok _ =>
      rw [hroom] at h
      cases h
      rfl

/-- Wherever it is refused, room was asked for one entry. -/
theorem eq_of_stashRoom_refused {a : Allocator} {f : Cuckoo} {refusal : FilterError}
    (h : a.request f.stashRoom = .error refusal) :
    refusal = .allocationRefused Table.stashEntryBytes :=
  Allocator.eq_of_refused (by simp [stashRoom, Request.bytes]) h

theorem stashRoom_granted {a : Allocator} (ha : a.GrantsRoom) (f : Cuckoo) :
    a.request f.stashRoom = .ok () :=
  Allocator.request_eq_ok_iff.mpr
    (by simp [stashRoom, Allocator.allows_of_grants, ha _ _ _])

end Cuckoo

end ApproxSet
