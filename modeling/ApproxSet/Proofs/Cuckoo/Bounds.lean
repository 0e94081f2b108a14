import ApproxSet.Proofs.Cuckoo.Union

/-!
# Bucket and slot indices

Every operation again, with each bucket and each drawn slot looked up under a check. On a valid
filter no check fails: entries are made from hashes and stems with the bucket in range, and an entry
that is evicted keeps its bucket and finds one on the other side. What the stored words are and what
is drawn does not matter.
-/

namespace ApproxSet

variable {α β : Type}

/-- A fold with steps that may fail, and may stop before they end. -/
def foldTry? (step? : β → α → Option (Except FilterError β)) :
    β → List α → Option (Except FilterError β)
  | b, [] => some (.ok b)
  | b, x :: xs => do
    match ← step? b x with
    | .ok b => foldTry? step? b xs
    | .error e => some (.error e)

/-- A fold never stops where its steps never stop, and what the steps preserve. -/
theorem foldTry?_eq (P : β → Prop) {step? : β → α → Option (Except FilterError β)}
    {step : β → α → Except FilterError β} (xs : List α) {start : β} (hstart : P start)
    (hstep : ∀ b x, P b → x ∈ xs → step? b x = some (step b x) ∧ ∀ c, step b x = .ok c → P c) :
    foldTry? step? start xs = some (xs.foldlM step start) := by
  induction xs generalizing start with
  | nil => rfl
  | cons x xs ih =>
      rcases hstep start x hstart List.mem_cons_self with ⟨hx, hnext⟩
      rw [foldTry?, hx, List.foldlM_cons]
      simp only [Option.bind_eq_bind, Option.bind_some]
      cases hvalue : step start x with
      | error e => rfl
      | ok c => exact ih (hnext c hvalue) fun b y hb hy => hstep b y hb (List.mem_cons_of_mem x hy)

namespace Table

variable {logSide : Nat}

/-- Places an entry, and stops where the bucket is not in the table or the drawn place is not one of
its four. -/
def place? (t : Table) (e : Entry) (chooser : Chooser) :
    Option ((Placement × Chooser) × Table) := do
  let b ← t.buckets[e.bucket.toNat]?
  match b.receive e.slot with
  | .stored b => some ((.stored, chooser), t.setBucket e.bucket b)
  | .covered => some ((.covered, chooser), t)
  | .full =>
    let (drawn, next) := chooser.draw
    if h : drawn < 4 then
      some ((.evicted { e with slot := b[drawn] }, next),
        t.setBucket e.bucket (b.set drawn e.slot))
    else none

def covers? (t : Table) (query : Entry) : Option Bool := do
  let b ← t.buckets[query.bucket.toNat]?
  some (t.stash.any (fun e => e.bucket == query.bucket && e.slot.covers query.slot)
    || b.covers query.slot)

theorem getElem?_bucket {t : Table} (ht : t.Valid logSide) {i : UInt64}
    (hi : i.toNat < 2 ^ logSide) : t.buckets[i.toNat]? = some (t.bucketAt i) := by
  have hlt : i.toNat < t.buckets.size := ht.size_eq.symm ▸ hi
  rw [bucketAt_of_lt hlt, Array.getElem?_eq_getElem hlt]

theorem place?_eq {t : Table} (ht : t.Valid logSide) {e : Entry}
    (he : e.bucket.toNat < 2 ^ logSide) (chooser : Chooser) :
    t.place? e chooser = some (t.place e chooser) := by
  have hdrawn : chooser.draw.1 < 4 := chooser.draw_lt
  unfold place? place
  rw [getElem?_bucket ht he]
  generalize t.bucketAt e.bucket = b
  simp only [Option.bind_eq_bind, Option.bind_some]
  cases b.receive e.slot with
  | stored b => rfl
  | covered => rfl
  | full =>
      have hindex : Fin.ofNat 4 chooser.draw.1 = ⟨chooser.draw.1, hdrawn⟩ :=
        Fin.ext (Nat.mod_eq_of_lt hdrawn)
      simp only [dif_pos hdrawn, hindex]
      rfl

theorem covers?_eq {t : Table} (ht : t.Valid logSide) {query : Entry}
    (hq : query.bucket.toNat < 2 ^ logSide) : t.covers? query = some (t.covers query) := by
  unfold covers?
  rw [getElem?_bucket ht hq]
  rfl

end Table

namespace Cuckoo

/-! ## Lookups -/

def contains? (f : Cuckoo) (hash : UInt64) : Option Bool := do
  let left ← f.tables.left.covers? (f.entryOf .left hash)
  let right ← f.tables.right.covers? (f.entryOf .right hash)
  some (left || right)

theorem contains?_eq {f : Cuckoo} (hf : f.Valid) (hash : UInt64) :
    f.contains? hash = some (f.contains hash) := by
  unfold contains?
  rw [Table.covers?_eq hf.left_valid (proper_entryOf hf .left hash).bucket_lt,
    Table.covers?_eq hf.right_valid (proper_entryOf hf .right hash).bucket_lt]
  rfl

/-! ## Evictions -/

def place? (f : Cuckoo) (s : Side) (e : Entry) : Option (Table.Placement × Cuckoo) := do
  let ((placement, chooser), t) ← (f.tables.get s).place? e f.chooser
  some (placement, { f with tables := (f.tables.update s fun _ => ((), t)).2, chooser := chooser })

def settle? : (moves : Nat) → Cuckoo → Side → Entry → Option Cuckoo
  | moves, f, s, e => do
    match ← f.place? s e with
    | (.stored, f) => some f.countOne
    | (.covered, f) => some f
    | (.evicted victim, f) =>
      match moves with
      | 0 => some (f.pushStash s victim).countOne
      | moves + 1 => settle? moves f s.other (f.cross s victim)

def insertEntry? (a : Allocator) (f : Cuckoo) (s : Side) (e : Entry) : Option (Outcome Cuckoo) :=
  match a.request f.stashRoom with
  | .error refusal => some (.failed f refusal)
  | .ok () => (settle? maxMoves f s e).map .done

theorem place?_eq {f : Cuckoo} (hf : f.Valid) (s : Side) {e : Entry} (he : e.Proper f.logSide) :
    f.place? s e = some (f.place s e) := by
  unfold place?
  rw [Table.place?_eq (hf.table s) he.bucket_lt]
  cases s <;> rfl

theorem settle?_eq (moves : Nat) {f : Cuckoo} (hf : f.Valid) (s : Side) {e : Entry}
    (he : e.Proper f.logSide) : settle? moves f s e = some (settle moves f s e).value := by
  induction moves generalizing f s e with
  | zero =>
      have hplace := place?_eq hf s he
      unfold settle?
      rcases place_cases hf he with ⟨g, hg, -⟩ | ⟨hg, -⟩ | ⟨v, g, hg, -⟩
      · rw [hplace, settle_of_stored hg, hg]
        rfl
      · rw [hplace, settle_of_covered hg, hg]
        rfl
      · rw [hplace, settle_zero_of_evicted hg, hg]
        rfl
  | succ moves ih =>
      have hplace := place?_eq hf s he
      have hshape := f.place_shape s e
      unfold settle?
      rcases place_cases hf he with ⟨g, hg, -⟩ | ⟨hg, -⟩ | ⟨v, g, hg, hvalid, -, hv, -⟩
      · rw [hplace, settle_of_stored hg, hg]
        rfl
      · rw [hplace, settle_of_covered hg, hg]
        rfl
      · rw [hg] at hshape
        rw [hplace, settle_succ_of_evicted hg, hg]
        exact ih hvalid s.other (proper_cross hvalid.logSide_le s (hshape.logSide.symm ▸ hv))

theorem insertEntry?_eq (a : Allocator) {f : Cuckoo} (hf : f.Valid) (s : Side) {e : Entry}
    (he : e.Proper f.logSide) : f.insertEntry? a s e = some (f.insertEntry a s e).value := by
  unfold insertEntry?
  rw [insertEntry_value]
  cases a.request f.stashRoom with
  | error refusal => rfl
  | ok _ =>
      simp only [settle?_eq maxMoves hf s he]
      rfl

/-! ## Growth -/

def absorb? (a : Allocator) (oldLogSide : Nat) (f : Cuckoo) (s : Side) (stem : Stem) :
    Option (Except FilterError Cuckoo) :=
  foldTry?
    (fun g part =>
      (g.insertEntry? a s (.ofStem (f.entropy.get s) f.logSide part)).map Outcome.toExcept)
    f (stem.widen oldLogSide f.logSide)

def grow? (a : Allocator) (f : Cuckoo) : Option (Except FilterError Cuckoo) :=
  match vacant a (f.logSide + 1) f.entropy with
  | .error e => some (.error e)
  | .ok next =>
    foldTry? (fun g x => absorb? a f.logSide g x.1 x.2)
      { next with chooser := f.chooser, generation := f.generation + 1 } f.stems

def growWhileDue? (a : Allocator) : (limit : Nat) → Cuckoo → Option (Outcome Cuckoo)
  | 0, f => some (.done f)
  | limit + 1, f =>
    if f.growthDue then do
      match ← f.grow? a with
      | .error e => some (.failed f e)
      | .ok f => growWhileDue? a limit f
    else some (.done f)

def makeRoom? (a : Allocator) (f : Cuckoo) : Option (Outcome Cuckoo) :=
  growWhileDue? a (maxLogSide + 1 - f.logSide) f

def insert? (a : Allocator) (f : Cuckoo) (hash : UInt64) : Option (Outcome Cuckoo) := do
  match ← f.makeRoom? a with
  | ⟨f, some e⟩ => some (.failed f e)
  | ⟨f, none⟩ => f.insertEntry? a .left (f.entryOf .left hash)

theorem absorb?_eq (a : Allocator) {old : Nat} {f : Cuckoo} (hf : f.Valid) (hold : old ≤ f.logSide)
    (s : Side) {stem : Stem} (hstem : stem.Proper old) :
    absorb? a old f s stem = some (absorb a old f s stem).value := by
  rw [absorb_value]
  apply foldTry?_eq (fun g => g.Valid ∧ SameShape f g)
  · exact ⟨hf, rfl, rfl, rfl⟩
  · intro g part hg hpart
    rcases hg with ⟨hvalid, hshape⟩
    rw [insertEntry?_eq a hvalid s (proper_part hshape hvalid hold s hstem hpart)]
    refine ⟨rfl, fun c hc => ?_⟩
    rw [eq_settled_of_insertEntry hc]
    have hgains := gains_part hshape hvalid hold s hstem hpart
    exact ⟨hgains.valid, hshape.trans hgains.shape⟩

theorem grow?_eq (a : Allocator) {f : Cuckoo} (hf : f.Valid) :
    f.grow? a = some (f.grow a).value := by
  rw [grow_value]
  unfold grow?
  cases hnext : vacant a (f.logSide + 1) f.entropy with
  | error e => rfl
  | ok next =>
      obtain ⟨hlog, rfl⟩ := vacant_ok hnext
      apply foldTry?_eq (fun g => g.Valid ∧ f.logSide ≤ g.logSide)
      · exact ⟨valid_doubled hlog, Nat.le_succ _⟩
      · intro g x hg hx
        rcases hg with ⟨hvalid, hle⟩
        have hstem := proper_stems hf x hx
        refine ⟨absorb?_eq a hvalid hle x.1 hstem, fun c hc => ?_⟩
        rw [eq_absorbed_of_absorb hc]
        have hfinds := finds_absorbed hvalid hle x.1 hstem
        exact ⟨hfinds.valid, hfinds.shape.logSide.symm ▸ hle⟩

theorem growWhileDue?_eq (a : Allocator) (limit : Nat) {f : Cuckoo} (hf : f.Valid) :
    growWhileDue? a limit f = some (growWhileDue a limit f).value := by
  induction limit generalizing f with
  | zero => rfl
  | succ limit ih =>
      unfold growWhileDue? growWhileDue
      split
      · rw [grow?_eq a hf, Logged.value_bind]
        cases hgrow : (f.grow a).value with
        | error e => rfl
        | ok g => exact ih (outgrows_grow hf hgrow).valid
      · rfl

theorem makeRoom?_eq (a : Allocator) {f : Cuckoo} (hf : f.Valid) :
    f.makeRoom? a = some (f.makeRoom a).value :=
  growWhileDue?_eq a _ hf

theorem insert?_eq (a : Allocator) {f : Cuckoo} (hf : f.Valid) (hash : UInt64) :
    f.insert? a hash = some (f.insert a hash).value := by
  have hroom := outgrows_makeRoom a hf
  unfold insert?
  rw [makeRoom?_eq a hf, insert_value]
  cases hmake : (f.makeRoom a).value with
  | mk g failure =>
      rw [hmake] at hroom
      cases failure with
      | some e => rfl
      | none => exact insertEntry?_eq a hroom.valid .left (proper_entryOf hroom.valid .left hash)

/-! ## Union -/

def absorbWithRoom? (a : Allocator) (oldLogSide : Nat) (f : Cuckoo) (entry : Side × Stem) :
    Option (Except FilterError Cuckoo) := do
  match ← f.makeRoom? a with
  | ⟨_, some e⟩ => some (.error e)
  | ⟨f, none⟩ => absorb? a oldLogSide f entry.1 entry.2

def merge? (a : Allocator) (large small : Cuckoo) : Option (Except FilterError Cuckoo) :=
  match large.copy a with
  | .error e => some (.error e)
  | .ok merged => foldTry? (absorbWithRoom? a small.logSide) merged small.stems

def union? (a : Allocator) (f g : Cuckoo) : Option (Except FilterError Cuckoo) :=
  if f.entropy = g.entropy then merge? a (bySize f g).1 (bySize f g).2
  else some (.error .differentEntropy)

theorem absorbWithRoom?_eq (a : Allocator) {old : Nat} {f : Cuckoo} (hf : f.Valid)
    (hold : old ≤ f.logSide) {x : Side × Stem} (hx : x.2.Proper old) :
    absorbWithRoom? a old f x = some (absorbWithRoom a old f x).value := by
  have hroom := outgrows_makeRoom a hf
  rw [absorbWithRoom_value]
  unfold absorbWithRoom?
  simp only [makeRoom?_eq a hf, Option.bind_eq_bind, Option.bind_some]
  cases hmake : (f.makeRoom a).value with
  | mk g failure =>
      rw [hmake] at hroom
      cases failure with
      | some e => rfl
      | none => exact absorb?_eq a hroom.valid (Nat.le_trans hold hroom.logSide_le) x.1 hx

/-- The target of a merge stays valid, and no smaller than what it takes stems of. -/
theorem absorbAll?_eq (a : Allocator) {old : Nat} {f : Cuckoo} (hf : f.Valid) (hold : old ≤ f.logSide)
    {stems : List (Side × Stem)} (hstems : ∀ x ∈ stems, x.2.Proper old) :
    foldTry? (absorbWithRoom? a old) f stems = some (absorbAll a old f stems) := by
  apply foldTry?_eq (fun g => g.Valid ∧ old ≤ g.logSide)
  · exact ⟨hf, hold⟩
  · intro g x hg hx
    rcases hg with ⟨hvalid, hle⟩
    refine ⟨absorbWithRoom?_eq a hvalid hle (hstems x hx), fun c hc => ?_⟩
    have hspec := absorbWithRoom_spec a hvalid hle (hstems x hx)
    rw [hc] at hspec
    exact ⟨hspec.valid, Nat.le_trans hle hspec.logSide_le⟩

theorem merge?_eq (a : Allocator) {large small : Cuckoo} (hlarge : large.Valid)
    (hsmall : small.Valid) (hle : small.logSide ≤ large.logSide) :
    merge? a large small = some (merge a large small) := by
  unfold merge? merge
  cases hcopy : large.copy a with
  | error e => rfl
  | ok merged =>
      obtain rfl := eq_of_copy hcopy
      exact absorbAll?_eq a hlarge hle (proper_stems hsmall)

theorem union?_eq (a : Allocator) {f g : Cuckoo} (hf : f.Valid) (hg : g.Valid) :
    f.union? a g = some (f.union a g).value := by
  by_cases hkeys : f.entropy = g.entropy
  · rw [union_value a hkeys]
    unfold union?
    rw [if_pos hkeys]
    rcases bySize_spec hf hg with ⟨hlarge, hsmall, hle⟩
    exact merge?_eq a hlarge hsmall hle
  · unfold union? union
    rw [if_neg hkeys, if_neg hkeys]
    rfl

/-! ## Valid filters -/

theorem valid_insert (a : Allocator) {f : Cuckoo} (hf : f.Valid) (hash : UInt64) :
    (f.insert a hash).value.filter.Valid :=
  (adds_insert a hf hash).valid

end Cuckoo

end ApproxSet
