import ApproxSet.Proofs.XorFilter.Peeling

/-!
# Degrees as counters

Peeling again, with each degree in a counter of 32 bits that refuses to go above its largest value or
below zero, and with every slot that changes and every name looked up under a check. Nothing is
refused: an edge is detached once and from its own slots, so each of them still counts it. Nor does
peeling have to be stopped, since every step takes an edge away.
-/

namespace ApproxSet.Peeling

/-- One more, if 32 bits hold it. -/
def increment (d : Nat) : Option Nat :=
  if d + 1 < 2 ^ 32 then some (d + 1) else none

/-- One less, if there is one. -/
def decrement (d : Nat) : Option Nat :=
  if 0 < d then some (d - 1) else none

namespace Incidence

/-- Changes the degree of slot `v` by `count` and its name by `i`, and stops where the slot is not in
the table or its counter refuses. -/
def touchChecked (count : Nat → Option Nat) (i : Nat) (g : Incidence) (v : Nat) :
    Option Incidence := do
  let d ← count (← g.degree[v]?)
  let name ← g.names[v]?
  some ⟨g.degree.setIfInBounds v d, g.names.setIfInBounds v (name ^^^ i)⟩

/-- Attaches edge number `i` at all its slots. -/
def attachEdgeChecked (edges : Array Edge) (g : Incidence) (i : Nat) : Option Incidence := do
  let e ← edges[i]?
  e.vertices.foldlM (touchChecked increment i) g

def ofEdgesChecked (edges : Array Edge) (slots : Nat) : Option Incidence :=
  (List.range edges.size).foldlM (attachEdgeChecked edges) (empty slots)

theorem setIfInBounds_eq_modify {xs : Array Nat} {v : Nat} (hv : v < xs.size) (f : Nat → Nat) :
    xs.setIfInBounds v (f (xs.getD v 0)) = xs.modify v f := by
  apply Array.ext
  · rw [Array.size_setIfInBounds, Array.size_modify]
  · intro w hw hw'
    rw [Array.getElem_setIfInBounds, Array.getElem_modify, Array.getD_eq_getD_getElem?,
      Array.getElem?_eq_getElem hv, Option.getD_some]
    by_cases h : v = w
    · subst h
      simp
    · rw [if_neg h, if_neg h]

theorem touchChecked_eq {g : Incidence} {slots : Nat} (hg : g.Sized slots) {v : Nat}
    (hv : v < slots) {count : Nat → Option Nat} {f : Nat → Nat}
    (hcount : count (g.degreeAt v) = some (f (g.degreeAt v))) (i : Nat) :
    touchChecked count i g v = some (touch f i g v) := by
  have hdegree : v < g.degree.size := hg.degree.symm ▸ hv
  have hnames : v < g.names.size := hg.names.symm ▸ hv
  have hd : g.degree[v]? = some (g.degreeAt v) := by
    rw [degreeAt, Array.getD_eq_getD_getElem?, Array.getElem?_eq_getElem hdegree, Option.getD_some]
  have hn : g.names[v]? = some (g.nameAt v) := by
    rw [nameAt, Array.getD_eq_getD_getElem?, Array.getElem?_eq_getElem hnames, Option.getD_some]
  simp only [touchChecked, hd, hn, Option.bind_eq_bind, Option.bind_some, hcount]
  exact congrArg some (congrArg₂ mk (setIfInBounds_eq_modify hdegree f)
    (setIfInBounds_eq_modify hnames (· ^^^ i)))

/-- Changes at distinct slots, of which none is refused, of an incidence or of what holds one. -/
theorem foldlM_of_touch {α : Type} (view : α → Incidence) {step? : α → Nat → Option α}
    {step : α → Nat → α} {slots i : Nat} {count : Nat → Option Nat} {f : Nat → Nat}
    (hstep : ∀ x v, touchChecked count i (view x) v = some (touch f i (view x) v) →
      step? x v = some (step x v))
    (hview : ∀ x v, view (step x v) = touch f i (view x) v) {x : α} (hx : (view x).Sized slots)
    {us : List Nat} (hus : us.Nodup) (hlt : ∀ u ∈ us, u < slots)
    (hcount : ∀ u ∈ us, count ((view x).degreeAt u) = some (f ((view x).degreeAt u))) :
    us.foldlM step? x = some (us.foldl step x) := by
  induction us generalizing x with
  | nil => rfl
  | cons u us ih =>
      rcases List.nodup_cons.mp hus with ⟨hu, hrest⟩
      have hult := hlt u List.mem_cons_self
      have hfirst := hstep x u (touchChecked_eq hx hult (hcount u List.mem_cons_self) i)
      rw [List.foldlM_cons, hfirst, Option.bind_eq_bind, Option.bind_some, List.foldl_cons]
      apply ih (hview x u ▸ sized_touch hx f i u) hrest fun w hw => hlt w (List.mem_cons_of_mem u hw)
      -- the slots still to come have the degrees they had
      intro w hw
      have hne : w ≠ u := fun h => hu (h ▸ hw)
      rw [hview, degreeAt_touch hx hult, if_neg hne]
      exact hcount w (List.mem_cons_of_mem u hw)

end Incidence

variable {edges : Array Edge} {slots : Nat} {left : List Nat}

theorem getElem?_of_mem_slotsOf {i v : Nat} (hv : v ∈ slotsOf edges i) :
    ∃ e, edges[i]? = some e ∧ slotsOf edges i = e.vertices := by
  unfold slotsOf at hv ⊢
  cases he : edges[i]? with
  | none =>
      rw [he] at hv
      exact absurd hv List.not_mem_nil
  | some e => exact ⟨e, rfl, rfl⟩

/-! ## Building up -/

/-- No degree is above the number of edges attached before, which a counter can hold. -/
theorem attachEdgeChecked_eq (hfit : AllFit edges slots) (hsize : edges.size < 2 ^ 32) {n : Nat}
    (hn : n < edges.size) {g : Incidence} (h : Tracks edges slots (List.range n) g) :
    g.attachEdgeChecked edges n = some ((slotsOf edges n).foldl (fun g v => g.attach n v) g) := by
  have he : edges[n]? = some edges[n] := Array.getElem?_eq_getElem hn
  have hslots : slotsOf edges n = edges[n].vertices := by simp only [slotsOf, he]
  have hcount (v : Nat) : increment (g.degreeAt v) = some (g.degreeAt v + 1) := by
    have hle : (touching edges (List.range n) v).length ≤ (List.range n).length :=
      List.length_filter_le _ _
    rw [List.length_range] at hle
    rw [h.degree]
    exact if_pos (by omega)
  rcases hfit.slotsOf n with ⟨hnodup, hlt⟩
  rw [Incidence.attachEdgeChecked, he, Option.bind_eq_bind, Option.bind_some, ← hslots]
  exact Incidence.foldlM_of_touch id (fun g v h => h) (fun g v => rfl) h.sized hnodup hlt
    fun u _ => hcount u

theorem ofEdgesChecked_eq (hfit : AllFit edges slots) (hsize : edges.size < 2 ^ 32) :
    Incidence.ofEdgesChecked edges slots = some (Incidence.ofEdges edges slots) := by
  have hfirst (n : Nat) (hn : n ≤ edges.size) :
      (List.range n).foldlM (Incidence.attachEdgeChecked edges) (Incidence.empty slots) =
        some ((List.range n).foldl (fun g i => (slotsOf edges i).foldl (fun g v => g.attach i v) g)
          (Incidence.empty slots)) := by
    induction n with
    | zero => rfl
    | succ n ih =>
        have hattach := attachEdgeChecked_eq hfit hsize hn (tracks_foldl_attach hfit n)
        rw [List.range_succ, List.foldlM_append, ih (by omega), Option.bind_eq_bind,
          Option.bind_some, List.foldlM_cons, hattach, List.foldl_append]
        rfl
  rw [Incidence.ofEdgesChecked, ofEdges_eq]
  exact hfirst edges.size (Nat.le_refl _)

/-! ## Taking down -/

namespace State

def startChecked (edges : Array Edge) (slots : Nat) : Option State := do
  let g ← Incidence.ofEdgesChecked edges slots
  some ⟨g, ((List.range slots).filter fun v => g.degreeAt v == 1).reverse⟩

def detachChecked (s : State) (i v : Nat) : Option State := do
  let g ← s.incidence.touchChecked decrement i v
  some ⟨g, if g.degreeAt v == 1 then v :: s.stack else s.stack⟩

/-- Peels one edge, and stops where the name of a slot is not the position of an edge. -/
def nextChecked (edges : Array Edge) (s : State) : Option (Option (Step × State)) :=
  match s.stack.dropWhile fun v => s.incidence.degreeAt v != 1 with
  | [] => some none
  | v :: stack => do
    let i := s.incidence.nameAt v
    let e ← edges[i]?
    let s ← e.vertices.foldlM (fun s u => s.detachChecked i u) ⟨s.incidence, stack⟩
    some (some (⟨i, v⟩, s))

theorem foldlM_detachChecked {s : State} (hs : s.incidence.Sized slots) (i : Nat) {us : List Nat}
    (hus : us.Nodup) (hlt : ∀ u ∈ us, u < slots) (hpos : ∀ u ∈ us, 0 < s.incidence.degreeAt u) :
    us.foldlM (fun s u => s.detachChecked i u) s = some (us.foldl (fun s u => s.detach i u) s) := by
  have hstep (s : State) (v : Nat)
      (h : s.incidence.touchChecked decrement i v = some (Incidence.touch (· - 1) i s.incidence v)) :
      s.detachChecked i v = some (s.detach i v) := by
    unfold detachChecked
    rw [h]
    rfl
  exact Incidence.foldlM_of_touch State.incidence hstep (fun s v => rfl) hs hus hlt
    fun u hu => if_pos (hpos u hu)

end State

/-- Each slot of an edge that is left counts it. -/
theorem Tracks.degreeAt_pos {g : Incidence} (h : Tracks edges slots left g) {i v : Nat}
    (hi : i ∈ left) (hv : v ∈ slotsOf edges i) : 0 < g.degreeAt v := by
  rw [h.degree]
  exact List.length_pos_of_mem (mem_touching.mpr ⟨hi, hv⟩)

theorem nextChecked_eq (hfit : AllFit edges slots) {s : State} (h : Consistent edges slots left s) :
    s.nextChecked edges = some (s.next? edges) := by
  rw [State.next?_eq, State.nextChecked]
  cases hdrop : s.stack.dropWhile fun v => s.incidence.degreeAt v != 1 with
  | nil => rfl
  | cons v stack =>
      rcases h.tracks.named_of_degreeAt_eq_one (degreeAt_of_dropWhile_eq_cons hdrop) with
        ⟨hi, hv, -⟩
      rcases getElem?_of_mem_slotsOf hv with ⟨e, he, hslots⟩
      rcases hfit.slotsOf (s.incidence.nameAt v) with ⟨hnodup, hlt⟩
      have hdetach := State.foldlM_detachChecked (s := ⟨s.incidence, stack⟩) h.tracks.sized
        (s.incidence.nameAt v) hnodup hlt fun u hu => h.tracks.degreeAt_pos hi hu
      rw [hslots] at hdetach
      simp only [he, hslots, Option.bind_eq_bind, Option.bind_some, hdetach]

/-! ## The whole order -/

def peelFromChecked (edges : Array Edge) : (limit : Nat) → State → Option (List Step)
  | 0, _ => some []
  | limit + 1, s => do
    match ← s.nextChecked edges with
    | none => some []
    | some (step, s) =>
      let steps ← peelFromChecked edges limit s
      some (step :: steps)

/-- The peeling order, looked for with at most `limit` steps. -/
def orderChecked (edges : Array Edge) (slots limit : Nat) : Option (Option (List Step)) := do
  let s ← State.startChecked edges slots
  let steps ← peelFromChecked edges limit s
  some (if steps.length = edges.size then some steps else none)

theorem peelFromChecked_eq (hfit : AllFit edges slots) (limit : Nat) {s : State}
    (h : Consistent edges slots left s) :
    peelFromChecked edges limit s = some (peelFrom edges limit s) := by
  induction limit generalizing left s with
  | zero => rfl
  | succ limit ih =>
      unfold peelFromChecked peelFrom
      rw [nextChecked_eq hfit h, Option.bind_eq_bind, Option.bind_some]
      cases hnext : s.next? edges with
      | none => rfl
      | some next =>
          rcases next with ⟨step, s'⟩
          rcases consistent_of_next?_eq_some hfit h hnext with ⟨-, -, -, hs'⟩
          simp only [ih hs', Option.bind_eq_bind, Option.bind_some]

/-- Peeling ends by itself, after as many steps as there are edges left at most. -/
theorem peelFrom_of_length_le (hfit : AllFit edges slots) {limit : Nat}
    (hlimit : left.length ≤ limit) {s : State} (h : Consistent edges slots left s) :
    peelFrom edges limit s = peelFrom edges left.length s := by
  induction limit generalizing left s with
  | zero => rw [Nat.le_zero.mp hlimit]
  | succ limit ih =>
      cases hnext : s.next? edges with
      | none =>
          rw [peelFrom, hnext]
          cases left.length with
          | zero => rfl
          | succ n => rw [peelFrom, hnext]
      | some next =>
          rcases next with ⟨step, s'⟩
          rcases consistent_of_next?_eq_some hfit h hnext with ⟨hi, -, -, hs'⟩
          have herase := List.length_erase_of_mem hi
          have hpos := List.length_pos_of_mem hi
          have hcount : left.length = (left.erase step.edge).length + 1 := by omega
          rw [hcount, peelFrom, hnext, peelFrom, hnext]
          exact congrArg (step :: ·) (ih (by omega) hs')

/-- No counter is moved out of its range, and no more steps are taken than there are edges. -/
theorem orderChecked_eq (hfit : AllFit edges slots) (hsize : edges.size < 2 ^ 32) {limit : Nat}
    (hlimit : edges.size ≤ limit) :
    orderChecked edges slots limit = some (order? edges slots) := by
  have hstart := consistent_start hfit
  have hlength : (List.range edges.size).length ≤ limit := by rwa [List.length_range]
  have hstop := peelFrom_of_length_le hfit hlength hstart
  rw [List.length_range] at hstop
  have hchecked : State.startChecked edges slots = some (State.start edges slots) := by
    unfold State.startChecked
    rw [ofEdgesChecked_eq hfit hsize]
    rfl
  unfold orderChecked
  rw [hchecked, Option.bind_eq_bind, Option.bind_some, peelFromChecked_eq hfit limit hstart,
    Option.bind_eq_bind, Option.bind_some, hstop]
  rfl

end ApproxSet.Peeling
