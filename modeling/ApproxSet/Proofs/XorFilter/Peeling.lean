import ApproxSet.Proofs.XorFilter.Edge
import ApproxSet.Proofs.XorFilter.Hypergraph
import Mathlib.Data.List.TakeWhile

/-!
# The peeling order

Degrees and names are kept up to date through every change, so a slot of degree one names its only
edge, and every slot of degree one is stacked. Peeling therefore takes away lone edges only, and it
stops at a core.
-/

namespace ApproxSet.Peeling

/-! ## One change of the incidence -/

namespace Incidence

structure Sized (g : Incidence) (slots : Nat) : Prop where
  degree : g.degree.size = slots
  names : g.names.size = slots

/-- Changes the degree of slot `v` by `f` and its name by `i`. -/
def touch (f : Nat → Nat) (i : Nat) (g : Incidence) (v : Nat) : Incidence :=
  ⟨g.degree.modify v f, g.names.modify v (· ^^^ i)⟩

theorem sized_touch {g : Incidence} {slots : Nat} (hg : g.Sized slots) (f : Nat → Nat)
    (i v : Nat) : (touch f i g v).Sized slots :=
  ⟨Array.size_modify.trans hg.degree, Array.size_modify.trans hg.names⟩

theorem getD_modify {xs : Array Nat} {v : Nat} (hv : v < xs.size) (f : Nat → Nat) (w : Nat) :
    (xs.modify v f).getD w 0 = if w = v then f (xs.getD w 0) else xs.getD w 0 := by
  rw [Array.getD_eq_getD_getElem?, Array.getD_eq_getD_getElem?, Array.getElem?_modify]
  by_cases h : v = w
  · subst h
    simp [hv]
  · simp [h, Ne.symm h]

theorem degreeAt_touch {g : Incidence} {slots : Nat} (hg : g.Sized slots) {v : Nat}
    (hv : v < slots) (f : Nat → Nat) (i w : Nat) :
    (touch f i g v).degreeAt w = if w = v then f (g.degreeAt w) else g.degreeAt w :=
  getD_modify (hg.degree.symm ▸ hv) f w

theorem nameAt_touch {g : Incidence} {slots : Nat} (hg : g.Sized slots) {v : Nat}
    (hv : v < slots) (f : Nat → Nat) (i w : Nat) :
    (touch f i g v).nameAt w = if w = v then g.nameAt w ^^^ i else g.nameAt w :=
  getD_modify (hg.names.symm ▸ hv) (· ^^^ i) w

/-- What a change at distinct slots does: each of them changes once, no other slot changes. -/
theorem foldl_touch {g : Incidence} {slots : Nat} (hg : g.Sized slots) (f : Nat → Nat) (i : Nat)
    {us : List Nat} (hus : us.Nodup) (hlt : ∀ u ∈ us, u < slots) :
    (us.foldl (touch f i) g).Sized slots ∧
      (∀ w, (us.foldl (touch f i) g).degreeAt w =
        if w ∈ us then f (g.degreeAt w) else g.degreeAt w) ∧
      ∀ w, (us.foldl (touch f i) g).nameAt w =
        if w ∈ us then g.nameAt w ^^^ i else g.nameAt w := by
  induction us generalizing g with
  | nil => exact ⟨hg, fun w => rfl, fun w => rfl⟩
  | cons u us ih =>
      rcases List.nodup_cons.mp hus with ⟨hu, hus⟩
      have hult := hlt u List.mem_cons_self
      obtain ⟨hsized, hdegree, hname⟩ := ih (sized_touch hg f i u) hus
        fun w hw => hlt w (List.mem_cons_of_mem u hw)
      refine ⟨hsized, fun w => ?_, fun w => ?_⟩
      · rw [List.foldl_cons, hdegree, degreeAt_touch hg hult]
        by_cases hw : w = u
        · subst hw
          simp [hu]
        · simp [hw]
      · rw [List.foldl_cons, hname, nameAt_touch hg hult]
        by_cases hw : w = u
        · subst hw
          simp [hu]
        · simp [hw]

end Incidence

/-! ## What the incidence keeps -/

def AllFit (edges : Array Edge) (slots : Nat) : Prop := ∀ e ∈ edges, e.Fits slots

instance (edges : Array Edge) (slots : Nat) : Decidable (AllFit edges slots) :=
  inferInstanceAs (Decidable (∀ e ∈ edges, e.Fits slots))

theorem AllFit.slotsOf {edges : Array Edge} {slots : Nat} (h : AllFit edges slots) (i : Nat) :
    (slotsOf edges i).Nodup ∧ ∀ v ∈ slotsOf edges i, v < slots := by
  unfold Peeling.slotsOf
  split
  · rename_i e he
    have hfits := h e (Array.mem_of_getElem? he)
    exact ⟨hfits.nodup, hfits.lt⟩
  · exact ⟨List.nodup_nil, fun v hv => absurd hv List.not_mem_nil⟩

/-- Degrees and names are those of the edges at the positions in `left`. -/
structure Tracks (edges : Array Edge) (slots : Nat) (left : List Nat) (g : Incidence) : Prop where
  sized : g.Sized slots
  degree : ∀ v, g.degreeAt v = (touching edges left v).length
  name : ∀ v, g.nameAt v = xorAll (touching edges left v)

theorem tracks_empty (edges : Array Edge) (slots : Nat) :
    Tracks edges slots [] (Incidence.empty slots) := by
  have hzero (v : Nat) : (Array.replicate slots 0).getD v 0 = 0 := by
    rw [Array.getD_eq_getD_getElem?, Array.getElem?_replicate]
    split <;> rfl
  exact ⟨⟨Array.size_replicate, Array.size_replicate⟩, hzero, hzero⟩

/-- Attaching an edge at all its slots adds it to the edges left. -/
theorem tracks_attach {edges : Array Edge} {slots : Nat} (hfit : AllFit edges slots)
    {left : List Nat} {g : Incidence} (h : Tracks edges slots left g) (i : Nat) :
    Tracks edges slots (i :: left) ((slotsOf edges i).foldl (fun g v => g.attach i v) g) := by
  rcases hfit.slotsOf i with ⟨hnodup, hlt⟩
  obtain ⟨hsized, hdegree, hname⟩ :=
    Incidence.foldl_touch h.sized (· + 1) i hnodup hlt
  refine ⟨hsized, fun v => ?_, fun v => ?_⟩
  · apply (hdegree v).trans
    rw [h.degree, touching_cons]
    by_cases hv : v ∈ slotsOf edges i
    · rw [if_pos hv, if_pos hv, List.length_cons]
    · rw [if_neg hv, if_neg hv]
  · apply (hname v).trans
    rw [h.name, touching_cons]
    by_cases hv : v ∈ slotsOf edges i
    · rw [if_pos hv, if_pos hv, xorAll_cons, Nat.xor_comm]
    · rw [if_neg hv, if_neg hv]

/-- Detaching an edge from all its slots takes it from the edges left. -/
theorem tracks_detach {edges : Array Edge} {slots : Nat} (hfit : AllFit edges slots)
    {left : List Nat} {g : Incidence} (h : Tracks edges slots left g) {i : Nat} (hi : i ∈ left) :
    Tracks edges slots (left.erase i)
      ((slotsOf edges i).foldl (fun g v => g.detach i v) g) := by
  rcases hfit.slotsOf i with ⟨hnodup, hlt⟩
  obtain ⟨hsized, hdegree, hname⟩ :=
    Incidence.foldl_touch h.sized (· - 1) i hnodup hlt
  refine ⟨hsized, fun v => ?_, fun v => ?_⟩
  · apply (hdegree v).trans
    rw [h.degree, (touching_perm hi v).length_eq]
    by_cases hv : v ∈ slotsOf edges i
    · simp [hv]
    · simp [hv]
  · apply (hname v).trans
    rw [h.name, xorAll_perm (touching_perm hi v)]
    by_cases hv : v ∈ slotsOf edges i
    · rw [if_pos hv, if_pos hv, xorAll_cons, Nat.xor_comm, ← Nat.xor_assoc, Nat.xor_self,
        Nat.zero_xor]
    · rw [if_neg hv, if_neg hv]

theorem tracks_of_perm {edges : Array Edge} {slots : Nat} {left left' : List Nat} {g : Incidence}
    (h : Tracks edges slots left g) (hperm : left.Perm left') : Tracks edges slots left' g := by
  have htouching (v : Nat) : (touching edges left v).Perm (touching edges left' v) :=
    hperm.filter _
  exact ⟨h.sized, fun v => (h.degree v).trans (htouching v).length_eq,
    fun v => (h.name v).trans (xorAll_perm (htouching v))⟩

theorem ofEdges_eq (edges : Array Edge) (slots : Nat) :
    Incidence.ofEdges edges slots = (List.range edges.size).foldl
      (fun g i => (slotsOf edges i).foldl (fun g v => g.attach i v) g) (Incidence.empty slots) := by
  unfold Incidence.ofEdges
  congr 1
  funext g i
  unfold slotsOf
  cases edges[i]? <;> rfl

/-- Attaching edges from the first on. -/
theorem tracks_foldl_attach {edges : Array Edge} {slots : Nat} (hfit : AllFit edges slots)
    (n : Nat) :
    Tracks edges slots (List.range n) ((List.range n).foldl
      (fun g i => (slotsOf edges i).foldl (fun g v => g.attach i v) g)
      (Incidence.empty slots)) := by
  induction n with
  | zero => exact tracks_empty edges slots
  | succ n ih =>
      rw [List.range_succ, List.foldl_append, List.foldl_cons, List.foldl_nil]
      exact tracks_of_perm (tracks_attach hfit ih n) (List.perm_append_singleton n _).symm

theorem tracks_ofEdges {edges : Array Edge} {slots : Nat} (hfit : AllFit edges slots) :
    Tracks edges slots (List.range edges.size) (Incidence.ofEdges edges slots) := by
  rw [ofEdges_eq]
  exact tracks_foldl_attach hfit edges.size

/-! ## The state of peeling -/

/-- The incidence is that of the edges left, and every slot of degree one is stacked. -/
structure Consistent (edges : Array Edge) (slots : Nat) (left : List Nat) (s : State) : Prop where
  tracks : Tracks edges slots left s.incidence
  stacked : ∀ v, s.incidence.degreeAt v = 1 → v ∈ s.stack

/-- The name of a slot of degree one is the position of its only edge. -/
theorem Tracks.named_of_degreeAt_eq_one {edges : Array Edge} {slots : Nat} {left : List Nat}
    {g : Incidence} (h : Tracks edges slots left g) {v : Nat} (hv : g.degreeAt v = 1) :
    g.nameAt v ∈ left ∧ v ∈ slotsOf edges (g.nameAt v) ∧
      ∀ j ∈ left, v ∈ slotsOf edges j → j = g.nameAt v := by
  rw [h.degree, List.length_eq_one_iff] at hv
  rcases hv with ⟨i, hi⟩
  have hname : g.nameAt v = i := by
    rw [h.name, hi, xorAll_cons]
    exact Nat.xor_zero i
  rw [hname]
  exact lone_of_touching_eq hi

theorem Tracks.lt_of_degreeAt_eq_one {edges : Array Edge} {slots : Nat} (hfit : AllFit edges slots)
    {left : List Nat} {g : Incidence} (h : Tracks edges slots left g) {v : Nat}
    (hv : g.degreeAt v = 1) : v < slots :=
  (hfit.slotsOf _).2 v (h.named_of_degreeAt_eq_one hv).2.1

theorem consistent_start {edges : Array Edge} {slots : Nat} (hfit : AllFit edges slots) :
    Consistent edges slots (List.range edges.size) (State.start edges slots) := by
  have htracks := tracks_ofEdges hfit
  refine ⟨htracks, fun v hv => ?_⟩
  have hlt : v < slots := htracks.lt_of_degreeAt_eq_one hfit hv
  have hdegree : (Incidence.ofEdges edges slots).degreeAt v = 1 := hv
  simp [State.start, hlt, hdegree]

namespace State

theorem foldl_detach_incidence (s : State) (i : Nat) (us : List Nat) :
    (us.foldl (fun s u => s.detach i u) s).incidence =
      us.foldl (fun g u => g.detach i u) s.incidence := by
  induction us generalizing s with
  | nil => rfl
  | cons u us ih => exact ih (s.detach i u)

theorem mem_stack_detach {s : State} {w : Nat} (hw : w ∈ s.stack) (i v : Nat) :
    w ∈ (s.detach i v).stack := by
  unfold detach
  dsimp only
  split
  · exact List.mem_cons_of_mem _ hw
  · exact hw

theorem mem_stack_foldl_detach {s : State} {w : Nat} (hw : w ∈ s.stack) (i : Nat)
    (us : List Nat) : w ∈ (us.foldl (fun s u => s.detach i u) s).stack := by
  induction us generalizing s with
  | nil => exact hw
  | cons u us ih => exact ih (mem_stack_detach hw i u)

/-- A slot from which an edge was detached is stacked if one edge is left there in the end. -/
theorem stacked_foldl_detach {s : State} {slots : Nat} (hs : s.incidence.Sized slots) (i : Nat)
    {us : List Nat} (hus : us.Nodup) (hlt : ∀ u ∈ us, u < slots) {w : Nat} (hw : w ∈ us)
    (hone : (us.foldl (fun s u => s.detach i u) s).incidence.degreeAt w = 1) :
    w ∈ (us.foldl (fun s u => s.detach i u) s).stack := by
  induction us generalizing s with
  | nil => cases hw
  | cons u us ih =>
      rcases List.nodup_cons.mp hus with ⟨hu, hrest⟩
      have hsized : (s.detach i u).incidence.Sized slots :=
        Incidence.sized_touch hs (· - 1) i u
      have hlt' : ∀ v ∈ us, v < slots := fun v hv => hlt v (List.mem_cons_of_mem u hv)
      rcases List.mem_cons.mp hw with rfl | hw
      · -- no later slot is this one, so its degree is already the final one
        have hdegree := (Incidence.foldl_touch hsized (· - 1) i hrest hlt').2.1 w
        rw [if_neg hu] at hdegree
        rw [List.foldl_cons, foldl_detach_incidence] at hone
        have hsingle : ((s.incidence.detach i w).degreeAt w == 1) = true :=
          beq_iff_eq.mpr (hdegree.symm.trans hone)
        refine mem_stack_foldl_detach ?_ i us
        unfold detach
        dsimp only
        rw [if_pos hsingle]
        exact List.mem_cons_self
      · exact ih hsized hrest hlt' hw hone

/-- Peeling takes the first stacked slot of degree one, if there is one. -/
theorem next?_eq (edges : Array Edge) (s : State) :
    s.next? edges = match s.stack.dropWhile fun v => s.incidence.degreeAt v != 1 with
      | [] => none
      | v :: stack =>
        some (⟨s.incidence.nameAt v, v⟩, (slotsOf edges (s.incidence.nameAt v)).foldl
          (fun s' u => s'.detach (s.incidence.nameAt v) u) ⟨s.incidence, stack⟩) := by
  unfold next?
  rfl

end State

variable {edges : Array Edge} {slots : Nat} {left : List Nat} {s : State}

theorem isCore_of_next?_eq_none (hleft : left.Nodup) (h : Consistent edges slots left s)
    (hnext : s.next? edges = none) : IsCore edges left := by
  rw [State.next?_eq] at hnext
  split at hnext
  · rename_i hdrop
    apply isCore_of_length_ne_one hleft
    intro v
    rw [← h.tracks.degree]
    intro hv
    have hall := List.dropWhile_eq_nil_iff.mp hdrop v (h.stacked v hv)
    rw [hv] at hall
    cases hall
  · cases hnext

/-- The slot that is left on top has degree one. -/
theorem degreeAt_of_dropWhile_eq_cons {g : Incidence} {stack stack' : List Nat} {v : Nat}
    (h : (stack.dropWhile fun v => g.degreeAt v != 1) = v :: stack') : g.degreeAt v = 1 := by
  have hhead := List.head?_dropWhile_not (fun v => g.degreeAt v != 1) stack
  rw [h] at hhead
  simpa using hhead

/-- Peeling takes a lone edge and keeps the state consistent. -/
theorem consistent_of_next?_eq_some (hfit : AllFit edges slots) (h : Consistent edges slots left s)
    {step : Step} {s' : State} (hnext : s.next? edges = some (step, s')) :
    step.edge ∈ left ∧ step.slot ∈ slotsOf edges step.edge ∧
      (∀ j ∈ left, step.slot ∈ slotsOf edges j → j = step.edge) ∧
      Consistent edges slots (left.erase step.edge) s' := by
  rw [State.next?_eq] at hnext
  split at hnext
  · cases hnext
  · rename_i v stack hdrop
    rcases h.tracks.named_of_degreeAt_eq_one (degreeAt_of_dropWhile_eq_cons hdrop) with
      ⟨himem, hiv, hlone⟩
    generalize s.incidence.nameAt v = i at hnext himem hiv hlone
    cases hnext
    rcases hfit.slotsOf i with ⟨hnodup, hlt⟩
    have htracks := tracks_detach hfit h.tracks himem
    refine ⟨himem, hiv, hlone, ?_, fun w hw => ?_⟩
    · rw [State.foldl_detach_incidence]
      exact htracks
    · by_cases hwi : w ∈ slotsOf edges i
      · exact State.stacked_foldl_detach (s := ⟨s.incidence, stack⟩) h.tracks.sized i hnodup hlt
          hwi hw
      · -- its degree did not change, so it was stacked before and neither dropped nor taken
        refine State.mem_stack_foldl_detach ?_ i _
        rw [State.foldl_detach_incidence] at hw
        have hdegree := (Incidence.foldl_touch h.tracks.sized (· - 1) i hnodup hlt).2.1 w
        rw [if_neg hwi] at hdegree
        have hbefore : s.incidence.degreeAt w = 1 := hdegree.symm.trans hw
        have hmem := h.stacked w hbefore
        rw [← List.takeWhile_append_dropWhile (p := fun v => s.incidence.degreeAt v != 1)
          (l := s.stack), hdrop, List.mem_append, List.mem_cons] at hmem
        rcases hmem with htaken | rfl | hmem
        · have hne := List.mem_takeWhile_imp htaken
          rw [hbefore] at hne
          cases hne
        · exact absurd hiv hwi
        · exact hmem

/-! ## The whole order -/

/-- Peeling often enough takes away edges in order until a core is left. -/
theorem peels_peelFrom (hfit : AllFit edges slots) (limit : Nat) (hleft : left.Nodup)
    (hlimit : left.length ≤ limit) (h : Consistent edges slots left s) :
    ∃ rest, Peels edges left (peelFrom edges limit s) rest ∧ IsCore edges rest := by
  induction limit generalizing left s with
  | zero =>
      have hnil : left = [] := List.eq_nil_of_length_eq_zero (Nat.le_zero.mp hlimit)
      subst hnil
      exact ⟨[], .done [], fun i hi => absurd hi List.not_mem_nil⟩
  | succ limit ih =>
      unfold peelFrom
      cases hnext : s.next? edges with
      | none => exact ⟨left, .done left, isCore_of_next?_eq_none hleft h hnext⟩
      | some next =>
          rcases next with ⟨step, s'⟩
          rcases consistent_of_next?_eq_some hfit h hnext with ⟨hi, hv, hlone, hs'⟩
          have herase := List.length_erase_of_mem hi
          rcases ih (hleft.erase step.edge) (by omega) hs' with ⟨rest, hpeels, hcore⟩
          exact ⟨rest, .step hi hv hlone hpeels, hcore⟩

/-- There is a peeling order exactly if all edges can be taken away, and it takes them away. -/
theorem order?_spec (hfit : AllFit edges slots) :
    match order? edges slots with
    | some steps => Peels edges (List.range edges.size) steps []
    | none => ¬ Peelable edges := by
  have hlength : (List.range edges.size).length ≤ edges.size := Nat.le_of_eq List.length_range
  obtain ⟨rest, hpeels, hcore⟩ := peels_peelFrom hfit edges.size List.nodup_range hlength
    (consistent_start hfit)
  have hcount := hpeels.length
  rw [List.length_range] at hcount
  unfold order?
  by_cases hall : (peelFrom edges edges.size (State.start edges slots)).length = edges.size
  · rw [if_pos hall]
    have hnil : rest = [] := List.eq_nil_of_length_eq_zero (by omega)
    exact hnil ▸ hpeels
  · rw [if_neg hall]
    intro hpeelable
    rw [peelable_iff_of_core hpeels hcore] at hpeelable
    subst hpeelable
    rw [List.length_nil] at hcount
    omega

end ApproxSet.Peeling
