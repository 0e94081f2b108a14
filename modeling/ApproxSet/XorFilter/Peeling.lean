import ApproxSet.XorFilter.Edge

/-!
# Peeling

An edge can be peeled while one of its slots belongs to no other edge left. Peeling takes such edges
away one by one; if all go, the equations are solved in the opposite order, each by setting the slot
its edge was peeled from, which no later equation reads.

For every slot the number of edges left and the xor of their positions in the list are kept. A slot
of degree one thereby names its edge.
-/

namespace ApproxSet.Peeling

/-- An edge, by its position, and the slot it was peeled from. -/
structure Step where
  edge : Nat
  slot : Nat
  deriving DecidableEq

structure Incidence where
  degree : Array Nat
  names : Array Nat

namespace Incidence

def empty (slots : Nat) : Incidence :=
  ⟨Array.replicate slots 0, Array.replicate slots 0⟩

def degreeAt (g : Incidence) (v : Nat) : Nat := g.degree.getD v 0

/-- The xor of the positions of the edges that touch `v`. -/
def nameAt (g : Incidence) (v : Nat) : Nat := g.names.getD v 0

def attach (g : Incidence) (i v : Nat) : Incidence :=
  match g with
  | ⟨degree, names⟩ => ⟨degree.modify v (· + 1), names.modify v (· ^^^ i)⟩

def detach (g : Incidence) (i v : Nat) : Incidence :=
  match g with
  | ⟨degree, names⟩ => ⟨degree.modify v (· - 1), names.modify v (· ^^^ i)⟩

def ofEdges (edges : Array Edge) (slots : Nat) : Incidence :=
  (List.range edges.size).foldl
    (fun g i => match edges[i]? with
      | some e => e.vertices.foldl (fun g v => g.attach i v) g
      | none => g)
    (empty slots)

end Incidence

/-- Edges left, and slots that may have degree one, the next one on top. -/
structure State where
  incidence : Incidence
  stack : List Nat

namespace State

/-- All edges in place; slots of degree one, the last slot on top. -/
def start (edges : Array Edge) (slots : Nat) : State :=
  let g := Incidence.ofEdges edges slots
  ⟨g, ((List.range slots).filter fun v => g.degreeAt v == 1).reverse⟩

/-- Takes edge number `i` away from slot `v` and stacks the slot if one edge is left there. -/
def detach (s : State) (i v : Nat) : State :=
  match s with
  | ⟨g, stack⟩ =>
    let g := g.detach i v
    let single := g.degreeAt v == 1
    ⟨g, if single then v :: stack else stack⟩

/-- Peels one edge, from the first stacked slot that still has degree one. -/
def next? (edges : Array Edge) (s : State) : Option (Step × State) :=
  match s with
  | ⟨g, stack⟩ =>
    match stack.dropWhile fun v => g.degreeAt v != 1 with
    | [] => none
    | v :: stack =>
      let i := g.nameAt v
      let touched := match edges[i]? with
        | some e => e.vertices
        | none => []
      some (⟨i, v⟩, touched.foldl (fun s u => s.detach i u) ⟨g, stack⟩)

end State

def peelFrom (edges : Array Edge) : (limit : Nat) → State → List Step
  | 0, _ => []
  | limit + 1, s =>
    match s.next? edges with
    | none => []
    | some (step, s) => step :: peelFrom edges limit s

/-- The peeling order of all edges, if they can all be peeled. -/
def order? (edges : Array Edge) (slots : Nat) : Option (List Step) :=
  let steps := peelFrom edges edges.size (State.start edges slots)
  if steps.length = edges.size then some steps else none

/-- Sets the slot an edge was peeled from so that the edge's equation holds. -/
def settle (edges : Array Edge) (table : Array UInt8) (step : Step) : Array UInt8 :=
  match edges[step.edge]? with
  | some e =>
    let others := e.vertices.filter (· != step.slot)
    table.setIfInBounds step.slot
      (others.foldl (fun x v => x ^^^ table.getD v 0) e.fingerprint)
  | none => table

def solve? (edges : Array Edge) (slots : Nat) : Option (Array UInt8) :=
  (order? edges slots).map fun steps =>
    steps.reverse.foldl (settle edges) (Array.replicate slots 0)

end ApproxSet.Peeling
