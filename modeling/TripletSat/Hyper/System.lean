import TripletSat.Formula.Algebra
/-!
Hyper-structure systems.

A hyper-structure pairs the basic structure with one other structure: for every octant that a basic
tier still allows it has a vertex, holding the part of the other structure that stays satisfiable
once that octant is chosen. The hyper-structures of a system share the basic structure and are
built side by side, so coincident vertices are kept as one vertex with a part for each other
structure.
-/
namespace TripletSat

/-- What is known of the way from a vertex to one of its two successors. -/
inductive Edge
  /-- The basic structure does not allow the successor. -/
  | absent
  /-- Moving to the successor leaves nothing of some other structure. -/
  | empty
  /-- The successor can follow. -/
  | target (o : Octant)
deriving DecidableEq

def Edge.target? : Edge → Option Octant
  | target o => some o
  | _ => none

/-- The coincident vertices of one octant of a basic tier. -/
structure Vertex where
  octant : Octant
  /-- What stays of each other structure, in the order of the system. -/
  parts : List Formula
  /-- The edge to the successor whose new variable is false. -/
  low : Edge
  /-- The edge to the successor whose new variable is true. -/
  high : Edge
  /-- Whether the basic structure has changed since the vertex was built. -/
  dirty : Bool
deriving DecidableEq

namespace Vertex

def ofParts (o : Octant) (parts : List Formula) : Vertex := ⟨o, parts, .absent, .absent, false⟩

def targets (v : Vertex) : List Octant := [v.low, v.high].filterMap Edge.target?

def dropEdges (v : Vertex) : Vertex := { v with low := .absent, high := .absent }

end Vertex

/-- The vertices over one basic tier, ascending by octant. -/
abbrev Layer := List Vertex

namespace Layer

def keys (layer : Layer) : List Octant := layer.map Vertex.octant

def vertex? (layer : Layer) (o : Octant) : Option Vertex := layer.find? (·.octant == o)

def erase (layer : Layer) (o : Octant) : Layer := layer.filter (·.octant != o)

def isDirty (layer : Layer) : Bool := layer.any Vertex.dirty

def update (layer : Layer) (v : Vertex) : Layer :=
  layer.map fun u => if u.octant = v.octant then v else u

end Layer

/-- A basic structure, the other structures, and the layers built over the basic tiers. -/
structure HyperSystem where
  basic : Formula
  /-- The position of the basic structure in the list that the system was built from. -/
  basicIndex : Nat
  others : List Formula
  layers : List Layer
  /-- Restarts from a tier after the first. -/
  rebuilds : Nat
  /-- Restarts from the first tier. -/
  reseeds : Nat
deriving DecidableEq

namespace HyperSystem

def tierCount (s : HyperSystem) : Nat := s.basic.tierCount

def layer (s : HyperSystem) (index : Nat) : Checked Layer :=
  match s.layers[index]? with
  | some layer => pure layer
  | none => throw .outOfBounds

/-- The number of built layers at the end that are dirty. -/
def dirtyCount (s : HyperSystem) : Nat := (s.layers.reverse.takeWhile Layer.isDirty).length

def markDirty (s : HyperSystem) (start : Nat) : HyperSystem :=
  { s with layers := s.layers.zipIdx.map fun (layer, index) =>
      if start ≤ index then layer.map ({ · with dirty := true }) else layer }

/-- The system with the first layers only, without edges on the last of them. -/
def truncate (s : HyperSystem) (count : Nat) : HyperSystem :=
  { s with layers := (s.layers.take count).modify (count - 1) (·.map Vertex.dropEdges) }

end HyperSystem

/-- The position of the structure with the fewest octants, the first one on ties. -/
def basicIndex? (structures : List Formula) : Option Nat := do
  let least ← (structures.map Formula.clauseCount).min?
  structures.findIdx? (·.clauseCount == least)

end TripletSat
