import TripletSat.Proofs.Hyper.Maps.Basic
import TripletSat.Proofs.Hyper.Preservation

/-!
The hyper-structures that a system of shared vertices stands for, each with its vertices in lists. The part of a
vertex in one of them is the part at its place.
-/

namespace TripletSat

/-- One of the other structures with its tiers of vertices, each ascending by octant. -/
structure HyperStructure where
  other : Formula
  tiers : List (List HyperVertex)

namespace HyperSystem

variable {s : HyperSystem}

/-- The vertices that a layer stands for in the hyper-structure at an index. -/
def column (index : Nat) (layer : Layer) : List HyperVertex :=
  layer.filterMap fun v => v.parts[index]?.map (⟨v.octant, ·, [v.low, v.high], v.dirty⟩)

def hyperStructures (s : HyperSystem) : List HyperStructure :=
  s.others.zipIdx.map fun (other, index) => ⟨other, s.layers.map (column index)⟩

/-- A vertex of one hyper-structure comes from one of the system. -/
theorem mem_column {index : Nat} {layer : Layer} {v : HyperVertex} (h : v ∈ column index layer) :
    ∃ u ∈ layer, u.octant = v.octant ∧ u.parts[index]? = some v.part ∧ [u.low, u.high] = v.edges ∧
      u.dirty = v.dirty := by
  obtain ⟨u, hu, found⟩ := List.mem_filterMap.mp h
  obtain ⟨part, held, rfl⟩ := Option.map_eq_some_iff.mp found
  exact ⟨u, hu, rfl, held, rfl, rfl⟩

/-- Each vertex of the system has a part for every hyper-structure. -/
theorem map_octant_column {others : List Formula} {layer : Layer} {index : Nat}
    (formed : layer.Formed others) (bound : index < others.length) :
    (column index layer).map HyperVertex.octant = layer.keys := by
  have parts := formed.parts
  unfold column Layer.keys
  clear formed
  induction layer with
  | nil => rfl
  | cons v rest ih =>
    obtain ⟨head, tail⟩ := List.forall_mem_cons.mp parts
    have found := List.getElem?_eq_getElem (head.length_eq ▸ bound)
    rw [List.filterMap_cons, found, Option.map_some, List.map_cons, List.map_cons, ih tail]

theorem mem_hyperStructures {hs : HyperStructure} (h : hs ∈ s.hyperStructures) :
    ∃ index : Nat, s.others[index]? = some hs.other ∧ hs.tiers = s.layers.map (column index) := by
  obtain ⟨⟨other, index⟩, found, rfl⟩ := List.mem_map.mp h
  exact ⟨index, List.mem_zipIdx_iff_getElem?.mp found, rfl⟩

/-- The layer under a tier of a hyper-structure. -/
theorem exists_layer {hs : HyperStructure} (h : hs ∈ s.hyperStructures) {i : Nat}
    {vertices : List HyperVertex} (found : hs.tiers[i]? = some vertices) :
    ∃ index : Nat, s.others[index]? = some hs.other ∧
      ∃ layer, s.layers[i]? = some layer ∧ vertices = column index layer := by
  obtain ⟨index, other, tiers⟩ := mem_hyperStructures h
  rw [tiers, List.getElem?_map] at found
  obtain ⟨layer, hl, rfl⟩ := Option.map_eq_some_iff.mp found
  exact ⟨index, other, layer, hl, rfl⟩

end HyperSystem

end TripletSat
