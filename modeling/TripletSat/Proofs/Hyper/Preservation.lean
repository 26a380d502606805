import TripletSat.Proofs.Hyper.Route

/-!
What a system keeps of an assignment that all structures admit: a vertex on every layer, edges from
each to the next, parts with common intersections, and a route search that does not turn it down.
-/

namespace TripletSat

/-- A structure over the windows of one that an assignment has values for needs no other values. -/
theorem Formula.Resembles.admits {f g : Formula} {α : Assignment} (h : f.Resembles g)
    (windowed : f.Windowed) (hf : f.admits α = true) (hg : g.Admits α.value) :
    g.admits α = true := by
  refine Formula.admits_iff.mpr ⟨hg, ?_⟩
  intro t ht
  have member := (h.2.windowed hg.not_isEmpty).triple_mem ht
  rw [h.1] at member
  obtain ⟨u, hu, same⟩ := windowed.exists_tier member
  exact same ▸ (Formula.admits_iff.mp hf).2 u hu

namespace HyperSystem

variable {s : HyperSystem} {α : Assignment}

/-- The octant that an assignment takes on a basic tier. -/
def octantOf? (s : HyperSystem) (α : Assignment) (t : Nat) : Option Octant := do
  α.octant? (← s.basic.tiers[t]?).triple

/-- The vertex of that octant. -/
def vertexOf? (s : HyperSystem) (α : Assignment) (t : Nat) : Option Vertex := do
  Layer.vertex? (← s.layers[t]?) (← s.octantOf? α t)

/-- What a search holds on a tier if it went over the vertices of an assignment only. -/
inductive Follows (s : HyperSystem) (α : Assignment) : Nat → List Formula → Prop
  | start {first last : Vertex} {w : List Formula} (hfirst : s.vertexOf? α 0 = some first)
    (hlast : s.vertexOf? α (s.tierCount - 1) = some last)
    (meet : meets? (last.parts.zip first.parts) = .ok (some w)) : Follows s α 0 w
  | step {t : Nat} {w w' : List Formula} {layer : Layer} {o : Octant} {v : Vertex}
    (before : Follows s α t w) (hl : s.layers[t + 1]? = some layer)
    (ho : s.octantOf? α (t + 1) = some o)
    (taken : step? w layer (s.layers.drop (t + 2)) o = .ok (some (v, w'))) :
    Follows s α (t + 1) w'

/-- An assignment that a clean, complete system carries, with values for all of its variables. -/
structure Stands (s : HyperSystem) (α : Assignment) : Prop where
  clean : s.Clean
  complete : s.layers.length = s.tierCount
  carries : s.Carries α.value
  basic : s.basic.admits α = true
  others : ∀ f ∈ s.others, f.Windowed ∧ f.admits α = true

theorem Founded.stands {structures : List Formula} (h : s.Founded structures)
    (windowed : ∀ f ∈ structures, f.Windowed) (admitted : ∀ f ∈ structures, f.admits α = true) :
    s.Stands α := by
  have carries := h.carries α.value fun f hf => (Formula.admits_iff.mp (admitted f hf)).1
  obtain ⟨f, hf, shrinks⟩ := h.origin
  have resembles : f.Resembles s.basic := ⟨shrinks.1, shrinks.shaped (.inr (windowed f hf))⟩
  exact ⟨h.clean, h.complete, carries,
    resembles.admits (windowed f hf) (admitted f hf) carries.basic,
    fun g hg => ⟨windowed g (h.others g hg), admitted g (h.others g hg)⟩⟩

namespace Stands

theorem octantOf?_eq (h : s.Stands α) {t : Nat} {u : Tier} (hu : s.basic.tiers[t]? = some u) :
    s.octantOf? α t = some (α.value.octant u.triple) := by
  have valued := (Formula.admits_iff.mp h.basic).2 u (List.mem_of_getElem? hu)
  unfold octantOf?
  rw [hu]
  exact Assignment.octant?_eq_some_iff.mpr ⟨valued, rfl⟩

/-- The vertex of an assignment is the one that carries its valuation. -/
theorem exists_vertexOf? (h : s.Stands α) {t : Nat} (bound : t < s.tierCount) :
    ∃ u layer v, s.basic.tiers[t]? = some u ∧ s.layers[t]? = some layer ∧ v ∈ layer ∧
      s.vertexOf? α t = some v ∧ v.Carries u.triple (s.following? t) α.value := by
  obtain ⟨u, hu, hw⟩ := h.clean.formed.exists_tier bound
  have hl := List.getElem?_eq_getElem (h.complete ▸ bound)
  obtain ⟨v, hv, carries⟩ := h.carries.vertices t u.triple _ hw hl
  refine ⟨u, _, v, hu, hl, hv, ?_, carries⟩
  have formed := h.clean.formed.layers _ (List.mem_of_getElem? hl)
  unfold vertexOf?
  rw [hl, h.octantOf?_eq hu, ← carries.octant]
  exact formed.vertex?_eq hv

theorem of_vertexOf? (h : s.Stands α) {t : Nat} {v : Vertex} (hv : s.vertexOf? α t = some v) :
    PartsOf s.others v.parts ∧ AllAdmit v.parts α.value := by
  have bound : t < s.tierCount := by
    by_contra above
    have none : s.layers[t]? = none := List.getElem?_eq_none (by rw [h.complete]; omega)
    simp [vertexOf?, none] at hv
  obtain ⟨u, layer, v', -, hl, hv', same, carries⟩ := h.exists_vertexOf? bound
  obtain rfl := Option.some.inj (same.symm.trans hv)
  exact ⟨(h.clean.formed.layers layer (List.mem_of_getElem? hl)).parts _ hv', carries.parts⟩

theorem allows (h : s.Stands α) : ∀ layer ∈ s.layers, layer.Allows α.value := by
  intro layer hlayer
  obtain ⟨i, hi⟩ := List.mem_iff_getElem?.mp hlayer
  obtain ⟨bound, -⟩ := List.getElem?_eq_some_iff.mp hi
  obtain ⟨u, -, hw⟩ := h.clean.formed.exists_tier (h.complete ▸ bound)
  exact (h.carries.holds hw hi).allows

/-- A step onto the vertex of the assignment is taken, and its witness still admits it. -/
theorem step?_eq (h : s.Stands α) {t : Nat} {w : List Formula} (hw : PartsOf s.others w)
    (all : AllAdmit w α.value) (bound : t < s.tierCount) : ∃ layer o v w',
      s.layers[t]? = some layer ∧ s.octantOf? α t = some o ∧ s.vertexOf? α t = some v ∧
        step? w layer (s.layers.drop (t + 1)) o = .ok (some (v, w')) ∧
          PartsOf s.others w' ∧ AllAdmit w' α.value := by
  obtain ⟨u, layer, v, hu, hl, hv, vertex, carries⟩ := h.exists_vertexOf? bound
  have formed := h.clean.formed.layers
  have ahead : ∀ l ∈ s.layers.drop (t + 1), l ∈ s.layers := fun l => List.mem_of_mem_drop
  obtain ⟨r, run, found, meets⟩ := step?_returns (o := α.value.octant u.triple) α.value hw
    (formed layer (List.mem_of_getElem? hl)) fun l hl => formed l (ahead l hl)
  obtain ⟨w', rfl, all'⟩ :=
    meets v hv carries.octant carries.parts all fun l hl => h.allows l (ahead l hl)
  exact ⟨layer, _, v, w', hl, h.octantOf?_eq hu, vertex, run, (found _ rfl).2, all'⟩

/-- The witness of a search along an assignment admits it. -/
theorem follows (h : s.Stands α) {t : Nat} {w : List Formula} (follows : s.Follows α t w) :
    PartsOf s.others w ∧ AllAdmit w α.value := by
  induction follows with
  | start hfirst hlast meet =>
    obtain ⟨firstParts, firstAll⟩ := h.of_vertexOf? hfirst
    obtain ⟨lastParts, lastAll⟩ := h.of_vertexOf? hlast
    obtain ⟨parts, meets⟩ := (lastParts.meets?_returns α.value firstParts).of_eq meet
    obtain ⟨w, same, all⟩ := meets lastAll firstAll
    obtain rfl := Option.some.inj same
    exact ⟨parts _ rfl, all⟩
  | step before hl ho taken ih =>
    obtain ⟨bound, -⟩ := List.getElem?_eq_some_iff.mp hl
    obtain ⟨layer, o, v, w', hl', ho', -, taken', parts, all⟩ :=
      h.step?_eq ih.1 ih.2 (h.complete ▸ bound)
    obtain rfl := Option.some.inj (hl.symm.trans hl')
    obtain rfl := Option.some.inj (ho.symm.trans ho')
    obtain ⟨-, rfl⟩ := Prod.mk.inj (Option.some.inj (Except.ok.inj (taken.symm.trans taken')))
    exact ⟨parts, all⟩

end Stands

/-- Two orders of four variables, one octant missing from every tier. -/
def braided : List Formula :=
  [.uniform (.ofNames [1, 2, 3, 4]) (.erase .full ⟨true, true, true⟩),
    .uniform (.ofNames [4, 1, 3, 2]) (.erase .full ⟨false, false, false⟩)]

end HyperSystem

end TripletSat
