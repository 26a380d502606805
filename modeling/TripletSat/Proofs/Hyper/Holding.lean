import Mathlib.Data.List.Find
import TripletSat.Proofs.Hyper.Tending

/-!
What the vertices of a finished system hold. No layer is dirty and nothing is pending, so every vertex
is pinned and firm: its part of the other structure forces the octant, and the parts of coincident
vertices are unified.
-/

namespace TripletSat

/-- A vertex over a tier holds a full part of the other structure. Cleanup leaves it alone, and it
forces the variables of the tier to the values of the octant. -/
structure HyperVertex.Holds (v : HyperVertex) (other : Formula) (w : Triple) : Prop where
  full : v.part.Full
  cleaned : v.part.cleaned = .ok v.part
  within : v.part.Within other
  forced : ∀ p, v.part.value? (w.name p) = some (v.octant.value p)

def HyperStructure.vertex? (hs : HyperStructure) (i : Nat) (o : Octant) : Option HyperVertex := do
  let layer ← hs.tiers[i]?
  layer.find? (·.octant == o)

namespace HyperSystem

variable {structures others : List Formula} {check : Bool} {start s : HyperSystem} {index : Nat}
  {window : Nat → Option Triple}

/-- What the vertices for an octant of a tier hold, in the order of the hyper-structures. -/
def coincident (s : HyperSystem) (i : Nat) (o : Octant) : List Formula :=
  s.hyperStructures.filterMap fun hs => (hs.vertex? i o).map HyperVertex.part

/-- Every vertex holds its part, and the parts of coincident vertices are unified. -/
structure HoldsParts (s : HyperSystem) : Prop where
  holds : ∀ hs ∈ s.hyperStructures, ∀ (i : Nat) (layer : List HyperVertex) (t : Tier),
    hs.tiers[i]? = some layer → s.basic.tiers[i]? = some t → ∀ v ∈ layer, v.Holds hs.other t.triple
  unified : ∀ (i : Nat) (t : Tier), s.basic.tiers[i]? = some t → ∀ o ∈ t.octants,
    (s.coincident i o).length = s.hyperStructures.length ∧
      (2 ≤ s.hyperStructures.length →
        (unify (s.coincident i o)).run = .ok (.ok ⟨s.coincident i o, 0⟩))

theorem length_hyperStructures (s : HyperSystem) : s.hyperStructures.length = s.others.length := by
  rw [hyperStructures, List.length_map, List.length_zipIdx]

theorem map_other_hyperStructures (s : HyperSystem) :
    s.hyperStructures.map HyperStructure.other = s.others := by
  rw [hyperStructures, List.map_map]
  exact List.zipIdx_map_fst 0 _

/-! ### All passes -/

theorem Underway.settled (h : Underway check start index s) (above : Over others window start)
    (formed : start.Formed) : Settled others window s := by
  induction h with
  | seeded seeds => exact (seedRounds_tended above formed).of_canReturn seeds
  | @passed index next s s' before more passes ih =>
    obtain ⟨advances, clean, rfl, some⟩ := before.ready formed
    have room : s.layers.length < s.tierCount := advances.tierCount_eq clean.formed ▸ more
    exact (pass_tended (above.advances advances) clean some room ih).of_canReturn passes

theorem over_started (i : Nat) (basic : Formula) (windowed : ∀ f ∈ structures, f.Windowed)
    (solid : ∀ f ∈ structures, f.Solid) :
    Over (structures.eraseIdx i) (started structures i basic).window? (started structures i basic) :=
  ⟨rfl, rfl, fun f hf => windowed f (List.mem_of_mem_eraseIdx hf),
    fun f hf => solid f (List.mem_of_mem_eraseIdx hf)⟩

/-- The vertices of what a construction returns are pinned, and nothing is pending. -/
theorem ofStructures_settled {i : Nat} {basic : Formula} (chosen : basicIndex? structures = some i)
    (hbasic : structures[i]? = some basic) (windowed : ∀ f ∈ structures, f.Windowed)
    (solid : ∀ f ∈ structures, f.Solid)
    (same : ∀ f ∈ structures, ∀ g ∈ structures, f.permutation.sameVariables g.permutation = true) :
    Ensures (ofStructures structures check) fun s => ∃ window,
      Over (structures.eraseIdx i) window s ∧ Settled (structures.eraseIdx i) window s := by
  have member := List.mem_of_getElem? hbasic
  refine (ofStructures_ensures chosen hbasic build_underway).mono ?_
  rintro s ⟨n, -, underway⟩
  have formed : (started structures i basic).Formed := formed_started hbasic windowed
    ⟨(solid basic member).not_isEmpty underway.tiers, solid basic member⟩ same
  have above := over_started i basic windowed solid
  exact ⟨_, above.advances (underway.ready formed).advances, underway.settled above formed⟩

/-! ### From the system to its hyper-structures -/

theorem Settled.parts (h : Settled others window s) (above : Over others window s) (clean : s.Clean)
    {i : Nat} {layer : Layer} {t : Tier} (hl : s.layers[i]? = some layer)
    (ht : s.basic.tiers[i]? = some t) {v : Vertex} (hv : v ∈ layer) :
    Pinned others t.triple v.octant v.parts ∧ Firm v.parts :=
  ⟨h.pinned i layer _ hl (above.window_eq clean.formed ht) v hv,
    (h.firm i layer hl v hv (clean.fresh layer (List.mem_of_getElem? hl) v hv)).resolve_right And.right⟩

theorem holds_of_pinned {w : Triple} {parts : List Formula} {v : HyperVertex} {other : Formula}
    (hosts : Hosts others w) (pinned : Pinned others w v.octant parts) (firm : Firm parts)
    (hf : others[index]? = some other) (hg : parts[index]? = some v.part) : v.Holds other w := by
  have member := List.mem_of_getElem? hg
  have some := firm.tiered v.part member
  obtain ⟨f, hf', remnant, takes⟩ := forall₂_getElem? pinned hg
  obtain rfl := Option.some.inj (hf.symm.trans hf')
  have tidy := firm.closed.tidy member some
  refine ⟨⟨tidy.nonempty, tidy.solid⟩, firm.closed.clean v.part member, remnant.within some, ?_⟩
  intro p
  have known : w.name p ∈ v.part.permutation.names :=
    remnant.shrinks.1 ▸ hosts.known other (List.mem_of_getElem? hf) _ (Triple.name_mem_names w p)
  exact ((firm.closed.windowed v.part member).value?_eq_some_iff tidy known).mpr
    (Formula.takes_iff.mp takes p)

theorem filterMap_getElem?_zipIdx {α β : Type} {xs : List α} {ys : List β} (start : List β)
    (same : xs.length = ys.length) :
    (xs.zipIdx start.length).filterMap (fun entry => (start ++ ys)[entry.2]?) = ys := by
  induction xs generalizing ys start with
  | nil => exact (List.eq_nil_of_length_eq_zero same.symm).symm
  | cons x xs ih =>
    obtain ⟨y, ys, rfl⟩ := List.exists_cons_of_length_eq_add_one same.symm
    have rest := ih (start ++ [y]) (Nat.succ.inj same)
    rw [List.length_append, List.append_assoc] at rest
    rw [List.zipIdx_cons, List.filterMap_cons, List.getElem?_append_right (Nat.le_refl _),
      Nat.sub_self]
    exact congrArg (y :: ·) rest

theorem find?_column {others : List Formula} {layer : Layer} (formed : layer.Formed others)
    (bound : index < others.length) {v : Vertex} (hv : v ∈ layer) :
    ((column index layer).find? (·.octant == v.octant)).map HyperVertex.part = v.parts[index]? := by
  rw [column, List.find?_filterMap]
  have held : ∀ u ∈ layer, Option.any (·.octant == v.octant) (u.parts[index]?.map
      (HyperVertex.mk u.octant · [u.low, u.high] u.dirty)) = (u.octant == v.octant) := by
    intro u hu
    rw [List.getElem?_eq_getElem ((formed.parts u hu).length_eq ▸ bound)]
    rfl
  rw [List.find?_congr held, show layer.find? (·.octant == v.octant) = some v from
    formed.vertex?_eq hv, Option.bind_some, Option.map_map]
  exact Option.map_id'

theorem coincident_eq (clean : s.Clean) {i : Nat} {layer : Layer} (hl : s.layers[i]? = some layer)
    {v : Vertex} (hv : v ∈ layer) : s.coincident i v.octant = v.parts := by
  have formed := clean.formed.layers layer (List.mem_of_getElem? hl)
  have each : ∀ entry ∈ s.others.zipIdx,
      (HyperStructure.vertex? ⟨entry.1, s.layers.map (column entry.2)⟩ i v.octant).map
        HyperVertex.part = v.parts[entry.2]? := by
    intro (other, index) found
    obtain ⟨bound, -⟩ := List.getElem?_eq_some_iff.mp (List.mem_zipIdx_iff_getElem?.mp found)
    rw [HyperStructure.vertex?, List.getElem?_map, hl]
    exact find?_column formed bound hv
  rw [coincident, hyperStructures, List.filterMap_map]
  refine (List.filterMap_congr each).trans ?_
  exact filterMap_getElem?_zipIdx [] (formed.parts v hv).length_eq

theorem Settled.holdsParts (h : Settled others window s) (above : Over others window s)
    (clean : s.Clean) (complete : s.layers.length = s.tierCount) : s.HoldsParts where
  holds hs hhs i vertices t found ht v hv := by
    obtain ⟨index, other, layer, hl, rfl⟩ := exists_layer hhs found
    obtain ⟨u, hu, octant, part, -⟩ := mem_column hv
    obtain ⟨pinned, firm⟩ := h.parts above clean hl ht hu
    rw [above.same] at other
    exact holds_of_pinned (above.hosts clean.formed ht) (octant ▸ pinned) firm other part
  unified i t ht o ho := by
    obtain ⟨bound, -⟩ := List.getElem?_eq_some_iff.mp ht
    have hl := List.getElem?_eq_getElem (show i < s.layers.length from complete ▸ bound)
    obtain ⟨v, hv, rfl⟩ := Layer.mem_keys.mp ((clean.mirrors i _ t hl ht o).mpr ho)
    obtain ⟨pinned, firm⟩ := h.parts above clean hl ht hv
    have length : v.parts.length = s.hyperStructures.length := by
      rw [length_hyperStructures, above.same, pinned.length_eq]
    rw [coincident_eq clean hl hv]
    exact ⟨length, fun two => firm.run_unify (length ▸ two)⟩

/-- Construction meets no fault. In a system that it ends in, each vertex holds a full part of the
other structure of its hyper-structure, unchanged by cleanup, that forces its octant, and the parts of
coincident vertices are unified. -/
theorem ofStructures_holdsParts {structures : List Formula} {check : Bool}
    (two : 2 ≤ structures.length) (windowed : ∀ f ∈ structures, f.Windowed)
    (solid : ∀ f ∈ structures, f.Solid)
    (same : ∀ f ∈ structures, ∀ g ∈ structures, f.permutation.sameVariables g.permutation = true) :
    ∃ i r events, basicIndex? structures = some i ∧
      (ofStructures structures check).outcome = .ok (r, events) ∧ ∀ s, r = .ok s →
        s.hyperStructures.map HyperStructure.other = structures.eraseIdx i ∧ s.HoldsParts := by
  obtain ⟨i, basic, chosen, hbasic⟩ :=
    basicIndex?_some (List.ne_nil_of_length_pos (show 0 < structures.length by omega))
  obtain ⟨⟨r, events⟩, run, result⟩ :=
    (@ofStructures_concludes structures check two windowed solid same).outcome
  refine ⟨i, r, events, chosen, run, ?_⟩
  rintro s rfl
  have founded : s.Founded structures := result
  obtain ⟨window, above, settled⟩ :=
    (ofStructures_settled chosen hbasic windowed solid same).of_canReturn ⟨[], events, run⟩
  rw [map_other_hyperStructures]
  exact ⟨above.same, settled.holdsParts above founded.clean founded.complete⟩

/-- Three structures over one set of variables. -/
def woven : List Formula :=
  .uniform (.ofNames [2, 4, 1, 3]) (.erase .full ⟨true, false, true⟩) :: braided

theorem windowed_woven : ∀ f ∈ woven, f.Windowed := by
  simp [woven, braided, Formula.windowed_uniform]

theorem solid_woven : ∀ f ∈ woven, f.Solid := by
  unfold Formula.Solid
  decide

theorem sameVariables_woven :
    ∀ f ∈ woven, ∀ g ∈ woven, f.permutation.sameVariables g.permutation = true := by
  decide

theorem ofStructures_holdsParts_woven :
    2 ≤ woven.length ∧ (∀ f ∈ woven, f.Windowed) ∧ (∀ f ∈ woven, f.Solid) ∧
      (∀ f ∈ woven, ∀ g ∈ woven, f.permutation.sameVariables g.permutation = true) ∧
      ∃ i r events, basicIndex? woven = some i ∧
        (ofStructures woven true).outcome = .ok (r, events) ∧ ∀ s, r = .ok s →
          s.hyperStructures.map HyperStructure.other = woven.eraseIdx i ∧ s.HoldsParts := by
  have two : 2 ≤ woven.length := by decide
  exact ⟨two, windowed_woven, solid_woven, sameVariables_woven,
    ofStructures_holdsParts two windowed_woven solid_woven sameVariables_woven⟩

end HyperSystem

end TripletSat
