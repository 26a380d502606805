import Mathlib.Data.List.Find
import TripletSat.Proofs.Hyper.Maps.Basic
import TripletSat.Proofs.Hyper.Removal
import TripletSat.Proofs.Tracking

/-!
The system with tiers of its own for every hyper-structure that a system of shared vertices stands for. What is
read off its maps is what is read off the layers, and a change of a layer is the same change of one map in each
hyper-structure.
-/

namespace TripletSat

/-! ### Lists by position -/

section Positions

variable {α β γ δ : Type}

theorem mapM_congr_getElem? {f : α → Checked γ} {h : β → Checked γ} {xs : List α} {ys : List β}
    (length : xs.length = ys.length)
    (same : ∀ (i : Nat) x y, xs[i]? = some x → ys[i]? = some y → f x = h y) : xs.mapM f = ys.mapM h := by
  induction xs generalizing ys with
  | nil =>
    obtain rfl := List.length_eq_zero_iff.mp length.symm
    rfl
  | cons x rest ih =>
    obtain ⟨y, ys, rfl⟩ := List.exists_cons_of_length_eq_add_one length.symm
    rw [List.mapM_cons, List.mapM_cons, same 0 x y rfl rfl,
      ih (Nat.succ.inj length) fun i x y hx hy => same (i + 1) x y hx hy]

theorem mapM_mapIdx {f : β → Checked γ} {g : Nat → α → β} {h : δ → Checked γ} {xs : List α}
    {ys : List δ} (length : ys.length = xs.length)
    (same : ∀ (i : Nat) x y, xs[i]? = some x → ys[i]? = some y → f (g i x) = h y) :
    (xs.mapIdx g).mapM f = ys.mapM h := by
  refine mapM_congr_getElem? (List.length_mapIdx.trans length.symm) fun i x y hx hy => ?_
  rw [List.getElem?_mapIdx] at hx
  obtain ⟨x, here, rfl⟩ := Option.map_eq_some_iff.mp hx
  exact same i x y here hy

theorem mapM_mapIdx_eq_ok {f : β → Checked γ} {g : Nat → α → β} {xs : List α} {ys : List γ}
    (length : ys.length = xs.length)
    (same : ∀ (i : Nat) x y, xs[i]? = some x → ys[i]? = some y → f (g i x) = .ok y) :
    (xs.mapIdx g).mapM f = .ok ys := by
  refine (mapM_mapIdx (h := pure) length same).trans ?_
  rw [List.mapM_pure, List.map_id']
  rfl

theorem eachWith_mapIdx_eq_ok {f : β → δ → Checked β} {g g' : Nat → α → β} {xs : List α} {ys : List δ}
    (length : ys.length = xs.length)
    (same : ∀ (i : Nat) x y, xs[i]? = some x → ys[i]? = some y → f (g i x) y = .ok (g' i x)) :
    eachWith f (xs.mapIdx g) ys = .ok (xs.mapIdx g') := by
  induction xs generalizing g g' ys with
  | nil =>
    obtain rfl := List.length_eq_zero_iff.mp length
    rfl
  | cons x rest ih =>
    obtain ⟨y, ys, rfl⟩ := List.exists_cons_of_length_eq_add_one length
    rw [List.mapIdx_cons, List.mapIdx_cons, eachWith, same 0 x y rfl rfl,
      ih (Nat.succ.inj length) fun i x y hx hy => same (i + 1) x y hx hy]
    rfl

theorem map_mapIdx (f : β → γ) (g : Nat → α → β) (xs : List α) :
    (xs.mapIdx g).map f = xs.mapIdx fun i x => f (g i x) := by
  refine List.ext_getElem? fun i => ?_
  rw [List.getElem?_map, List.getElem?_mapIdx, List.getElem?_mapIdx, Option.map_map]
  rfl

/-- A test that every member answers alike. -/
theorem anyM_mapIdx_eq_ok {test : β → Checked Bool} {g : Nat → α → β} {xs : List α} {answer : Bool}
    (some : xs ≠ []) (same : ∀ (i : Nat) x, xs[i]? = .some x → test (g i x) = .ok answer) :
    (xs.mapIdx g).anyM test = .ok answer := by
  induction xs generalizing g with
  | nil => exact absurd rfl some
  | cons x rest ih =>
    rw [List.mapIdx_cons, List.anyM, same 0 x rfl]
    cases answer with
    | true => rfl
    | false =>
      by_cases last : rest = []
      · subst last
        rfl
      · exact ih last fun i x hx => same (i + 1) x hx

/-- The answer of members that all give the same. -/
theorem any_map_pair {xs : List α} (some : xs ≠ []) (answer : Bool) :
    (xs.map (·, answer)).any Prod.snd = answer := by
  obtain ⟨x, rest, rfl⟩ := List.exists_cons_of_ne_nil some
  cases answer with
  | true => rfl
  | false => simp

end Positions

/-! ### Layers as maps -/

/-- The vertex of the hyper-structure at an index. -/
def Vertex.own? (index : Nat) (v : Vertex) : Option HyperVertex :=
  v.parts[index]?.map (⟨v.octant, ·, [v.low, v.high], v.dirty⟩)

theorem Vertex.own?_eq {v : Vertex} {index : Nat} {f : Formula} (part : v.parts[index]? = some f) :
    v.own? index = some ⟨v.octant, f, [v.low, v.high], v.dirty⟩ := by
  rw [Vertex.own?, part, Option.map_some]

/-- A change of the edges and of the flag only. -/
theorem Vertex.own?_map {v v' : Vertex} {index : Nat} {g : HyperVertex → HyperVertex} (parts : v'.parts = v.parts)
    (same : ∀ f, g ⟨v.octant, f, [v.low, v.high], v.dirty⟩ = ⟨v'.octant, f, [v'.low, v'.high], v'.dirty⟩) :
    v'.own? index = (v.own? index).map g := by
  rw [Vertex.own?, Vertex.own?, Option.map_map, parts]
  exact Option.map_congr fun f _ => (same f).symm

namespace Layer

variable {layer : Layer} {count index : Nat} {o : Octant} {v : Vertex}

/-- Ascending octants, and as many parts at each of them. -/
structure Even (count : Nat) (layer : Layer) : Prop where
  ascending : (keys layer).Pairwise fun o u => o.key < u.key
  parts : ∀ v ∈ layer, v.parts.length = count

def mapped (index : Nat) (layer : Layer) : TierMap := fun o => (vertex? layer o).bind (·.own? index)

theorem mapped_of_vertex? {f : Formula} (found : vertex? layer o = some v) (part : v.parts[index]? = some f) :
    layer.mapped index o = some ⟨v.octant, f, [v.low, v.high], v.dirty⟩ := by
  rw [mapped, found, Option.bind_some, Vertex.own?_eq part]

theorem mapped_of_none (missing : vertex? layer o = none) : layer.mapped index o = none := by
  rw [mapped, missing, Option.bind_none]

theorem Even.nodup (even : layer.Even count) : (keys layer).Nodup :=
  OctantSet.nodup_of_ascending even.ascending

theorem Even.vertex?_eq (even : layer.Even count) (hv : v ∈ layer) : vertex? layer v.octant = some v :=
  vertex?_eq_of_nodup even.nodup hv

theorem Even.exists_part (even : layer.Even count) (bound : index < count) (hv : v ∈ layer) :
    ∃ f, v.parts[index]? = some f :=
  ⟨_, List.getElem?_eq_getElem (even.parts v hv ▸ bound)⟩

theorem Even.isSome_mapped (even : layer.Even count) (bound : index < count) (o : Octant) :
    (layer.mapped index o).isSome = (vertex? layer o).isSome := by
  cases found : vertex? layer o with
  | none =>
    rw [mapped_of_none found]
    rfl
  | some v =>
    obtain ⟨f, part⟩ := even.exists_part bound (vertex?_some found).1
    rw [mapped_of_vertex? found part]
    rfl

theorem isSome_vertex?_iff : (vertex? layer o).isSome = true ↔ o ∈ keys layer := by
  rw [vertex?, List.find?_isSome, mem_keys]
  simp only [beq_iff_eq]

theorem Even.keys_mapped (even : layer.Even count) (bound : index < count) :
    (layer.mapped index).keys = keys layer := by
  refine OctantSet.eq_of_ascending (List.Pairwise.filter _ (by decide)) even.ascending fun o => ?_
  rw [TierMap.keys, List.mem_filter, even.isSome_mapped bound, isSome_vertex?_iff,
    and_iff_right (Octant.mem_all o)]

/-- The vertices of a map, in the order of the layer. -/
theorem Even.values_mapped (even : layer.Even count) (bound : index < count) :
    (layer.mapped index).values = layer.filterMap (·.own? index) :=
  calc (layer.mapped index).values
    _ = (layer.mapped index).keys.filterMap (layer.mapped index) := by
      rw [TierMap.keys, List.filterMap_filter]
      refine List.filterMap_congr fun o _ => ?_
      cases layer.mapped index o with
      | none => rfl
      | some w => rfl
    _ = layer.filterMap (·.own? index) := by
      rw [even.keys_mapped bound, keys, List.filterMap_map]
      refine List.filterMap_congr fun v hv => ?_
      rw [Function.comp_apply, mapped, even.vertex?_eq hv, Option.bind_some]

/-- A test of the vertices that does not look at their parts. -/
theorem Even.any_values (even : layer.Even count) (bound : index < count) {test : HyperVertex → Bool}
    {test' : Vertex → Bool} (same : ∀ v w, v.own? index = some w → test w = test' v) :
    (layer.mapped index).values.any test = layer.any test' := by
  rw [even.values_mapped bound, List.any_filterMap, Bool.eq_iff_iff, List.any_eq_true, List.any_eq_true]
  refine exists_congr fun v => and_congr_right fun hv => ?_
  obtain ⟨f, part⟩ := even.exists_part bound hv
  rw [Vertex.own?_eq part, ← same v _ (Vertex.own?_eq part)]

theorem Even.all_values (even : layer.Even count) (bound : index < count) {test : HyperVertex → Bool}
    {test' : Vertex → Bool} (same : ∀ v w, v.own? index = some w → test w = test' v) :
    (layer.mapped index).values.all test = layer.all test' := by
  rw [List.all_eq_not_any_not, List.all_eq_not_any_not,
    even.any_values bound fun v w own => congrArg not (same v w own)]

theorem Even.isDirty_mapped (even : layer.Even count) (bound : index < count) :
    (layer.mapped index).isDirty = layer.isDirty := by
  refine even.any_values bound fun v w own => ?_
  obtain ⟨f, -, rfl⟩ := Option.map_eq_some_iff.mp own
  rfl

/-! ### Edits of a layer -/

theorem vertex?_map {f : Vertex → Vertex} (same : ∀ v ∈ layer, (f v).octant = v.octant) (o : Octant) :
    vertex? (layer.map f) o = (vertex? layer o).map f := by
  rw [vertex?, List.find?_map]
  refine congrArg (Option.map f) (List.find?_congr fun v hv => ?_)
  rw [Function.comp_apply, same v hv]

theorem vertex?_erase (o u : Octant) :
    vertex? (layer.erase o) u = if u = o then none else vertex? layer u := by
  rw [vertex?, Layer.erase, List.find?_filter]
  split
  · rename_i same
    subst same
    refine List.find?_eq_none.mpr fun v _ => ?_
    simp
  · rename_i apart
    refine List.find?_congr fun v _ => ?_
    by_cases here : v.octant = u
    · simp [here, apart]
    · simp [here]

theorem mapped_erase (o : Octant) : (layer.erase o).mapped index = (layer.mapped index).remove o := by
  funext u
  rw [mapped, vertex?_erase, TierMap.remove, Function.update_apply]
  split
  · rfl
  · rfl

/-- The same change of every vertex, which keeps its octant. -/
theorem mapped_map {f : Vertex → Vertex} {g : HyperVertex → HyperVertex}
    (octant : ∀ v ∈ layer, (f v).octant = v.octant)
    (own : ∀ v ∈ layer, (f v).own? index = (v.own? index).map g) :
    Layer.mapped index (layer.map f) = (layer.mapped index).changeAll g := by
  funext o
  rw [mapped, vertex?_map octant, TierMap.changeAll, mapped]
  cases found : vertex? layer o with
  | none => rfl
  | some v =>
    rw [Option.map_some, Option.bind_some, Option.bind_some]
    exact own v (vertex?_some found).1

/-- A change of one vertex, which keeps its octant. -/
theorem mapped_update {f : Vertex → Vertex} {g : HyperVertex → HyperVertex}
    (found : vertex? layer o = some v) (octant : (f v).octant = v.octant)
    (own : (f v).own? index = (v.own? index).map g) :
    Layer.mapped index (layer.update (f v)) = (layer.mapped index).change o g := by
  obtain ⟨-, rfl⟩ := vertex?_some found
  funext u
  rw [mapped, Layer.update, vertex?_map (by intro w _; split <;> simp [*]), TierMap.change,
    Function.update_apply]
  split
  · rename_i same
    rw [same, found, Option.map_some, Option.bind_some, mapped, found, Option.bind_some, octant,
      if_pos rfl]
    exact own
  · rename_i apart
    rw [mapped]
    cases other : vertex? layer u with
    | none => rfl
    | some w =>
      have named := (vertex?_some other).2
      rw [Option.map_some, Option.bind_some, Option.bind_some, octant, if_neg]
      rw [named]
      exact apart

/-! ### Even layers -/

/-- A change of every vertex that keeps its octant and the number of its parts. -/
theorem Even.map (even : layer.Even count) {f : Vertex → Vertex}
    (same : ∀ v ∈ layer, (f v).octant = v.octant ∧ (f v).parts.length = v.parts.length) :
    Layer.Even count (layer.map f) := by
  constructor
  · have keys : Layer.keys (layer.map f) = Layer.keys layer := by
      rw [Layer.keys, List.map_map]
      exact List.map_congr_left fun v hv => (same v hv).1
    exact keys ▸ even.ascending
  · intro w hw
    obtain ⟨v, hv, rfl⟩ := List.mem_map.mp hw
    exact (same v hv).2.trans (even.parts v hv)

theorem Even.erase (even : layer.Even count) (o : Octant) : (layer.erase o).Even count :=
  ⟨even.ascending.sublist (List.filter_sublist.map _), fun v hv => even.parts v (List.mem_of_mem_filter hv)⟩

end Layer

/-! ### Systems -/

namespace HyperSystem

variable {s : HyperSystem} {tier index : Nat} {layers : List Layer} {layer layer' : Layer} {other : Formula}
  {o : Octant}

/-- The system whose hyper-structures have the tiers that the layers stand for. -/
def mapped (s : HyperSystem) : MappedSystem :=
  ⟨s.basic, s.basicIndex,
    s.others.mapIdx fun index other => ⟨other, s.layers.map (Layer.mapped index)⟩, s.rebuilds, s.reseeds⟩

/-- Some other structure, and on every layer a part for each of them. -/
structure Even (s : HyperSystem) : Prop where
  nonempty : s.others ≠ []
  layers : ∀ layer ∈ s.layers, layer.Even s.others.length

theorem Even.of_getElem? (h : s.Even) (hl : s.layers[tier]? = some layer) : layer.Even s.others.length :=
  h.layers layer (List.mem_of_getElem? hl)

theorem getElem?_structures (s : HyperSystem) (index : Nat) : s.mapped.structures[index]? =
    s.others[index]?.map fun other => ⟨other, s.layers.map (Layer.mapped index)⟩ :=
  List.getElem?_mapIdx

/-- A step that takes the maps over the layers of a system to those over others. -/
theorem mapM_structures {f : MappedStructure → Checked MappedStructure}
    (each : ∀ (index : Nat) other, s.others[index]? = some other →
      f ⟨other, s.layers.map (Layer.mapped index)⟩ = .ok ⟨other, layers.map (Layer.mapped index)⟩) :
    s.mapped.structures.mapM f = .ok (mapped { s with layers }).structures := by
  refine mapM_mapIdx_eq_ok List.length_mapIdx fun index other hs here there => ?_
  rw [getElem?_structures, here] at there
  obtain rfl := Option.some.inj there
  exact each index other here

theorem Even.structures_ne_nil (h : s.Even) : s.mapped.structures ≠ [] :=
  mt List.mapIdx_eq_nil_iff.mp h.nonempty

theorem layer_eq_ok_iff : s.layer tier = .ok layer ↔ s.layers[tier]? = some layer := by
  unfold HyperSystem.layer
  cases s.layers[tier]? with
  | none => exact ⟨nofun, nofun⟩
  | some l => exact ⟨fun h => congrArg some (Except.ok.inj h), fun h => congrArg Except.ok (Option.some.inj h)⟩

theorem tier_mapped (hl : layers[tier]? = some layer) :
    MappedStructure.tier ⟨other, layers.map (Layer.mapped index)⟩ tier = .ok (layer.mapped index) := by
  unfold MappedStructure.tier
  dsimp only
  rw [List.getElem?_map, hl]
  rfl

theorem part_mapped (hl : layers[tier]? = some layer) {v : Vertex} (found : Layer.vertex? layer o = some v)
    {f : Formula} (held : v.parts[index]? = some f) :
    MappedStructure.part ⟨other, layers.map (Layer.mapped index)⟩ tier o = .ok f := by
  unfold MappedStructure.part TierMap.get
  rw [bind_of_ok (tier_mapped hl), Layer.mapped_of_vertex? found held]
  rfl

theorem changeTier_mapped (hl : layers[tier]? = some layer) {f : TierMap → TierMap}
    (same : f (layer.mapped index) = layer'.mapped index) :
    MappedStructure.changeTier ⟨other, layers.map (Layer.mapped index)⟩ tier f =
      .ok ⟨other, (layers.set tier layer').map (Layer.mapped index)⟩ := by
  unfold MappedStructure.changeTier
  rw [bind_of_ok (tier_mapped hl), same, List.map_set]
  rfl

theorem Even.keys_mapped (h : s.Even) (hl : s.layers[tier]? = some layer) :
    s.mapped.keys tier = .ok (Layer.keys layer) := by
  obtain ⟨first, rest, others⟩ := List.exists_cons_of_ne_nil h.nonempty
  have keys : (layer.mapped 0).keys = Layer.keys layer :=
    (h.of_getElem? hl).keys_mapped (List.length_pos_of_ne_nil h.nonempty)
  unfold MappedSystem.keys MappedSystem.first mapped
  rw [others, List.mapIdx_cons]
  show (MappedStructure.tier _ tier >>= fun map => pure map.keys) = _
  rw [bind_of_ok (tier_mapped hl), keys]
  rfl

theorem Even.builtTiers_mapped (h : s.Even) : s.mapped.builtTiers = s.layers.length := by
  obtain ⟨first, rest, others⟩ := List.exists_cons_of_ne_nil h.nonempty
  unfold MappedSystem.builtTiers mapped
  rw [others, List.mapIdx_cons]
  exact List.length_map _

theorem Even.isDirty_mapped (h : s.Even) (hl : s.layers[tier]? = some layer) :
    s.mapped.isDirty tier = .ok layer.isDirty := by
  refine anyM_mapIdx_eq_ok h.nonempty fun index other here => ?_
  obtain ⟨bound, -⟩ := List.getElem?_eq_some_iff.mp here
  rw [bind_of_ok (tier_mapped hl), (h.of_getElem? hl).isDirty_mapped bound]
  rfl

theorem Even.dirtyCount_mapped (h : s.Even) : s.mapped.dirtyCount = .ok s.dirtyCount := by
  have below (bound : Nat) (fits : bound ≤ s.layers.length) : s.mapped.dirtyBelow bound =
      .ok ((s.layers.take bound).reverse.takeWhile Layer.isDirty).length := by
    induction bound with
    | zero => rfl
    | succ bound ih =>
      have hl := List.getElem?_eq_getElem (Nat.lt_of_succ_le fits)
      rw [MappedSystem.dirtyBelow, bind_of_ok (h.isDirty_mapped hl), ih (Nat.le_of_succ_le fits),
        List.take_add_one, hl, Option.toList_some, List.reverse_append, List.reverse_singleton,
        List.singleton_append, List.takeWhile_cons]
      split
      · rfl
      · rfl
  unfold MappedSystem.dirtyCount dirtyCount
  rw [h.builtTiers_mapped, below _ (Nat.le_refl _), List.take_length]

/-- A change of the maps over one layer. -/
theorem changeTiers_mapped (hl : s.layers[tier]? = some layer) {f : TierMap → TierMap}
    (same : ∀ index < s.others.length, f (layer.mapped index) = layer'.mapped index) :
    s.mapped.structures.mapM (·.changeTier tier f) =
      .ok (mapped { s with layers := s.layers.set tier layer' }).structures := by
  refine mapM_structures fun index other here => changeTier_mapped hl ?_
  obtain ⟨bound, -⟩ := List.getElem?_eq_some_iff.mp here
  exact same index bound

theorem Even.set (h : s.Even) (even : layer'.Even s.others.length) :
    Even { s with layers := s.layers.set tier layer' } := by
  refine ⟨h.nonempty, fun l hl => ?_⟩
  rcases List.mem_or_eq_of_mem_set hl with old | rfl
  · exact h.layers l old
  · exact even

theorem mapped_soil : (layer.soil).mapped index = (layer.mapped index).changeAll ({ · with dirty := true }) := by
  exact Layer.mapped_map (fun _ _ => rfl) fun v _ => Vertex.own?_map rfl fun _ => rfl

theorem mapped_markDirty (start : Nat) : (s.markDirty start).mapped = s.mapped.markDirty start := by
  have tiers (index : Nat) : (s.markDirty start).layers.map (Layer.mapped index) =
      (s.layers.map (Layer.mapped index)).mapIdx fun tier map =>
        if start ≤ tier then map.changeAll ({ · with dirty := true }) else map := by
    refine List.ext_getElem? fun tier => ?_
    rw [List.getElem?_map, getElem?_markDirty, List.getElem?_mapIdx, List.getElem?_map, Option.map_map,
      Option.map_map]
    refine Option.map_congr fun layer _ => ?_
    simp only [Function.comp_apply]
    split
    · exact mapped_soil
    · rfl
  unfold mapped MappedSystem.markDirty
  rw [map_mapIdx]
  simp only [tiers]
  rfl

theorem Even.markDirty (h : s.Even) (start : Nat) : (s.markDirty start).Even := by
  refine ⟨h.nonempty, fun layer' hl' => ?_⟩
  obtain ⟨tier, found⟩ := List.mem_iff_getElem?.mp hl'
  rw [getElem?_markDirty] at found
  obtain ⟨layer, hl, rfl⟩ := Option.map_eq_some_iff.mp found
  split
  · exact (h.of_getElem? hl).map fun _ _ => ⟨rfl, rfl⟩
  · exact h.of_getElem? hl

theorem Even.truncate (h : s.Even) (count : Nat) : (s.truncate count).Even := by
  refine ⟨h.nonempty, fun layer' hl' => ?_⟩
  obtain ⟨tier, found⟩ := List.mem_iff_getElem?.mp hl'
  rw [HyperSystem.truncate, List.getElem?_modify] at found
  obtain ⟨layer, hl, rfl⟩ := Option.map_eq_some_iff.mp found
  have even := h.layers layer (List.mem_of_mem_take (List.mem_of_getElem? hl))
  split
  · exact even.map fun _ _ => ⟨rfl, rfl⟩
  · exact even

end HyperSystem

end TripletSat
