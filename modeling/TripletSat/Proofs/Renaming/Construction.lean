import TripletSat.Proofs.Renaming.Layers

/-!
Renaming through the construction of a hyper-structure system: each step makes of a renamed system
what it makes of the system itself.
-/

namespace TripletSat

namespace HyperSystem

variable (π : Equiv.Perm Nat)

def rename (s : HyperSystem) : HyperSystem :=
  { s with
    basic := s.basic.rename π
    others := s.others.map (Formula.rename π)
    layers := s.layers.map (Layer.rename π) }

/-- Structures, and vertices with structures for parts. -/
structure Shaped (s : HyperSystem) : Prop where
  others : ∀ f ∈ s.others, f.Shaped
  layers : ∀ layer ∈ s.layers, layer.Shaped

/-- Changing one member commutes with a map that the change commutes with. -/
theorem modify_map {α : Type} {f g : α → α} (same : ∀ x, g (f x) = f (g x)) (xs : List α)
    (i : Nat) :
    (xs.map f).modify i g = (xs.modify i g).map f := by
  refine List.ext_getElem? fun j => ?_
  rw [List.getElem?_modify, List.getElem?_map, List.getElem?_map, List.getElem?_modify]
  by_cases here : i = j
  · simp [here, Function.comp_def, same]
  · simp [here]

/-- A system and the same one renamed. -/
def Renames (s s' : HyperSystem) : Prop := s.Shaped ∧ s' = s.rename π

variable {s : HyperSystem}

theorem Shaped.renames (h : s.Shaped) : s.Renames π (s.rename π) := ⟨h, rfl⟩

theorem layers_rename : (s.rename π).layers = s.layers.map (Layer.rename π) := rfl

@[simp] theorem tierCount_rename : (s.rename π).tierCount = s.tierCount :=
  Formula.tierCount_rename π

@[simp] theorem dirtyCount_rename : (s.rename π).dirtyCount = s.dirtyCount := by
  simp [dirtyCount, rename, ← List.map_reverse, List.takeWhile_map, Function.comp_def]

theorem markDirty_rename (start : Nat) :
    (s.rename π).markDirty start = (s.markDirty start).rename π := by
  unfold markDirty rename
  refine congrArg (HyperSystem.mk _ _ _ · _ _) ?_
  rw [List.zipIdx_map, List.map_map, List.map_map]
  refine List.map_congr_left fun (layer, index) _ => ?_
  by_cases behind : start ≤ index
  · simp [behind, Layer.rename, Vertex.rename]
  · simp [behind]

theorem truncate_rename (count : Nat) :
    (s.rename π).truncate count = (s.truncate count).rename π := by
  unfold truncate rename
  refine congrArg (HyperSystem.mk _ _ _ · _ _) ?_
  rw [← List.map_take]
  exact modify_map (fun layer => by simp [Layer.rename, Vertex.rename, Vertex.dropEdges]) _ _

theorem Shaped.markDirty (h : s.Shaped) (start : Nat) : (s.markDirty start).Shaped := by
  refine ⟨h.others, List.forall_mem_map.mpr fun (layer, index) member => ?_⟩
  have old := h.layers layer (List.mem_of_getElem? (List.mem_zipIdx_iff_getElem?.mp member))
  dsimp only
  split
  · exact List.forall_mem_map.mpr old
  · exact old

theorem Shaped.truncate (h : s.Shaped) (count : Nat) : (s.truncate count).Shaped := by
  refine ⟨h.others, ?_⟩
  have old : ∀ layer ∈ s.layers.take count, layer.Shaped := fun layer member =>
    h.layers layer (List.mem_of_mem_take member)
  exact forall_mem_modify old fun layer hl =>
    List.forall_mem_map.mpr (old layer (List.mem_of_getElem? hl))

theorem Shaped.set (h : s.Shaped) {layer : Layer} (hl : layer.Shaped) (index : Nat) :
    Shaped { s with layers := s.layers.set index layer } := by
  refine ⟨h.others, fun l member => ?_⟩
  rcases List.mem_or_eq_of_mem_set member with old | rfl
  · exact h.layers l old
  · exact hl

theorem set_rename (index : Nat) (layer : Layer) :
    { s.rename π with layers := (s.rename π).layers.set index (layer.rename π) } =
      rename π { s with layers := s.layers.set index layer } := by
  simp [rename, List.map_set]

theorem layer_tracks (h : s.Shaped) (index : Nat) :
    Tracks (Layer.Renames π) (s.layer index) ((s.rename π).layer index) := by
  unfold layer
  rw [layers_rename, List.getElem?_map]
  cases found : s.layers[index]? with
  | none => exact .throw
  | some layer => exact .pure ⟨h.layers layer (List.mem_of_getElem? found), rfl⟩

/-! ### Steps on one layer -/

theorem shiftLayer_tracks (h : s.Shaped) (index : Nat) :
    Tracks (Renames π) (s.shiftLayer index) ((s.rename π).shiftLayer index) := by
  unfold shiftLayer
  refine (Formula.tier_tracks π s.basic index).bind_eq fun next => ?_
  refine (layer_tracks π h (index - 1)).bind_and_eq fun source hsource => ?_
  have he : ∀ layer ∈ s.layers.take (index - 1), layer.Shaped := fun layer member =>
    h.layers layer (List.mem_of_mem_take member)
  have earlier : (s.rename π).layers.take (index - 1) =
      (s.layers.take (index - 1)).map (Layer.rename π) := List.map_take.symm
  dsimp only
  rw [earlier]
  refine Tracks.bind (Tracks.mapM fun v hv => Vertex.shiftEdges_tracks π (hsource v hv) he next)
    fun shifted _ related => ?_
  obtain ⟨hshifted, same⟩ := forall₂_and_eq_map.mp related
  subst same
  have arrivals : (shifted.map fun r => (r.1.rename π, r.2.map (renameArrival π))).flatMap Prod.snd =
      (shifted.flatMap Prod.snd).map (renameArrival π) := by
    rw [List.flatMap_map, List.map_flatMap]
  rw [arrivals]
  have arrive : Tracks (Layer.Renames π) ((shifted.flatMap Prod.snd).foldlM Layer.arrive [])
      (((shifted.flatMap Prod.snd).map (renameArrival π)).foldlM Layer.arrive []) := by
    refine Tracks.foldlM (fun a ha layer _ ⟨hlayer, same⟩ => ?_) ⟨by simp [Layer.Shaped], rfl⟩
    subst same
    obtain ⟨r, hr, ha⟩ := List.mem_flatMap.mp ha
    exact Layer.arrive_tracks π hlayer ((hshifted r hr).2 a ha)
  refine arrive.bind_and_eq fun layer hlayer => ?_
  refine .pure ⟨⟨h.others, List.forall_mem_append.mpr ⟨he, ?_⟩⟩, ?_⟩
  · exact List.forall_mem_cons.mpr ⟨List.forall_mem_map.mpr fun r hr => (hshifted r hr).1,
      List.forall_mem_singleton.mpr hlayer⟩
  · simp [rename, Layer.rename, Function.comp_def]

theorem removeVertex_shadows (h : s.Shaped) (tier : Nat) (o : Octant) :
    Shadows (Renames π) anyErrors (s.removeVertex tier o) ((s.rename π).removeVertex tier o) := by
  unfold removeVertex
  refine Shadows.bind_eq (.lift (Formula.removeOctant_tracks π s.basic tier o)) fun f => ?_
  refine Shadows.bind_eq (.lift (Formula.cleanupAround_tracks π f tier)) fun (basic, status) => ?_
  have layers : (s.rename π).layers.modify tier (Layer.erase · o) =
      (s.layers.modify tier (Layer.erase · o)).map (Layer.rename π) :=
    modify_map (fun layer => layer.erase_rename π) s.layers tier
  have shaped : Shaped { s with basic, layers := s.layers.modify tier (Layer.erase · o) } :=
    ⟨h.others, forall_mem_modify h.layers fun layer hl v hv =>
      h.layers layer (List.mem_of_getElem? hl) v (List.mem_of_mem_filter hv)⟩
  dsimp only
  rw [layers, Formula.isEmpty_rename]
  split
  · exact .throw trivial
  · split
    · exact .pure ⟨shaped.markDirty _, markDirty_rename π (s := ⟨basic, _, _, _, _, _⟩) _⟩
    · exact .pure ⟨shaped, rfl⟩

theorem unifyVertex_shadows (h : s.Shaped) (tier : Nat) (o : Octant) :
    Shadows (Renames π) anyErrors (unifyVertex tier s o) (unifyVertex tier (s.rename π) o) := by
  unfold unifyVertex
  rw [dirtyCount_rename]
  split
  · exact .pure (h.renames π)
  · refine Shadows.bind_and_eq (.lift (layer_tracks π h tier)) fun layer hlayer => ?_
    rw [Layer.vertex?_rename]
    cases found : layer.vertex? o with
    | none => exact .lift .throw
    | some v =>
      have hv := hlayer.of_vertex? found
      refine Shadows.bind (R := Matches (RenamesAll π) anyErrors)
        (.lift (unifyGroup_shadows π hv)) fun r r' matched => ?_
      match r, r', matched with
      | .error _, .error _, _ => exact removeVertex_shadows π h tier o
      | .ok parts, .ok _, ⟨hparts, same⟩ =>
        subst same
        refine .pure ⟨h.set (hlayer.update (v := { v with parts }) hparts) tier, ?_⟩
        rw [← set_rename, ← Layer.update_rename]
        rfl

theorem unifyLayer_shadows (h : s.Shaped) (tier : Nat) :
    Shadows (Renames π) anyErrors (s.unifyLayer tier) ((s.rename π).unifyLayer tier) := by
  unfold unifyLayer
  refine Shadows.bind_and_eq (.lift (layer_tracks π h tier)) fun layer hlayer => ?_
  rw [Layer.keys_rename]
  refine Shadows.foldlM_same (fun o _ s _ ⟨hs, same⟩ => ?_) (h.renames π)
  subst same
  exact unifyVertex_shadows π hs tier o

theorem pruneOctant_shadows (h : s.Shaped) (tier : Nat) (o : Octant) :
    Shadows (Renames π) anyErrors (pruneOctant tier s o) (pruneOctant tier (s.rename π) o) := by
  unfold pruneOctant
  rw [dirtyCount_rename]
  split
  · exact .pure (h.renames π)
  · refine Shadows.bind_and_eq (.lift (layer_tracks π h tier)) fun layer _ => ?_
    rw [Layer.vertex?_rename]
    cases layer.vertex? o with
    | none => exact removeVertex_shadows π h tier o
    | some v => exact .pure (h.renames π)

theorem prune_shadows (h : s.Shaped) (tier : Nat) :
    Shadows (Renames π) anyErrors (s.prune tier) ((s.rename π).prune tier) := by
  unfold prune
  refine Shadows.bind_eq (.lift (Formula.tier_tracks π s.basic tier)) fun t => ?_
  refine Shadows.foldlM_same (fun o _ s _ ⟨hs, same⟩ => ?_) (h.renames π)
  subst same
  exact pruneOctant_shadows π hs tier o

theorem clear_rename {lives lives' : Vertex → Bool} (same : ∀ v, lives' (v.rename π) = lives v)
    (layer : Layer) :
    (layer.rename π).map
        (fun v => if lives' v then v else { v with parts := v.parts.map Formula.clear }) =
      Layer.rename π
        (layer.map fun v => if lives v then v else { v with parts := v.parts.map Formula.clear }) := by
  rw [Layer.rename, Layer.rename, List.map_map, List.map_map]
  refine List.map_congr_left fun v _ => ?_
  simp only [Function.comp_apply, same]
  split
  · rfl
  · simp [Vertex.rename, Formula.rename, Formula.clear, Function.comp_def]

theorem clearLeaves_shadows (h : s.Shaped) (tier : Nat) :
    Shadows (Renames π) anyErrors (s.clearLeaves tier) ((s.rename π).clearLeaves tier) := by
  unfold clearLeaves
  refine Shadows.bind_and_eq (.lift (layer_tracks π h tier)) fun layer hlayer => ?_
  refine Shadows.bind_and_eq (.lift (layer_tracks π h (tier + 1))) fun next _ => ?_
  have lives (v : Vertex) : ((v.rename π).targets.any fun o => ((next.rename π).vertex? o).isSome) =
      v.targets.any fun o => (next.vertex? o).isSome := by
    simp [Layer.vertex?_rename]
  refine .ite (by rw [Layer.all_rename π lives]) (fun _ => .pure (h.renames π)) fun _ => ?_
  dsimp only
  rw [clear_rename π lives, set_rename]
  refine unifyLayer_shadows π (h.set (List.forall_mem_map.mpr fun v hv => ?_) tier) tier
  split
  · exact hlayer v hv
  · exact List.forall_mem_map.mpr fun _ _ => .inl rfl

theorem buildLayer_shadows (h : s.Shaped) (index : Nat) :
    Shadows (Renames π) anyErrors (s.buildLayer index) ((s.rename π).buildLayer index) := by
  unfold buildLayer
  refine Shadows.bind_and_eq (.lift (shiftLayer_tracks π h index)) fun s h => ?_
  refine Shadows.bind_and_eq (prune_shadows π h index) fun s h => ?_
  have last (s s' : HyperSystem) (both : s.Renames π s') : Shadows (Renames π) anyErrors
      (if s.dirtyCount = 0 then s.unifyLayer index else pure s)
      (if s'.dirtyCount = 0 then s'.unifyLayer index else pure s') := by
    obtain ⟨h, rfl⟩ := both
    rw [dirtyCount_rename]
    exact .ite .rfl (fun _ => unifyLayer_shadows π h index) fun _ => .pure (h.renames π)
  rw [dirtyCount_rename]
  exact .ite .rfl (fun _ => (clearLeaves_shadows π h (index - 1)).bind last)
    fun _ => last s _ (h.renames π)

/-! ### All layers -/

theorem requireKeys_tracks (s : HyperSystem) :
    Tracks (fun _ _ => True) s.requireKeys (s.rename π).requireKeys := by
  have layers : (s.rename π).layers.zipIdx =
      s.layers.zipIdx.map (Prod.map (Layer.rename π) id) := List.zipIdx_map
  unfold requireKeys
  rw [layers]
  refine Tracks.forM fun (layer, tier) _ => ?_
  refine (Formula.tier_tracks π s.basic tier).bind_eq fun t => ?_
  rw [Layer.keys_rename]
  exact .ite .rfl (fun _ => .pure trivial) fun _ => .throw

theorem firstLayer_tracks (h : s.Shaped) :
    Tracks (Layer.Renames π) s.firstLayer (s.rename π).firstLayer := by
  unfold firstLayer
  refine (Formula.tier_tracks π s.basic 0).bind_eq fun first => ?_
  refine Tracks.bind (R := List.Forall₂ (RenamesAll π)) ?_ fun columns _ related => ?_
  · refine Tracks.mapM fun other hother => Tracks.mono (Tracks.mapM_same (S := Formula.Renames π)
      fun o _ => ?_) fun _ _ => forall₂_and_eq_map.mp
    exact Formula.concretizeOctant_renames π (h.others other hother) first.triple o
  · obtain ⟨shaped, same⟩ := forall₂_and_eq_map.mp related
    subst same
    refine .pure ⟨List.forall_mem_map.mpr fun (o, index) _ f hf => ?_, ?_⟩
    · obtain ⟨column, hcolumn, found⟩ := List.mem_filterMap.mp hf
      exact shaped column hcolumn f (List.mem_of_getElem? found)
    · simp [Layer.rename, Vertex.rename, Vertex.ofParts, List.filterMap_map, List.map_filterMap,
        Function.comp_def]

theorem seedRounds_echoes (limit fuel : Nat) (h : s.Shaped) :
    Echoes (Renames π) anyErrors (seedRounds limit fuel s)
      (seedRounds limit fuel (s.rename π)) := by
  induction fuel generalizing s with
  | zero => exact .lift .throw
  | succ fuel ih =>
    unfold seedRounds
    refine Echoes.bind_and_eq (.lift (firstLayer_tracks π h)) fun layer hlayer => ?_
    have shaped : Shaped { s with layers := [layer] } :=
      ⟨h.others, List.forall_mem_singleton.mpr hlayer⟩
    refine Echoes.bind_and_eq (.ofAttempt (unifyLayer_shadows π shaped 0)) fun s h => ?_
    rw [dirtyCount_rename]
    exact .ite .rfl (fun _ => .pure (h.renames π)) fun _ => .report (ih h)

theorem seed_echoes (h : s.Shaped) :
    Echoes (Renames π) anyErrors s.seed (s.rename π).seed := by
  have count : (s.rename π).basic.clauseCount = s.basic.clauseCount := Formula.clauseCount_rename π
  unfold seed
  rw [count]
  exact seedRounds_echoes π _ _ h

theorem buildFrom_echoes (check : Bool) (count fuel index : Nat) (h : s.Shaped) :
    Echoes (Renames π) anyErrors (buildFrom check count fuel index s)
      (buildFrom check count fuel index (s.rename π)) := by
  induction fuel generalizing index s with
  | zero =>
    unfold buildFrom
    exact .ite .rfl (fun _ => .pure (h.renames π)) fun _ => .lift .throw
  | succ fuel ih =>
    unfold buildFrom
    refine .ite .rfl (fun _ => .pure (h.renames π)) fun _ => .report ?_
    refine Echoes.bind_and_eq (.ofAttempt (buildLayer_shadows π h index)) fun s h => ?_
    have layers : (s.rename π).layers.length = s.layers.length := List.length_map _
    dsimp only
    rw [dirtyCount_rename, layers, truncate_rename]
    refine .ite .rfl (fun _ => ?_) fun _ => .report ?_
    · split
      · exact Echoes.bind (.lift (requireKeys_tracks π s)) fun _ _ _ => ih _ h
      · exact ih _ h
    · have cut := h.truncate (s.layers.length - s.dirtyCount)
      refine .ite .rfl (fun _ => ?_) fun _ => ?_
      · refine Echoes.bind_and_eq (seed_echoes π (s := { s.truncate _ with reseeds := _ })
          ⟨cut.others, cut.layers⟩) fun s h => ?_
        exact ih _ h
      · exact ih _ (s := { s.truncate _ with rebuilds := _ }) ⟨cut.others, cut.layers⟩

theorem build_echoes (check : Bool) (h : s.Shaped) :
    Echoes (Renames π) anyErrors (build check s) (build check (s.rename π)) := by
  have count : (s.rename π).basic.clauseCount = s.basic.clauseCount := Formula.clauseCount_rename π
  unfold build
  rw [tierCount_rename, count]
  refine (seed_echoes π h).bind_and_eq fun s h => ?_
  dsimp only
  split
  · exact Echoes.bind (.lift (requireKeys_tracks π s)) fun _ _ _ => buildFrom_echoes π check _ _ 1 h
  · exact buildFrom_echoes π check _ _ 1 h

theorem basicIndex?_rename (structures : List Formula) :
    basicIndex? (structures.map (Formula.rename π)) = basicIndex? structures := by
  simp [basicIndex?, List.findIdx?_map, Function.comp_def]

theorem ofStructures_echoes {structures : List Formula} (shaped : ∀ f ∈ structures, f.Shaped)
    (check : Bool) :
    Echoes (Renames π) (· = ·) (ofStructures structures check)
      (ofStructures (structures.map (Formula.rename π)) check) := by
  unfold ofStructures
  rw [List.length_map, basicIndex?_rename]
  refine .ite .rfl (fun _ => ?_) fun _ => ?_
  · exact .throw_bind rfl
  · cases basicIndex? structures with
    | none => exact .throw rfl
    | some index =>
      have empty : (structures.map (Formula.rename π)).findIdx? Formula.isEmpty =
          structures.findIdx? Formula.isEmpty := by
        simp [List.findIdx?_map, Function.comp_def]
      have basic : (structures.map (Formula.rename π)).getD index .empty =
          (structures.getD index .empty).rename π := by
        rw [List.getD_eq_getElem?_getD, List.getD_eq_getElem?_getD, List.getElem?_map]
        cases structures[index]? <;> rfl
      have all (f : Formula) : ((structures.map (Formula.rename π)).all
          (·.permutation.sameVariables (f.rename π).permutation)) =
            structures.all (·.permutation.sameVariables f.permutation) := by
        simp [Function.comp_def]
      dsimp only
      rw [empty, basic, all, List.eraseIdx_map]
      cases structures.findIdx? Formula.isEmpty with
      | some _ => exact .throw_bind rfl
      | none =>
        refine .ite .rfl (fun _ => ?_) fun _ => .report ?_
        · exact .fault_bind
        · have start : Shaped ⟨structures.getD index .empty, index, structures.eraseIdx index, [], 0, 0⟩ :=
            ⟨fun f hf => shaped f (List.mem_of_mem_eraseIdx hf), by simp⟩
          refine Echoes.bind (.run (build_echoes π check start)) fun r r' matched => ?_
          match r, r', matched with
          | .ok s, .ok _, both => exact .pure both
          | .error _, .error _, _ => exact .report (.throw rfl)

end HyperSystem

end TripletSat
