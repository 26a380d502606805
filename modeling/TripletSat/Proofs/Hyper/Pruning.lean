import TripletSat.Proofs.Hyper.Removal

/-!
The loops that remove vertices from a layer: unification of every vertex, pruning of the octants
that a new layer did not reach, and clearing of the vertices that lead nowhere. Each keeps what is
carried and leaves the system clean, or stale with fewer octants in the basic structure.
-/

namespace TripletSat

namespace Layer

variable {others : List Formula} {layer : Layer}

theorem forall_mem_update {P : Vertex → Prop} {v : Vertex} (all : ∀ u ∈ layer, P u) (hv : P v) :
    ∀ u ∈ layer.update v, P u := by
  intro u hu
  obtain ⟨w, hw, rfl⟩ := List.mem_map.mp hu
  split
  · exact hv
  · exact all w hw

/-- Other parts for a vertex leave the branches as they are. -/
theorem Formed.branches_update (h : layer.Formed others) {v : Vertex} (hv : v ∈ layer)
    (parts : List Formula) : branches (layer.update { v with parts }) = branches layer := by
  simp only [branches, update, List.map_map]
  apply List.map_congr_left
  intro u hu
  simp only [Function.comp_apply]
  split
  · rename_i same
    rw [h.vertex_eq hu hv same]
    rfl
  · rfl

end Layer

namespace HyperSystem

variable {s s' : HyperSystem} {tier : Nat} {o : Octant} {τ : Valuation} {layer layer' : Layer}

theorem layer_returns {i : Nat} (hl : s.layers[i]? = some layer) :
    Returns (s.layer i) (· = layer) := by
  unfold HyperSystem.layer
  rw [hl]
  exact Returns.pure rfl

/-! ### What a removal settles -/

/-- A mirrored layer keeps a vertex, since its basic tier keeps an octant. -/
theorem Removed.ne_nil (r : Removed s tier o s') {i : Nat} (mirrors : s.Mirrors i)
    (hl' : s'.layers[i]? = some layer') : layer' ≠ [] := by
  obtain ⟨bound, -⟩ := List.getElem?_eq_some_iff.mp hl'
  obtain ⟨t', ht', -⟩ := r.formed.exists_tier (Nat.lt_of_lt_of_le bound r.formed.fits)
  obtain ⟨t, ht, -, part⟩ :=
    forall₂_getElem? (r.basic.2.resolve_left r.formed.tiers_ne_nil) ht'
  obtain ⟨u, hu⟩ := OctantSet.isEmpty_eq_false_iff.mp
    (r.formed.full.solid t' (List.mem_of_getElem? ht'))
  have hl := List.getElem?_eq_getElem (r.length ▸ bound)
  have member : u ∈ Layer.keys layer' := by
    refine (r.keys i _ layer' hl hl' u).mpr ⟨(mirrors _ t hl ht u).mpr (part u hu), ?_⟩
    rintro rfl rfl
    exact r.away t' ht' hu
  rintro rfl
  exact absurd member List.not_mem_nil

/-- Removals that spread leave a stale system behind, unless a layer has run empty. -/
theorem Removed.stale {start : Nat} (r : Removed s tier o s')
    (spreads : Removed.Spreads s tier o start s') (bound : tier < s.layers.length)
    (fresh : ∀ layer ∈ s.layers, layer.Fresh) (mirrors : ∀ i < tier, s.Mirrors i)
    (full : ∀ (i : Nat) layer', s'.layers[i]? = some layer' → layer' ≠ []) : s'.Stale start := by
  refine ⟨r.formed, ?_, ?_, ?_,
    fun i hi layer hl => spreads.dirty i hi layer hl (full i layer hl)⟩
  · have := spreads.bound
    rw [r.length]
    omega
  · intro i hi layer hl
    rw [(spreads.before i hi).1] at hl
    exact fresh layer (List.mem_of_getElem? hl)
  · intro i hi layer t hl ht
    rw [(spreads.before i hi).1] at hl
    rw [(spreads.before i hi).2] at ht
    exact mirrors i (Nat.lt_of_lt_of_le hi spreads.bound) layer t hl ht

theorem Removed.mirrors (r : Removed s tier o s') (idle : Removed.Idle s tier o s') {i : Nat}
    (mirrors : s.Mirrors i) : s'.Mirrors i := by
  intro layer' t' hl' ht' u
  obtain ⟨bound, -⟩ := List.getElem?_eq_some_iff.mp hl'
  have hl := List.getElem?_eq_getElem (r.length ▸ bound)
  obtain ⟨t, ht, octants⟩ := idle.tiers i t' ht'
  rw [r.keys i _ layer' hl hl' u, octants u, mirrors _ t hl ht u]

theorem Removed.progress (r : Removed s tier o s') (h : s.Clean) (hl : s.layers[tier]? = some layer)
    (ho : o ∈ Layer.keys layer)
    (apart : ∀ τ, s.Carries τ → ∀ w, s.window? tier = some w → τ.octant w ≠ o) :
    s.Progress s' := by
  refine ⟨⟨r.others, r.basic, fun τ carries => r.keeps τ carries (apart τ carries)⟩, r.length,
    r.restarts, ?_⟩
  obtain ⟨bound, -⟩ := List.getElem?_eq_some_iff.mp hl
  rcases r.settles with idle | ⟨start, spreads⟩
  · exact .inl ⟨r.formed, idle.fresh h.fresh, fun i => r.mirrors idle (h.mirrors i)⟩
  · obtain ⟨t, ht, -⟩ := h.formed.exists_tier (Nat.lt_of_lt_of_le bound h.formed.fits)
    refine .inr ⟨start, ?_, spreads.fewer t ht ((h.mirrors tier layer t hl ht o).mp ho)⟩
    exact r.stale spreads bound h.fresh (fun i _ => h.mirrors i)
      fun i layer' => r.ne_nil (h.mirrors i)

/-! ### Replacing a layer -/

theorem Clean.set (h : s.Clean) (hl : s.layers[tier]? = some layer)
    (branches : Layer.branches layer' = Layer.branches layer)
    (parts : ∀ v ∈ layer', PartsOf s.others v.parts) (fresh : layer'.Fresh) : Clean { s with layers := s.layers.set tier layer' } := by
  have formed := (h.formed.layers layer (List.mem_of_getElem? hl)).of_branches branches parts
  obtain ⟨bound, -⟩ := List.getElem?_eq_some_iff.mp hl
  have stays {P : Layer → Prop} (all : ∀ l ∈ s.layers, P l) (hp : P layer') :
      ∀ l ∈ s.layers.set tier layer', P l := by
    rw [List.set_eq_modify]
    exact forall_mem_modify all fun _ _ => hp
  refine ⟨{ h.formed with layers := stays h.formed.layers formed, fits := ?_, bare := ?_ },
    stays h.fresh fresh, ?_⟩
  · rw [List.length_set]
    exact h.formed.fits
  · intro i l last hi
    rw [List.length_set] at last
    by_cases position : tier = i
    · subst position
      rw [List.getElem?_set_self bound] at hi
      obtain rfl := Option.some.inj hi
      exact (h.formed.bare tier layer last hl).of_branches branches
    · rw [List.getElem?_set_ne position] at hi
      exact h.formed.bare i l last hi
  · intro i l t hi ht u
    by_cases position : tier = i
    · subst position
      rw [List.getElem?_set_self bound] at hi
      obtain rfl := Option.some.inj hi
      rw [Layer.keys_eq_of_branches branches]
      exact h.mirrors tier layer t hl ht u
    · rw [List.getElem?_set_ne position] at hi
      exact h.mirrors i l t hi ht u

theorem Carries.set (h : s.Carries τ) (hl : s.layers[tier]? = some layer)
    (kept : ∀ w, s.window? tier = some w → ∀ v ∈ layer, v.Carries w (s.following? tier) τ →
      ∃ v' ∈ layer', v'.Carries w (s.following? tier) τ) :
    Carries { s with layers := s.layers.set tier layer' } τ := by
  refine h.of_layers h.basic rfl rfl List.length_set ?_
  intro i w l l' hw hi hi' v hv carries
  by_cases position : tier = i
  · subst position
    obtain ⟨bound, -⟩ := List.getElem?_eq_some_iff.mp hl
    obtain rfl := Option.some.inj (hl.symm.trans hi)
    rw [List.getElem?_set_self bound] at hi'
    obtain rfl := Option.some.inj hi'
    exact kept w hw v hv carries
  · rw [List.getElem?_set_ne position] at hi'
    obtain rfl := Option.some.inj (hi.symm.trans hi')
    exact ⟨v, hv, carries⟩

theorem Clean.progress_set (h : s.Clean) (hl : s.layers[tier]? = some layer)
    (branches : Layer.branches layer' = Layer.branches layer)
    (parts : ∀ v ∈ layer', PartsOf s.others v.parts) (fresh : layer'.Fresh)
    (kept : ∀ τ, s.Carries τ → ∀ w, s.window? tier = some w → ∀ v ∈ layer,
      v.Carries w (s.following? tier) τ → ∃ v' ∈ layer', v'.Carries w (s.following? tier) τ) :
    s.Progress { s with layers := s.layers.set tier layer' } :=
  ⟨⟨rfl, .refl s.basic, fun τ carries => carries.set hl (kept τ carries)⟩, List.length_set, rfl,
    .inl (h.set hl branches parts fresh)⟩

/-! ### Unifying the vertices of a layer -/

theorem unifyVertex_attempts (h : s.Clean) (hl : s.layers[tier]? = some layer)
    (ho : o ∈ Layer.keys layer) :
    Attempts (unifyVertex tier s o)
      (fun s' => s.Progress s' ∧ ∀ layer', s'.layers[tier]? = some layer' →
        ∀ u ∈ Layer.keys layer, u ≠ o → u ∈ Layer.keys layer')
      fun _ => ∀ τ, ¬ s.Carries τ := by
  obtain ⟨bound, -⟩ := List.getElem?_eq_some_iff.mp hl
  have formed := h.formed.layers layer (List.mem_of_getElem? hl)
  obtain ⟨v, hv, rfl⟩ := Layer.mem_keys.mp ho
  unfold unifyVertex
  rw [if_neg (by rw [h.dirtyCount]; omega)]
  apply Attempts.bind (Attempts.lift (layer_returns hl))
  intro l same
  subst same
  rw [formed.vertex?_eq hv]
  dsimp only
  apply Attempts.bind (Attempts.lift (formed.parts v hv).unifyGroup_attempts)
  intro r hr
  cases r with
  | ok parts =>
    obtain ⟨hparts, keeps⟩ := hr
    have branches := formed.branches_update hv parts
    refine Attempts.pure ⟨h.progress_set hl branches (Layer.forall_mem_update formed.parts hparts)
      ?_ ?_, ?_⟩
    · have fresh := h.fresh _ (List.mem_of_getElem? hl)
      exact Layer.forall_mem_update fresh (fresh v hv)
    · intro τ _ w _ u hu carries
      refine ⟨_, List.mem_map_of_mem hu, ?_⟩
      split
      · rename_i same
        obtain rfl := formed.vertex_eq hu hv same
        exact ⟨carries.octant, keeps τ carries.parts, carries.leads⟩
      · exact carries
    · intro layer' hl' u hu _
      rw [List.getElem?_set_self bound] at hl'
      obtain rfl := Option.some.inj hl'
      rw [Layer.keys_eq_of_branches branches]
      exact hu
  | error e =>
    have apart (τ) (carries : s.Carries τ) (w : Triple) (hw : s.window? tier = some w) :
        τ.octant w ≠ v.octant := by
      intro same
      obtain ⟨u, hu, here⟩ := carries.vertices tier w _ hw hl
      obtain rfl := formed.vertex_eq hu hv (here.octant.trans same)
      exact hr τ here.parts
    refine Attempts.mono (removeVertex_attempts h.formed bound) ?_ ?_
    · intro s' removed
      refine ⟨removed.progress h hl ho apart, ?_⟩
      intro layer' hl' u hu other
      exact (removed.keys tier _ layer' hl hl' u).mpr ⟨hu, fun _ => other⟩
    · intro _ taken τ carries
      obtain ⟨w, hw, same⟩ := taken τ carries
      exact apart τ carries w hw same

theorem unifyLayer_attempts (h : s.Clean) (bound : tier < s.layers.length) :
    Attempts (s.unifyLayer tier) s.Progress fun _ => ∀ τ, ¬ s.Carries τ := by
  have hl := List.getElem?_eq_getElem bound
  unfold unifyLayer
  apply Attempts.bind (Attempts.lift (layer_returns hl))
  intro l same
  subst same
  have nodup := (h.formed.layers _ (List.mem_of_getElem? hl)).nodup
  -- The vertices still to come stand as long as no layer is dirty.
  refine Attempts.mono (Attempts.foldlM (fun rest s' => s.Progress s' ∧ rest.Nodup ∧
    ∀ layer, s'.layers[tier]? = some layer → ∀ u ∈ rest, s'.Clean → u ∈ Layer.keys layer) ?_
    ⟨.refl h, nodup, fun layer hl' u hu _ => Option.some.inj (hl.symm.trans hl') ▸ hu⟩)
    (fun s' h => h.1) fun _ => id
  intro o rest s' ⟨progress, nodup, stand⟩
  obtain ⟨new, nodup⟩ := List.nodup_cons.mp nodup
  rcases progress.settles with clean | ⟨start, stale, -⟩
  · have hl' := List.getElem?_eq_getElem (show tier < s'.layers.length by
      rw [progress.length]
      exact bound)
    have ho := stand _ hl' o List.mem_cons_self clean
    refine Attempts.mono (unifyVertex_attempts clean hl' ho) ?_
      fun _ => progress.advances.not_carries
    intro s'' ⟨progress', keys⟩
    refine ⟨progress.trans progress', nodup, ?_⟩
    intro layer hlayer u hu _
    apply keys layer hlayer u (stand _ hl' u (List.mem_cons_of_mem _ hu) clean)
    rintro rfl
    exact new hu
  · unfold unifyVertex
    rw [if_pos stale.dirtyCount_pos]
    refine Attempts.pure ⟨progress, nodup, ?_⟩
    intro layer hl' u hu clean
    exact stand layer hl' u (List.mem_cons_of_mem _ hu) clean

/-! ### Pruning what a new layer did not reach -/

/-- While the topmost layer is pruned: it stands for octants of its basic tier, and those that it
does not stand for are still to come. -/
structure Reaching (s : HyperSystem) (tier : Nat) (rest : List Octant) : Prop where
  formed : s.Formed
  top : s.layers.length = tier + 1
  fresh : ∀ layer ∈ s.layers, layer.Fresh
  mirrors : ∀ i < tier, s.Mirrors i
  coming : rest.Nodup ∧ ∀ t, s.basic.tiers[tier]? = some t → ∀ o ∈ rest, o ∈ t.octants
  within : ∀ layer t, s.layers[tier]? = some layer → s.basic.tiers[tier]? = some t →
    (∀ o ∈ Layer.keys layer, o ∈ t.octants) ∧ ∀ o ∈ t.octants, o ∈ Layer.keys layer ∨ o ∈ rest

/-- A topmost layer without vertices never turns dirty, so pruning goes on to the last octant. -/
structure Unreached (s : HyperSystem) (tier : Nat) (rest : List Octant) : Prop where
  formed : s.Formed
  top : s.layers.length = tier + 1
  none : s.layers[tier]? = some []
  within : ∀ t, s.basic.tiers[tier]? = some t → ∀ o ∈ t.octants, o ∈ rest

/-- What holds while the topmost layer is pruned. -/
structure Prunes (s : HyperSystem) (tier : Nat) (rest : List Octant) (s' : HyperSystem) : Prop where
  advances : s.Advances s'
  length : s'.layers.length = s.layers.length
  restarts : s'.restarts = s.restarts
  settles : s'.Reaching tier rest ∨
    (∃ start, s'.Stale start ∧ s'.basic.clauseCount + 2 ≤ s.basic.clauseCount) ∨
      s'.Unreached tier rest

theorem Unreached.not_carries {rest : List Octant} (h : s.Unreached tier rest) (τ : Valuation) :
    ¬ s.Carries τ := by
  intro carries
  obtain ⟨bound, -⟩ := List.getElem?_eq_some_iff.mp h.none
  obtain ⟨t, -, hw⟩ := h.formed.exists_tier (Nat.lt_of_lt_of_le bound h.formed.fits)
  obtain ⟨v, hv, -⟩ := carries.vertices tier _ _ hw h.none
  exact absurd hv List.not_mem_nil

theorem Unreached.dirtyCount {rest : List Octant} (h : s.Unreached tier rest) :
    s.dirtyCount = 0 := by
  apply dirtyCount_of_last
  intro i last layer hl
  obtain rfl : i = tier := by
    have := h.top
    omega
  obtain rfl := Option.some.inj (h.none.symm.trans hl)
  rfl

theorem Removed.unreached {rest : List Octant} (r : Removed s tier o s')
    (top : s.layers.length = tier + 1) (none : s.layers[tier]? = some [])
    (within : ∀ t, s.basic.tiers[tier]? = some t → ∀ u ∈ t.octants, u ∈ o :: rest) :
    s'.Unreached tier rest := by
  refine ⟨r.formed, r.length.trans top, ?_, ?_⟩
  · have hl' := List.getElem?_eq_getElem (show tier < s'.layers.length by
      rw [r.length, top]
      exact Nat.lt_succ_self tier)
    rw [hl']
    refine congrArg some (List.eq_nil_iff_forall_not_mem.mpr ?_)
    intro v hv
    have member := (r.keys tier _ _ none hl' v.octant).mp (List.mem_map_of_mem hv)
    exact absurd member.1 List.not_mem_nil
  · intro t' ht' u hu
    obtain ⟨t, ht, -, part⟩ :=
      forall₂_getElem? (r.basic.2.resolve_left r.formed.tiers_ne_nil) ht'
    apply (List.mem_cons.mp (within t ht u (part u hu))).resolve_left
    rintro rfl
    exact r.away t' ht' hu

/-- An octant without a vertex goes, which may leave more to prune or a stale system. -/
theorem Reaching.removed {rest : List Octant} (h : s.Reaching tier (o :: rest))
    (hl : s.layers[tier]? = some layer) (absent : o ∉ Layer.keys layer)
    (r : Removed s tier o s') : s.Prunes tier rest s' := by
  have apart (τ) (carries : s.Carries τ) (w : Triple) (hw : s.window? tier = some w) :
      τ.octant w ≠ o :=
    fun same => absent (same ▸ (carries.holds hw hl).mem_keys)
  refine ⟨⟨r.others, r.basic, fun τ carries => r.keeps τ carries (apart τ carries)⟩, r.length,
    r.restarts, ?_⟩
  obtain ⟨bound, -⟩ := List.getElem?_eq_some_iff.mp hl
  obtain ⟨new, nodup⟩ := List.nodup_cons.mp h.coming.1
  rcases r.settles with idle | ⟨start, spreads⟩
  · refine .inl ⟨r.formed, r.length.trans h.top, idle.fresh h.fresh,
      fun i hi => r.mirrors idle (h.mirrors i hi), ⟨nodup, ?_⟩, ?_⟩
    · intro t' ht' u hu
      obtain ⟨t, ht, octants⟩ := idle.tiers tier t' ht'
      refine (octants u).mpr ⟨h.coming.2 t ht u (List.mem_cons_of_mem _ hu), ?_⟩
      rintro - rfl
      exact new hu
    intro layer' t' hl' ht'
    obtain ⟨t, ht, octants⟩ := idle.tiers tier t' ht'
    obtain ⟨below, above⟩ := h.within layer t hl ht
    have keys := r.keys tier layer layer' hl hl'
    refine ⟨?_, ?_⟩
    · intro u hu
      obtain ⟨hu, away⟩ := (keys u).mp hu
      exact (octants u).mpr ⟨below u hu, away⟩
    · intro u hu
      obtain ⟨hu, away⟩ := (octants u).mp hu
      rcases above u hu with reached | coming
      · exact .inl ((keys u).mpr ⟨reached, away⟩)
      · exact .inr ((List.mem_cons.mp coming).resolve_left (away rfl))
  · by_cases empty : layer = []
    · subst empty
      refine .inr (.inr (r.unreached h.top hl ?_))
      intro t ht u hu
      exact ((h.within _ t hl ht).2 u hu).resolve_left List.not_mem_nil
    · obtain ⟨t, ht, -⟩ := h.formed.exists_tier (Nat.lt_of_lt_of_le bound h.formed.fits)
      refine .inr (.inl ⟨start, r.stale spreads bound h.fresh h.mirrors ?_,
        spreads.fewer t ht (h.coming.2 t ht o List.mem_cons_self)⟩)
      intro i layer' hl'
      by_cases below : i < tier
      · exact r.ne_nil (h.mirrors i below) hl'
      · obtain ⟨bound', -⟩ := List.getElem?_eq_some_iff.mp hl'
        obtain rfl : i = tier := by
          have := r.length
          have := h.top
          omega
        obtain ⟨v, hv⟩ := List.exists_mem_of_ne_nil _ empty
        have member : v.octant ∈ Layer.keys layer := List.mem_map_of_mem hv
        have kept := (r.keys i layer layer' hl hl' v.octant).mpr
          ⟨member, fun _ same => absent (same ▸ member)⟩
        rintro rfl
        exact absurd kept List.not_mem_nil

theorem pruneOctant_attempts {rest : List Octant} {s₀ : HyperSystem}
    (h : s₀.Prunes tier (o :: rest) s) :
    Attempts (pruneOctant tier s o) (s₀.Prunes tier rest) fun _ => ∀ τ, ¬ s₀.Carries τ := by
  have onward {s' : HyperSystem} (h' : s.Prunes tier rest s') : s₀.Prunes tier rest s' := by
    refine ⟨h.advances.trans h'.advances, h'.length.trans h.length, h'.restarts.trans h.restarts, ?_⟩
    have fewer := h.advances.basic.clauseCount_le
    exact h'.settles.imp_right (.imp_left fun ⟨start, stale, less⟩ => ⟨start, stale, by omega⟩)
  unfold pruneOctant
  -- Only while no layer is dirty is the octant looked at; an empty top layer counts as not dirty.
  rcases h.settles with reaching | ⟨start, stale, fewer⟩ | unreached
  · have bound : tier < s.layers.length := by
      rw [reaching.top]
      exact Nat.lt_succ_self tier
    have hl := List.getElem?_eq_getElem bound
    rw [if_neg (by rw [dirtyCount_of_fresh reaching.fresh]; omega)]
    apply Attempts.bind (Attempts.lift (layer_returns hl))
    intro l same
    subst same
    split
    · rename_i v found
      have coming : rest.Nodup ∧ ∀ t, s.basic.tiers[tier]? = some t → ∀ u ∈ rest, u ∈ t.octants :=
        ⟨(List.nodup_cons.mp reaching.coming.1).2,
          fun t ht u hu => reaching.coming.2 t ht u (List.mem_cons_of_mem _ hu)⟩
      refine Attempts.pure (onward ⟨.refl s, rfl, rfl,
        .inl { reaching with coming := coming, within := ?_ }⟩)
      intro layer t hl' ht
      obtain rfl := Option.some.inj (hl.symm.trans hl')
      obtain ⟨below, above⟩ := reaching.within _ t hl ht
      obtain ⟨hv, same⟩ := Layer.vertex?_some found
      refine ⟨below, ?_⟩
      intro u hu
      rcases above u hu with reached | coming
      · exact .inl reached
      · rcases List.mem_cons.mp coming with rfl | coming
        · exact .inl (Layer.mem_keys.mpr ⟨v, hv, same⟩)
        · exact .inr coming
    · rename_i missing
      have absent := Layer.vertex?_none missing
      apply Attempts.mono (removeVertex_attempts reaching.formed bound)
        (fun s' removed => onward (reaching.removed hl absent removed))
      intro _ taken τ carries
      have carries := h.advances.keeps τ carries
      obtain ⟨w, hw, same⟩ := taken τ carries
      exact absent (same ▸ (carries.holds hw hl).mem_keys)
  · rw [if_pos stale.dirtyCount_pos]
    exact Attempts.pure ⟨h.advances, h.length, h.restarts, .inr (.inl ⟨start, stale, fewer⟩)⟩
  · have bound : tier < s.layers.length := by
      rw [unreached.top]
      exact Nat.lt_succ_self tier
    rw [if_neg (by rw [unreached.dirtyCount]; omega)]
    apply Attempts.bind (Attempts.lift (layer_returns unreached.none))
    intro l same
    subst same
    refine Attempts.mono (removeVertex_attempts unreached.formed bound) ?_
      fun _ _ τ carries => unreached.not_carries τ (h.advances.keeps τ carries)
    intro s' removed
    refine onward ⟨⟨removed.others, removed.basic, ?_⟩, removed.length, removed.restarts, ?_⟩
    · intro τ carries
      exact absurd carries (unreached.not_carries τ)
    · exact .inr (.inr (removed.unreached unreached.top unreached.none unreached.within))

theorem prune_attempts {t : Tier} (ht : s.basic.tiers[tier]? = some t)
    (h : s.Reaching tier t.octants.toList) :
    Attempts (s.prune tier) s.Progress fun _ => ∀ τ, ¬ s.Carries τ := by
  unfold prune
  apply Attempts.bind (Attempts.lift (Formula.tier_returns ht))
  intro _ same
  subst same
  refine Attempts.mono (Attempts.foldlM (fun rest s' => s.Prunes tier rest s')
    (fun o rest s' => pruneOctant_attempts) ⟨.refl s, rfl, rfl, .inl h⟩) ?_ fun _ => id
  intro s' h'
  refine ⟨h'.advances, h'.length, h'.restarts, ?_⟩
  rcases h'.settles with reaching | stale | unreached
  · refine .inl ⟨reaching.formed, reaching.fresh, ?_⟩
    intro i layer t' hl ht'
    by_cases below : i < tier
    · exact reaching.mirrors i below layer t' hl ht'
    · obtain ⟨bound, -⟩ := List.getElem?_eq_some_iff.mp hl
      obtain rfl : i = tier := by
        have := reaching.top
        omega
      obtain ⟨below, above⟩ := reaching.within layer t' hl ht'
      exact fun o => ⟨below o, fun ho => (above o ho).resolve_right List.not_mem_nil⟩
  · exact .inr stale
  · -- A full basic tier would have an octant left.
    obtain ⟨bound, -⟩ := List.getElem?_eq_some_iff.mp unreached.none
    obtain ⟨t', ht', -⟩ :=
      unreached.formed.exists_tier (Nat.lt_of_lt_of_le bound unreached.formed.fits)
    obtain ⟨o, ho⟩ := OctantSet.isEmpty_eq_false_iff.mp
      (unreached.formed.full.solid t' (List.mem_of_getElem? ht'))
    exact absurd (unreached.within t' ht' o ho) List.not_mem_nil

/-! ### Clearing what leads nowhere -/

theorem Clean.progress_clear (h : s.Clean) (hl : s.layers[tier]? = some layer)
    (lives : Vertex → Bool)
    (alive : ∀ τ, s.Carries τ → ∀ w, ∀ v ∈ layer, v.Carries w (s.following? tier) τ →
      lives v = true) :
    s.Progress { s with layers := s.layers.set tier (layer.map fun v =>
      if lives v then v else { v with parts := v.parts.map Formula.clear }) } := by
  have formed := h.formed.layers layer (List.mem_of_getElem? hl)
  have branches : Layer.branches (layer.map fun v =>
      if lives v then v else { v with parts := v.parts.map Formula.clear }) = layer.branches := by
    simp only [Layer.branches, List.map_map]
    apply List.map_congr_left
    intro v _
    simp only [Function.comp_apply]
    split <;> rfl
  refine h.progress_set hl branches ?_ ?_ fun τ carries w _ v hv here => ⟨v, ?_, here⟩
  · intro v hv
    obtain ⟨u, hu, rfl⟩ := List.mem_map.mp hv
    split
    · exact formed.parts u hu
    · refine (formed.parts u hu).shrinks (List.forall₂_map_right_iff.mpr ?_)
      exact List.forall₂_same.mpr fun f _ => .clear f
  · intro v hv
    obtain ⟨u, hu, rfl⟩ := List.mem_map.mp hv
    have fresh := h.fresh layer (List.mem_of_getElem? hl) u hu
    split <;> exact fresh
  · exact List.mem_map.mpr ⟨v, hv, if_pos (alive τ carries w v hv here)⟩

theorem clearLeaves_attempts (h : s.Clean) (bound : tier + 1 < s.layers.length) :
    Attempts (s.clearLeaves tier) s.Progress fun _ => ∀ τ, ¬ s.Carries τ := by
  have bound' : tier < s.layers.length := by omega
  have hl := List.getElem?_eq_getElem bound'
  have hnext := List.getElem?_eq_getElem bound
  unfold clearLeaves
  apply Attempts.bind (Attempts.lift (layer_returns hl))
  intro l same
  subst same
  apply Attempts.bind (Attempts.lift (layer_returns hnext))
  intro l same
  subst same
  dsimp only
  split
  · exact Attempts.pure (.refl h)
  · have alive (τ) (carries : s.Carries τ) (w : Triple) (v : Vertex) (_ : v ∈ s.layers[tier])
        (here : v.Carries w (s.following? tier) τ) :
        (v.targets.any fun o => (Layer.vertex? s.layers[tier + 1] o).isSome) = true := by
      obtain ⟨t, -, hw⟩ := h.formed.exists_tier (Nat.lt_of_lt_of_le bound h.formed.fits)
      have following : s.following? tier = some t.triple := (if_pos bound).trans hw
      obtain ⟨u, hu, same, -⟩ := carries.holds hw hnext
      refine List.any_eq_true.mpr ⟨_, here.leads _ following, ?_⟩
      rw [← same, (h.formed.layers _ (List.mem_of_getElem? hnext)).vertex?_eq hu]
      rfl
    have cleared := h.progress_clear hl _ alive
    have clean := cleared.settles.resolve_right fun ⟨_, _, fewer⟩ =>
      Nat.not_succ_le_self _ (Nat.le_of_succ_le fewer)
    exact Attempts.mono (unifyLayer_attempts clean (cleared.length ▸ bound'))
      (fun s' => cleared.trans) fun _ => cleared.advances.not_carries

end HyperSystem

end TripletSat
