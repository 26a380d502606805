import TripletSat.Proofs.Hyper.Invariant

/-!
Removals. An octant is taken out of a basic tier, and its vertex out of the layer over it, only
when no carried valuation takes it. If cleanup then restricts further tiers, the layers from the one
before the first of them on turn dirty.
-/

namespace TripletSat

namespace Layer

variable {others : List Formula} {layer : Layer} {o u : Octant}

theorem mem_keys_erase : u ∈ keys (layer.erase o) ↔ u ∈ keys layer ∧ u ≠ o := by
  simp only [mem_keys, Layer.erase, List.mem_filter, bne_iff_ne]
  constructor
  · rintro ⟨v, ⟨hv, away⟩, rfl⟩
    exact ⟨⟨v, hv, rfl⟩, away⟩
  · rintro ⟨⟨v, hv, rfl⟩, away⟩
    exact ⟨v, ⟨hv, away⟩, rfl⟩

theorem Formed.erase (h : layer.Formed others) (o : Octant) : (layer.erase o).Formed others :=
  ⟨h.ascending.sublist (List.filter_sublist.map _),
    fun v hv => h.parts v (List.mem_of_mem_filter hv),
    fun v hv => h.directed v (List.mem_of_mem_filter hv)⟩

theorem Bare.erase (h : layer.Bare) (o : Octant) : (layer.erase o).Bare :=
  fun v hv => h v (List.mem_of_mem_filter hv)

theorem Fresh.erase (h : layer.Fresh) (o : Octant) : (layer.erase o).Fresh :=
  fun v hv => h v (List.mem_of_mem_filter hv)

/-- The layer with every vertex dirty. -/
def soil (layer : Layer) : Layer := layer.map ({ · with dirty := true })

theorem branches_soil : branches (soil layer) = branches layer := by
  simp [soil, branches, Vertex.branch, Function.comp_def]

theorem Formed.soil (h : layer.Formed others) : (soil layer).Formed others :=
  h.of_branches branches_soil (List.forall_mem_map.mpr h.parts)

theorem isDirty_soil (h : layer ≠ []) : isDirty (soil layer) = true := by
  obtain ⟨v, hv⟩ := List.exists_mem_of_ne_nil _ h
  exact List.any_eq_true.mpr ⟨_, List.mem_map_of_mem hv, rfl⟩

end Layer

namespace HyperSystem

variable {s s' : HyperSystem} {tier : Nat} {o : Octant} {τ : Valuation}

/-- Vertices that stay where they are keep a valuation carried. -/
theorem Carries.of_layers (h : s.Carries τ) (basic : s'.basic.Admits τ)
    (permutation : s'.basic.permutation = s.basic.permutation) (others : s'.others = s.others)
    (length : s'.layers.length = s.layers.length)
    (kept : ∀ i w layer layer', s.window? i = some w → s.layers[i]? = some layer →
      s'.layers[i]? = some layer' → ∀ v ∈ layer, v.Carries w (s.following? i) τ →
        ∃ v' ∈ layer', v'.Carries w (s.following? i) τ) : s'.Carries τ := by
  have window (i : Nat) : s'.window? i = s.window? i := by
    rw [window?, permutation]
    rfl
  have following (i : Nat) : s'.following? i = s.following? i := by
    rw [following?, length, window]
    rfl
  refine ⟨basic, others ▸ h.others, ?_⟩
  intro i w layer' hw hl'
  rw [window] at hw
  obtain ⟨bound, -⟩ := List.getElem?_eq_some_iff.mp hl'
  have hl := List.getElem?_eq_getElem (length ▸ bound)
  obtain ⟨v, hv, carries⟩ := h.vertices i w _ hw hl
  rw [following]
  exact kept i w _ layer' hw hl hl' v hv carries

/-! ### Marking layers dirty -/

theorem getElem?_markDirty (s : HyperSystem) (start i : Nat) :
    (s.markDirty start).layers[i]? =
      s.layers[i]?.map fun layer => if start ≤ i then Layer.soil layer else layer := by
  simp only [markDirty, List.getElem?_map, List.getElem?_zipIdx, Option.map_map, Nat.zero_add]
  rfl

theorem length_markDirty (s : HyperSystem) (start : Nat) :
    (s.markDirty start).layers.length = s.layers.length := by
  simp [markDirty]

theorem Formed.markDirty (h : s.Formed) (start : Nat) : (s.markDirty start).Formed := by
  refine { h with layers := ?_, fits := (s.length_markDirty start).symm ▸ h.fits, bare := ?_ }
  · intro layer' hl'
    obtain ⟨i, hi⟩ := List.mem_iff_getElem?.mp hl'
    rw [getElem?_markDirty] at hi
    obtain ⟨layer, hl, rfl⟩ := Option.map_eq_some_iff.mp hi
    have formed := h.layers layer (List.mem_of_getElem? hl)
    split
    · exact formed.soil
    · exact formed
  · intro i layer' last hl'
    rw [length_markDirty] at last
    rw [getElem?_markDirty] at hl'
    obtain ⟨layer, hl, rfl⟩ := Option.map_eq_some_iff.mp hl'
    have bare := h.bare i layer last hl
    split
    · exact bare.of_branches Layer.branches_soil
    · exact bare

theorem Carries.markDirty (h : s.Carries τ) (start : Nat) : (s.markDirty start).Carries τ := by
  refine h.of_layers h.basic rfl rfl (s.length_markDirty start) ?_
  intro i w layer layer' hw hl hl' v hv carries
  rw [getElem?_markDirty, hl] at hl'
  obtain rfl := Option.some.inj hl'
  split
  · exact ⟨_, List.mem_map_of_mem hv, carries.octant, carries.parts, carries.leads⟩
  · exact ⟨v, hv, carries⟩

/-! ### Removing an octant and its vertex -/

/-- The system over another basic structure, without the vertex of an octant. -/
def erased (s : HyperSystem) (basic : Formula) (tier : Nat) (o : Octant) : HyperSystem :=
  { s with basic, layers := s.layers.modify tier (Layer.erase · o) }

theorem getElem?_erased {basic : Formula} (i : Nat) :
    (s.erased basic tier o).layers[i]? =
      s.layers[i]?.map fun layer => if tier = i then layer.erase o else layer :=
  List.getElem?_modify _ _ _ _

theorem Formed.erased {basic : Formula} (h : s.Formed) (shrinks : s.basic.ShrinksTo basic)
    (full : basic.Full) : (s.erased basic tier o).Formed := by
  have windowed := (shrinks.shaped (.inr h.windowed)).windowed full.nonempty
  have nonempty := Formula.tiers_ne_nil_of_not_isEmpty full.nonempty
  refine ⟨windowed, full, h.shaped, shrinks.1.symm ▸ h.known, ?_, ?_, ?_⟩
  · intro layer' hl'
    obtain ⟨i, hi⟩ := List.mem_iff_getElem?.mp hl'
    rw [getElem?_erased] at hi
    obtain ⟨layer, hl, rfl⟩ := Option.map_eq_some_iff.mp hi
    have formed := h.layers layer (List.mem_of_getElem? hl)
    split
    · exact formed.erase o
    · exact formed
  · have count := (shrinks.2.resolve_left nonempty).length_eq
    have fits := h.fits
    simp only [HyperSystem.erased, tierCount, Formula.tierCount, List.length_modify] at fits ⊢
    omega
  · intro i layer' last hl'
    simp only [HyperSystem.erased, List.length_modify] at last
    rw [getElem?_erased] at hl'
    obtain ⟨layer, hl, rfl⟩ := Option.map_eq_some_iff.mp hl'
    have bare := h.bare i layer last hl
    split
    · exact bare.erase o
    · exact bare

theorem Carries.erased {basic : Formula} (h : s.Carries τ) (shrinks : s.basic.ShrinksTo basic)
    (admits : basic.Admits τ) (away : ∀ w, s.window? tier = some w → τ.octant w ≠ o) :
    (s.erased basic tier o).Carries τ := by
  refine h.of_layers admits shrinks.1 rfl (List.length_modify _ _ _)
    fun i w layer layer' hw hl hl' v hv carries => ⟨v, ?_, carries⟩
  rw [getElem?_erased, hl] at hl'
  obtain rfl := Option.some.inj hl'
  split
  · rename_i here
    rw [← here] at hw
    refine List.mem_filter.mpr ⟨hv, bne_iff_ne.mpr ?_⟩
    rw [carries.octant]
    exact away w hw
  · exact hv

/-- Nothing but the octant went, and no flag changed. -/
structure Removed.Idle (s : HyperSystem) (tier : Nat) (o : Octant) (s' : HyperSystem) : Prop where
  fresh : (∀ layer ∈ s.layers, layer.Fresh) → ∀ layer ∈ s'.layers, layer.Fresh
  tiers : ∀ i t', s'.basic.tiers[i]? = some t' → ∃ t, s.basic.tiers[i]? = some t ∧
    ∀ u, u ∈ t'.octants ↔ u ∈ t.octants ∧ (i = tier → u ≠ o)

/-- More octants went than the one, none of them before a layer from which on all are dirty now. -/
structure Removed.Spreads (s : HyperSystem) (tier : Nat) (o : Octant) (start : Nat)
    (s' : HyperSystem) : Prop where
  bound : start ≤ tier
  fewer : ∀ t, s.basic.tiers[tier]? = some t → o ∈ t.octants →
    s'.basic.clauseCount + 2 ≤ s.basic.clauseCount
  before : ∀ i < start, s'.layers[i]? = s.layers[i]? ∧ s'.basic.tiers[i]? = s.basic.tiers[i]?
  dirty : ∀ i ≥ start, ∀ layer ∈ s'.layers[i]?, layer ≠ [] → layer.isDirty = true

/-- What a removal leaves. -/
structure Removed (s : HyperSystem) (tier : Nat) (o : Octant) (s' : HyperSystem) : Prop where
  formed : s'.Formed
  others : s'.others = s.others
  basic : s.basic.ShrinksTo s'.basic
  length : s'.layers.length = s.layers.length
  restarts : s'.restarts = s.restarts
  away : ∀ t, s'.basic.tiers[tier]? = some t → o ∉ t.octants
  keys : ∀ i layer layer', s.layers[i]? = some layer → s'.layers[i]? = some layer' →
    ∀ u, u ∈ Layer.keys layer' ↔ u ∈ Layer.keys layer ∧ (i = tier → u ≠ o)
  keeps : ∀ τ, s.Carries τ → (∀ w, s.window? tier = some w → τ.octant w ≠ o) → s'.Carries τ
  settles : Removed.Idle s tier o s' ∨ ∃ start, Removed.Spreads s tier o start s'

theorem keys_erased {basic : Formula} {i : Nat} {layer layer' : Layer}
    (hl : s.layers[i]? = some layer) (hl' : (s.erased basic tier o).layers[i]? = some layer')
    (u : Octant) : u ∈ Layer.keys layer' ↔ u ∈ Layer.keys layer ∧ (i = tier → u ≠ o) := by
  rw [getElem?_erased, hl] at hl'
  obtain rfl := Option.some.inj hl'
  split
  · rename_i here
    simp [Layer.mem_keys_erase, here]
  · rename_i other
    simp [Ne.symm other]

theorem fresh_erased {basic : Formula} (h : ∀ layer ∈ s.layers, layer.Fresh) :
    ∀ layer ∈ (s.erased basic tier o).layers, layer.Fresh :=
  forall_mem_modify h fun layer hl => (h layer (List.mem_of_getElem? hl)).erase o

/-- A basic structure that lost an octant of a tier, but no valuation that is carried past it. -/
structure Loses (s : HyperSystem) (tier : Nat) (o : Octant) (basic : Formula) : Prop where
  shrinks : s.basic.ShrinksTo basic
  full : basic.Full
  away : ∀ t, basic.tiers[tier]? = some t → o ∉ t.octants
  keeps : ∀ τ, s.Carries τ → (∀ w, s.window? tier = some w → τ.octant w ≠ o) → basic.Admits τ

theorem Loses.carries {basic : Formula} (h : s.Loses tier o basic) (hs : s.Carries τ)
    (apart : ∀ w, s.window? tier = some w → τ.octant w ≠ o) : (s.erased basic tier o).Carries τ :=
  hs.erased h.shrinks (h.keeps τ hs apart) apart

/-- With the octant alone gone, only its vertex goes. -/
theorem Loses.removed {basic : Formula} (h : s.Loses tier o basic) (formed : s.Formed)
    (tiers : ∀ i t', basic.tiers[i]? = some t' → ∃ t, s.basic.tiers[i]? = some t ∧
      ∀ u, u ∈ t'.octants ↔ u ∈ t.octants ∧ (i = tier → u ≠ o)) :
    Removed s tier o (s.erased basic tier o) where
  formed := formed.erased h.shrinks h.full
  others := rfl
  basic := h.shrinks
  length := List.length_modify _ _ _
  restarts := rfl
  away := h.away
  keys _ _ _ hl hl' := keys_erased hl hl'
  keeps _ hs apart := h.carries hs apart
  settles := .inl ⟨fresh_erased, tiers⟩

theorem getElem?_markDirty_erased {basic : Formula} {start i : Nat} (below : i < start)
    (low : start ≤ tier) :
    ((s.erased basic tier o).markDirty start).layers[i]? = s.layers[i]? := by
  rw [getElem?_markDirty, getElem?_erased, Option.map_map]
  refine (Option.map_congr ?_).trans Option.map_id'
  intro layer _
  simp only [Function.comp_apply]
  rw [if_neg (by omega), if_neg (by omega)]

/-- With more octants gone, the layers are dirty from the one before the first change on. -/
theorem Loses.removed_dirty {basic : Formula} {start : Nat} (h : s.Loses tier o basic)
    (formed : s.Formed) (low : start ≤ tier)
    (fewer : ∀ t, s.basic.tiers[tier]? = some t → o ∈ t.octants →
      basic.clauseCount + 2 ≤ s.basic.clauseCount)
    (before : ∀ i < start, basic.tiers[i]? = s.basic.tiers[i]?) :
    Removed s tier o ((s.erased basic tier o).markDirty start) where
  formed := (formed.erased h.shrinks h.full).markDirty start
  others := rfl
  basic := h.shrinks
  length := (length_markDirty _ _).trans (List.length_modify _ _ _)
  restarts := rfl
  away := h.away
  keys i layer layer' hl hl' u := by
    rw [getElem?_markDirty] at hl'
    obtain ⟨layer₁, hl₁, rfl⟩ := Option.map_eq_some_iff.mp hl'
    rw [← keys_erased hl hl₁ u]
    split
    · rw [Layer.keys_eq_of_branches Layer.branches_soil]
    · rfl
  keeps _ hs apart := (h.carries hs apart).markDirty start
  settles := by
    refine .inr ⟨start, low, fewer, fun i hi => ⟨getElem?_markDirty_erased hi low, before i hi⟩,
      fun i hi layer' hl' nonempty => ?_⟩
    rw [getElem?_markDirty] at hl'
    obtain ⟨layer, hl, rfl⟩ := Option.map_eq_some_iff.mp hl'
    rw [if_pos hi] at nonempty ⊢
    refine Layer.isDirty_soil fun none => nonempty ?_
    rw [none]
    rfl

theorem removeVertex_attempts (h : s.Formed) (bound : tier < s.layers.length) :
    Attempts (s.removeVertex tier o) (Removed s tier o)
      fun _ => ∀ τ, s.Carries τ → ∃ w, s.window? tier = some w ∧ τ.octant w = o := by
  obtain ⟨t, ht, hw⟩ := h.exists_tier (Nat.lt_of_lt_of_le bound h.fits)
  unfold removeVertex
  apply Attempts.bind (Attempts.lift (Formula.removeOctant_returns ht))
  intro f ⟨shrinks, here, same, keeps⟩
  apply Attempts.bind (Attempts.lift (Formula.cleanupAround_returns
    (shrinks.shaped (.inr h.windowed))))
  intro (basic, status) ⟨cleans, reports⟩
  -- Cleanup spares every solution, so a carried valuation is lost only with its own octant.
  have admits (τ) (carries : s.Carries τ) (away : τ.octant t.triple ≠ o) : basic.Admits τ :=
    cleans.keeps τ (keeps τ carries.basic away)
  dsimp only at reports ⊢
  split
  · rename_i empty
    refine Attempts.throw fun τ carries => ⟨t.triple, hw, ?_⟩
    by_contra away
    simp [(admits τ carries away).not_isEmpty] at empty
  · rename_i nonempty
    have full : basic.Full := ⟨eq_false_of_ne_true nonempty, cleans.solid⟩
    have some := Formula.tiers_ne_nil_of_not_isEmpty full.nonempty
    have loses : s.Loses tier o basic := by
      refine ⟨shrinks.trans cleans.shrinks, full, ?_,
        fun τ carries apart => admits τ carries (apart _ hw)⟩
      intro u hu member
      obtain ⟨v, hv, -, part⟩ := forall₂_getElem? (cleans.shrinks.2.resolve_left some) hu
      obtain rfl := Option.some.inj (here.symm.trans hv)
      exact (OctantSet.mem_erase.mp (part o member)).2 rfl
    unfold Formula.Reports at reports
    split
    · rename_i changed
      rw [if_pos changed] at reports
      obtain ⟨fewer, before⟩ := reports.resolve_left some
      refine Attempts.pure (loses.removed_dirty h (Nat.min_le_right _ _) ?_ ?_)
      · intro t' ht' present
        obtain rfl := Option.some.inj (ht.symm.trans ht')
        have changed : f ≠ s.basic := by
          rintro rfl
          have erased := congrArg (o ∈ ·.octants) (Option.some.inj (ht.symm.trans here))
          exact (OctantSet.mem_erase.mp (erased.mp present)).2 rfl
        have := shrinks.clauseCount_lt (List.ne_nil_of_mem (List.mem_of_getElem? here)) changed
        omega
      · intro i hi
        exact (before i (by omega)).trans (same i (by omega))
    · rename_i unchanged
      rw [if_neg unchanged] at reports
      subst reports
      refine Attempts.pure (loses.removed h ?_)
      intro i t' ht'
      by_cases position : i = tier
      · subst position
        obtain rfl := Option.some.inj (here.symm.trans ht')
        exact ⟨t, ht, fun u => by simp [OctantSet.mem_erase]⟩
      · exact ⟨t', (same i position).symm.trans ht', fun u => by simp [position]⟩

end HyperSystem

end TripletSat
