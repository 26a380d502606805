import TripletSat.Proofs.Hyper.Dormant

/-!
Ways down. When the layer after it has been built, a vertex without a live edge is cleared and removed
as a leaf, but nothing looks again at the layer before. So each vertex above the last layer has had a
target, and on the layer before the last the target is a vertex; further up it may have been a leaf.
-/

namespace TripletSat

/-- Structures without tiers have nothing in common. -/
theorem unifyGroup_cleared {group : List Formula} (some : group ≠ [])
    (cleared : ∀ f ∈ group, f.tiers = []) : Ensures (unifyGroup group) fun _ => False := by
  have shaped : ∀ f ∈ group, f.Shaped := fun f hf => .inl (cleared f hf)
  have clean : ∀ f ∈ group, f.Solid ∧ f.tiers.IsChain Tier.Linked := by
    intro f hf
    simp [Formula.Solid, cleared f hf]
  apply (unifyGroup_firm shaped clean).mono
  rintro unified ⟨remnants, firm⟩
  obtain ⟨f, hf⟩ := List.exists_mem_of_ne_nil _ some
  obtain ⟨g, hg, remnant⟩ := exists_of_forall₂ remnants hf
  have gone := (remnant.within (firm.tiered g hg)).2
  rw [cleared f hf] at gone
  exact firm.tiered g hg (List.forall₂_nil_left_iff.mp gone)

theorem PartsOf.ne_nil {others parts : List Formula} (h : PartsOf others parts) (some : others ≠ []) :
    parts ≠ [] := by
  rintro rfl
  exact some (List.forall₂_nil_right_iff.mp h)

namespace Vertex

variable {v v' : Vertex}

/-- Nothing is left of the parts. -/
def Cleared (v : Vertex) : Prop := v.parts ≠ [] ∧ ∀ f ∈ v.parts, f.tiers = []

/-- Some edge leads to a vertex of the layer. -/
def Lives (v : Vertex) (next : Layer) : Prop := ∃ o ∈ v.targets, o ∈ Layer.keys next

theorem targets_eq (h : v'.branch = v.branch) : v'.targets = v.targets := by
  rw [targets, targets, show v'.low = v.low from congrArg Branch.low h,
    show v'.high = v.high from congrArg Branch.high h]

theorem Lives.of_branch {next : Layer} (h : v.Lives next) (same : v'.branch = v.branch) :
    v'.Lives next := by
  rwa [Lives, targets_eq same]

theorem Cleared.not_firm (h : v.Cleared) : ¬ Firm v.parts := by
  intro firm
  obtain ⟨f, hf⟩ := List.exists_mem_of_ne_nil _ h.1
  exact firm.tiered f hf (h.2 f hf)

theorem mem_targets {o : Octant} : o ∈ v.targets ↔ .target o ∈ [v.low, v.high] := by
  rw [targets, List.mem_filterMap]
  constructor
  · rintro ⟨edge, member, found⟩
    cases edge with
    | target u => exact Option.some.inj found ▸ member
    | absent | empty => cases found
  · exact fun member => ⟨_, member, rfl⟩

theorem any_target_iff {next : Layer} :
    (v.targets.any fun o => (Layer.vertex? next o).isSome) = true ↔ v.Lives next := by
  rw [List.any_eq_true]
  refine exists_congr fun o => and_congr_right fun _ => ?_
  cases found : Layer.vertex? next o with
  | none => simpa using Layer.vertex?_none found
  | some u =>
    obtain ⟨hu, same⟩ := Layer.vertex?_some found
    simpa using Layer.mem_keys.mpr ⟨u, hu, same⟩

end Vertex

/-- Some edge leads to one of the vertices. -/
def HyperVertex.Lives (v : HyperVertex) (next : List HyperVertex) : Prop :=
  ∃ u ∈ next, .target u.octant ∈ v.edges

instance (v : HyperVertex) (next : List HyperVertex) : Decidable (v.Lives next) :=
  inferInstanceAs (Decidable (∃ u ∈ next, .target u.octant ∈ v.edges))

namespace HyperSystem

/-- Every vertex above the last tier has a live edge into the tier after its own. -/
def KeepsWays (s : HyperSystem) : Prop :=
  ∀ hs ∈ s.hyperStructures, ∀ pair ∈ hs.tiers.zip hs.tiers.tail, ∀ v ∈ pair.1, v.Lives pair.2

instance (s : HyperSystem) : Decidable s.KeepsWays :=
  inferInstanceAs (Decidable (∀ hs ∈ s.hyperStructures, ∀ pair ∈ hs.tiers.zip hs.tiers.tail,
    ∀ v ∈ pair.1, v.Lives pair.2))

/-- Every vertex above the last tier has had a target, and on the tier before the last it is there. -/
structure HadWays (s : HyperSystem) : Prop where
  target : ∀ hs ∈ s.hyperStructures, ∀ (i : Nat) vertices next, hs.tiers[i]? = some vertices →
    hs.tiers[i + 1]? = some next → ∀ v ∈ vertices, ∃ o, .target o ∈ v.edges
  lives : ∀ hs ∈ s.hyperStructures, ∀ (i : Nat) vertices next, i + 2 = hs.tiers.length →
    hs.tiers[i]? = some vertices → hs.tiers[i + 1]? = some next → ∀ v ∈ vertices, v.Lives next

variable {others : List Formula} {window : Nat → Option Triple} {check : Bool}
  {s s' s'' start : HyperSystem} {tier index k : Nat} {o : Octant} {layer : Layer}

/-- Work on a layer. Each vertex that stands has its branch from before, and what was cleared still
is; the other layers have the same octants. -/
structure Wears (s : HyperSystem) (tier : Nat) (s' : HyperSystem) : Prop where
  vertices : ∀ (i : Nat) layer', s'.layers[i]? = some layer' → ∃ layer, s.layers[i]? = some layer ∧
    ∀ v' ∈ layer', ∃ v ∈ layer, v'.branch = v.branch ∧ (v.Cleared → v'.Cleared)
  keys : ∀ i ≠ tier, s'.layers[i]?.map Layer.keys = s.layers[i]?.map Layer.keys

namespace Wears

theorem refl (s : HyperSystem) : s.Wears tier s :=
  ⟨fun _ layer hl => ⟨layer, hl, fun v hv => ⟨v, hv, rfl, id⟩⟩, fun _ _ => rfl⟩

theorem trans (h : s.Wears tier s') (h' : s'.Wears tier s'') : s.Wears tier s'' := by
  refine ⟨fun i layer'' hl'' => ?_, fun i other => (h'.keys i other).trans (h.keys i other)⟩
  obtain ⟨layer', hl', all'⟩ := h'.vertices i layer'' hl''
  obtain ⟨layer, hl, all⟩ := h.vertices i layer' hl'
  refine ⟨layer, hl, fun v'' hv'' => ?_⟩
  obtain ⟨v', hv', branch', cleared'⟩ := all' v'' hv''
  obtain ⟨v, hv, branch, cleared⟩ := all v' hv'
  exact ⟨v, hv, branch'.trans branch, cleared' ∘ cleared⟩

theorem set (hl : s.layers[tier]? = some layer) {layer' : Layer}
    (all : ∀ v' ∈ layer', ∃ v ∈ layer, v'.branch = v.branch ∧ (v.Cleared → v'.Cleared)) :
    s.Wears tier { s with layers := s.layers.set tier layer' } := by
  refine ⟨fun i l hi => ?_, fun i other => by rw [List.getElem?_set_ne (Ne.symm other)]⟩
  rcases getElem?_set_some hi with ⟨rfl, rfl⟩ | ⟨-, old⟩
  · exact ⟨layer, hl, all⟩
  · exact ⟨l, old, fun v hv => ⟨v, hv, rfl, id⟩⟩

end Wears

theorem Drops.wears (h : s.Drops tier o s') : s.Wears tier s' := by
  refine ⟨fun i layer' hl' => ?_, h.keys⟩
  obtain ⟨layer, hl, all⟩ := h.vertices i layer' hl'
  refine ⟨layer, hl, fun v' hv' => ?_⟩
  obtain ⟨-, v, hv, branch, parts, -⟩ := all v' hv'
  exact ⟨v, hv, branch, fun cleared => by rwa [Vertex.Cleared, parts]⟩

theorem unifyVertex_wears : Ensures (unifyVertex tier s o) (s.Wears tier) := by
  unfold unifyVertex
  split
  · exact .pure (.refl s)
  · apply Ensures.bind (.lift layer_ensures)
    intro layer hl
    split
    · exact .lift .fault
    · rename_i v found
      obtain ⟨hv, rfl⟩ := Layer.vertex?_some found
      have lasting : Ensures (unifyGroup v.parts) fun _ => ¬ v.Cleared := by
        by_cases cleared : v.Cleared
        · exact (unifyGroup_cleared cleared.1 cleared.2).mono fun _ => False.elim
        · exact Ensures.any.mono fun _ _ => cleared
      apply Ensures.bind (.lift lasting.look)
      intro r hr
      cases r with
      | error e => exact removeVertex_drops.mono fun _ => Drops.wears
      | ok parts =>
        refine .pure (.set hl fun u hu => ?_)
        obtain ⟨u, member, rfl⟩ := List.mem_map.mp hu
        split
        · exact ⟨v, hv, rfl, fun cleared => absurd cleared (hr parts rfl)⟩
        · exact ⟨u, member, rfl, id⟩

theorem unifyLayer_wears : Ensures (s.unifyLayer tier) (s.Wears tier) := by
  unfold unifyLayer
  apply Ensures.any.bind
  intro layer _
  exact Ensures.foldlM (fun _ s' => s.Wears tier s')
    (fun _ _ _ h => unifyVertex_wears.mono fun _ => h.trans) (.refl s)

theorem prune_wears : Ensures (s.prune tier) (s.Wears tier) := by
  unfold prune
  apply Ensures.any.bind
  intro t _
  refine Ensures.foldlM (fun _ s' => s.Wears tier s') ?_ (.refl s)
  intro o rest s' h
  unfold pruneOctant
  split
  · exact .pure h
  · apply Ensures.any.bind
    intro layer _
    split
    · exact .pure h
    · exact removeVertex_drops.mono fun _ drops => h.trans drops.wears

/-- A vertex that stands after leaves were cleared has a live edge, unless unification is
still to remove it. -/
theorem clearLeaves_lives
    (parts : ∀ layer, s.layers[tier]? = some layer → ∀ v ∈ layer, v.parts ≠ []) :
    Ensures (s.clearLeaves tier) fun s' => s.Wears tier s' ∧
      ∀ layer' next, s'.layers[tier]? = some layer' → s.layers[tier + 1]? = some next →
        ∀ v ∈ layer', v.Lives next ∨ v.Cleared := by
  unfold clearLeaves
  apply Ensures.bind (.lift layer_ensures)
  intro layer hl
  apply Ensures.bind (.lift layer_ensures)
  intro next hnext
  dsimp only
  split
  · rename_i all
    refine .pure ⟨.refl s, fun layer' next' hl' hnext' v hv => .inl ?_⟩
    obtain rfl := Option.some.inj (hl.symm.trans hl')
    obtain rfl := Option.some.inj (hnext.symm.trans hnext')
    exact Vertex.any_target_iff.mp (List.all_eq_true.mp all v hv)
  · refine unifyLayer_wears.mono fun s' wears => ⟨.trans (.set hl fun v hv => ?_) wears, ?_⟩
    · obtain ⟨u, hu, rfl⟩ := List.mem_map.mp hv
      refine ⟨u, hu, ?_⟩
      split
      · exact ⟨rfl, id⟩
      · exact ⟨rfl, fun cleared => ⟨by simpa using cleared.1, by simp [Formula.clear]⟩⟩
    · intro layer' next' hl' hnext' v' hv'
      obtain rfl := Option.some.inj (hnext.symm.trans hnext')
      obtain ⟨cleared, found, all⟩ := wears.vertices tier layer' hl'
      rcases getElem?_set_some found with ⟨-, rfl⟩ | ⟨other, -⟩
      · obtain ⟨v, hv, branch, lasts⟩ := all v' hv'
        obtain ⟨u, hu, rfl⟩ := List.mem_map.mp hv
        split at branch
        · rename_i lives
          exact .inl ((Vertex.any_target_iff.mp lives).of_branch branch)
        · rename_i leaf
          rw [if_neg leaf] at lasts
          exact .inr (lasts ⟨by simpa using parts layer hl u hu, by simp [Formula.clear]⟩)
      · exact absurd rfl other

theorem shiftLayer_below (bound : k ≤ s.layers.length) :
    Ensures (s.shiftLayer (k + 1)) fun s' => ∀ i < k, s'.layers[i]? = s.layers[i]? := by
  unfold shiftLayer
  iterate 4
    apply Ensures.any.bind
    intro _ _
  refine .pure fun i below => ?_
  rw [Nat.add_sub_cancel]
  exact (getElem?_take_append_pair bound _ _ i).trans (if_pos below)

/-- The vertices below a layer have their branches from before. -/
def Lasts (s : HyperSystem) (k : Nat) (s' : HyperSystem) : Prop :=
  ∀ i < k, ∀ layer', s'.layers[i]? = some layer' → ∃ layer, s.layers[i]? = some layer ∧
    ∀ v' ∈ layer', ∃ v ∈ layer, v'.branch = v.branch

theorem Wears.lasts (h : s.Wears tier s') (k : Nat) : s.Lasts k s' := by
  intro i _ layer' hl'
  obtain ⟨layer, hl, all⟩ := h.vertices i layer' hl'
  refine ⟨layer, hl, fun v' hv' => ?_⟩
  obtain ⟨v, hv, branch, -⟩ := all v' hv'
  exact ⟨v, hv, branch⟩

theorem Lasts.trans (h : s.Lasts k s') (h' : s'.Lasts k s'') : s.Lasts k s'' := by
  intro i below layer'' hl''
  obtain ⟨layer', hl', all'⟩ := h' i below layer'' hl''
  obtain ⟨layer, hl, all⟩ := h i below layer' hl'
  refine ⟨layer, hl, fun v'' hv'' => ?_⟩
  obtain ⟨v', hv', branch'⟩ := all' v'' hv''
  obtain ⟨v, hv, branch⟩ := all v' hv'
  exact ⟨v, hv, branch'.trans branch⟩

/-- After the new layer has been pruned and leaves were cleared, the vertices of the layer before
live, unless unification is still to remove them. -/
theorem trimmed_lives (clean : s.Clean) (length : s.layers.length = k + 1)
    (more : k + 1 < s.tierCount) (beside : s.others ≠ []) :
    Ensures (s.trimmed (k + 1)) fun s' => s.Lasts k s' ∧
      (s'.dirtyCount = 0 → ∀ layer next, s'.layers[k]? = some layer →
        s'.layers[k + 1]? = some next → ∀ v ∈ layer, v.Lives next ∨ v.Cleared) := by
  unfold trimmed
  apply Ensures.bind (.lift ((shiftLayer_returns clean length more).ensures.both
    (shiftLayer_below (by omega))))
  rintro shifted ⟨⟨advances, -, -, t, ht, reaching⟩, below⟩
  apply ((prune_attempts ht reaching).ensures.both prune_wears).bind
  rintro s₁ ⟨progress, pruned⟩
  rw [Nat.add_sub_cancel]
  have lasts : s.Lasts k s₁ := by
    have same : s.Lasts k shifted := fun i hi layer hl =>
      ⟨layer, below i hi ▸ hl, fun v hv => ⟨v, hv, rfl⟩⟩
    exact same.trans (pruned.lasts k)
  split
  · rename_i idle
    have clean₁ : s₁.Clean := progress.settles.resolve_right fun ⟨_, stale, _⟩ =>
      Nat.ne_of_gt stale.dirtyCount_pos idle
    have same : s₁.others = s.others := progress.advances.others.trans advances.others
    refine (clearLeaves_lives fun layer hl v hv => ?_).mono fun s' ⟨wears, lives⟩ =>
      ⟨lasts.trans (wears.lasts k), fun _ layer next hl hnext v hv => ?_⟩
    · exact PartsOf.ne_nil ((clean₁.formed.layers layer (List.mem_of_getElem? hl)).parts v hv)
        (same ▸ beside)
    · have keys := wears.keys (k + 1) (by omega)
      rw [hnext, Option.map_some] at keys
      obtain ⟨next₁, hnext₁, equal⟩ := Option.map_eq_some_iff.mp keys.symm
      refine (lives layer next₁ hl hnext₁ v hv).imp_left ?_
      rintro ⟨o, target, ho⟩
      exact ⟨o, target, equal ▸ ho⟩
  · rename_i dirty
    exact .pure ⟨lasts, fun idle => absurd idle dirty⟩

/-- The vertices of a layer all live in the layer after it. -/
def LivesAt (s : HyperSystem) (k : Nat) : Prop :=
  ∀ layer next, s.layers[k]? = some layer → s.layers[k + 1]? = some next →
    ∀ v ∈ layer, v.Lives next

theorem buildLayer_lives (h : Settled others window s) (above : Over others window s)
    (clean : s.Clean) (length : s.layers.length = k + 1) (more : k + 1 < s.tierCount)
    (beside : others ≠ []) :
    Ensures (s.buildLayer (k + 1)) fun s' => s.Lasts k s' ∧ (s'.dirtyCount = 0 → s'.LivesAt k) := by
  rw [buildLayer_eq]
  have trims := ((trimmed_attempts clean length more).ensures.both
    (trimmed_tended above clean length more h)).both
      (trimmed_lives clean length more (above.same ▸ beside))
  apply trims.bind
  rintro s₁ ⟨⟨⟨shifted, -, -, -, longer, progress⟩, settled⟩, lasts, lives⟩
  split
  · rename_i idle
    have clean₁ : s₁.Clean := progress.settles.resolve_right fun ⟨_, stale, _⟩ =>
      Nat.ne_of_gt stale.dirtyCount_pos idle
    have bound : k + 1 < s₁.layers.length := by
      have := progress.length
      omega
    have firm {i : Nat} {layer : Layer} (hl : s₁.layers[i]? = some layer) (v : Vertex)
        (hv : v ∈ layer) : Firm v.parts :=
      (settled.firm i layer hl v hv (clean₁.fresh layer (List.mem_of_getElem? hl) v hv)).resolve_right
        And.right
    have hl := List.getElem?_eq_getElem bound
    -- The new layer is unified already, so its vertices stay and the layer before still lives.
    have run := run_unifyLayer clean₁ hl (firm hl)
    constructor
    intro s' returned
    obtain rfl := Except.ok.inj (Except.ok.inj (run.symm.trans returned))
    refine ⟨lasts, fun _ layer next hl hnext v hv => ?_⟩
    exact (lives idle layer next hl hnext v hv).resolve_right fun cleared =>
      cleared.not_firm (firm hl v hv)
  · rename_i dirty
    exact .pure ⟨lasts, fun idle => absurd idle dirty⟩

/-- Of the first `n` layers the vertices of all but the last have a target. -/
def Descends (s : HyperSystem) (n : Nat) : Prop :=
  ∀ i, i + 1 < n → ∀ layer, s.layers[i]? = some layer → ∀ v ∈ layer, v.targets ≠ []

theorem Descends.lasts {n : Nat} (h : s.Descends n) (lasts : s.Lasts k s') (below : n ≤ k + 1) :
    s'.Descends n := by
  intro i inner layer' hl' v' hv'
  obtain ⟨layer, hl, all⟩ := lasts i (by omega) layer' hl'
  obtain ⟨v, hv, branch⟩ := all v' hv'
  rw [Vertex.targets_eq branch]
  exact h i inner layer hl v hv

theorem Descends.succ (h : s.Descends (k + 1)) (lives : s.LivesAt k) (length : k + 1 < s.layers.length) :
    s.Descends (k + 2) := by
  intro i inner layer hl v hv
  rcases Nat.lt_or_eq_of_le (show i ≤ k by omega) with below | rfl
  · exact h i (by omega) layer hl v hv
  · obtain ⟨o, target, -⟩ := lives layer _ hl (List.getElem?_eq_getElem length) v hv
    exact List.ne_nil_of_mem target

theorem Descends.truncate {start : Nat} (h : s.Descends start) : (s.truncate start).Descends start := by
  intro i inner layer' hl'
  obtain ⟨-, layer, hl, rfl⟩ := getElem?_truncate hl'
  rw [if_neg (by omega)]
  exact h i inner layer hl

theorem pass_descends {count : Nat} (h : Settled others window s) (above : Over others window s)
    (clean : s.Clean) (length : s.layers.length = k + 1) (more : k + 1 < s.tierCount)
    (beside : others ≠ []) (descends : s.Descends (k + 1)) :
    Ensures (pass check count (k + 1) s) fun p => p.2.Descends p.1 ∧
      (k + 1 < p.1 → ∀ j, j + 2 = p.1 → p.2.LivesAt j) := by
  unfold pass
  apply Ensures.report.bind
  intro _ _
  apply (Ensures.ofAttempt ((buildLayer_attempts clean length more).ensures.both
    (buildLayer_lives h above clean length more beside))).bind
  rintro s₁ ⟨⟨shifted, -, -, -, longer, progress⟩, lasts, lives⟩
  have descends₁ : s₁.Descends (k + 1) := descends.lasts lasts (Nat.le_refl _)
  have top : s₁.layers.length = k + 2 := by
    have := progress.length
    omega
  dsimp only
  rcases progress.settles with clean₁ | ⟨start, stale, -⟩
  · have live := lives clean₁.dirtyCount
    have answer : s₁.Descends (k + 2) ∧ (k + 1 < k + 2 → ∀ j, j + 2 = k + 2 → s₁.LivesAt j) := by
      refine ⟨descends₁.succ live (by omega), fun _ j same => ?_⟩
      obtain rfl : j = k := by omega
      exact live
    rw [if_pos clean₁.dirtyCount]
    split
    · exact Ensures.any.bind fun _ _ => .pure answer
    · exact .pure answer
  · have bound := stale.bound
    rw [if_neg (Nat.pos_iff_ne_zero.mp stale.dirtyCount_pos), stale.length_sub_dirtyCount]
    apply Ensures.report.bind
    intro _ _
    split
    · refine Ensures.any.bind fun s₂ _ => .pure ⟨fun i inner => ?_, fun longer => ?_⟩
      · exact absurd inner (by simp)
      · exact absurd longer (by simp)
    · refine .pure ⟨?_, fun longer => ?_⟩
      · have low : s₁.Descends start := fun i inner => descends₁ i (by omega)
        exact low.truncate
      · have : k + 1 < start := longer
        omega

theorem Underway.descends (underway : Underway check start index s) (above : Over others window start)
    (formed : start.Formed) (beside : others ≠ []) :
    s.Descends index ∧ (start.tierCount ≤ index → ∀ j, j + 2 = index → s.LivesAt j) := by
  induction underway with
  | seeded seeds =>
    refine ⟨fun i inner => absurd inner (by simp), fun _ j same => absurd same (by simp)⟩
  | @passed index next s s' before more passes ih =>
    obtain ⟨advances, clean, rfl, some⟩ := before.ready formed
    have room : s.layers.length < s.tierCount := advances.tierCount_eq clean.formed ▸ more
    obtain ⟨k, length⟩ : ∃ k, s.layers.length = k + 1 := ⟨s.layers.length - 1, by omega⟩
    have settled := before.settled above formed
    rw [length] at room passes ih
    obtain ⟨descends, lives⟩ := (pass_descends settled (above.advances advances) clean length room
      beside ih.1).of_canReturn passes
    exact ⟨descends, fun done => lives (by omega)⟩

theorem hadWays (descends : s.Descends s.layers.length) (clean : s.Clean)
    (lives : ∀ j, j + 2 = s.layers.length → s.LivesAt j) : s.HadWays := by
  have stands {hs : HyperStructure} (hhs : hs ∈ s.hyperStructures) {i : Nat}
      {vertices next : List HyperVertex} (hi : hs.tiers[i]? = some vertices)
      (hnext : hs.tiers[i + 1]? = some next) {v : HyperVertex} (hv : v ∈ vertices) :
      ∃ layer next', s.layers[i]? = some layer ∧ s.layers[i + 1]? = some next' ∧
        next.map HyperVertex.octant = next'.keys ∧
        ∃ u ∈ layer, ∀ o, o ∈ u.targets ↔ .target o ∈ v.edges := by
    obtain ⟨_, -, layer, hl, rfl⟩ := exists_layer hhs hi
    obtain ⟨_, other, next', hl', rfl⟩ := exists_layer hhs hnext
    obtain ⟨u, hu, -, -, edges, -⟩ := mem_column hv
    obtain ⟨bound, -⟩ := List.getElem?_eq_some_iff.mp other
    refine ⟨layer, next', hl, hl', map_octant_column
      (clean.formed.layers next' (List.mem_of_getElem? hl')) bound, u, hu, fun o => ?_⟩
    rw [Vertex.mem_targets, edges]
  constructor
  · intro hs hhs i vertices next hi hnext v hv
    obtain ⟨layer, next', hl, hl', -, u, hu, targets⟩ := stands hhs hi hnext hv
    obtain ⟨inner, -⟩ := List.getElem?_eq_some_iff.mp hl'
    obtain ⟨o, target⟩ := List.exists_mem_of_ne_nil _ (descends i inner layer hl u hu)
    exact ⟨o, (targets o).mp target⟩
  · intro hs hhs i vertices next last hi hnext v hv
    obtain ⟨layer, next', hl, hl', keys, u, hu, targets⟩ := stands hhs hi hnext hv
    obtain ⟨_, -, tiers⟩ := mem_hyperStructures hhs
    rw [tiers, List.length_map] at last
    obtain ⟨o, target, ho⟩ := lives i last layer next' hl hl' u hu
    rw [← keys] at ho
    obtain ⟨w, hw, rfl⟩ := List.mem_map.mp ho
    exact ⟨w, hw, (targets _).mp target⟩

/-- In every system that a construction ends in each vertex above the last tier has an edge to a
target, and each vertex of the tier before the last has a live one. -/
theorem ofStructures_hadWays {structures : List Formula} {check : Bool}
    (two : 2 ≤ structures.length) (windowed : ∀ f ∈ structures, f.Windowed)
    (solid : ∀ f ∈ structures, f.Solid)
    (same : ∀ f ∈ structures, ∀ g ∈ structures, f.permutation.sameVariables g.permutation = true) :
    ∃ r events, (ofStructures structures check).outcome = .ok (r, events) ∧
      ∀ s, r = .ok s → s.HadWays := by
  obtain ⟨i, basic, chosen, hbasic⟩ :=
    basicIndex?_some (List.ne_nil_of_length_pos (show 0 < structures.length by omega))
  have member := List.mem_of_getElem? hbasic
  obtain ⟨⟨r, events⟩, run, result⟩ :=
    (@ofStructures_concludes structures check two windowed solid same).outcome
  refine ⟨r, events, run, ?_⟩
  rintro s rfl
  have founded : s.Founded structures := result
  obtain ⟨n, done, underway⟩ :=
    (ofStructures_ensures chosen hbasic build_underway).of_canReturn ⟨[], events, run⟩
  have formed : (started structures i basic).Formed := formed_started hbasic windowed
    ⟨(solid basic member).not_isEmpty underway.tiers, solid basic member⟩ same
  have beside : structures.eraseIdx i ≠ [] := by
    obtain ⟨bound, -⟩ := List.getElem?_eq_some_iff.mp hbasic
    refine List.ne_nil_of_length_pos ?_
    rw [List.length_eraseIdx_of_lt bound]
    omega
  obtain ⟨descends, lives⟩ := underway.descends (over_started i basic windowed solid) formed beside
  rw [← (underway.ready formed).length] at descends lives done
  exact hadWays descends founded.clean fun j last => lives done j last

/-- Two orders of five variables. Over the first window of the first one, the vertex of three values
false leads on to the vertex of three values false only, and that one is a leaf. -/
def leaky : List Formula :=
  [.along (.ofNames [1, 2, 3, 4, 5]) [.full, .full, ⟨0x75⟩],
    .along (.ofNames [1, 4, 2, 5, 3]) [⟨0xF3⟩, ⟨0xFE⟩, .full]]

theorem windowed_leaky : ∀ f ∈ leaky, f.Windowed :=
  List.forall_mem_cons.mpr ⟨Formula.windowed_along (Nat.le_refl 3),
    List.forall_mem_singleton.mpr (Formula.windowed_along (Nat.le_refl 3))⟩

theorem solid_leaky : ∀ f ∈ leaky, f.Solid := by
  unfold Formula.Solid
  decide

theorem sameVariables_leaky :
    ∀ f ∈ leaky, ∀ g ∈ leaky, f.permutation.sameVariables g.permutation = true := by
  decide

theorem ofStructures_hadWays_leaky :
    2 ≤ leaky.length ∧ (∀ f ∈ leaky, f.Windowed) ∧ (∀ f ∈ leaky, f.Solid) ∧
      (∀ f ∈ leaky, ∀ g ∈ leaky, f.permutation.sameVariables g.permutation = true) ∧
      ∃ r events, (ofStructures leaky true).outcome = .ok (r, events) ∧
        ∀ s, r = .ok s → s.HadWays := by
  have two : 2 ≤ leaky.length := by decide
  exact ⟨two, windowed_leaky, solid_leaky, sameVariables_leaky,
    ofStructures_hadWays two windowed_leaky solid_leaky sameVariables_leaky⟩

/-- Further up a target may be missing: it was a leaf of its own tier, and nothing looked again at
the vertices before it. -/
theorem not_keepsWays :
    ¬ ∀ (structures : List Formula) (check : Bool), 2 ≤ structures.length →
      (∀ f ∈ structures, f.Windowed) → (∀ f ∈ structures, f.Solid) →
      (∀ f ∈ structures, f.cleaned = .ok f) →
      (∀ f ∈ structures, ∀ g ∈ structures, f.permutation.sameVariables g.permutation = true) →
        ∀ s events, (ofStructures structures check).outcome = .ok (.ok s, events) → s.KeepsWays := by
  intro claim
  have clean : ∀ f ∈ leaky, f.cleaned = .ok f := by
    simp only [leaky, List.forall_mem_cons]
    exact ⟨rfl, rfl, by simp⟩
  have ways := claim leaky true (by decide) windowed_leaky solid_leaky clean sameVariables_leaky
  have stranded : (ofStructures leaky true).outcome.map
      (fun r => r.1.toOption.map fun s => decide s.KeepsWays) = .ok (some false) := by
    rfl
  cases run : (ofStructures leaky true).outcome with
  | error e =>
    rw [run] at stranded
    cases stranded
  | ok r =>
    obtain ⟨answer, events⟩ := r
    cases answer with
    | error e =>
      rw [run] at stranded
      cases stranded
    | ok s =>
      rw [run] at stranded
      exact of_decide_eq_false (Option.some.inj (Except.ok.inj stranded)) (ways s events run)

end HyperSystem

end TripletSat
