import TripletSat.Proofs.Hyper.Restarts
import TripletSat.Proofs.Hyper.Unions

/-!
Vertices through the construction. The parts of every vertex are pinned to its octant. They are firm
besides, unless the vertex is dirty or, with no dirty layer about, the loop that unifies its layer is
yet to come to it; so the vertices that a pass leaves standing are firm.
-/

namespace TripletSat

theorem getElem?_set_some {α : Type} {xs : List α} {i j : Nat} {x y : α}
    (h : (xs.set i x)[j]? = some y) : i = j ∧ y = x ∨ i ≠ j ∧ xs[j]? = some y := by
  rw [List.getElem?_set] at h
  split at h
  · rename_i same
    split at h
    · exact .inl ⟨same, (Option.some.inj h).symm⟩
    · cases h
  · rename_i other
    exact .inr ⟨other, h⟩

namespace HyperSystem

variable {others : List Formula} {window : Nat → Option Triple} {pending pending' : Nat → Octant → Prop}
  {s s' start : HyperSystem} {tier : Nat} {w : Triple} {o : Octant}

/-- Every vertex is pinned. It is firm, or dirty, or else no layer is dirty and it is pending. -/
structure Tended (others : List Formula) (window : Nat → Option Triple)
    (pending : Nat → Octant → Prop) (s : HyperSystem) : Prop where
  pinned : ∀ i layer w, s.layers[i]? = some layer → window i = some w → ∀ v ∈ layer,
    Pinned others w v.octant v.parts
  firm : ∀ i layer, s.layers[i]? = some layer → ∀ v ∈ layer, v.dirty = false →
    Firm v.parts ∨ (∀ l ∈ s.layers, l.Fresh) ∧ pending i v.octant

namespace Tended

theorem mono (h : Tended others window pending s)
    (weaker : ∀ i < s.layers.length, ∀ o, pending i o → pending' i o) :
    Tended others window pending' s := by
  refine ⟨h.pinned, fun i layer hl v hv clean => (h.firm i layer hl v hv clean).imp_right ?_⟩
  rintro ⟨fresh, waits⟩
  obtain ⟨bound, -⟩ := List.getElem?_eq_some_iff.mp hl
  exact ⟨fresh, weaker i bound _ waits⟩

theorem of_dirty (h : Tended others window pending s) (dirty : s.dirtyCount ≠ 0) :
    Tended others window pending' s := by
  refine ⟨h.pinned, fun i layer hl v hv clean => .inl ((h.firm i layer hl v hv clean).resolve_right ?_)⟩
  rintro ⟨fresh, -⟩
  exact dirty (dirtyCount_of_fresh fresh)

theorem set (h : Tended others window pending s) {layer : Layer}
    (fresh : (∀ l ∈ s.layers, l.Fresh) → layer.Fresh)
    (pinned : ∀ w, window tier = some w → ∀ v ∈ layer, Pinned others w v.octant v.parts)
    (firm : ∀ v ∈ layer, v.dirty = false →
      Firm v.parts ∨ (∀ l ∈ s.layers, l.Fresh) ∧ pending' tier v.octant)
    (weaker : ∀ i o, tier ≠ i → pending i o → pending' i o) :
    Tended others window pending' { s with layers := s.layers.set tier layer } := by
  have stays (all : ∀ l ∈ s.layers, l.Fresh) : ∀ l ∈ s.layers.set tier layer, l.Fresh := by
    rw [List.set_eq_modify]
    exact forall_mem_modify all fun _ _ => fresh all
  constructor
  · intro i l w hl hw v hv
    rcases getElem?_set_some hl with ⟨rfl, rfl⟩ | ⟨-, old⟩
    · exact pinned w hw v hv
    · exact h.pinned i l w old hw v hv
  · intro i l hl v hv clean
    rcases getElem?_set_some hl with ⟨rfl, rfl⟩ | ⟨other, old⟩
    · exact (firm v hv clean).imp_right fun ⟨all, waits⟩ => ⟨stays all, waits⟩
    · exact (h.firm i l old v hv clean).imp_right fun ⟨all, waits⟩ =>
        ⟨stays all, weaker i _ other waits⟩

end Tended

/-! ### Removals -/

/-- Vertices of an octant went, and either no vertex turned dirty or all did from the layer on. -/
structure Drops (s : HyperSystem) (tier : Nat) (o : Octant) (s' : HyperSystem) : Prop where
  vertices : ∀ (i : Nat) layer', s'.layers[i]? = some layer' → ∃ layer, s.layers[i]? = some layer ∧
    ∀ v' ∈ layer', (i = tier → v'.octant ≠ o) ∧ ∃ v ∈ layer, v'.branch = v.branch ∧
      v'.parts = v.parts ∧ (v'.dirty = false → v.dirty = false)
  keys : ∀ i ≠ tier, s'.layers[i]?.map Layer.keys = s.layers[i]?.map Layer.keys
  settles : ((∀ l ∈ s.layers, l.Fresh) → ∀ l ∈ s'.layers, l.Fresh) ∨
    ∀ (i : Nat) layer', tier ≤ i → s'.layers[i]? = some layer' → ∀ v ∈ layer', v.dirty = true

theorem drops_erased (basic : Formula) : s.Drops tier o (s.erased basic tier o) := by
  refine ⟨fun i layer' hl' => ?_, fun i other => ?_, .inl fresh_erased⟩
  · rw [getElem?_erased] at hl'
    obtain ⟨layer, hl, rfl⟩ := Option.map_eq_some_iff.mp hl'
    refine ⟨layer, hl, fun v hv => ?_⟩
    split at hv
    · obtain ⟨hv, away⟩ := List.mem_filter.mp hv
      exact ⟨fun _ => bne_iff_ne.mp away, v, hv, rfl, rfl, id⟩
    · rename_i other
      exact ⟨fun same => absurd same.symm other, v, hv, rfl, rfl, id⟩
  · simp only [getElem?_erased, if_neg (Ne.symm other), Option.map_id']

theorem Drops.markDirty (h : s.Drops tier o s') {start : Nat} (low : start ≤ tier) :
    s.Drops tier o (s'.markDirty start) := by
  refine ⟨fun i layer' hl' => ?_, fun i other => ?_, .inr fun i layer' above hl' => ?_⟩
  · rw [getElem?_markDirty] at hl'
    obtain ⟨layer₁, hl₁, rfl⟩ := Option.map_eq_some_iff.mp hl'
    obtain ⟨layer, hl, all⟩ := h.vertices i layer₁ hl₁
    refine ⟨layer, hl, ?_⟩
    split
    · refine List.forall_mem_map.mpr fun v hv => ?_
      obtain ⟨away, u, hu, branch, parts, -⟩ := all v hv
      exact ⟨away, u, hu, branch, parts, nofun⟩
    · exact all
  · rw [← h.keys i other, getElem?_markDirty, Option.map_map]
    refine Option.map_congr fun layer _ => ?_
    rw [Function.comp_apply]
    split
    · exact Layer.keys_eq_of_branches Layer.branches_soil
    · rfl
  · rw [getElem?_markDirty] at hl'
    obtain ⟨layer, -, rfl⟩ := Option.map_eq_some_iff.mp hl'
    rw [if_pos (Nat.le_trans low above)]
    exact List.forall_mem_map.mpr fun _ _ => rfl

theorem removeVertex_drops : Ensures (s.removeVertex tier o) (s.Drops tier o) := by
  unfold removeVertex
  apply Ensures.any.bind
  intro f _
  apply Ensures.any.bind
  intro (basic, status) _
  dsimp only
  split
  · exact .throw
  · split
    · exact .pure ((drops_erased basic).markDirty (Nat.min_le_right _ _))
    · exact .pure (drops_erased basic)

theorem Drops.tended (drops : s.Drops tier o s') (h : Tended others window pending s)
    (late : ∀ i o, pending i o → tier ≤ i)
    (left : ∀ i u, pending i u → (i = tier → u ≠ o) → pending' i u) :
    Tended others window pending' s' := by
  constructor
  · intro i layer' w hl' hw v' hv'
    obtain ⟨layer, hl, all⟩ := drops.vertices i layer' hl'
    obtain ⟨-, v, hv, branch, parts, -⟩ := all v' hv'
    rw [show v'.octant = v.octant from congrArg Branch.octant branch, parts]
    exact h.pinned i layer w hl hw v hv
  · intro i layer' hl' v' hv' clean
    obtain ⟨layer, hl, all⟩ := drops.vertices i layer' hl'
    obtain ⟨away, v, hv, branch, parts, kept⟩ := all v' hv'
    have octant : v'.octant = v.octant := congrArg Branch.octant branch
    rw [parts, octant]
    rw [octant] at away
    refine (h.firm i layer hl v hv (kept clean)).imp_right ?_
    rintro ⟨fresh, waits⟩
    rcases drops.settles with idle | dirty
    · exact ⟨idle fresh, left i _ waits away⟩
    · exact absurd (dirty i layer' (late i _ waits) hl' v' hv') (by simp [clean])

/-! ### The loops over a layer -/

theorem layer_ensures : Ensures (s.layer tier) fun layer => s.layers[tier]? = some layer := by
  unfold HyperSystem.layer
  split
  · rename_i found
    exact .pure found
  · exact .fault

/-- Nothing is pending. -/
abbrev Settled (others : List Formula) (window : Nat → Option Triple) (s : HyperSystem) : Prop :=
  Tended others window (fun _ _ => False) s

/-- On a layer the octants still to come are pending. -/
def Coming (tier : Nat) (rest : List Octant) (i : Nat) (o : Octant) : Prop :=
  i = tier ∧ o ∈ rest

theorem Coming.tail {rest : List Octant} {i : Nat} {u : Octant} (h : Coming tier (o :: rest) i u)
    (away : i = tier → u ≠ o) : Coming tier rest i u :=
  ⟨h.1, (List.mem_cons.mp h.2).resolve_left (away h.1)⟩

theorem unifyVertex_tended {rest : List Octant} (windowed : ∀ f ∈ others, f.Windowed)
    (hw : window tier = some w) (h : Tended others window (Coming tier (o :: rest)) s) :
    Ensures (unifyVertex tier s o) (Tended others window (Coming tier rest)) := by
  unfold unifyVertex
  split
  · rename_i dirty
    exact .pure (h.of_dirty (by omega))
  · apply Ensures.bind (.lift layer_ensures)
    intro layer hl
    split
    · exact .lift .fault
    · rename_i v found
      obtain ⟨hv, rfl⟩ := Layer.vertex?_some found
      have pinned := h.pinned tier layer w hl hw
      apply Ensures.bind (.lift ((pinned v hv).unifyGroup windowed).look)
      intro r hr
      cases r with
      | error e =>
        exact removeVertex_drops.mono fun s' drops =>
          drops.tended h (fun _ _ waits => waits.1.ge) fun _ _ => Coming.tail
      | ok parts =>
        obtain ⟨hparts, firm⟩ := hr parts rfl
        have freshLayer (all : ∀ l ∈ s.layers, l.Fresh) := all layer (List.mem_of_getElem? hl)
        refine .pure (h.set (fun all => ?_) (fun w' hw' => ?_) (fun u hu => ?_) ?_)
        · exact Layer.forall_mem_update (freshLayer all) (freshLayer all v hv)
        · obtain rfl := Option.some.inj (hw.symm.trans hw')
          exact Layer.forall_mem_update pinned hparts
        · obtain ⟨u, member, rfl⟩ := List.mem_map.mp hu
          split
          · exact fun _ => .inl firm
          · rename_i other
            intro clean
            exact (h.firm tier layer hl u member clean).imp_right fun ⟨all, waits⟩ =>
              ⟨all, waits.tail fun _ => other⟩
        · exact fun i u other waits => waits.tail fun same => absurd same.symm other

theorem unifyLayer_tended (windowed : ∀ f ∈ others, f.Windowed) (hw : window tier = some w)
    (h : Tended others window (fun i _ => i = tier) s) :
    Ensures (s.unifyLayer tier) (Settled others window) := by
  unfold unifyLayer
  apply Ensures.bind (.lift layer_ensures)
  intro layer hl
  have ahead : Tended others window (Coming tier (Layer.keys layer)) s := by
    refine ⟨h.pinned, fun i l hi v hv clean => (h.firm i l hi v hv clean).imp_right ?_⟩
    rintro ⟨fresh, rfl⟩
    obtain rfl := Option.some.inj (hl.symm.trans hi)
    exact ⟨fresh, rfl, Layer.mem_keys.mpr ⟨v, hv, rfl⟩⟩
  refine (Ensures.foldlM (fun rest s => Tended others window (Coming tier rest) s)
    (fun o rest s => unifyVertex_tended windowed hw) ahead).mono fun s' done => done.mono ?_
  exact fun _ _ _ waits => List.not_mem_nil waits.2

theorem prune_tended (h : Settled others window s) :
    Ensures (s.prune tier) (Settled others window) := by
  unfold prune
  apply Ensures.any.bind
  intro t _
  refine Ensures.foldlM (fun _ s => Settled others window s) ?_ h
  intro o rest s h
  unfold pruneOctant
  split
  · exact .pure h
  · apply Ensures.any.bind
    intro layer _
    split
    · exact .pure h
    · exact removeVertex_drops.mono fun s' drops =>
        drops.tended h (fun _ _ => False.elim) fun _ _ none _ => none

theorem clearLeaves_tended (windowed : ∀ f ∈ others, f.Windowed) (hw : window tier = some w)
    (fresh : ∀ l ∈ s.layers, l.Fresh) (h : Settled others window s) :
    Ensures (s.clearLeaves tier) (Settled others window) := by
  unfold clearLeaves
  apply Ensures.bind (.lift layer_ensures)
  intro layer hl
  apply Ensures.any.bind
  intro next _
  dsimp only
  split
  · exact .pure h
  · refine unifyLayer_tended windowed hw (h.set (fun all => ?_) (fun w' hw' => ?_) ?_ ?_)
    · refine List.forall_mem_map.mpr fun v hv => ?_
      have clean := all layer (List.mem_of_getElem? hl) v hv
      split <;> exact clean
    · refine List.forall_mem_map.mpr fun v hv => ?_
      have pinned := h.pinned tier layer w' hl hw' v hv
      split
      · exact pinned
      · exact pinned.clear
    · exact fun v _ _ => .inr ⟨fresh, rfl⟩
    · exact fun _ _ _ => False.elim

/-! ### A layer more -/

/-- A system with these windows under its layers and these other structures. -/
structure Over (others : List Formula) (window : Nat → Option Triple) (s : HyperSystem) : Prop where
  same : s.others = others
  windows : s.window? = window
  windowed : ∀ f ∈ others, f.Windowed
  solid : ∀ f ∈ others, f.Solid

theorem Over.advances (h : Over others window s) (advances : s.Advances s') : Over others window s' := by
  refine ⟨advances.others.trans h.same, ?_, h.windowed, h.solid⟩
  rw [← h.windows]
  funext i
  rw [window?, window?, advances.basic.1]

theorem Over.hosts (h : Over others window s) (formed : s.Formed) {i : Nat} {t : Tier}
    (ht : s.basic.tiers[i]? = some t) : Hosts others t.triple := by
  refine ⟨h.windowed, fun f hf v hv => formed.known f (h.same ▸ hf) v ?_⟩
  exact Permutation.mem_names_of_mem_windows (formed.windowed.triple_mem (List.mem_of_getElem? ht)) hv

theorem Over.window_eq (h : Over others window s) (formed : s.Formed) {i : Nat} {t : Tier}
    (ht : s.basic.tiers[i]? = some t) : window i = some t.triple :=
  h.windows ▸ formed.window?_eq ht

/-- Layers of pinned vertices are remnants for whatever is filtered through them. -/
theorem Tended.remnants (h : Tended others window pending s) (above : Over others window s)
    (formed : s.Formed) : ∀ layer ∈ s.layers, ∀ v ∈ layer, Remnants others v.parts := by
  intro layer member v hv
  obtain ⟨i, hl⟩ := List.mem_iff_getElem?.mp member
  obtain ⟨bound, -⟩ := List.getElem?_eq_some_iff.mp hl
  obtain ⟨t, ht, -⟩ := formed.exists_tier (Nat.lt_of_lt_of_le bound formed.fits)
  exact (h.pinned i layer _ hl (above.window_eq formed ht) v hv).remnants

theorem Settled.shifted {k : Nat} {u : Tier} {source : Layer}
    {pairs : List (Vertex × List (Octant × List Formula))} {layer : Layer}
    (h : Settled others window s) (bound : k ≤ s.layers.length)
    (hl : s.layers[k]? = some source) (there : window (k + 1) = some u.triple)
    (shifts : List.Forall₂ (fun (v : Vertex) (r : Vertex × List (Octant × List Formula)) =>
      (r.1.octant = v.octant ∧ r.1.parts = v.parts ∧ r.1.dirty = v.dirty) ∧
        ∀ a ∈ r.2, Pinned others u.triple a.1 a.2 ∧ Firm a.2) source pairs)
    (arrived : ∀ v ∈ layer, Pinned others u.triple v.octant v.parts ∧ Firm v.parts) :
    Settled others window (s.shifted k (edged pairs) layer) := by
  -- Vertices of the source layer have new edges and nothing else.
  have moved : ∀ v ∈ edged pairs, ∃ v₀ ∈ source, v.octant = v₀.octant ∧ v.parts = v₀.parts ∧
      v.dirty = v₀.dirty :=
    List.forall_mem_map.mpr (forall_mem_of_forall₂ shifts fun v hv r shift => ⟨v, hv, shift.1⟩)
  constructor
  · intro i l w hi hw v hv
    rw [getElem?_shifted bound] at hi
    split at hi
    · exact h.pinned i l w hi hw v hv
    · split at hi
      · rename_i last
        subst last
        obtain rfl := Option.some.inj hi
        obtain ⟨v₀, hv₀, octant, parts, -⟩ := moved v hv
        rw [octant, parts]
        exact h.pinned i source w hl hw v₀ hv₀
      · split at hi
        · rename_i next
          subst next
          obtain rfl := Option.some.inj hi
          obtain rfl := Option.some.inj (there.symm.trans hw)
          exact (arrived v hv).1
        · cases hi
  · intro i l hi v hv clean
    rw [getElem?_shifted bound] at hi
    split at hi
    · exact .inl ((h.firm i l hi v hv clean).resolve_right And.right)
    · split at hi
      · obtain rfl := Option.some.inj hi
        obtain ⟨v₀, hv₀, -, parts, dirty⟩ := moved v hv
        rw [parts]
        exact .inl ((h.firm k source hl v₀ hv₀ (dirty ▸ clean)).resolve_right And.right)
      · split at hi
        · obtain rfl := Option.some.inj hi
          exact .inl (arrived v hv).2
        · cases hi

theorem shiftLayer_tended {k : Nat} (above : Over others window s) (clean : s.Clean)
    (length : s.layers.length = k + 1) (more : k + 1 < s.tierCount) (h : Settled others window s) :
    Ensures (s.shiftLayer (k + 1)) (Settled others window) := by
  obtain ⟨t, ht, -⟩ := clean.formed.exists_tier (show k < s.tierCount by omega)
  obtain ⟨u, hu, -⟩ := clean.formed.exists_tier more
  have hl := List.getElem?_eq_getElem (show k < s.layers.length by omega)
  have hosts := above.hosts clean.formed hu
  have there := above.window_eq clean.formed hu
  have precedes : t.triple.Precedes u.triple := Permutation.precedes_of_windows
    (clean.formed.window?_eq ht) (clean.formed.window?_eq hu)
  have remnants : ∀ layer ∈ s.layers.take k, ∀ v ∈ layer, Remnants others v.parts :=
    fun layer member => h.remnants above clean.formed layer (List.mem_of_mem_take member)
  unfold shiftLayer
  apply (Formula.tier_returns hu).ensures.bind
  intro _ same
  subst same
  rw [Nat.add_sub_cancel]
  apply (layer_returns hl).ensures.bind
  intro _ same
  subst same
  dsimp only
  have pinned := h.pinned k _ _ hl (above.window_eq clean.formed ht)
  apply (Ensures.mapM fun v hv => Vertex.shiftEdges_pinned (pinned v hv) precedes hosts remnants).bind
  intro pairs shifts
  have arriving : ∀ pair ∈ pairs, ∀ a ∈ pair.2, Pinned others u.triple a.1 a.2 ∧ Firm a.2 :=
    forall_mem_of_forall₂ shifts fun _ _ _ shift => shift.2
  have start : ∀ a ∈ pairs.flatMap Prod.snd, Pinned others u.triple a.1 a.2 ∧ Firm a.2 := by
    intro a ha
    obtain ⟨pair, hpair, ha⟩ := List.mem_flatMap.mp ha
    exact arriving pair hpair a ha
  apply (Ensures.foldlM (fun rest layer =>
    (∀ a ∈ rest, Pinned others u.triple a.1 a.2 ∧ Firm a.2) ∧
      Layer.Fresh layer ∧ ∀ v ∈ layer, Pinned others u.triple v.octant v.parts ∧ Firm v.parts) ?_
    ⟨start, by simp [Layer.Fresh], by simp⟩).bind
  · rintro layer ⟨-, -, arrived⟩
    exact .pure (h.shifted (by omega) hl there shifts arrived)
  · rintro arrival rest layer ⟨coming, fresh, arrived⟩
    obtain ⟨head, coming⟩ := List.forall_mem_cons.mp coming
    exact (Layer.arrive_ensures
      (P := fun o parts => Pinned others u.triple o parts ∧ Firm parts)
      (fun _ _ _ => Pinned.union_firm hosts) fresh arrived head).mono fun layer' h => ⟨coming, h⟩

theorem trimmed_tended {k : Nat} (above : Over others window s) (clean : s.Clean)
    (length : s.layers.length = k + 1) (more : k + 1 < s.tierCount) (h : Settled others window s) :
    Ensures (s.trimmed (k + 1)) (Settled others window) := by
  obtain ⟨t, ht, -⟩ := clean.formed.exists_tier (show k < s.tierCount by omega)
  unfold trimmed
  apply Ensures.bind (.lift ((shiftLayer_returns clean length more).ensures.both
    (shiftLayer_tended above clean length more h)))
  rintro shifted ⟨⟨-, -, -, v, hv, reaching⟩, h₀⟩
  apply ((prune_attempts hv reaching).ensures.both (prune_tended h₀)).bind
  rintro s₁ ⟨progress, h₁⟩
  rw [Nat.add_sub_cancel]
  rcases progress.settles with clean₁ | ⟨_, stale, -⟩
  · rw [if_pos clean₁.dirtyCount]
    exact clearLeaves_tended above.windowed (above.window_eq clean.formed ht) clean₁.fresh h₁
  · rw [if_neg (Nat.pos_iff_ne_zero.mp stale.dirtyCount_pos)]
    exact .pure h₁

theorem buildLayer_tended {k : Nat} (above : Over others window s) (clean : s.Clean)
    (length : s.layers.length = k + 1) (more : k + 1 < s.tierCount) (h : Settled others window s) :
    Ensures (s.buildLayer (k + 1)) (Settled others window) := by
  obtain ⟨u, hu, -⟩ := clean.formed.exists_tier more
  rw [buildLayer_eq]
  apply (trimmed_tended above clean length more h).bind
  intro s₁ h₁
  split
  · exact unifyLayer_tended above.windowed (above.window_eq clean.formed hu)
      (h₁.mono fun _ _ _ => False.elim)
  · exact .pure h₁

/-! ### The first layer and the way back to it -/

theorem Over.pinned (above : Over others window s) (formed : s.Formed) {t : Tier}
    (ht : s.basic.tiers[0]? = some t) {parts : List Formula}
    (h : List.Forall₂ (Concretizes t.triple o) s.others parts) : Pinned others t.triple o parts := by
  have hosts := above.hosts formed ht
  rw [above.same] at h
  refine ((List.forall₂_and_left _ _).mpr ⟨fun _ => id, h⟩).imp fun f g ⟨hf, concretizes⟩ => ?_
  exact (Formula.concretizeOctant_remnant (.inr (hosts.windowed f hf)) (above.solid f hf)
    (hosts.known f hf)).of_eq concretizes.result

theorem seedRounds_tended {limit fuel : Nat} (above : Over others window s) (formed : s.Formed) :
    Ensures (seedRounds limit fuel s) (Settled others window) := by
  induction fuel generalizing s with
  | zero => exact .liftLogged .fault
  | succ fuel ih =>
    unfold seedRounds
    apply (Ensures.liftLogged (firstLayer_returns formed).ensures).bind
    rintro layer ⟨t, ht, hlayer, fresh, bare, keys, concretizes, holds⟩
    obtain ⟨clean, advances⟩ := seeded formed ht hlayer fresh bare keys holds
    have here := above.window_eq formed ht
    have tended : Tended others window (fun i _ => i = 0) { s with layers := [layer] } := by
      refine ⟨fun i l w hl hw v hv => ?_, fun i l hl v hv _ => ?_⟩
      · obtain ⟨rfl, rfl⟩ := eq_of_getElem?_singleton hl
        obtain rfl := Option.some.inj (here.symm.trans hw)
        exact above.pinned formed ht (concretizes v hv)
      · exact .inr ⟨clean.fresh, (eq_of_getElem?_singleton hl).1⟩
    apply (Ensures.ofAttempt ((unifyLayer_attempts clean (Nat.lt_succ_self 0)).ensures.both
      (unifyLayer_tended above.windowed here tended))).bind
    rintro s' ⟨progress, h'⟩
    split
    · exact .pure h'
    · have onward := advances.trans progress.advances
      have formed' : s'.Formed := by
        obtain clean' | ⟨_, stale, _⟩ := progress.settles
        · exact clean'.formed
        · exact stale.formed
      exact Ensures.report.bind fun _ _ => ih (above.advances onward) formed'

theorem Settled.truncate {start : Nat} (h : Settled others window s) :
    Settled others window (s.truncate start) := by
  have stays {i : Nat} {l : Layer} (hl : (s.truncate start).layers[i]? = some l) :
      ∃ layer, s.layers[i]? = some layer ∧ ∀ v ∈ l, ∃ u ∈ layer, v.octant = u.octant ∧
        v.parts = u.parts ∧ v.dirty = u.dirty := by
    obtain ⟨-, layer, old, rfl⟩ := getElem?_truncate hl
    refine ⟨layer, old, ?_⟩
    split
    · exact List.forall_mem_map.mpr fun v hv => ⟨v, hv, rfl, rfl, rfl⟩
    · exact fun v hv => ⟨v, hv, rfl, rfl, rfl⟩
  constructor
  · intro i l w hl hw v hv
    obtain ⟨layer, old, all⟩ := stays hl
    obtain ⟨u, hu, octant, parts, -⟩ := all v hv
    rw [octant, parts]
    exact h.pinned i layer w old hw u hu
  · intro i l hl v hv clean
    obtain ⟨layer, old, all⟩ := stays hl
    obtain ⟨u, hu, -, parts, dirty⟩ := all v hv
    rw [parts]
    exact .inl ((h.firm i layer old u hu (dirty ▸ clean)).resolve_right And.right)

theorem Settled.recount (h : Settled others window s) (rebuilds reseeds : Nat) :
    Settled others window { s with rebuilds, reseeds } :=
  ⟨h.pinned, h.firm⟩

theorem pass_tended {check : Bool} {count : Nat} (above : Over others window s) (clean : s.Clean)
    (some : 1 ≤ s.layers.length) (more : s.layers.length < s.tierCount) (h : Settled others window s) :
    Ensures (pass check count s.layers.length s) fun p => Settled others window p.2 := by
  obtain ⟨k, length⟩ : ∃ k, s.layers.length = k + 1 := ⟨s.layers.length - 1, by omega⟩
  unfold pass
  apply Ensures.report.bind
  intro _ _
  rw [length] at more ⊢
  apply (Ensures.ofAttempt ((buildLayer_attempts clean length more).ensures.both
    (buildLayer_tended above clean length more h))).bind
  rintro s₁ ⟨⟨shifted, shifts, -, -, -, progress⟩, h₁⟩
  have advances := shifts.trans progress.advances
  dsimp only
  rcases progress.settles with clean₁ | ⟨start, stale, -⟩
  · rw [if_pos clean₁.dirtyCount]
    split
    · exact Ensures.any.bind fun _ _ => .pure h₁
    · exact .pure h₁
  · rw [if_neg (Nat.pos_iff_ne_zero.mp stale.dirtyCount_pos), stale.length_sub_dirtyCount]
    apply Ensures.report.bind
    intro _ _
    split
    · rename_i none
      subst none
      obtain ⟨clean₁, restart⟩ :=
        stale.restart (s₁.truncate 0).rebuilds ((s₁.truncate 0).reseeds + 1)
      exact (seedRounds_tended (above.advances (advances.trans restart)) clean₁.formed).bind
        fun s₂ h₂ => .pure h₂
    · exact .pure (h₁.truncate.recount _ _)

end HyperSystem

end TripletSat
