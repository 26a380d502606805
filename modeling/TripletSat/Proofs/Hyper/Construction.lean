import TripletSat.Proofs.Hyper.Pruning

/-!
Construction of hyper-structure systems. Every round either adds a clean layer or takes octants out
of the basic structure and cuts the layers back, so the construction ends; whatever is carried at
its start is carried by the system it ends in, and it fails only if nothing is.
-/

namespace TripletSat

namespace HyperSystem

variable {s s' : HyperSystem} {τ : Valuation} {k : Nat}

/-! ### Shifting the last layer -/

theorem getElem?_take_append_pair {α : Type} {xs : List α} (bound : k ≤ xs.length) (x y : α)
    (i : Nat) : (xs.take k ++ [x, y])[i]? =
      if i < k then xs[i]? else if i = k then some x else if i = k + 1 then some y else none := by
  have length : (xs.take k).length = k := by
    rw [List.length_take]
    omega
  by_cases below : i < k
  · rw [if_pos below, List.getElem?_append_left (by omega), List.getElem?_take_of_lt below]
  · rw [if_neg below, List.getElem?_append_right (by omega), length]
    by_cases first : i = k
    · simp [first]
    · by_cases second : i = k + 1
      · simp [second]
      · rw [if_neg first, if_neg second]
        exact List.getElem?_eq_none (by simp; omega)

theorem eq_of_getElem?_singleton {α : Type} {x y : α} {i : Nat} (h : [x][i]? = some y) :
    i = 0 ∧ y = x := by
  obtain ⟨bound, same⟩ := List.getElem?_eq_some_iff.mp h
  obtain rfl : i = 0 := by simpa using bound
  exact ⟨rfl, same.symm⟩

/-- The vertices of a layer once their edges are known. -/
def edged (pairs : List (Vertex × List (Octant × List Formula))) : Layer := pairs.map Prod.fst

theorem keys_edged {others : List Formula} {earlier : List Layer} {next : Tier} {layer : Layer}
    {pairs : List (Vertex × List (Octant × List Formula))}
    (h : List.Forall₂ (Vertex.ShiftsTo others earlier next) layer pairs) :
    Layer.keys (edged pairs) = Layer.keys layer := by
  induction h with
  | nil => rfl
  | cons head _ ih => exact List.cons_eq_cons.mpr ⟨head.octant, ih⟩

theorem formed_edged {others : List Formula} {earlier : List Layer} {next : Tier} {layer : Layer}
    {pairs : List (Vertex × List (Octant × List Formula))}
    (h : List.Forall₂ (Vertex.ShiftsTo others earlier next) layer pairs)
    (formed : layer.Formed others) : (edged pairs).Formed others := by
  refine ⟨keys_edged h ▸ formed.ascending, List.forall_mem_map.mpr ?_, List.forall_mem_map.mpr ?_⟩
  · exact forall_mem_of_forall₂ h fun v hv pair shifts => shifts.parts ▸ formed.parts v hv
  · exact forall_mem_of_forall₂ h fun _ _ _ shifts => shifts.directed

theorem fresh_edged {others : List Formula} {earlier : List Layer} {next : Tier} {layer : Layer}
    {pairs : List (Vertex × List (Octant × List Formula))}
    (h : List.Forall₂ (Vertex.ShiftsTo others earlier next) layer pairs)
    (fresh : layer.Fresh) : (edged pairs).Fresh :=
  List.forall_mem_map.mpr (forall_mem_of_forall₂ h fun v hv _ shifts =>
    shifts.dirty.trans (fresh v hv))

/-- The system with two layers in the place of the one at `k` and all later ones. -/
def shifted (s : HyperSystem) (k : Nat) (source layer : Layer) : HyperSystem :=
  { s with layers := s.layers.take k ++ [source, layer] }

theorem getElem?_shifted (bound : k ≤ s.layers.length) (source layer : Layer) (i : Nat) :
    (s.shifted k source layer).layers[i]? =
      if i < k then s.layers[i]? else if i = k then some source
      else if i = k + 1 then some layer else none :=
  getElem?_take_append_pair bound source layer i

theorem length_shifted (bound : k ≤ s.layers.length) (source layer : Layer) :
    (s.shifted k source layer).layers.length = k + 2 := by
  simp only [shifted, List.length_append, List.length_take, List.length_cons, List.length_nil]
  omega

theorem forall_mem_shifted {P : Layer → Prop} {source layer : Layer}
    (old : ∀ l ∈ s.layers, P l) (first : P source) (second : P layer) :
    ∀ l ∈ (s.shifted k source layer).layers, P l := by
  intro l hl
  rcases List.mem_append.mp hl with before | last
  · exact old l (List.mem_of_mem_take before)
  · simp only [List.mem_cons, List.not_mem_nil, or_false] at last
    rcases last with rfl | rfl
    · exact first
    · exact second

/-- A clean system is shifted to one whose new layer still has to be pruned. -/
theorem Clean.reaching_shifted {source source' layer : Layer} {u : Tier} (h : s.Clean)
    (length : s.layers.length = k + 1) (more : k + 1 < s.tierCount)
    (hl : s.layers[k]? = some source) (hu : s.basic.tiers[k + 1]? = some u)
    (keys : Layer.keys source' = Layer.keys source)
    (hsource : source'.Formed s.others ∧ source'.Fresh)
    (hlayer : layer.Formed s.others ∧ layer.Fresh ∧ layer.Bare) (within : ∀ o ∈ Layer.keys layer, o ∈ u.octants) :
    (s.shifted k source' layer).Reaching (k + 1) u.octants.toList := by
  have bound : k ≤ s.layers.length := by omega
  have top := length_shifted bound source' layer
  have formed : (s.shifted k source' layer).Formed :=
    { h.formed with
      layers := forall_mem_shifted h.formed.layers hsource.1 hlayer.1
      fits := top.trans_le more
      bare := by
        intro i l last hl'
        rw [getElem?_shifted bound, if_neg (by omega), if_neg (by omega), if_pos (by omega)] at hl'
        exact Option.some.inj hl' ▸ hlayer.2.2 }
  refine ⟨formed, top, forall_mem_shifted h.fresh hsource.2 hlayer.2.1, ?_, ⟨?_, ?_⟩, ?_⟩
  · intro i hi l t hi' ht o
    rw [getElem?_shifted bound] at hi'
    split at hi'
    · exact h.mirrors i l t hi' ht o
    · rw [if_pos (by omega)] at hi'
      obtain rfl := Option.some.inj hi'
      obtain rfl : i = k := by omega
      rw [keys]
      exact h.mirrors i _ t hl ht o
  · exact u.octants.nodup_toList
  · intro t ht o ho
    obtain rfl := Option.some.inj (hu.symm.trans ht)
    exact OctantSet.mem_toList.mp ho
  · intro l t hl' ht
    rw [getElem?_shifted bound, if_neg (by omega), if_neg (by omega), if_pos rfl] at hl'
    obtain rfl := Option.some.inj hl'
    obtain rfl := Option.some.inj (hu.symm.trans ht)
    exact ⟨within, fun o ho => .inr (OctantSet.mem_toList.mpr ho)⟩

theorem Carries.allows_take (h : s.Carries τ) (formed : s.Formed) (k : Nat) :
    ∀ layer ∈ s.layers.take k, layer.Allows τ := by
  intro layer member
  obtain ⟨i, hi⟩ := List.mem_iff_getElem?.mp member
  rw [List.getElem?_take] at hi
  split at hi
  · obtain ⟨bound, -⟩ := List.getElem?_eq_some_iff.mp hi
    obtain ⟨_, -, hw⟩ := formed.exists_tier (Nat.lt_of_lt_of_le bound formed.fits)
    exact (h.holds hw hi).allows
  · cases hi

/-- Valuations stay carried if the vertices of both layers carry them on. -/
theorem Carries.shifted {w w' : Triple} {source layer : Layer} (h : s.Carries τ)
    (length : s.layers.length = k + 1) (hw : s.window? k = some w) (hw' : s.window? (k + 1) = some w')
    (hsource : ∃ v ∈ source, v.Carries w (some w') τ) (hlayer : ∃ v ∈ layer, v.Carries w' none τ) :
    (s.shifted k source layer).Carries τ := by
  have bound : k ≤ s.layers.length := by omega
  have following (i : Nat) : (s.shifted k source layer).following? i =
      if i + 1 < k + 2 then s.window? (i + 1) else none := by
    rw [following?, length_shifted bound]
    rfl
  refine ⟨h.basic, h.others, ?_⟩
  intro i x l hx hl
  rw [getElem?_shifted bound] at hl
  split at hl
  · rename_i below
    obtain ⟨v, hv, here⟩ := h.vertices i x l hx hl
    refine ⟨v, hv, here.octant, here.parts, ?_⟩
    have leads := here.leads
    rw [following?, length, if_pos (by omega)] at leads
    rwa [following, if_pos (by omega)]
  · split at hl
    · rename_i last
      subst last
      obtain rfl := Option.some.inj hl
      obtain rfl := Option.some.inj (hw.symm.trans hx)
      rw [following, if_pos (by omega), hw']
      exact hsource
    · split at hl
      · rename_i next
        subst next
        obtain rfl := Option.some.inj hl
        obtain rfl := Option.some.inj (hw'.symm.trans hx)
        rw [following, if_neg (by omega)]
        exact hlayer
      · cases hl

/-- A carried valuation moves on from its vertex on the last layer. -/
theorem Carries.edged {t u : Tier} {source layer : Layer}
    {pairs : List (Vertex × List (Octant × List Formula))} (carries : s.Carries τ)
    (formed : s.Formed) (length : s.layers.length = k + 1) (ht : s.basic.tiers[k]? = some t)
    (hu : s.basic.tiers[k + 1]? = some u) (hl : s.layers[k]? = some source)
    (shifts : List.Forall₂ (Vertex.ShiftsTo s.others (s.layers.take k) u) source pairs)
    (holds : ∀ a ∈ pairs.flatMap Prod.snd, ∀ τ, AllAdmit a.2 τ → layer.Holds a.1 τ) :
    (s.shifted k (edged pairs) layer).Carries τ := by
  have hw := formed.window?_eq ht
  have hw' := formed.window?_eq hu
  obtain ⟨v, hv, here⟩ := carries.vertices k t.triple source hw hl
  obtain ⟨pair, hpair, shift⟩ := exists_of_forall₂ shifts hv
  have onward : v.octant.shift (τ u.triple.c) = τ.octant u.triple := by
    rw [here.octant]
    exact τ.octant_shift (Permutation.precedes_of_windows hw hw')
  have allowed : τ.octant u.triple ∈ u.octants := carries.basic.2 u (List.mem_of_getElem? hu)
  obtain ⟨leads, a, ha, arrives, all⟩ :=
    shift.keeps τ here.parts (carries.allows_take formed k) (onward ▸ allowed)
  rw [onward] at leads arrives
  refine carries.shifted length hw hw' ⟨pair.1, List.mem_map_of_mem hpair,
    shift.octant.trans here.octant, shift.parts ▸ here.parts, ?_⟩ ?_
  · intro w' hw'
    obtain rfl := Option.some.inj hw'
    exact leads
  · obtain ⟨v', hv', same, all'⟩ := holds a (List.mem_flatMap.mpr ⟨pair, hpair, ha⟩) τ all
    exact ⟨v', hv', same.trans arrives, all', by simp⟩

theorem shiftLayer_returns (h : s.Clean) (length : s.layers.length = k + 1)
    (more : k + 1 < s.tierCount) :
    Returns (s.shiftLayer (k + 1)) fun s' => s.Advances s' ∧ s'.basic = s.basic ∧
      s'.restarts = s.restarts ∧ ∃ t, s'.basic.tiers[k + 1]? = some t ∧ s'.Reaching (k + 1) t.octants.toList := by
  obtain ⟨t, ht, -⟩ := h.formed.exists_tier (show k < s.tierCount by omega)
  obtain ⟨u, hu, -⟩ := h.formed.exists_tier more
  have hl := List.getElem?_eq_getElem (show k < s.layers.length by omega)
  have source := List.mem_of_getElem? hl
  unfold shiftLayer
  apply (Formula.tier_returns hu).bind
  intro _ same
  subst same
  rw [Nat.add_sub_cancel]
  apply (layer_returns hl).bind
  intro _ same
  subst same
  dsimp only
  have known : ∀ f ∈ s.others, u.triple.c ∈ f.permutation.names := by
    intro f hf
    refine h.formed.known f hf _ (Permutation.mem_names_of_mem_windows
      (h.formed.windowed.triple_mem (List.mem_of_getElem? hu)) ?_)
    simp [Triple.names]
  have earlier : ∀ layer ∈ s.layers.take k, layer.Formed s.others :=
    fun layer hlayer => h.formed.layers layer (List.mem_of_mem_take hlayer)
  have formed := h.formed.layers _ source
  apply (Returns.mapM fun v hv => Vertex.shiftEdges_returns (formed.parts v hv) earlier known).bind
  intro pairs shifts
  have arriving : Arriving s.others u (pairs.flatMap Prod.snd) := by
    intro a ha
    obtain ⟨pair, hpair, ha⟩ := List.mem_flatMap.mp ha
    have all : ∀ pair ∈ pairs, Arriving s.others u pair.2 :=
      forall_mem_of_forall₂ shifts fun v _ pair shift => shift.arriving
    exact all pair hpair a ha
  apply (Layer.foldlM_arrive_returns arriving).bind
  rintro layer ⟨hlayer, layerFresh, layerBare, within, holds⟩
  refine Returns.pure ⟨⟨rfl, .refl s.basic, ?_⟩, rfl, rfl, u, hu, ?_⟩
  · intro τ carries
    exact carries.edged h.formed length ht hu hl shifts holds
  · exact h.reaching_shifted length more hl hu (keys_edged shifts)
      ⟨formed_edged shifts formed, fresh_edged shifts (h.fresh _ source)⟩
      ⟨hlayer, layerFresh, layerBare⟩ within

/-- A system with a layer more, on the way to being clean or stale. -/
def Extends (s s' : HyperSystem) : Prop :=
  ∃ shifted, s.Advances shifted ∧ shifted.basic = s.basic ∧ shifted.restarts = s.restarts ∧
    shifted.layers.length = s.layers.length + 1 ∧ shifted.Progress s'

/-- A pass without its last step: the layer at `index` is not unified yet. -/
def trimmed (s : HyperSystem) (index : Nat) : Attempt BasicEmptied HyperSystem := do
  let s ← (← s.shiftLayer index).prune index
  if s.dirtyCount = 0 then s.clearLeaves (index - 1) else return s

theorem buildLayer_eq (s : HyperSystem) (index : Nat) :
    s.buildLayer index = (do
      let s ← s.trimmed index
      if s.dirtyCount = 0 then s.unifyLayer index else return s) := by
  simp only [buildLayer, trimmed, bind_assoc]
  refine bind_congr fun shifted => bind_congr fun pruned => ?_
  split
  · rfl
  · rw [pure_bind]

theorem trimmed_attempts (h : s.Clean) (length : s.layers.length = k + 1)
    (more : k + 1 < s.tierCount) :
    Attempts (s.trimmed (k + 1)) s.Extends fun _ => ∀ τ, ¬ s.Carries τ := by
  unfold trimmed
  apply Attempts.bind (Attempts.lift (shiftLayer_returns h length more))
  intro shifted ⟨advances, basic, restarts, t, ht, reaching⟩
  refine Attempts.mono (P := shifted.Progress) (E := fun _ => ∀ τ, ¬ shifted.Carries τ) ?_
    (fun s' progress =>
      ⟨shifted, advances, basic, restarts, reaching.top.trans (by omega), progress⟩)
    fun _ => advances.not_carries
  apply Attempts.bind (prune_attempts ht reaching)
  intro s₁ progress
  have top := progress.length.trans reaching.top
  rw [Nat.add_sub_cancel]
  rcases progress.settles with clean | ⟨_, stale, -⟩
  · rw [if_pos clean.dirtyCount]
    exact Attempts.mono (clearLeaves_attempts clean (by omega)) (fun _ => progress.trans)
      fun _ => progress.advances.not_carries
  · rw [if_neg (Nat.pos_iff_ne_zero.mp stale.dirtyCount_pos)]
    exact Attempts.pure progress

theorem buildLayer_attempts (h : s.Clean) (length : s.layers.length = k + 1)
    (more : k + 1 < s.tierCount) :
    Attempts (s.buildLayer (k + 1)) s.Extends fun _ => ∀ τ, ¬ s.Carries τ := by
  rw [buildLayer_eq]
  apply Attempts.bind (trimmed_attempts h length more)
  rintro s₁ ⟨shifted, advances, basic, restarts, longer, progress⟩
  rcases progress.settles with clean | ⟨_, stale, -⟩
  · rw [if_pos clean.dirtyCount]
    have top := progress.length.trans longer
    exact Attempts.mono (unifyLayer_attempts clean (by omega))
      (fun s₂ onward => ⟨shifted, advances, basic, restarts, longer, progress.trans onward⟩)
      fun _ => (advances.trans progress.advances).not_carries
  · rw [if_neg (Nat.pos_iff_ne_zero.mp stale.dirtyCount_pos)]
    exact Attempts.pure ⟨shifted, advances, basic, restarts, longer, progress⟩

/-! ### The first layer -/

theorem forall₂_filterMap_column {α β : Type} {R : α → β → Prop} {xs : List α}
    {columns : List (List β)} {i : Nat}
    (h : List.Forall₂ (fun x column => ∃ y, column[i]? = some y ∧ R x y) xs columns) :
    List.Forall₂ R xs (columns.filterMap (·[i]?)) := by
  induction h with
  | nil => exact .nil
  | cons head _ ih =>
    obtain ⟨y, found, related⟩ := head
    simp only [List.filterMap_cons, found]
    exact .cons related ih

/-- A part of another structure at an octant of a triple. -/
structure Concretizes (w : Triple) (o : Octant) (f g : Formula) : Prop where
  result : f.concretizeOctant w o = .ok g
  shrinks : f.ShrinksTo g
  keeps : ∀ τ, f.Admits τ → τ.octant w = o → g.Admits τ

theorem firstLayer_returns (h : s.Formed) :
    Returns s.firstLayer fun layer => ∃ t, s.basic.tiers[0]? = some t ∧
      layer.Formed s.others ∧ layer.Fresh ∧ layer.Bare ∧ Layer.keys layer = t.octants.toList ∧
        (∀ v ∈ layer, List.Forall₂ (Concretizes t.triple v.octant) s.others v.parts) ∧
        ∀ τ, s.basic.Admits τ → AllAdmit s.others τ → layer.Holds (τ.octant t.triple) τ := by
  obtain ⟨t, ht, -⟩ := h.exists_tier (List.length_pos_of_ne_nil h.tiers_ne_nil)
  unfold firstLayer
  apply (Formula.tier_returns ht).bind
  intro _ same
  subst same
  dsimp only
  have names : ∀ v ∈ t.triple.names, v ∈ s.basic.permutation.names := fun v =>
    Permutation.mem_names_of_mem_windows (h.windowed.triple_mem (List.mem_of_getElem? ht))
  refine (Returns.mapM (R := fun other column => List.Forall₂
    (fun o g => Concretizes t.triple o other g) t.octants.toList column) fun other member => ?_).bind
    fun columns hcolumns => Returns.pure ⟨t, ht, ?_⟩
  · apply Returns.mapM
    intro o _
    exact (Formula.concretizeOctant_returns (h.shaped other member)
      fun v hv => h.known other member v (names v hv)).with_eq.mono
        fun g ⟨result, shrinks, keeps⟩ => ⟨result, shrinks, keeps⟩
  have parts {o : Octant} {i : Nat} (ho : t.octants.toList[i]? = some o) :
      List.Forall₂ (Concretizes t.triple o) s.others (columns.filterMap (·[i]?)) := by
    refine forall₂_filterMap_column (hcolumns.imp ?_)
    intro other column hcolumn
    obtain ⟨bound, -⟩ := List.getElem?_eq_some_iff.mp ho
    have hg := List.getElem?_eq_getElem (hcolumn.length_eq ▸ bound)
    obtain ⟨o', ho', concretizes⟩ := forall₂_getElem? hcolumn hg
    obtain rfl := Option.some.inj (ho.symm.trans ho')
    exact ⟨_, hg, concretizes⟩
  have vertex {v : Vertex} (hv : v ∈ t.octants.toList.zipIdx.map fun entry =>
      Vertex.ofParts entry.1 (columns.filterMap (·[entry.2]?))) : ∃ (o : Octant) (i : Nat),
      t.octants.toList[i]? = some o ∧ v = Vertex.ofParts o (columns.filterMap (·[i]?)) := by
    obtain ⟨⟨o, i⟩, hi, rfl⟩ := List.mem_map.mp hv
    exact ⟨o, i, List.mem_zipIdx_iff_getElem?.mp hi, rfl⟩
  have keys : Layer.keys (t.octants.toList.zipIdx.map fun entry =>
      Vertex.ofParts entry.1 (columns.filterMap (·[entry.2]?))) = t.octants.toList := by
    rw [Layer.keys, List.map_map]
    exact List.zipIdx_map_fst 0 _
  have bare : Layer.Bare (t.octants.toList.zipIdx.map fun entry =>
      Vertex.ofParts entry.1 (columns.filterMap (·[entry.2]?))) := by
    intro v hv
    obtain ⟨o, i, -, rfl⟩ := vertex hv
    exact ⟨rfl, rfl⟩
  refine ⟨⟨?_, ?_, fun v hv => (bare v hv).directed⟩, ?_, bare, keys, ?_, ?_⟩
  · have ascending := t.octants.pairwise_toList
    rw [← keys] at ascending
    exact ascending
  · intro v hv
    obtain ⟨o, i, ho, rfl⟩ := vertex hv
    exact (PartsOf.of_shaped h.shaped).shrinks ((parts ho).imp fun _ _ part => part.shrinks)
  · intro v hv
    obtain ⟨o, i, -, rfl⟩ := vertex hv
    rfl
  · intro v hv
    obtain ⟨o, i, ho, rfl⟩ := vertex hv
    exact parts ho
  · intro τ basic others
    have member := OctantSet.mem_toList.mpr (basic.2 t (List.mem_of_getElem? ht))
    obtain ⟨i, hi⟩ := List.mem_iff_getElem?.mp member
    refine ⟨.ofParts (τ.octant t.triple) (columns.filterMap (·[i]?)),
      List.mem_map.mpr ⟨(_, i), List.mem_zipIdx_iff_getElem?.mpr hi, rfl⟩, rfl, ?_⟩
    exact forall_mem_of_forall₂ (parts hi) fun other hother g part =>
      part.keeps τ (others other hother) rfl

/-- The first layer on its own makes a clean system. -/
theorem seeded {t : Tier} {layer : Layer} (h : s.Formed) (ht : s.basic.tiers[0]? = some t)
    (formed : layer.Formed s.others) (fresh : layer.Fresh) (bare : layer.Bare)
    (keys : Layer.keys layer = t.octants.toList)
    (holds : ∀ τ, s.basic.Admits τ → AllAdmit s.others τ → layer.Holds (τ.octant t.triple) τ) :
    Clean { s with layers := [layer] } ∧ s.Advances { s with layers := [layer] } := by
  refine ⟨⟨{ h with layers := by simpa using formed, fits := ?_, bare := ?_ },
    by simpa using fresh, ?_⟩, rfl, .refl s.basic, ?_⟩
  · exact List.length_pos_of_ne_nil h.tiers_ne_nil
  · intro i l _ hl
    exact (eq_of_getElem?_singleton hl).2 ▸ bare
  · intro i l t' hl ht' o
    obtain ⟨rfl, rfl⟩ := eq_of_getElem?_singleton hl
    obtain rfl := Option.some.inj (ht.symm.trans ht')
    rw [keys, OctantSet.mem_toList]
  · intro τ carries
    refine ⟨carries.basic, carries.others, ?_⟩
    intro i w l hw hl
    obtain ⟨rfl, rfl⟩ := eq_of_getElem?_singleton hl
    obtain rfl := Option.some.inj ((h.window?_eq ht).symm.trans hw)
    obtain ⟨v, hv, same, all⟩ := holds τ carries.basic carries.others
    exact ⟨v, hv, same, all, by simp [following?]⟩

/-- A system with a clean first layer, and no other, made of another one. -/
structure Seeds (s s' : HyperSystem) : Prop where
  advances : s.Advances s'
  clean : s'.Clean
  length : s'.layers.length = 1
  restarts : s'.restarts = s.restarts

/-- Rounds that leave the first layer dirty take octants out of the basic structure. -/
theorem seedRounds_concludes {limit fuel : Nat} (h : s.Formed)
    (enough : s.basic.clauseCount < fuel) :
    Concludes (seedRounds limit fuel s) s.Seeds fun _ => ∀ τ, ¬ s.Carries τ := by
  induction fuel generalizing s with
  | zero => omega
  | succ fuel ih =>
    unfold seedRounds
    apply Concludes.bind (Concludes.lift (firstLayer_returns h))
    intro layer ⟨t, ht, formed, fresh, bare, keys, _, holds⟩
    obtain ⟨clean, advances⟩ := seeded h ht formed fresh bare keys holds
    apply Concludes.bind (Concludes.ofAttempt (Attempts.mono
      (unifyLayer_attempts clean (Nat.lt_succ_self 0)) (fun _ => id)
      fun _ => advances.not_carries))
    intro s' progress
    have onward := advances.trans progress.advances
    -- A dirty first layer is built anew, over a basic structure that lost an octant.
    rcases progress.settles with clean' | ⟨start, stale, fewer⟩
    · rw [if_pos clean'.dirtyCount]
      exact Concludes.pure ⟨onward, clean', progress.length, progress.restarts⟩
    · rw [if_neg (Nat.pos_iff_ne_zero.mp stale.dirtyCount_pos)]
      apply Concludes.bind (P := fun _ => True) (Concludes.report trivial)
      intro _ _
      have few : s'.basic.clauseCount + 2 ≤ s.basic.clauseCount := fewer
      exact Concludes.mono (ih stale.formed (by omega))
        (fun s'' seeds => ⟨onward.trans seeds.advances, seeds.clean, seeds.length,
          seeds.restarts.trans progress.restarts⟩)
        fun _ => onward.not_carries

theorem seed_concludes (h : s.Formed) : Concludes s.seed s.Seeds fun _ => ∀ τ, ¬ s.Carries τ :=
  seedRounds_concludes h (Nat.lt_succ_self _)

/-! ### Checking and cutting back -/

theorem requireKeys_returns (h : s.Clean) : Returns s.requireKeys fun _ => True := by
  unfold requireKeys
  apply Returns.forM
  intro (layer, i) hi
  have hl : s.layers[i]? = some layer := List.mem_zipIdx_iff_getElem?.mp hi
  obtain ⟨bound, -⟩ := List.getElem?_eq_some_iff.mp hl
  obtain ⟨t, ht, -⟩ := h.formed.exists_tier (Nat.lt_of_lt_of_le bound h.formed.fits)
  apply (Formula.tier_returns ht).bind
  intro _ same
  subst same
  have ascending := (h.formed.layers layer (List.mem_of_getElem? hl)).ascending
  rw [if_pos (OctantSet.eq_toList ascending (h.mirrors i layer t hl ht))]
  exact Returns.pure trivial

theorem getElem?_truncate {start i : Nat} {layer' : Layer}
    (h : (s.truncate start).layers[i]? = some layer') : i < start ∧
      ∃ layer, s.layers[i]? = some layer ∧
        layer' = if start - 1 = i then layer.map Vertex.dropEdges else layer := by
  simp only [truncate, List.getElem?_modify, List.getElem?_take, Option.map_eq_map,
    Option.map_eq_some_iff] at h
  obtain ⟨layer, hl, rfl⟩ := h
  split at hl
  · rename_i below
    exact ⟨below, layer, hl, rfl⟩
  · cases hl

theorem keys_dropEdges (layer : Layer) : Layer.keys (layer.map Vertex.dropEdges) = Layer.keys layer := by
  simp [Layer.keys, Vertex.dropEdges, Function.comp_def]

theorem bare_dropEdges (layer : Layer) : Layer.Bare (layer.map Vertex.dropEdges) :=
  List.forall_mem_map.mpr fun _ _ => ⟨rfl, rfl⟩

/-- The layers before the dirty ones are clean, the last of them without its edges. -/
theorem Stale.truncate {start : Nat} (h : s.Stale start) :
    (s.truncate start).Clean ∧ (s.truncate start).layers.length = start ∧
      s.Advances (s.truncate start) := by
  have length : (s.truncate start).layers.length = start := by
    have := h.bound
    simp only [HyperSystem.truncate, List.length_modify, List.length_take]
    omega
  have all {P : Layer → Prop} (old : ∀ i < start, ∀ l ∈ s.layers[i]?, P l)
      (drop : ∀ l, P l → P (l.map Vertex.dropEdges)) : ∀ l ∈ (s.truncate start).layers, P l := by
    intro l member
    obtain ⟨i, hi⟩ := List.mem_iff_getElem?.mp member
    obtain ⟨below, layer, hl, rfl⟩ := getElem?_truncate hi
    split
    · exact drop layer (old i below layer hl)
    · exact old i below layer hl
  refine ⟨⟨{ h.formed with layers := ?_, fits := ?_, bare := ?_ }, ?_, ?_⟩, length,
    rfl, .refl s.basic, ?_⟩
  · apply all (fun i _ l hl => h.formed.layers l (List.mem_of_getElem? hl))
    intro l formed
    exact ⟨keys_dropEdges l ▸ formed.ascending, List.forall_mem_map.mpr formed.parts,
      fun v hv => (bare_dropEdges l v hv).directed⟩
  · have := h.formed.fits
    have := h.bound
    show (s.truncate start).layers.length ≤ s.tierCount
    omega
  · intro i l' last hl'
    obtain ⟨below, layer, -, rfl⟩ := getElem?_truncate hl'
    rw [if_pos (by omega)]
    exact bare_dropEdges layer
  · exact all h.fresh fun l fresh => List.forall_mem_map.mpr fresh
  · intro i l' t hl' ht o
    obtain ⟨below, layer, hl, rfl⟩ := getElem?_truncate hl'
    rw [← h.mirrors i below layer t hl ht]
    split
    · rw [keys_dropEdges]
    · rfl
  · intro τ carries
    refine ⟨carries.basic, carries.others, ?_⟩
    intro i w l' hw hl'
    obtain ⟨below, layer, hl, rfl⟩ := getElem?_truncate hl'
    obtain ⟨v, hv, here⟩ := carries.vertices i w layer hw hl
    split
    · rename_i last
      refine ⟨_, List.mem_map_of_mem hv, here.octant, here.parts, ?_⟩
      rw [following?, length, if_neg (by omega)]
      simp
    · rename_i inner
      refine ⟨v, hv, here.octant, here.parts, ?_⟩
      have leads := here.leads
      have := h.bound
      rw [following?, if_pos (by omega)] at leads
      rwa [following?, length, if_pos (by omega)]

/-! ### All layers -/

/-- Counting restarts changes nothing else. -/
theorem Clean.recount (h : s.Clean) (rebuilds reseeds : Nat) :
    Clean { s with rebuilds, reseeds } ∧ s.Advances { s with rebuilds, reseeds } :=
  ⟨⟨⟨h.formed.windowed, h.formed.full, h.formed.shaped, h.formed.known, h.formed.layers,
    h.formed.fits, h.formed.bare⟩, h.fresh, h.mirrors⟩,
    rfl, .refl s.basic, fun _ carries => ⟨carries.basic, carries.others, carries.vertices⟩⟩

/-- What construction arrives at. Every restart is paid for with two octants. -/
structure Built (s s' : HyperSystem) : Prop where
  advances : s.Advances s'
  clean : s'.Clean
  complete : s'.layers.length = s'.tierCount
  spent : 2 * s'.restarts + s'.basic.clauseCount ≤ 2 * s.restarts + s.basic.clauseCount

theorem Advances.tierCount_eq (h : s.Advances s') (formed' : s'.Formed) :
    s'.tierCount = s.tierCount :=
  (h.basic.2.resolve_left formed'.tiers_ne_nil).length_eq.symm

/-- What completes a later system completes this one. -/
theorem Advances.concludes {x : Logged BasicEmptied HyperSystem} (h : s.Advances s')
    (paid : 2 * s'.restarts + s'.basic.clauseCount ≤ 2 * s.restarts + s.basic.clauseCount)
    (hx : Concludes x s'.Built fun _ => ∀ τ, ¬ s'.Carries τ) :
    Concludes x s.Built fun _ => ∀ τ, ¬ s.Carries τ :=
  Concludes.mono hx
    (fun _ built => ⟨h.trans built.advances, built.clean, built.complete, built.spent.trans paid⟩)
    fun _ => h.not_carries

/-- What is left to do for `count` layers: an octant of the basic structure counts for more than all
layers that are built again after its removal. -/
def effort (s : HyperSystem) (count : Nat) : Nat :=
  s.basic.clauseCount * (count + 1) + (count - s.layers.length)

theorem effort_lt_of_longer {count : Nat} (fewer : s'.basic.clauseCount ≤ s.basic.clauseCount)
    (room : s.layers.length < count) (longer : s.layers.length < s'.layers.length) :
    s'.effort count < s.effort count := by
  unfold effort
  have := Nat.mul_le_mul_right (count + 1) fewer
  omega

theorem effort_lt_of_fewer {count : Nat} (fewer : s'.basic.clauseCount < s.basic.clauseCount) :
    s'.effort count < s.effort count := by
  unfold effort
  have := Nat.mul_le_mul_right (count + 1) (Nat.succ_le_of_lt fewer)
  rw [Nat.succ_mul] at this
  omega

/-- Cut back to its clean layers, with other counts, a dirty system is where construction goes on. -/
theorem Stale.restart {start : Nat} (h : s.Stale start) (rebuilds reseeds : Nat) :
    Clean { s.truncate start with rebuilds, reseeds } ∧
      s.Advances { s.truncate start with rebuilds, reseeds } := by
  obtain ⟨clean, -, cut⟩ := h.truncate
  obtain ⟨clean', counted⟩ := clean.recount rebuilds reseeds
  exact ⟨clean', cut.trans counted⟩

theorem Stale.length_sub_dirtyCount {start : Nat} (h : s.Stale start) :
    s.layers.length - s.dirtyCount = start := by
  have := h.bound
  rw [h.dirtyCount]
  omega

/-- One pass of the construction. It answers with the number of layers that stand after it. -/
def pass (check : Bool) (count index : Nat) (s : HyperSystem) :
    Logged BasicEmptied (Nat × HyperSystem) := do
  .report (.building index count)
  let s ← .ofAttempt (s.buildLayer index)
  let dirty := s.dirtyCount
  if dirty = 0 then
    if check then s.requireKeys
    return (index + 1, s)
  else
    let kept := s.layers.length - dirty
    .report (.rebuilding dirty kept)
    let s := s.truncate kept
    if kept = 0 then
      return (1, ← seed { s with reseeds := s.reseeds + 1 })
    else
      return (kept, { s with rebuilds := s.rebuilds + 1 })

theorem buildFrom_succ (check : Bool) (count fuel index : Nat) (s : HyperSystem) :
    buildFrom check count (fuel + 1) index s =
      if count ≤ index then pure s
      else pass check count index s >>= fun (next, s') => buildFrom check count fuel next s' := by
  rw [buildFrom]
  congr 1
  simp only [pass, bind_assoc]
  refine bind_congr fun _ => bind_congr fun s₁ => ?_
  split
  · split <;> simp only [bind_assoc, pure_bind]
  · rw [bind_assoc]
    refine bind_congr fun _ => ?_
    split <;> simp only [bind_assoc, pure_bind]

/-- A pass adds a clean layer, or cuts the layers back for two octants of the basic structure. -/
structure Passed (s : HyperSystem) (next : Nat) (s' : HyperSystem) : Prop where
  advances : s.Advances s'
  clean : s'.Clean
  length : s'.layers.length = next
  some : 1 ≤ next
  settles : next = s.layers.length + 1 ∧ s'.restarts = s.restarts ∨
    next ≤ s.layers.length ∧ s'.restarts = s.restarts + 1 ∧
      s'.basic.clauseCount + 2 ≤ s.basic.clauseCount

theorem Passed.paid {next : Nat} (h : s.Passed next s') :
    2 * s'.restarts + s'.basic.clauseCount ≤ 2 * s.restarts + s.basic.clauseCount := by
  have := h.advances.basic.clauseCount_le
  rcases h.settles with ⟨-, restarts⟩ | ⟨-, restarts, fewer⟩ <;> omega

theorem Passed.effort_lt {next count : Nat} (h : s.Passed next s') (room : s.layers.length < count) :
    s'.effort count < s.effort count := by
  rcases h.settles with ⟨longer, -⟩ | ⟨-, -, fewer⟩
  · apply effort_lt_of_longer h.advances.basic.clauseCount_le room
    rw [h.length, longer]
    exact Nat.lt_succ_self _
  · exact effort_lt_of_fewer (by omega)

theorem pass_concludes (check : Bool) {count : Nat} (h : s.Clean) (some : 1 ≤ s.layers.length)
    (more : s.layers.length < s.tierCount) :
    Concludes (pass check count s.layers.length s) (fun (next, s') => s.Passed next s')
      fun _ => ∀ τ, ¬ s.Carries τ := by
  obtain ⟨k, length⟩ : ∃ k, s.layers.length = k + 1 := ⟨s.layers.length - 1, by omega⟩
  unfold pass
  apply Concludes.bind (P := fun _ => True) (Concludes.report trivial)
  intro _ _
  rw [length] at more ⊢
  apply Concludes.bind (Concludes.ofAttempt (buildLayer_attempts h length more))
  intro s₁ ⟨shifted, shifts, basic, restarts, top, progress⟩
  have advances := shifts.trans progress.advances
  have length₁ : s₁.layers.length = k + 2 := by
    rw [progress.length, top, length]
  have restarts₁ : s₁.restarts = s.restarts := progress.restarts.trans restarts
  dsimp only
  -- A clean system has a layer more. A stale one goes back to the layers before the dirty ones.
  rcases progress.settles with clean | ⟨start, stale, fewer⟩
  · have passed : s.Passed (k + 1 + 1) s₁ := by
      refine ⟨advances, clean, length₁, by omega, .inl ⟨?_, restarts₁⟩⟩
      rw [length]
    rw [if_pos clean.dirtyCount]
    split
    · exact Concludes.bind (Concludes.lift (requireKeys_returns clean)) fun _ _ =>
        Concludes.pure passed
    · exact Concludes.pure passed
  · rw [basic] at fewer
    have bound := stale.bound
    rw [if_neg (Nat.pos_iff_ne_zero.mp stale.dirtyCount_pos), stale.length_sub_dirtyCount]
    apply Concludes.bind (P := fun _ => True) (Concludes.report trivial)
    intro _ _
    split
    · rename_i none
      subst none
      obtain ⟨clean₁, restart⟩ :=
        stale.restart (s₁.truncate 0).rebuilds ((s₁.truncate 0).reseeds + 1)
      have advances₁ := advances.trans restart
      apply Concludes.bind (Concludes.mono (seed_concludes clean₁.formed) (fun _ => id)
        fun _ => advances₁.not_carries)
      intro s₂ seeds
      have few : s₂.basic.clauseCount ≤ s₁.basic.clauseCount := seeds.advances.basic.clauseCount_le
      have counted : s₂.restarts = s₁.restarts + 1 := seeds.restarts
      have passed : s.Passed 1 s₂ := ⟨advances₁.trans seeds.advances, seeds.clean, seeds.length,
        Nat.le_refl 1, .inr ⟨some, by omega, by omega⟩⟩
      exact Concludes.pure passed
    · rename_i positive
      obtain ⟨clean₁, restart⟩ :=
        stale.restart ((s₁.truncate start).rebuilds + 1) (s₁.truncate start).reseeds
      have counted : (s₁.truncate start).rebuilds + 1 + (s₁.truncate start).reseeds =
          s₁.restarts + 1 := Nat.add_right_comm _ 1 _
      refine Concludes.pure ⟨advances.trans restart, clean₁, stale.truncate.2.1,
        Nat.pos_iff_ne_zero.mpr positive, .inr ⟨by omega, ?_, fewer⟩⟩
      exact counted.trans (congrArg (· + 1) restarts₁)

/-- Each pass adds a layer or takes octants out of the basic structure. -/
theorem buildFrom_concludes (check : Bool) {count fuel : Nat} (h : s.Clean)
    (some : 1 ≤ s.layers.length) (total : count = s.tierCount) (enough : s.effort count < fuel) :
    Concludes (buildFrom check count fuel s.layers.length s) s.Built
      fun _ => ∀ τ, ¬ s.Carries τ := by
  induction fuel generalizing s with
  | zero => omega
  | succ fuel ih =>
    rw [buildFrom_succ]
    split
    · have fits := h.formed.fits
      exact Concludes.pure ⟨.refl s, h, by omega, Nat.le_refl _⟩
    · rename_i more
      apply Concludes.bind (pass_concludes check h some (by omega))
      intro (next, s') passed
      have less := passed.effort_lt (Nat.lt_of_not_le more)
      have built := ih passed.clean (passed.length ▸ passed.some)
        (total.trans (passed.advances.tierCount_eq passed.clean.formed).symm) (by omega)
      rw [passed.length] at built
      exact passed.advances.concludes passed.paid built

theorem Seeds.paid (h : s.Seeds s') :
    2 * s'.restarts + s'.basic.clauseCount ≤ 2 * s.restarts + s.basic.clauseCount := by
  have := h.advances.basic.clauseCount_le
  rw [h.restarts]
  omega

theorem build_concludes {check : Bool} (h : s.Formed) :
    Concludes (build check s) s.Built fun _ => ∀ τ, ¬ s.Carries τ := by
  unfold build
  apply Concludes.bind (seed_concludes h)
  intro s₁ seeds
  have clean := seeds.clean
  have enough : s₁.effort s.tierCount < (s.basic.clauseCount + 1) * (s.tierCount + 1) * 2 := by
    have := Nat.mul_le_mul_right (s.tierCount + 1) seeds.advances.basic.clauseCount_le
    rw [effort, Nat.succ_mul]
    omega
  have built := seeds.advances.concludes seeds.paid (buildFrom_concludes check clean
    (Nat.le_of_eq seeds.length.symm) (seeds.advances.tierCount_eq clean.formed).symm enough)
  rw [seeds.length] at built
  dsimp only
  split
  · exact Concludes.bind (Concludes.lift (requireKeys_returns clean)) fun _ _ => built
  · exact built

theorem basicIndex?_some {structures : List Formula} (some : structures ≠ []) :
    ∃ i f, basicIndex? structures = Option.some i ∧ structures[i]? = Option.some f := by
  obtain ⟨least, hleast⟩ : ∃ least, (structures.map Formula.clauseCount).min? = Option.some least :=
    Option.isSome_iff_exists.mp (List.isSome_min?_of_ne_nil (by simpa using some))
  obtain ⟨f, hf, count⟩ := List.mem_map.mp (List.min?_mem hleast)
  have found : (structures.findIdx? (·.clauseCount == least)).isSome = true := by
    rw [List.findIdx?_isSome, List.any_eq_true]
    exact ⟨f, hf, beq_iff_eq.mpr count⟩
  obtain ⟨i, hi⟩ := Option.isSome_iff_exists.mp found
  obtain ⟨bound, -⟩ := List.findIdx?_eq_some_iff_getElem.mp hi
  refine ⟨i, _, ?_, List.getElem?_eq_getElem bound⟩
  unfold basicIndex?
  rw [hleast]
  exact hi

/-- The system of some structures before its first layer, one of them being the basic one. -/
def started (structures : List Formula) (i : Nat) (basic : Formula) : HyperSystem :=
  ⟨basic, i, structures.eraseIdx i, [], 0, 0⟩

/-- A complete system of structures: it carries what all of them admit. -/
structure Founded (structures : List Formula) (s : HyperSystem) : Prop where
  clean : s.Clean
  complete : s.layers.length = s.tierCount
  shared : s.others.length + 1 = structures.length
  origin : ∃ f ∈ structures, f.ShrinksTo s.basic
  spent : ∀ i basic, basicIndex? structures = some i → structures[i]? = some basic →
    2 * s.restarts + s.basic.clauseCount ≤ basic.clauseCount
  others : ∀ f ∈ s.others, f ∈ structures
  covers : ∀ f ∈ structures, f ∈ s.others ∨ f.ShrinksTo s.basic
  carries : ∀ τ, AllAdmit structures τ → s.Carries τ

section Start

variable {structures : List Formula} {i : Nat} {basic : Formula}

theorem formed_started (hbasic : structures[i]? = some basic)
    (windowed : ∀ f ∈ structures, f.Windowed) (full : basic.Full)
    (same : ∀ f ∈ structures, ∀ g ∈ structures, f.permutation.sameVariables g.permutation = true) :
    (started structures i basic).Formed := by
  have member := List.mem_of_getElem? hbasic
  have others : ∀ f ∈ structures.eraseIdx i, f ∈ structures := fun f => List.mem_of_mem_eraseIdx
  exact
    { windowed := windowed basic member
      full := full
      shaped := fun f hf => .inr (windowed f (others f hf))
      known := fun f hf v => Permutation.mem_of_sameVariables (same f (others f hf) basic member)
      layers := by simp [started]
      fits := Nat.zero_le _
      bare := by simp [started] }

theorem carries_started (hbasic : structures[i]? = some basic) (all : AllAdmit structures τ) :
    (started structures i basic).Carries τ :=
  ⟨all basic (List.mem_of_getElem? hbasic), fun f hf => all f (List.mem_of_mem_eraseIdx hf),
    by simp [started]⟩

theorem Built.founded (h : (started structures i basic).Built s)
    (index : basicIndex? structures = some i) (hbasic : structures[i]? = some basic) :
    s.Founded structures := by
  obtain ⟨bound, -⟩ := List.getElem?_eq_some_iff.mp hbasic
  have others : s.others = structures.eraseIdx i := h.advances.others
  refine ⟨h.clean, h.complete, ?_, ⟨basic, List.mem_of_getElem? hbasic, h.advances.basic⟩, ?_, ?_,
    ?_, fun τ all => h.advances.keeps τ (carries_started hbasic all)⟩
  · rw [others, List.length_eraseIdx_of_lt bound]
    omega
  · intro j f index' hf
    obtain rfl := Option.some.inj (index.symm.trans index')
    obtain rfl := Option.some.inj (hbasic.symm.trans hf)
    have := h.spent
    simp only [started, restarts] at this ⊢
    omega
  · rw [others]
    exact fun f => List.mem_of_mem_eraseIdx
  · intro f hf
    rw [others]
    obtain ⟨j, hj⟩ := List.mem_iff_getElem?.mp hf
    by_cases here : j = i
    · rw [here, hbasic] at hj
      exact .inr (Option.some.inj hj ▸ h.advances.basic)
    · exact .inl (List.mem_eraseIdx_iff_getElem?.mpr ⟨j, here, hj⟩)

end Start

/-- The start of a construction carries what all structures admit. -/
theorem ofStructures_concludes {structures : List Formula} {check : Bool}
    (two : 2 ≤ structures.length) (windowed : ∀ f ∈ structures, f.Windowed)
    (solid : ∀ f ∈ structures, f.Solid)
    (same : ∀ f ∈ structures, ∀ g ∈ structures, f.permutation.sameVariables g.permutation = true) :
    Concludes (ofStructures structures check) (Founded structures)
      fun e => (∃ i, e = .emptyStructure i) ∧ Disjoint structures := by
  have some : structures ≠ [] := List.ne_nil_of_length_pos (by omega)
  obtain ⟨i, basic, index, hbasic⟩ := basicIndex?_some some
  have get : structures.getD i .empty = basic := by
    rw [List.getD_eq_getElem?_getD, hbasic]
    rfl
  unfold ofStructures
  rw [if_neg (by omega), index]
  dsimp only
  rw [get]
  split
  · rename_i j found
    obtain ⟨bound, empty, -⟩ := List.findIdx?_eq_some_iff_getElem.mp found
    refine Concludes.throw ⟨⟨j, rfl⟩, disjoint_of_mem (List.getElem_mem bound) ?_⟩
    intro τ _ admits
    simp [admits.not_isEmpty] at empty
  · rename_i found
    have nonempty : ∀ f ∈ structures, f.isEmpty = false :=
      List.findIdx?_eq_none_iff.mp (Option.eq_none_iff_forall_ne_some.mpr found)
    have alike : (check && !structures.all (·.permutation.sameVariables basic.permutation)) = false := by
      rw [List.all_eq_true.mpr fun f hf => same f hf basic (List.mem_of_getElem? hbasic)]
      exact Bool.and_false check
    rw [alike, if_neg Bool.false_ne_true]
    apply Concludes.bind (P := fun _ => True) (Concludes.report trivial)
    intro _ _
    have member := List.mem_of_getElem? hbasic
    have formed : (started structures i basic).Formed :=
      formed_started hbasic windowed ⟨nonempty basic member, solid basic member⟩ same
    apply Concludes.bind (Concludes.run (build_concludes formed))
    intro r hr
    cases r with
    | ok s => exact Concludes.pure (Built.founded hr index hbasic)
    | error e =>
      apply Concludes.bind (P := fun _ => True) (Concludes.report trivial)
      intro _ _
      exact Concludes.throw ⟨⟨i, rfl⟩, fun τ all => hr τ (carries_started hbasic all)⟩

end HyperSystem

end TripletSat
