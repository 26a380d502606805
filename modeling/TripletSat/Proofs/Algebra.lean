import Mathlib.Data.List.Nodup
import TripletSat.Proofs.Clauses
import TripletSat.Proofs.Propagation

/-!
Restriction, intersection and union of structures over one permutation, and what they do to the
valuations that their operands admit.
-/

namespace TripletSat

namespace Tier

theorem concretize_returns {t : Tier} {v : Nat} {value : Bool} (h : v ∈ t.triple.names) :
    Returns (t.concretize v value) fun u =>
      t.ShrinksTo u ∧ ∀ τ, u.Admits τ ↔ t.Admits τ ∧ τ v = value := by
  obtain ⟨p, place⟩ := Triple.place?_eq_some_of_mem h
  unfold concretize
  rw [place]
  refine Returns.pure ⟨⟨rfl, fun o ho => (OctantSet.mem_inter.mp ho).1⟩, fun τ => ?_⟩
  refine OctantSet.mem_inter.trans (and_congr_right fun _ => OctantSet.mem_half.trans ?_)
  rw [Valuation.value_octant, Triple.name_of_place? place]

theorem shrinksTo_meet (t u : Tier) : t.ShrinksTo (t.meet u) :=
  ⟨rfl, fun _ ho => (OctantSet.mem_inter.mp ho).1⟩

end Tier

namespace Octant

variable {o : Octant} {t : Triple}

/-- The values that an octant gives the variables of a triple. -/
def values (o : Octant) (t : Triple) : List (Nat × Bool) := [(t.a, o.a), (t.b, o.b), (t.c, o.c)]

theorem forall_values_iff {τ : Valuation} : (∀ x ∈ o.values t, τ x.1 = x.2) ↔ τ.octant t = o := by
  obtain ⟨a, b, c⟩ := o
  simp [values, Valuation.octant]

theorem forall_name_values_iff {P : Nat → Prop} : (∀ x ∈ o.values t, P x.1) ↔ ∀ v ∈ t.names, P v := by
  simp [values, Triple.names]

end Octant

namespace Formula

theorem tierOver?_some {f : Formula} {w : Triple} {t : Tier} (h : f.tierOver? w = some t) :
    t ∈ f.tiers ∧ t.triple.sameVariables w = true := by
  unfold tierOver? at h
  exact ⟨List.mem_of_find?_eq_some h, by simpa using List.find?_some h⟩

theorem Windowed.eq_of_triple_eq {f : Formula} (h : f.Windowed) {t u : Tier} (ht : t ∈ f.tiers)
    (hu : u ∈ f.tiers) (same : t.triple = u.triple) : t = u :=
  List.inj_on_of_nodup_map h.nodup_triples ht hu same

/-- The tier of a structure over a window. -/
theorem Windowed.tierOver?_eq {f : Formula} (h : f.Windowed) {t : Tier} (ht : t ∈ f.tiers) :
    f.tierOver? t.triple = some t := by
  cases found : f.tierOver? t.triple with
  | none =>
    have none := List.find?_eq_none.mp found t ht
    exact absurd (Triple.sameVariables_refl _) none
  | some u =>
    obtain ⟨hu, same⟩ := tierOver?_some found
    rw [h.eq_of_triple_eq hu ht
      (Permutation.eq_of_sameVariables (h.triple_mem hu) (h.triple_mem ht) same)]

/-! ### Restriction -/

theorem Windowed.exists_tier_of_mem {f : Formula} {v : Nat} (h : f.Windowed) (some : f.tiers ≠ [])
    (known : v ∈ f.permutation.names) : ∃ t ∈ f.tiers, v ∈ t.triple.names := by
  have size := h.tierCount_add_two some
  have := List.length_pos_of_ne_nil some
  simp only [tierCount, varCount] at size
  obtain ⟨w, hw, hv⟩ := Permutation.exists_window (by omega) known
  obtain ⟨t, ht, rfl⟩ := h.exists_tier hw
  exact ⟨t, ht, hv⟩

/-- What a structure admits has values for all of its variables. -/
theorem Windowed.get?_of_admits {f : Formula} {v : Nat} {α : Assignment} (h : f.Windowed)
    (known : v ∈ f.permutation.names) (admits : f.admits α = true) : α.get? v = some (α.value v) := by
  obtain ⟨held, total⟩ := Formula.admits_iff.mp admits
  obtain ⟨t, ht, hv⟩ := h.exists_tier_of_mem held.1 known
  exact Assignment.get?_eq_value (total t ht v hv)

/-- A structure with a value for a variable: it admits what had that value. -/
structure Restricts (f : Formula) (v : Nat) (value : Bool) (g : Formula) : Prop where
  shrinks : f.ShrinksTo g
  settles : f.isEmpty = false → g.Solid ∧ g.tiers.IsChain Tier.Linked
  admits : ∀ τ, g.Admits τ ↔ f.Admits τ ∧ τ v = value

theorem concretize_returns {f : Formula} {v : Nat} {value : Bool} (shape : f.Shaped)
    (known : v ∈ f.permutation.names) :
    Returns (f.concretize v value) (f.Restricts v value) := by
  unfold concretize
  split
  · rename_i empty
    have none (τ) : ¬ f.Admits τ := fun admits => by simp [admits.not_isEmpty] at empty
    exact Returns.pure ⟨.refl f, fun full => by simp [empty] at full, fun τ => by simp [none τ]⟩
  · rename_i full
    rw [if_pos (show f.permutation.contains v = true from List.contains_iff_mem.mpr known)]
    have tiers : Returns (f.tiers.mapM fun t =>
        if t.triple.contains v then t.concretize v value else pure t)
        (List.Forall₂ (fun t u => t.ShrinksTo u ∧
          ∀ τ, u.Admits τ ↔ t.Admits τ ∧ (v ∈ t.triple.names → τ v = value)) f.tiers) := by
      apply Returns.mapM
      intro t _
      split
      · rename_i holds
        have holds := Triple.contains_iff.mp holds
        exact (Tier.concretize_returns holds).mono fun u ⟨shrinks, admits⟩ =>
          ⟨shrinks, fun τ => by simp [admits, holds]⟩
      · rename_i away
        exact Returns.pure ⟨.refl t, fun τ => by simp [mt Triple.contains_iff.mpr away]⟩
    apply tiers.bind
    intro us hus
    have shrinks : f.ShrinksTo ⟨f.permutation, us⟩ := ⟨rfl, .inr (hus.imp fun _ _ => And.left)⟩
    apply (cleaned_returns (shrinks.shaped shape)).mono
    intro g ⟨hg, linked⟩
    refine ⟨shrinks.trans hg.shrinks, fun _ => ⟨hg.solid, linked⟩, fun τ => ⟨fun admits => ?_, ?_⟩⟩
    · -- Some tier holds the variable, and what is left of that tier has the value.
      have some := tiers_ne_nil_of_not_isEmpty (eq_false_of_ne_true full)
      obtain ⟨t, ht, hv⟩ := (shape.resolve_left some).exists_tier_of_mem some known
      obtain ⟨u, hu, -, part⟩ := exists_of_forall₂ hus ht
      have restricted := hg.shrinks.admits admits
      exact ⟨shrinks.admits restricted, ((part τ).mp (restricted.2 u hu)).2 hv⟩
    · intro ⟨hf, same⟩
      refine hg.keeps τ ⟨?_, ?_⟩
      · intro none
        obtain rfl : us = [] := none
        exact hf.1 (List.forall₂_nil_right_iff.mp hus)
      · exact forall_mem_of_forall₂ hus fun t ht u hu =>
          (hu.2 τ).mpr ⟨hf.2 t ht, fun _ => same⟩

theorem Restricts.settled {f g : Formula} {v : Nat} {value : Bool} (h : f.Restricts v value g)
    (either : f.isEmpty = false ∨ f.Solid) : g.Solid ∧ g.tiers.IsChain Tier.Linked := by
  by_cases none : f.tiers = []
  · have gone := h.shrinks.tiers_eq_nil none
    simp [Solid, gone]
  · exact h.settles (either.elim id fun solid => solid.not_isEmpty none)

/-- One value after the other. -/
def concretizeAll (f : Formula) (values : List (Nat × Bool)) : Checked Formula :=
  values.foldlM (fun g x => g.concretize x.1 x.2) f

theorem concretizeAll_cons {f : Formula} {x : Nat × Bool} {values : List (Nat × Bool)} :
    f.concretizeAll (x :: values) = f.concretize x.1 x.2 >>= (·.concretizeAll values) :=
  List.foldlM_cons

theorem concretizeAll_values {f : Formula} {t : Triple} {o : Octant} :
    f.concretizeAll (o.values t) = f.concretizeOctant t o := by
  simp [concretizeAll, concretizeOctant, Octant.values]

/-- A structure with values for some variables. It is cleaned up if it was before. -/
structure RestrictsAll (f : Formula) (values : List (Nat × Bool)) (g : Formula) : Prop where
  shrinks : f.ShrinksTo g
  settles : f.Solid ∧ f.tiers.IsChain Tier.Linked → g.Solid ∧ g.tiers.IsChain Tier.Linked
  admits : ∀ τ, g.Admits τ ↔ f.Admits τ ∧ ∀ x ∈ values, τ x.1 = x.2

theorem Restricts.cons {f g h : Formula} {x : Nat × Bool} {values : List (Nat × Bool)}
    (first : f.Restricts x.1 x.2 g) (rest : g.RestrictsAll values h) :
    f.RestrictsAll (x :: values) h where
  shrinks := first.shrinks.trans rest.shrinks
  settles clean := rest.settles (first.settled (.inr clean.1))
  admits τ := by rw [rest.admits, first.admits, List.forall_mem_cons, and_assoc]

theorem concretizeAll_returns {f : Formula} {values : List (Nat × Bool)} (shape : f.Shaped)
    (known : ∀ x ∈ values, x.1 ∈ f.permutation.names) :
    Returns (f.concretizeAll values) (f.RestrictsAll values) := by
  induction values generalizing f with
  | nil => exact Returns.pure ⟨.refl f, id, by simp⟩
  | cons x rest ih =>
    obtain ⟨here, later⟩ := List.forall_mem_cons.mp known
    rw [concretizeAll_cons]
    apply (concretize_returns shape here).bind
    intro g first
    rw [← first.shrinks.1] at later
    exact (ih (first.shrinks.shaped shape) later).mono fun _ => first.cons

theorem concretizeOctant_returns {f : Formula} {w : Triple} {o : Octant} (shape : f.Shaped)
    (known : ∀ v ∈ w.names, v ∈ f.permutation.names) :
    Returns (f.concretizeOctant w o) fun g =>
      f.ShrinksTo g ∧ ∀ τ, f.Admits τ → τ.octant w = o → g.Admits τ := by
  rw [← concretizeAll_values]
  apply (concretizeAll_returns shape (Octant.forall_name_values_iff.mpr known)).mono
  intro g all
  exact ⟨all.shrinks, fun τ hf same => (all.admits τ).mpr ⟨hf, Octant.forall_values_iff.mpr same⟩⟩

theorem tier_returns {f : Formula} {index : Nat} {t : Tier} (ht : f.tiers[index]? = some t) :
    Returns (f.tier index) (t = ·) := by
  unfold tier
  rw [ht]
  exact Returns.pure rfl

theorem removeOctant_returns {f : Formula} {index : Nat} {o : Octant} {t : Tier}
    (ht : f.tiers[index]? = some t) :
    Returns (f.removeOctant index o) fun g =>
      f.ShrinksTo g ∧ g.tiers[index]? = some { t with octants := t.octants.erase o } ∧
        (∀ i ≠ index, g.tiers[i]? = f.tiers[i]?) ∧
        ∀ τ, f.Admits τ → τ.octant t.triple ≠ o → g.Admits τ := by
  unfold removeOctant
  apply (tier_returns ht).bind
  intro _ same
  subst same
  obtain ⟨bound, -⟩ := List.getElem?_eq_some_iff.mp ht
  refine Returns.pure ⟨⟨rfl, .inr ?_⟩, List.getElem?_set_self bound, fun i other => ?_,
    fun τ hf away => ⟨?_, ?_⟩⟩
  · simp only [List.set_eq_modify]
    apply forall₂_modify .refl
    intro u hu
    obtain rfl := Option.some.inj (ht.symm.trans hu)
    exact ⟨rfl, fun v hv => (OctantSet.mem_erase.mp hv).1⟩
  · exact List.getElem?_set_ne other.symm
  · intro none
    exact hf.1 (by simpa using none)
  · simp only [List.set_eq_modify]
    apply forall_mem_modify hf.2
    intro u hu
    exact OctantSet.mem_erase.mpr ⟨hf.2 t (List.mem_of_getElem? ht), away⟩

/-! ### Intersection -/

/-- What two structures over one permutation have in common, cleaned up. -/
structure Intersects (f g h : Formula) : Prop where
  shrinks : f.ShrinksTo h
  solid : h.Solid
  linked : h.tiers.IsChain Tier.Linked
  keeps : ∀ τ, f.Admits τ → g.Admits τ → h.Admits τ
  within : g.Shaped → ∀ τ, h.Admits τ → g.Admits τ

theorem intersect_returns {f g : Formula} (shape : f.Shaped) (same : f.permutation = g.permutation) :
    Returns (f.intersect g) (f.Intersects g) := by
  unfold intersect requireSamePermutation
  rw [if_pos same]
  apply Returns.bind (P := fun _ => True) (Returns.pure trivial)
  intro _ _
  split
  · rename_i empty
    refine Returns.pure ⟨.clear f, by simp [Solid, Formula.clear], .nil, ?_, ?_⟩
    · intro τ hf hg
      simp [hf.not_isEmpty, hg.not_isEmpty] at empty
    · intro _ τ none
      exact absurd rfl none.1
  · rename_i full
    have each (t : Tier) : t.ShrinksTo (((g.tierOver? t.triple).map t.meet).getD t) ∧
        ∀ τ, t.Admits τ → g.Admits τ →
          (((g.tierOver? t.triple).map t.meet).getD t).Admits τ := by
      cases held : g.tierOver? t.triple with
      | none => exact ⟨.refl t, fun _ ht _ => ht⟩
      | some u =>
        obtain ⟨hu, same⟩ := tierOver?_some held
        exact ⟨t.shrinksTo_meet u, fun τ ht hg => (Tier.admits_meet same).mpr ⟨ht, hg.2 u hu⟩⟩
    have shrinks : f.ShrinksTo
        ⟨f.permutation, f.tiers.map fun t => ((g.tierOver? t.triple).map t.meet).getD t⟩ :=
      ⟨rfl, .inr (List.forall₂_map_right_iff.mpr (List.forall₂_same.mpr fun t _ => (each t).1))⟩
    apply (cleaned_returns (shrinks.shaped shape)).mono
    rintro h ⟨hh, linked⟩
    refine ⟨shrinks.trans hh.shrinks, hh.solid, linked, ?_, ?_⟩
    · refine fun τ hf hg => hh.keeps τ ⟨by simpa using hf.1, ?_⟩
      intro u hu
      obtain ⟨t, ht, rfl⟩ := List.mem_map.mp hu
      exact (each t).2 τ (hf.2 t ht) hg
    · intro shape' τ hτ
      simp only [Bool.or_eq_true, not_or, Bool.not_eq_true] at full
      have fWindowed := shape.windowed full.1
      have gWindowed := shape'.windowed full.2
      have met := hh.shrinks.admits hτ
      refine ⟨tiers_ne_nil_of_not_isEmpty full.2, fun u hu => ?_⟩
      -- The tier of the one structure over the window meets that of the other.
      obtain ⟨t, ht, sits⟩ := fWindowed.exists_tier (same ▸ gWindowed.triple_mem hu)
      have part := met.2 _ (List.mem_map_of_mem ht)
      rw [sits, gWindowed.tierOver?_eq hu] at part
      exact ((Tier.admits_meet (sits ▸ Triple.sameVariables_refl _)).mp part).2

/-! ### Union -/

/-- What the tier over a window admits. -/
theorem Windowed.admits_of_mem {f : Formula} (h : f.Windowed) {t : Tier} {τ : Valuation}
    (ht : t ∈ f.tiers) :
    (∃ u ∈ f.tiers, u.triple = t.triple ∧ u.Admits τ) ↔ t.Admits τ :=
  ⟨fun ⟨_, hu, same, admits⟩ => h.eq_of_triple_eq hu ht same ▸ admits,
    fun admits => ⟨t, ht, rfl, admits⟩⟩

theorem addTier_of_mem_windows {f : Formula} {u : Tier} (h : f.Windowed)
    (hu : u.triple ∈ f.permutation.windows) : f.addTier u = f.mergeTier u := by
  obtain ⟨t, ht, same⟩ := h.exists_tier hu
  unfold addTier
  rw [if_pos (List.any_eq_true.mpr ⟨t, ht, same ▸ Triple.sameVariables_refl _⟩)]

/-- Merging a tier into the structure adds its octants to the tier of its own window. -/
theorem admits_of_mem_mergeTier {f : Formula} {u t : Tier} {τ : Valuation} (h : f.Windowed)
    (hu : u.triple ∈ f.permutation.windows) (ht : t ∈ (f.mergeTier u).tiers) :
    t.Admits τ ↔
      (∃ t₀ ∈ f.tiers, t₀.triple = t.triple ∧ t₀.Admits τ) ∨ u.triple = t.triple ∧ u.Admits τ := by
  simp only [mergeTier, List.mem_map] at ht
  obtain ⟨t₀, ht₀, rfl⟩ := ht
  split
  · rename_i same
    rw [show (t₀.merge u).triple = t₀.triple from rfl, h.admits_of_mem ht₀,
      Tier.admits_merge (Triple.sameVariables_comm same)]
    have equal := Permutation.eq_of_sameVariables (h.triple_mem ht₀) hu same
    simp [equal]
  · rename_i other
    rw [h.admits_of_mem ht₀]
    refine ⟨.inl, fun either => either.elim id ?_⟩
    rintro ⟨equal, -⟩
    exact absurd (equal ▸ Triple.sameVariables_refl _) other

theorem foldl_addTier {f : Formula} {us : List Tier} (h : f.Windowed)
    (hus : ∀ u ∈ us, u.triple ∈ f.permutation.windows) :
    (us.foldl addTier f).permutation = f.permutation ∧ (us.foldl addTier f).Windowed ∧
      ∀ τ, ∀ t ∈ (us.foldl addTier f).tiers, t.Admits τ ↔
        (∃ t₀ ∈ f.tiers, t₀.triple = t.triple ∧ t₀.Admits τ) ∨
          ∃ u ∈ us, u.triple = t.triple ∧ u.Admits τ := by
  induction us generalizing f with
  | nil =>
    refine ⟨rfl, h, ?_⟩
    intro τ t ht
    rw [← h.admits_of_mem ht]
    simp
  | cons u rest ih =>
    have hu := hus u List.mem_cons_self
    have merged : (f.mergeTier u).Windowed := (map_triple_mergeTier f u).trans h
    rw [List.foldl_cons, addTier_of_mem_windows h hu]
    obtain ⟨permutation, windowed, admits⟩ :=
      ih merged fun v hv => hus v (List.mem_cons_of_mem _ hv)
    refine ⟨permutation, windowed, fun τ t ht => (admits τ t ht).trans ?_⟩
    have step : (∃ t₀ ∈ (f.mergeTier u).tiers, t₀.triple = t.triple ∧ t₀.Admits τ) ↔
        (∃ t₀ ∈ f.tiers, t₀.triple = t.triple ∧ t₀.Admits τ) ∨
          u.triple = t.triple ∧ u.Admits τ := by
      obtain ⟨t₀, ht₀, same⟩ := merged.exists_tier (permutation ▸ windowed.triple_mem ht)
      rw [← same, merged.admits_of_mem ht₀, admits_of_mem_mergeTier h hu ht₀]
    rw [step, or_assoc]
    simp only [List.exists_mem_cons_iff]

/-- Two structures over one permutation together: every octant is in a tier of one of them. -/
structure Unites (f g h : Formula) : Prop where
  permutation : h.permutation = f.permutation
  shaped : h.Shaped
  solid : f.Solid → g.Solid → h.Solid
  keeps : ∀ τ, f.Admits τ ∨ g.Admits τ → h.Admits τ
  covers : ∀ t ∈ h.tiers, ∀ τ : Valuation, t.Admits τ →
    (∃ u ∈ f.tiers, u.triple = t.triple ∧ u.Admits τ) ∨
      ∃ u ∈ g.tiers, u.triple = t.triple ∧ u.Admits τ

theorem union_returns {f g : Formula} (hf : f.Shaped) (hg : g.Shaped)
    (same : f.permutation = g.permutation) : Returns (f.union g) (f.Unites g) := by
  unfold union requireSamePermutation
  rw [if_pos same]
  apply Returns.bind (P := fun _ => True) (Returns.pure trivial)
  intro _ _
  split
  · rename_i empty
    refine Returns.pure ⟨rfl, hf, fun solid _ => solid, fun τ either => either.elim id ?_,
      fun t ht τ admits => .inl ⟨t, ht, rfl, admits⟩⟩
    intro admits
    simp [admits.not_isEmpty] at empty
  · rename_i gFull
    split
    · rename_i empty
      refine Returns.pure ⟨same.symm, hg, fun _ solid => solid, fun τ either => either.elim ?_ id,
        fun t ht τ admits => .inr ⟨t, ht, rfl, admits⟩⟩
      intro admits
      simp [admits.not_isEmpty] at empty
    · rename_i fFull
      have fWindowed := hf.windowed (eq_false_of_ne_true fFull)
      have gWindowed := hg.windowed (eq_false_of_ne_true gFull)
      obtain ⟨permutation, windowed, admits⟩ := @foldl_addTier f g.tiers fWindowed
        fun u hu => same ▸ gWindowed.triple_mem hu
      have under {t : Tier} (ht : t ∈ (g.tiers.foldl addTier f).tiers) :
          ∃ t₀ ∈ f.tiers, t₀.triple = t.triple :=
        fWindowed.exists_tier (permutation ▸ windowed.triple_mem ht)
      refine Returns.pure ⟨permutation, .inr windowed, fun solid _ t ht => ?_,
        fun τ either => ⟨?_, ?_⟩, fun t ht τ => (admits τ t ht).mp⟩
      · obtain ⟨t₀, ht₀, same₀⟩ := under ht
        obtain ⟨o, ho⟩ := OctantSet.isEmpty_eq_false_iff.mp (solid t₀ ht₀)
        obtain ⟨τ, rfl⟩ := Valuation.exists_octant t₀.triple o
        exact OctantSet.isEmpty_eq_false_iff.mpr ⟨_, (admits τ t ht).mpr (.inl ⟨t₀, ht₀, same₀, ho⟩)⟩
      · have count := congrArg List.length (fWindowed.trans (permutation ▸ windowed.symm))
        rw [List.length_map, List.length_map] at count
        have := List.length_pos_of_ne_nil (tiers_ne_nil_of_not_isEmpty (eq_false_of_ne_true fFull))
        exact List.ne_nil_of_length_pos (by omega)
      · intro t ht
        refine (admits τ t ht).mpr (either.imp ?_ ?_)
        · intro hf'
          obtain ⟨t₀, ht₀, same₀⟩ := under ht
          exact ⟨t₀, ht₀, same₀, hf'.2 t₀ ht₀⟩
        · intro hg'
          obtain ⟨u, hu, sameU⟩ := gWindowed.exists_tier
            (same ▸ permutation ▸ windowed.triple_mem ht)
          exact ⟨u, hu, sameU, hg'.2 u hu⟩

end Formula

end TripletSat
