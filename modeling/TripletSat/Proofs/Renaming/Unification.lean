import TripletSat.Proofs.Closure
import TripletSat.Proofs.Renaming.Operations

/-!
Renaming through unification. The names decide the order of every round, but the answer is the
greatest closed group, and a renaming takes closed groups to closed groups and back.
-/

namespace TripletSat

variable (π : Equiv.Perm Nat)

theorem Formula.Windowed.rename {f : Formula} (h : f.Windowed) : (f.rename π).Windowed := by
  unfold Windowed
  rw [permutation_rename, Permutation.windows_rename, ← h]
  simp [Function.comp_def]

theorem Tier.Agrees.rename {t u : Tier} (h : t.Agrees u) : (t.rename π).Agrees (u.rename π) := by
  intro p q p' q' distinct hp hq
  simp only [triple_rename, Triple.name_rename, π.apply_eq_iff_eq] at hp hq
  exact h p q p' q' distinct hp hq

theorem Formula.Agrees.rename {f g : Formula} (h : f.Agrees g) :
    (f.rename π).Agrees (g.rename π) := by
  intro t ht u hu
  obtain ⟨t₀, ht₀, rfl⟩ := List.mem_map.mp ht
  obtain ⟨u₀, hu₀, rfl⟩ := List.mem_map.mp hu
  exact (h t₀ ht₀ u₀ hu₀).rename π

theorem Tier.ShrinksTo.rename {t u : Tier} (h : t.ShrinksTo u) :
    (t.rename π).ShrinksTo (u.rename π) :=
  ⟨congrArg (Triple.rename π) h.1, h.2⟩

theorem map_rename_symm (group : List Formula) :
    (group.map (Formula.rename π)).map (Formula.rename π.symm) = group := by
  simp [Function.comp_def]

theorem octantCount_rename (group : List Formula) :
    octantCount (group.map (Formula.rename π)) = octantCount group := by
  simp [octantCount, List.foldr_map]

variable {c group : List Formula}

theorem Closed.rename (h : Closed c) : Closed (c.map (Formula.rename π)) where
  windowed := List.forall_mem_map.mpr fun f hf => (h.windowed f hf).rename π
  solid := by
    refine List.forall_mem_map.mpr fun f hf t ht => ?_
    obtain ⟨t₀, ht₀, rfl⟩ := List.mem_map.mp ht
    exact h.solid f hf t₀ ht₀
  clean := by
    refine List.forall_mem_map.mpr fun f hf => ?_
    obtain ⟨_, clean, rfl⟩ := Formula.cleaned_tracks π f f (h.clean f hf)
    exact clean
  agree := List.pairwise_map.mpr (h.agree.imp fun agrees => agrees.rename π)
  forced := by
    refine List.forall_mem_map.mpr fun f hf v b forced => ?_
    refine List.forall_mem_map.mpr fun g hg known => ?_
    obtain ⟨u, rfl⟩ := π.surjective v
    rw [Formula.value?_rename] at forced ⊢
    exact h.forced f hf u b forced g hg (by simpa using known)

theorem Within.rename (h : Within c group) :
    Within (c.map (Formula.rename π)) (group.map (Formula.rename π)) := by
  refine List.forall₂_map_left_iff.mpr (List.forall₂_map_right_iff.mpr (h.imp ?_))
  intro f g ⟨same, tiers⟩
  refine ⟨congrArg (Permutation.rename π) same, ?_⟩
  exact List.forall₂_map_left_iff.mpr (List.forall₂_map_right_iff.mpr (tiers.imp fun _ _ shrinks =>
    shrinks.rename π))

/-- What is contained in a renamed group is a renamed part of the group. -/
theorem Within.of_rename (h : Within c (group.map (Formula.rename π))) :
    Within (c.map (Formula.rename π.symm)) group := by
  have back := h.rename π.symm
  rwa [map_rename_symm] at back

theorem forall_tiers_ne_nil_rename {σ : Equiv.Perm Nat} (h : ∀ f ∈ c, f.tiers ≠ []) :
    ∀ f ∈ c.map (Formula.rename σ), f.tiers ≠ [] :=
  List.forall_mem_map.mpr fun f hf => by simpa using h f hf

theorem Greatest.rename (h : Greatest group c) :
    Greatest (group.map (Formula.rename π)) (c.map (Formula.rename π)) where
  tiered := forall_tiers_ne_nil_rename h.tiered
  closed := h.closed.rename π
  within := h.within.rename π
  above d closed within := by
    have back := (h.above _ (closed.rename π.symm) (within.of_rename π)).rename π
    have same := map_rename_symm π.symm d
    rw [Equiv.symm_symm] at same
    rwa [same] at back

theorem unify_of_isEmpty {index : Nat} (two : 2 ≤ group.length)
    (found : group.findIdx? Formula.isEmpty = some index) :
    (unify group).run = .ok (.error ⟨index⟩) := by
  unfold unify
  rw [if_neg (by omega), found]
  rfl

theorem unify_shadows (shaped : ∀ f ∈ group, f.Shaped) :
    Shadows (fun r r' => RenamesAll π r.group r'.group) anyErrors (unify group)
      (unify (group.map (Formula.rename π))) := by
  by_cases two : 2 ≤ group.length
  · have two' : 2 ≤ (group.map (Formula.rename π)).length := by rwa [List.length_map]
    cases found : group.findIdx? Formula.isEmpty with
    | some index =>
      have found' : (group.map (Formula.rename π)).findIdx? Formula.isEmpty = some index := by
        simpa [List.findIdx?_map, Function.comp_def] using found
      unfold Shadows
      rw [unify_of_isEmpty two found, unify_of_isEmpty two' found']
      exact .pure trivial
    | none =>
      have windowed : ∀ f ∈ group, f.Windowed := fun f hf =>
        (shaped f hf).windowed (List.findIdx?_eq_none_iff.mp found f hf)
      have windowed' : ∀ f ∈ group.map (Formula.rename π), f.Windowed :=
        List.forall_mem_map.mpr fun f hf => (windowed f hf).rename π
      intro answer run
      have spec := (unify_greatest_attempts two windowed).of_eq run
      cases answer with
      | ok r =>
        obtain ⟨greatest, count⟩ := spec
        rw [← octantCount_rename π r.group, ← octantCount_rename π group] at count
        refine ⟨_, (greatest.rename π).run_unify two' windowed' (.refl _) (.refl _)
          (greatest.within.rename π) count, ?_, rfl⟩
        exact fun f hf => .inr (greatest.closed.windowed f hf)
      | error e =>
        obtain ⟨answer', run', spec'⟩ := unify_greatest_attempts two' windowed'
        refine ⟨answer', run', ?_⟩
        cases answer' with
        | error e' => trivial
        | ok r' =>
          -- A closed group on the other side would come back to this one.
          obtain ⟨greatest, -⟩ := spec'
          obtain ⟨f, hf, gone⟩ := spec _ (greatest.closed.rename π.symm) (greatest.within.of_rename π)
          exact absurd gone (forall_tiers_ne_nil_rename greatest.tiered f hf)
  · unfold unify
    rw [if_pos (by omega)]
    exact nofun

theorem unifyGroup_shadows (shaped : ∀ f ∈ group, f.Shaped) :
    Shadows (RenamesAll π) anyErrors (unifyGroup group)
      (unifyGroup (group.map (Formula.rename π))) := by
  match group, shaped with
  | [], _ => exact .pure ⟨by simp, rfl⟩
  | [f], shaped =>
    unfold unifyGroup
    dsimp only [List.map]
    rw [Formula.isEmpty_rename]
    split
    · exact .throw trivial
    · exact .pure ⟨shaped, rfl⟩
  | f :: g :: rest, shaped =>
    refine (unify_shadows π shaped).bind fun r r' same => ?_
    exact .pure same

end TripletSat
