import TripletSat.Proofs.Algebra
import TripletSat.Proofs.Renaming.Names
import TripletSat.Proofs.Tracking

/-!
Renaming through the operations on structures. None of them compares names by their order, so each
one does to a renamed structure what it does to the structure itself.
-/

namespace TripletSat

variable (π : Equiv.Perm Nat)

namespace Tier

theorem concretize_tracks (t : Tier) (v : Nat) (value : Bool) :
    Tracks (fun u u' => u' = u.rename π) (t.concretize v value)
      ((t.rename π).concretize (π v) value) := by
  unfold concretize
  rw [triple_rename, Triple.place?_rename]
  cases t.triple.place? v with
  | none => exact .throw
  | some p => exact .pure rfl

theorem adjoinRight_tracks (t next : Tier) :
    Tracks (fun u u' => u' = u.rename π) (t.adjoinRight next)
      ((t.rename π).adjoinRight (next.rename π)) := by
  unfold adjoinRight
  simp only [triple_rename, Triple.rename_a, Triple.rename_b, Triple.rename_c,
    π.apply_eq_iff_eq]
  split
  · exact .pure rfl
  · exact .throw

theorem adjoinLeft_tracks (t prev : Tier) :
    Tracks (fun u u' => u' = u.rename π) (t.adjoinLeft prev)
      ((t.rename π).adjoinLeft (prev.rename π)) := by
  unfold adjoinLeft
  simp only [triple_rename, Triple.rename_a, Triple.rename_b, Triple.rename_c,
    π.apply_eq_iff_eq]
  split
  · exact .pure rfl
  · exact .throw

theorem between_tracks (prev : Option Tier) (t : Tier) (next : Option Tier) :
    Tracks (fun u u' => u' = u.rename π) (t.between prev next)
      ((t.rename π).between (prev.map (rename π)) (next.map (rename π))) := by
  unfold between
  cases prev with
  | none =>
    cases next with
    | none => exact .pure rfl
    | some next => exact adjoinRight_tracks π t next
  | some prev =>
    refine (adjoinLeft_tracks π t prev).bind_eq fun u => ?_
    cases next with
    | none => exact .pure rfl
    | some next => exact adjoinRight_tracks π u next

end Tier

/-! ### Cleanup -/

def Sweep.rename : Sweep → Sweep
  | .kept tiers span => .kept (tiers.map (Tier.rename π)) span
  | .emptied span => .emptied span

theorem sweep_tracks (low high index : Nat) (prev : Option Tier) (tiers : List Tier) :
    Tracks (fun s s' => s' = s.rename π) (sweep low high index prev tiers)
      (sweep low high index (prev.map (Tier.rename π)) (tiers.map (Tier.rename π))) := by
  induction tiers generalizing index prev with
  | nil => exact .pure rfl
  | cons t rest ih =>
    have behind (t : Tier) : Tracks (fun s s' => s' = Sweep.rename π s)
        (return (← sweep low high (index + 1) (some t) rest).behind t)
        (return (← sweep low high (index + 1) (some (t.rename π)) (rest.map (Tier.rename π))).behind
          (t.rename π)) := by
      refine (ih (index + 1) (some t)).bind_eq fun s => ?_
      cases s <;> exact .pure rfl
    rw [List.map_cons, sweep, sweep]
    by_cases outside : index < low ∨ high < index
    · rw [if_pos outside, if_pos outside]
      exact behind t
    · rw [if_neg outside, if_neg outside, List.head?_map]
      refine (Tier.between_tracks π prev t rest.head?).bind_eq fun u => ?_
      rw [Tier.octants_rename, Tier.octants_rename, Tier.isEmpty_rename]
      split
      · exact behind t
      · split
        · exact .pure rfl
        · refine (ih (index + 1) (some u)).bind_eq fun s => ?_
          cases s <;> exact .pure rfl

theorem settle_tracks (count limit fuel low high : Nat) (tiers : List Tier) (span : Option Span) :
    Tracks (fun s s' => s' = s.rename π) (settle count limit fuel low high tiers span)
      (settle count limit fuel low high (tiers.map (Tier.rename π)) span) := by
  induction fuel generalizing low high tiers span with
  | zero => exact .throw
  | succ fuel ih =>
    rw [settle, settle]
    refine (sweep_tracks π low high 0 none tiers).bind_eq fun s => ?_
    match s with
    | .emptied more => exact .pure rfl
    | .kept tiers none => exact .pure rfl
    | .kept tiers (some more) => exact ih _ _ _ _

namespace Formula

/-- A structure and the same one renamed. -/
def Renames (f g : Formula) : Prop := f.Shaped ∧ g = f.rename π

variable {f g : Formula}

theorem Shaped.renames (h : f.Shaped) : f.Renames π (f.rename π) := ⟨h, rfl⟩

theorem propagate_tracks (f : Formula) (low high : Nat) :
    Tracks (fun r r' => r' = (r.1.rename π, r.2)) (f.propagate low high)
      ((f.rename π).propagate low high) := by
  unfold propagate
  simp only [tiers_rename, List.isEmpty_map, tierCount_rename, varCount_rename, List.findIdx?_map,
    clauseCount_rename]
  split
  · exact .pure rfl
  · split
    · exact .throw
    · simp only [Function.comp_def, Tier.isEmpty_rename]
      cases f.tiers.findIdx? fun t => t.isEmpty with
      | some index => exact .pure rfl
      | none =>
        refine (settle_tracks π _ _ _ _ _ _ _).bind_eq fun s => ?_
        match s with
        | .emptied span => exact .pure rfl
        | .kept _ none => exact .pure rfl
        | .kept tiers (some span) =>
          have count := clauseCount_rename π (f := ⟨f.permutation, tiers⟩)
          exact .pure (congrArg (fun n => (_, (⟨_, _, _, f.clauseCount - n⟩ : CleanupStatus))) count)

theorem cleanup_tracks (f : Formula) :
    Tracks (fun r r' => r' = (r.1.rename π, r.2)) f.cleanup (f.rename π).cleanup := by
  unfold cleanup
  rw [tierCount_rename]
  exact propagate_tracks π f _ _

theorem cleanupAround_tracks (f : Formula) (index : Nat) :
    Tracks (fun r r' => r' = (r.1.rename π, r.2)) (f.cleanupAround index)
      ((f.rename π).cleanupAround index) := by
  unfold cleanupAround
  rw [tierCount_rename]
  exact propagate_tracks π f _ _

theorem cleaned_tracks (f : Formula) :
    Tracks (fun g g' => g' = g.rename π) f.cleaned (f.rename π).cleaned := by
  refine (cleanup_tracks π f).bind_eq fun r => ?_
  exact .pure rfl

/-! ### Union and intersection -/

theorem union_tracks (f g : Formula) :
    Tracks (fun h h' => h' = h.rename π) (f.union g) ((f.rename π).union (g.rename π)) := by
  unfold union requireSamePermutation
  simp only [permutation_rename, Permutation.rename_inj, isEmpty_rename]
  by_cases same : f.permutation = g.permutation
  · rw [if_pos same, if_pos same]
    refine Tracks.bind (R := fun _ _ => True) (.pure trivial) fun _ _ _ => ?_
    split
    · exact .pure rfl
    · split
      · exact .pure rfl
      · exact .pure (foldl_addTier_rename π g.tiers)
  · rw [if_neg same]
    exact nofun

theorem intersect_tracks (f g : Formula) :
    Tracks (fun h h' => h' = h.rename π) (f.intersect g)
      ((f.rename π).intersect (g.rename π)) := by
  unfold intersect requireSamePermutation
  simp only [permutation_rename, Permutation.rename_inj, isEmpty_rename]
  by_cases same : f.permutation = g.permutation
  · rw [if_pos same, if_pos same]
    refine Tracks.bind (R := fun _ _ => True) (.pure trivial) fun _ _ _ => ?_
    split
    · exact .pure rfl
    · have tiers : (f.rename π).tiers.map
          (fun t => (((g.rename π).tierOver? t.triple).map t.meet).getD t) =
          (f.tiers.map fun t => ((g.tierOver? t.triple).map t.meet).getD t).map
            (Tier.rename π) := by
        rw [tiers_rename, List.map_map, List.map_map]
        refine List.map_congr_left fun t _ => ?_
        simp only [Function.comp_apply, Tier.triple_rename, tierOver?_rename, Option.map_map]
        cases g.tierOver? t.triple with
        | none => rfl
        | some u => exact Tier.meet_rename π
      rw [tiers]
      exact cleaned_tracks π ⟨f.permutation, _⟩
  · rw [if_neg same]
    exact nofun

theorem union_renames (hf : f.Shaped) (hg : g.Shaped) :
    Tracks (Renames π) (f.union g) ((f.rename π).union (g.rename π)) := by
  by_cases same : f.permutation = g.permutation
  · exact ((union_tracks π f g).with_returns (union_returns hf hg same)).mono
      fun _ _ ⟨unites, same⟩ => ⟨unites.shaped, same⟩
  · unfold union requireSamePermutation
    rw [if_neg same]
    exact nofun

theorem intersect_renames (hf : f.Shaped) :
    Tracks (Renames π) (f.intersect g) ((f.rename π).intersect (g.rename π)) := by
  by_cases same : f.permutation = g.permutation
  · exact ((intersect_tracks π f g).with_returns (intersect_returns hf same)).mono
      fun _ _ ⟨intersects, same⟩ => ⟨intersects.shrinks.shaped hf, same⟩
  · unfold intersect requireSamePermutation
    rw [if_neg same]
    exact nofun

/-! ### Restriction -/

theorem concretize_tracks (f : Formula) (v : Nat) (value : Bool) :
    Tracks (fun g g' => g' = g.rename π) (f.concretize v value)
      ((f.rename π).concretize (π v) value) := by
  unfold concretize
  simp only [isEmpty_rename, permutation_rename, Permutation.contains_rename]
  split
  · exact .pure rfl
  · split
    · refine Tracks.bind (R := List.Forall₂ fun u u' => u' = u.rename π) ?_ fun us us' same => ?_
      · refine Tracks.mapM fun t _ => ?_
        rw [Tier.triple_rename, Triple.contains_rename]
        split
        · exact Tier.concretize_tracks π t v value
        · exact .pure rfl
      · obtain rfl := forall₂_eq_map.mp same
        exact cleaned_tracks π ⟨f.permutation, us⟩
    · exact .throw

theorem concretize_renames (hf : f.Shaped) (v : Nat) (value : Bool) :
    Tracks (Renames π) (f.concretize v value) ((f.rename π).concretize (π v) value) := by
  by_cases known : v ∈ f.permutation.names
  · exact ((concretize_tracks π f v value).with_returns (concretize_returns hf known)).mono
      fun _ _ ⟨restricts, same⟩ => ⟨restricts.shrinks.shaped hf, same⟩
  · have unknown : ¬ f.permutation.contains v = true := by simpa [Permutation.contains] using known
    unfold concretize
    rw [isEmpty_rename, if_neg unknown]
    split
    · exact .pure (hf.renames π)
    · exact .throw

theorem concretizeOctant_renames (hf : f.Shaped) (w : Triple) (o : Octant) :
    Tracks (Renames π) (f.concretizeOctant w o)
      ((f.rename π).concretizeOctant (w.rename π) o) := by
  unfold concretizeOctant
  refine (concretize_renames π hf w.a o.a).bind_and_eq fun g hg => ?_
  refine (concretize_renames π hg w.b o.b).bind_and_eq fun h hh => ?_
  exact concretize_renames π hh w.c o.c

theorem tier_tracks (f : Formula) (index : Nat) :
    Tracks (fun t t' => t' = t.rename π) (f.tier index) ((f.rename π).tier index) := by
  unfold tier
  rw [tiers_rename, List.getElem?_map]
  cases f.tiers[index]? with
  | none => exact .throw
  | some t => exact .pure rfl

theorem removeOctant_tracks (f : Formula) (index : Nat) (o : Octant) :
    Tracks (fun g g' => g' = g.rename π) (f.removeOctant index o)
      ((f.rename π).removeOctant index o) := by
  unfold removeOctant
  refine (tier_tracks π f index).bind_eq fun t => ?_
  exact .pure (congrArg (Formula.mk _) (by rw [List.map_set]; rfl))

/-! ### Splitting and completion -/

theorem complete_tracks (f : Formula) (more : Permutation) :
    Tracks (fun r r' => r' = (r.1.rename π, r.2)) (f.complete more)
      ((f.rename π).complete (more.rename π)) := by
  unfold complete
  simp only [tiers_rename, List.find?_map, Function.comp_def, isWindow, permutation_rename,
    Tier.triple_rename, Permutation.isWindow_rename]
  cases f.tiers.find? fun t => !f.permutation.isWindow t.triple with
  | some t => exact .throw
  | none =>
    have renamed (p : Permutation) :
        (⟨p.rename π, (p.rename π).windows.map (f.rename π).allowed⟩ : Formula) =
          (⟨p, p.windows.map f.allowed⟩ : Formula).rename π := by
      refine congrArg (Formula.mk _) ?_
      rw [Permutation.windows_rename, List.map_map, List.map_map]
      exact List.map_congr_left fun w _ => allowed_rename π
    dsimp only [Option.map]
    rw [Permutation.names_rename π (p := more), Permutation.addAll_rename, renamed]
    exact cleanup_tracks π _

theorem covers_rename {t : Tier} {pair : Option (Nat × Nat)} :
    covers (t.rename π) (pair.map (Prod.map π π)) = covers t pair := by
  cases pair <;> simp [covers]

theorem firstPair?_rename : (f.rename π).firstPair? = f.firstPair?.map (Prod.map π π) := by
  unfold firstPair?
  rw [permutation_rename, Permutation.names_rename]
  match f.permutation.names with
  | [] | [_] | _ :: _ :: _ => rfl

theorem lastPair?_rename : (f.rename π).lastPair? = f.lastPair?.map (Prod.map π π) := by
  unfold lastPair?
  rw [permutation_rename, Permutation.names_rename, ← List.map_reverse]
  match f.permutation.names.reverse with
  | [] | [_] | _ :: _ :: _ => rfl

theorem ofTier_rename {t : Tier} : ofTier (t.rename π) = (ofTier t).rename π := by
  have names : (⟨.ofNames (t.rename π).triple.names, []⟩ : Formula) =
      (⟨.ofNames t.triple.names, []⟩ : Formula).rename π :=
    congrArg (Formula.mk · []) (Permutation.addAll_rename π (p := .empty) t.triple.names)
  unfold ofTier
  rw [names, addTier_rename]

theorem prependVariable_tracks (f : Formula) (v : Nat) :
    Tracks (fun g g' => g' = g.rename π) (f.prependVariable v)
      ((f.rename π).prependVariable (π v)) := by
  unfold prependVariable Permutation.insert
  by_cases known : v ∈ f.permutation.names
  · rw [dif_pos known]
    exact nofun
  · have known' : π v ∉ (f.rename π).permutation.names := by simpa using known
    rw [dif_neg known, dif_neg known', if_pos (Nat.zero_le _), if_pos (Nat.zero_le _)]
    exact .pure rfl

theorem join?_tracks (f : Formula) (t : Tier) :
    Tracks (fun g g' => g' = g.map (rename π)) (f.join? t) ((f.rename π).join? (t.rename π)) := by
  have fresh : (t.rename π).triple.names.filter (!(f.rename π).permutation.contains ·) =
      (t.triple.names.filter (!f.permutation.contains ·)).map π := by
    rw [Tier.triple_rename, Triple.names_rename, List.filter_map]
    simp [Function.comp_def]
  unfold join?
  rw [fresh, Tier.triple_rename, tierOver?_rename, lastPair?_rename, firstPair?_rename,
    covers_rename, covers_rename, Option.isSome_map, addTier_rename]
  match t.triple.names.filter (!f.permutation.contains ·) with
  | [] =>
    refine .pure ?_
    split <;> rfl
  | [v] =>
    dsimp only [List.map]
    rw [appendVariable_rename, addTier_rename]
    split
    · exact .pure rfl
    · split
      · refine (prependVariable_tracks π f v).bind_eq fun g => ?_
        rw [addTier_rename, sortTiers_rename]
        exact .pure rfl
      · exact .pure rfl
  | _ :: _ :: _ => exact .pure rfl

theorem distribute_tracks (t : Tier) (compact : List Formula) :
    Tracks (fun fs fs' => fs' = fs.map (rename π)) (distribute t compact)
      (distribute (t.rename π) (compact.map (rename π))) := by
  induction compact with
  | nil => exact .pure (congrArg (fun f => [f]) (ofTier_rename π))
  | cons f rest ih =>
    unfold distribute
    refine (join?_tracks π f t).bind_eq fun joined => ?_
    cases joined with
    | some joined => exact .pure rfl
    | none =>
      refine ih.bind_eq fun fs => ?_
      exact .pure rfl

theorem split_tracks (f : Formula) :
    Tracks (fun fs fs' => fs' = fs.map (rename π)) f.split (f.rename π).split := by
  refine Tracks.foldlM (fun t _ fs _ same => ?_) rfl
  subst same
  exact distribute_tracks π t fs

end Formula

/-- Structures and the same ones renamed. -/
def RenamesAll (group group' : List Formula) : Prop :=
  (∀ f ∈ group, f.Shaped) ∧ group' = group.map (Formula.rename π)

/-! ### Structures -/

theorem completeAllFrom_tracks (more : Permutation) (index : Nat) (fs : List Formula) :
    Tracks (fun d d' => d' = ⟨d.formulas.map (Formula.rename π), d.empty?⟩)
      (completeAllFrom more index fs)
      (completeAllFrom (more.rename π) index (fs.map (Formula.rename π))) := by
  induction fs generalizing index with
  | nil => exact .pure rfl
  | cons f rest ih =>
    rw [List.map_cons, completeAllFrom, completeAllFrom]
    refine (Formula.complete_tracks π f more).bind_eq fun r => ?_
    dsimp only
    rw [Formula.isEmpty_rename]
    split
    · exact .pure rfl
    · refine (ih (index + 1)).bind_eq fun d => ?_
      exact .pure rfl

theorem Formula.structures_shadows (f : Formula) :
    Shadows (fun fs fs' => fs' = fs.map (Formula.rename π)) anyErrors f.structures
      (f.rename π).structures := by
  unfold structures
  refine Shadows.bind_eq (.lift (Formula.split_tracks π f)) fun fs => ?_
  refine Shadows.bind_eq (.lift (completeAllFrom_tracks π f.permutation 0 fs)) fun done => ?_
  dsimp only
  cases done.empty? with
  | some e => exact .throw trivial
  | none => exact .pure rfl

end TripletSat
