import TripletSat.Proofs.Tables.Entries

/-!
The operations through the tables. Each does to a formula with its tables what it does to the formula
alone, and leaves the tables of the names and tiers that come of it; where it faults, it faults alike.
-/

namespace TripletSat

namespace Formula

variable {f g : Formula}

/-! ### Growing -/

theorem tiers_mergeTier (h : f.Distinct) {i : Nat} {t u : Tier} (at' : f.tiers[i]? = some u)
    (same : u.triple.sameVariables t.triple = true) :
    (f.mergeTier t).tiers = f.tiers.set i (u.merge t) := by
  apply List.ext_getElem?
  intro j
  rw [mergeTier, List.getElem?_map]
  by_cases here : i = j
  · subst here
    obtain ⟨bound, -⟩ := List.getElem?_eq_some_iff.mp at'
    rw [at', List.getElem?_set_self bound, Option.map_some, if_pos same]
  · rw [List.getElem?_set_ne here]
    cases other : f.tiers[j]? with
    | none => rfl
    | some w =>
      refine congrArg some (if_neg fun same' => here ?_)
      have equal := Triple.sortedNames_eq_iff.mpr
        (Triple.sameVariables_trans same (Triple.sameVariables_comm same'))
      have key : f.keys[i]? = some u.triple.sortedNames := by simp [keys, at']
      have key' : f.keys[j]? = some u.triple.sortedNames := by simp [keys, other, equal]
      obtain ⟨bound, -⟩ := List.getElem?_eq_some_iff.mp key
      exact (List.getElem?_inj bound h.nodup_keys).mp (key.trans key'.symm)

theorem indexed_appendTier {t : Tier} (fresh : t.triple.sortedNames ∉ f.keys) :
    (f.appendTier t).indexed =
      let roster := (f.permutation.addAll t.triple.names).roster
      ⟨roster, f.tiers ++ [t.orderedBy roster.rank],
        f.indexed.places.insert t.triple.sortedNames f.tiers.length⟩ := by
  have order := Permutation.orderedBy_rank_roster (p := f.permutation.addAll t.triple.names) (t := t)
    fun v hv => Permutation.mem_addAll.mpr (.inr hv)
  have keys : (f.appendTier t).keys = f.keys ++ [t.triple.sortedNames] := by
    simp [Formula.keys, appendTier, Tier.sortedNames_orderedBy]
  have places := Table.insert_ofList fresh
  rw [show f.keys.length = f.tiers.length from List.length_map _] at places
  dsimp only
  rw [indexed, keys, order, ← places]
  rfl

theorem addTier_indexed (h : f.Placed) (t : Tier) :
    f.indexed.addTier t = .ok (f.addTier t).indexed := by
  unfold Indexed.addTier addTier
  cases place : f.indexed.places t.triple.sortedNames with
  | none =>
    have fresh : t.triple.sortedNames ∉ f.keys := Table.ofList_eq_none_iff.mp place
    have apart : ¬ f.tiers.any (·.triple.sameVariables t.triple) = true := by
      intro held
      obtain ⟨u, hu, same⟩ := List.any_eq_true.mp held
      exact fresh (List.mem_map.mpr ⟨u, hu, Triple.sortedNames_eq_iff.mpr same⟩)
    rw [if_neg apart]
    have roster : f.indexed.roster.addAll t.triple.names = (f.permutation.addAll t.triple.names).roster :=
      Permutation.roster_addAll _
    dsimp only
    rw [roster, indexed_appendTier fresh]
    rfl
  | some i =>
    obtain ⟨u, at', key⟩ : ∃ u, f.tiers[i]? = some u ∧ u.triple.sortedNames = t.triple.sortedNames := by
      have found := (Table.ofList_eq_some_iff h.distinct.nodup_keys).mp place
      exact Option.map_eq_some_iff.mp (List.getElem?_map.symm.trans found)
    have same := Triple.sortedNames_eq_iff.mp key
    have held : f.tiers.any (·.triple.sameVariables t.triple) = true :=
      List.any_eq_true.mpr ⟨u, List.mem_of_getElem? at', same⟩
    have merged : u.union t = .ok (u.merge t) := by
      rw [Tier.union, Tier.requireSame, if_pos same]
      rfl
    have here : f.indexed.tiers[i]? = some u := at'
    rw [if_pos held]
    simp only [Indexed.tier, here]
    show (u.union t >>= fun u' => pure { f.indexed with tiers := f.tiers.set i u' }) = _
    rw [bind_of_ok merged]
    refine congrArg Except.ok ?_
    rw [← tiers_mergeTier h.distinct at' same]
    exact indexed_of_triples (map_triple_mergeTier f t)

/-- It does not matter whether a tier is put in order, and its variables known, beforehand. -/
theorem addTier_sorted (known : f.Known) (t : Tier) :
    (⟨f.permutation.addAll t.triple.names, f.tiers⟩ : Formula).addTier
      (t.orderedBy (f.permutation.addAll t.triple.names).index) = f.addTier t := by
  have alike (u : Tier) {rank : Nat → Nat} :
      u.triple.sameVariables (t.orderedBy rank).triple = u.triple.sameVariables t.triple := by
    rw [Bool.eq_iff_iff, ← Triple.sortedNames_eq_iff, Tier.sortedNames_orderedBy, Triple.sortedNames_eq_iff]
  unfold addTier
  simp only [alike]
  by_cases held : f.tiers.any (·.triple.sameVariables t.triple) = true
  · obtain ⟨u, hu, same⟩ := List.any_eq_true.mp held
    have present := Permutation.addAll_eq_self fun v hv =>
      known u hu v ((Triple.sameVariables_iff.mp same v).mpr hv)
    rw [if_pos held, if_pos held, mergeTier, mergeTier]
    dsimp only
    rw [present]
    refine congrArg (Formula.mk f.permutation) (List.map_congr_left fun w _ => ?_)
    rw [alike]
    split
    · rename_i same'
      exact Tier.merge_orderedBy (Triple.sameVariables_comm same')
    · rfl
  · rw [if_neg held, if_neg held, appendTier, appendTier]
    dsimp only
    have ascends := ascends_orderedBy (u := t) (p := f.permutation.addAll t.triple.names)
      fun v hv => Permutation.mem_addAll.mpr (.inr hv)
    rw [Permutation.addAll_eq_self fun v hv =>
      Permutation.mem_addAll.mpr (.inr (Tier.mem_names_orderedBy.mp hv)),
      Tier.orderedBy_of_ascending ascends.1 ascends.2]

theorem add_indexed (h : f.Placed) (clause : Clause) :
    f.indexed.add clause = .ok (f.add clause).indexed := by
  have sorted := addTier_sorted h.known (.ofClause clause)
  have added := addTier_indexed (h.grow clause.triple.names)
    ((Tier.ofClause clause).orderedBy (f.permutation.addAll clause.triple.names).index)
  have roster : f.indexed.roster.addAll clause.triple.names =
      (f.permutation.addAll clause.triple.names).roster := Permutation.roster_addAll _
  have order := Permutation.orderedBy_rank_roster (t := .ofClause clause)
    (p := f.permutation.addAll clause.triple.names) fun v hv => Permutation.mem_addAll.mpr (.inr hv)
  unfold Indexed.add add
  dsimp only
  rw [roster, order, ← sorted]
  exact added

theorem ofClauses_indexed (clauses : List Clause) :
    Indexed.ofClauses clauses = .ok (ofClauses clauses).indexed := by
  have step {f : Formula} (h : f.Placed) :
      clauses.foldlM Indexed.add f.indexed = .ok (clauses.foldl add f).indexed := by
    induction clauses generalizing f with
    | nil => rfl
    | cons c rest ih =>
      rw [List.foldlM_cons, add_indexed h, List.foldl_cons]
      exact ih (h.addTier _)
  exact step (f := empty) (.bare _)

theorem prependVariable_indexed (v : Nat) :
    f.indexed.prependVariable v = indexed <$> f.prependVariable v := by
  have inserted : f.indexed.roster.insert 0 v = Permutation.roster <$> f.permutation.insert 0 v :=
    Permutation.roster_insert 0 v
  unfold Indexed.prependVariable prependVariable
  rw [inserted]
  cases f.permutation.insert 0 v <;> rfl

theorem reindex_tiers (h : f.Distinct) : Indexed.reindex f.tiers = .ofList f.keys := by
  funext key
  have entered : Table.empty.enter 0 f.keys key = _ := Table.enter_apply h.nodup_keys .empty 0
  refine entered.trans ?_
  simp [Table.empty]

theorem sortTiers_indexed (h : f.Placed) : f.indexed.sortTiers = f.sortTiers.indexed := by
  have tiers : f.indexed.tiers.mergeSort (fun t u =>
      f.indexed.roster.rank t.triple.a ≤ f.indexed.roster.rank u.triple.a) = f.sortTiers.tiers := by
    have sorted := List.map_mergeSort (f := id) (l := f.tiers)
      (r := fun t u => f.permutation.roster.rank t.triple.a ≤ f.permutation.roster.rank u.triple.a)
      (s := fun t u => f.permutation.index t.triple.a ≤ f.permutation.index u.triple.a)
      fun t ht u hu => by
        have first (w : Tier) (hw : w ∈ f.tiers) : w.triple.a ∈ f.permutation.names :=
          h.known w hw _ (Triple.name_mem_names _ .a)
        rw [Permutation.rank_roster (first t ht), Permutation.rank_roster (first u hu)]
        simp
    rwa [List.map_id, List.map_id] at sorted
  unfold Indexed.sortTiers
  dsimp only
  rw [tiers, reindex_tiers h.sortTiers.distinct]
  rfl

/-! ### Removing octants -/

theorem removeOctant_indexed (index : Nat) (o : Octant) :
    f.indexed.removeOctant index o = indexed <$> f.removeOctant index o := by
  have here : f.indexed.tiers[index]? = f.tiers[index]? := rfl
  unfold Indexed.removeOctant removeOctant Indexed.tier tier
  rw [here]
  cases at' : f.tiers[index]? with
  | none => rfl
  | some t =>
    have triples : (f.tiers.set index { t with octants := t.octants.erase o }).map Tier.triple =
        f.tiers.map Tier.triple := by
      obtain ⟨bound, rfl⟩ := List.getElem?_eq_some_iff.mp at'
      rw [List.map_set, ← List.getElem_map Tier.triple (h := by simpa using bound),
        List.set_getElem_self]
    exact congrArg Except.ok (indexed_of_triples triples)

theorem formula_indexed (f : Formula) : f.indexed.formula = f :=
  congrArg (Formula.mk · f.tiers) (Permutation.ofNames_names f.permutation)

theorem propagate_indexed (low high : Nat) :
    f.indexed.propagate low high = (fun r => (r.1.indexed, r.2)) <$> f.propagate low high := by
  unfold Indexed.propagate
  rw [formula_indexed]
  cases run : f.propagate low high with
  | error e => rfl
  | ok r =>
    obtain ⟨g, status⟩ := r
    obtain ⟨p, tiers⟩ := g
    obtain ⟨rfl, rest⟩ : f.ShrinksTo ⟨p, tiers⟩ := propagate_ensures.of_canReturn run
    show (if tiers.isEmpty && !f.tiers.isEmpty then pure (f.indexed.clear, status)
      else pure ({ f.indexed with tiers }, status)) = Except.ok (indexed ⟨_, tiers⟩, status)
    by_cases cleared : (tiers.isEmpty && !f.tiers.isEmpty) = true
    · rw [if_pos cleared]
      obtain rfl : tiers = [] := List.isEmpty_iff.mp (Bool.and_eq_true_iff.mp cleared).1
      rfl
    · have triples : tiers.map Tier.triple = f.tiers.map Tier.triple := by
        rcases rest with gone | shrunk
        · obtain rfl : tiers = [] := gone
          have none : f.tiers = [] := by simpa using cleared
          rw [none]
        · exact Tier.map_triple_of_forall₂ shrunk
      rw [if_neg cleared]
      exact congrArg (fun x => Except.ok (x, status)) (indexed_of_triples triples)

theorem cleanup_indexed :
    f.indexed.cleanup = (fun r => (r.1.indexed, r.2)) <$> f.cleanup :=
  propagate_indexed _ _

theorem cleaned_indexed : f.indexed.cleaned = indexed <$> f.cleaned := by
  unfold Indexed.cleaned cleaned
  rw [cleanup_indexed]
  cases f.cleanup <;> rfl

/-- A cleanup after each tier was restricted by itself. -/
theorem restricted_indexed {α : Type} {k : Tier → Checked Tier} {onward : Indexed → Checked α}
    {onward' : Formula → Checked α} (each : ∀ t ∈ f.tiers, Ensures (k t) t.ShrinksTo)
    (same : ∀ g : Formula, onward g.indexed = onward' g) :
    (f.tiers.mapM k >>= fun tiers => onward { f.indexed with tiers }) =
      f.tiers.mapM k >>= fun tiers => onward' { f with tiers } := by
  cases run : f.tiers.mapM k with
  | error e => rfl
  | ok tiers =>
    have shrunk := (Ensures.mapM each).of_canReturn run
    show onward { f.indexed with tiers } = onward' { f with tiers }
    rw [indexed_of_triples (Tier.map_triple_of_forall₂ shrunk), same]

theorem concretize_indexed (v : Nat) (value : Bool) :
    f.indexed.concretize v value = indexed <$> f.concretize v value := by
  have contains : f.indexed.roster.contains v = f.permutation.contains v := Permutation.contains_roster v
  unfold Indexed.concretize concretize
  rw [contains]
  by_cases empty : f.isEmpty = true
  · rw [if_pos empty, if_pos (show f.indexed.isEmpty = true from empty)]
    rfl
  · rw [if_neg empty, if_neg (show ¬ f.indexed.isEmpty = true from empty)]
    split
    · rw [map_bind]
      exact restricted_indexed (fun _ _ => Tier.concretize_where_ensures) fun g => g.cleaned_indexed
    · rfl

theorem concretizeOctant_indexed (triple : Triple) (o : Octant) :
    f.indexed.concretizeOctant triple o = indexed <$> f.concretizeOctant triple o := by
  unfold Indexed.concretizeOctant concretizeOctant
  simp only [concretize_indexed, map_bind, bind_map_left]

/-! ### Two formulas -/

/-- The tiers found through the table are those that a search finds. -/
theorem combined_indexed (op : Tier → Tier → Checked Tier) :
    f.indexed.combined g.indexed op = f.tiers.mapM fun t =>
      match g.tierOver? t.triple with
      | some u => op t u
      | none => pure t := by
  refine congrArg (List.mapM · f.tiers) (funext fun t => ?_)
  rw [tierWithKey?_indexed, ← tierOver?_eq]
  cases g.tierOver? t.triple <;> rfl

theorem requireSameRoster_indexed : f.indexed.requireSameRoster g.indexed = f.requireSamePermutation g :=
  if_congr ⟨Permutation.eq_of_names, congrArg Permutation.names⟩ rfl rfl

theorem union_indexed (hf : f.Placed) : f.indexed.union g.indexed = indexed <$> f.union g := by
  have fold {tiers : List Tier} : ∀ {f : Formula}, f.Placed →
      tiers.foldlM Indexed.addTier f.indexed = .ok (tiers.foldl addTier f).indexed := by
    induction tiers with
    | nil => exact fun _ => rfl
    | cons t rest ih =>
      intro f hf
      rw [List.foldlM_cons, addTier_indexed hf]
      exact ih (hf.addTier t)
  unfold Indexed.union union
  rw [requireSameRoster_indexed, map_bind]
  refine congrArg _ (funext fun _ => ?_)
  by_cases second : g.isEmpty = true
  · rw [if_pos second, if_pos (show g.indexed.isEmpty = true from second)]
    rfl
  · rw [if_neg second, if_neg (show ¬ g.indexed.isEmpty = true from second)]
    by_cases first : f.isEmpty = true
    · rw [if_pos first, if_pos (show f.indexed.isEmpty = true from first)]
      rfl
    · rw [if_neg first, if_neg (show ¬ f.indexed.isEmpty = true from first)]
      exact fold hf

theorem subtract_indexed :
    f.indexed.subtract g.indexed = (fun r => (r.1.indexed, r.2)) <$> f.subtract g := by
  unfold Indexed.subtract subtract
  rw [combined_indexed, map_bind]
  refine restricted_indexed (fun t _ => ?_) fun h => h.cleanup_indexed
  split
  · exact Tier.subtract_ensures
  · exact .pure (.refl t)

theorem intersect_indexed : f.indexed.intersect g.indexed = indexed <$> f.intersect g := by
  have each (t : Tier) : (match g.tierOver? t.triple with
      | some u => t.intersect u
      | none => pure t) = (pure (((g.tierOver? t.triple).map t.meet).getD t) : Checked Tier) := by
    cases found : g.tierOver? t.triple with
    | none => rfl
    | some u =>
      have same := Triple.sameVariables_comm (tierOver?_some found).2
      simp only [Tier.intersect, Tier.requireSame, if_pos same]
      rfl
  unfold Indexed.intersect intersect
  rw [requireSameRoster_indexed, map_bind, combined_indexed]
  refine congrArg _ (funext fun _ => ?_)
  by_cases empty : (f.isEmpty || g.isEmpty) = true
  · rw [if_pos empty, if_pos (show (f.indexed.isEmpty || g.indexed.isEmpty) = true from empty)]
    rfl
  · rw [if_neg empty, if_neg (show ¬ (f.indexed.isEmpty || g.indexed.isEmpty) = true from empty)]
    simp only [each, List.mapM_pure, pure_bind]
    rw [indexed_of_triples, cleaned_indexed]
    rw [List.map_map]
    refine List.map_congr_left fun t _ => ?_
    simp only [Function.comp]
    cases g.tierOver? t.triple <;> rfl

/-! ### Completion -/

theorem windows_roster (p : Permutation) :
    (List.range (p.names.length - 2)).mapM p.roster.window = .ok p.windows := by
  have each : ∀ i ∈ List.range (p.names.length - 2),
      Returns (p.roster.window i) fun w => p.windows[i]? = some w := by
    intro i hi
    obtain ⟨w, at'⟩ : ∃ w, p.windows[i]? = some w := by
      refine ⟨_, List.getElem?_eq_getElem ?_⟩
      rw [Permutation.length_windows]
      exact List.mem_range.mp hi
    obtain ⟨a, b, c⟩ := Permutation.getElem?_windows.mp at'
    refine ⟨w, ?_, at'⟩
    unfold Roster.window Roster.get? Permutation.roster
    dsimp only
    rw [a, b, c]
    exact w.ofNames_names
  obtain ⟨ws, run, found⟩ := Returns.mapM each
  have same : ws = p.windows := by
    have count := found.length_eq
    rw [List.length_range] at count
    refine Permutation.eq_windows count.symm fun i w at' => ?_
    obtain ⟨j, hj, here⟩ := forall₂_getElem? found at'
    obtain ⟨bound, rfl⟩ := List.getElem?_eq_some_iff.mp hj
    rw [List.getElem_range] at here
    exact Permutation.getElem?_windows.mp here
  rw [run, same]

theorem allowed_indexed (w : Triple) : f.indexed.allowed w = .ok (f.allowed w) := by
  unfold Indexed.allowed allowed
  rw [tierWithKey?_indexed, ← tierOver?_eq]
  cases found : f.tierOver? w with
  | none => rfl
  | some u =>
    have same : (Tier.complete w).triple.sameVariables u.triple = true :=
      Triple.sameVariables_comm (tierOver?_some found).2
    show (Tier.complete w).subtract u = .ok ((Tier.complete w).minus u)
    rw [Tier.subtract, if_pos (show (Tier.complete w).octants.isFull = true from rfl),
      Tier.requireSame, if_pos same]
    rfl

theorem complete_indexed (more : Permutation) :
    f.indexed.complete more = (fun r => (r.1.indexed, r.2)) <$> f.complete more := by
  let q := f.permutation.addAll more.names
  have roster : f.indexed.roster.addAll more.names = q.roster := Permutation.roster_addAll _
  have allowed : q.windows.mapM f.indexed.allowed = .ok (q.windows.map f.allowed) := by
    simp only [funext allowed_indexed]
    exact List.mapM_pure
  have windowed : (⟨q, q.windows.map f.allowed⟩ : Formula).Windowed := by
    simp [Windowed, Function.comp_def, triple_allowed]
  unfold Indexed.complete complete
  show (match f.tiers.find? (!f.isWindow ·) with | some t => _ | none => _) = _
  cases f.tiers.find? (!f.isWindow ·) with
  | some t => rfl
  | none =>
    dsimp only
    rw [roster]
    refine (bind_of_ok (windows_roster q)).trans ((bind_of_ok allowed).trans ?_)
    rw [reindex_tiers (f := ⟨q, q.windows.map f.allowed⟩) windowed.distinct]
    exact cleanup_indexed (f := ⟨q, q.windows.map f.allowed⟩)

/-! ### Histories -/

/-- Each operation through the tables does what it does by searching, and its tables are again those
of the names and tiers it leaves. -/
theorem apply_indexed {op : Operation Formula} (h : f.Placed) :
    f.indexed.apply (op.map indexed) = indexed <$> f.apply op := by
  have first {x : Checked (Indexed × CleanupStatus)} {y : Checked (Formula × CleanupStatus)}
      (same : x = (fun r => (r.1.indexed, r.2)) <$> y) :
      (do return (← x).1) = indexed <$> (do return (← y).1) := by
    subst same
    cases y <;> rfl
  cases op with
  | add clause => exact add_indexed h clause
  | addTier t => exact addTier_indexed h t
  | appendVariable v =>
    exact congrArg (fun roster => Except.ok (Indexed.mk roster _ _)) (Permutation.roster_add v)
  | prependVariable v => exact prependVariable_indexed v
  | sortTiers => exact congrArg Except.ok (sortTiers_indexed h)
  | clear => rfl
  | removeOctant index o => exact removeOctant_indexed index o
  | cleanup => exact first cleanup_indexed
  | cleanupAround index => exact first (propagate_indexed _ _)
  | subtract g => exact first subtract_indexed
  | complete more => exact first (complete_indexed more)
  | union g => exact union_indexed h
  | intersect g => exact intersect_indexed
  | concretize v value => exact concretize_indexed v value
  | concretizeOctant triple o => exact concretizeOctant_indexed triple o

end Formula
end TripletSat
