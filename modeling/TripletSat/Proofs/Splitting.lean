import TripletSat.Proofs.Algebra
import TripletSat.Proofs.Clauses
import TripletSat.Split

/-!
Splitting. A compact formula that takes a tier at one of its ends, or into one of its own tiers, is
compact again, so the compact formulas of a formula hold its clauses and have windows only.
-/

namespace TripletSat

theorem Permutation.insert_returns {p : Permutation} {v : Nat} (fresh : v ∉ p.names) :
    Returns (p.insert 0 v) fun q => q.names = v :: p.names := by
  unfold insert
  rw [dif_neg fresh, if_pos (Nat.zero_le _)]
  exact Returns.pure rfl

/-- The octants of a tier over the same variables, in another order of these. -/
structure Tier.Reorders (u t : Tier) : Prop where
  same : u.triple.sameVariables t.triple = true
  size : u.size = t.size
  admits : ∀ τ, u.Admits τ ↔ t.Admits τ

theorem OctantSet.size_swap (s : OctantSet) (p q : Place) : (s.swap p q).size = s.size := by
  have ab (s : OctantSet) : (s.swap .a .b).size = s.size := by
    revert s
    exact forall_bits (by decide +kernel)
  have ac (s : OctantSet) : (s.swap .a .c).size = s.size := by
    revert s
    exact forall_bits (by decide +kernel)
  have bc (s : OctantSet) : (s.swap .b .c).size = s.size := by
    revert s
    exact forall_bits (by decide +kernel)
  match p, q with
  | .a, .b | .b, .a => exact ab s
  | .a, .c | .c, .a => exact ac s
  | .b, .c | .c, .b => exact bc s
  | .a, .a | .b, .b | .c, .c => rfl

theorem Tier.reorders_orderedBy (t : Tier) (rank : Nat → Nat) : (t.orderedBy rank).Reorders t where
  same := Triple.sameVariables_iff.mpr fun _ => mem_names_orderedBy
  size := by
    unfold orderedBy
    dsimp only
    repeat' split
    all_goals simp only [size, swap, OctantSet.size_swap]
  admits _ := admits_orderedBy

namespace Formula

theorem Windowed.known {f : Formula} (h : f.Windowed) : f.Known :=
  fun _ ht _ => Permutation.mem_names_of_mem_windows (h.triple_mem ht)

/-- A tier over variables that no other one is over comes to the end. -/
theorem tiers_addTier {f : Formula} {t : Tier}
    (apart : ∀ u ∈ f.tiers, u.triple.sameVariables t.triple = false) :
    ∃ u : Tier, u.Reorders t ∧ (f.addTier t).tiers = f.tiers ++ [u] := by
  unfold addTier
  rw [if_neg]
  · exact ⟨_, t.reorders_orderedBy _, rfl⟩
  · intro held
    obtain ⟨u, hu, same⟩ := List.any_eq_true.mp held
    exact Bool.false_ne_true ((apart u hu).symm.trans same)

theorem tiers_addTier_ne_nil (f : Formula) (t : Tier) : (f.addTier t).tiers ≠ [] := by
  unfold addTier
  split
  · rename_i held
    obtain ⟨u, hu, -⟩ := List.any_eq_true.mp held
    exact List.ne_nil_of_mem (List.mem_map_of_mem hu)
  · exact List.append_ne_nil_of_right_ne_nil _ (List.cons_ne_nil _ _)

/-- A tier with a variable that no other one mentions is added in the order of the permutation. -/
theorem addTier_of_fresh {f : Formula} {t : Tier} {v : Nat} (hv : v ∈ t.triple.names)
    (fresh : ∀ u ∈ f.tiers, v ∉ u.triple.names)
    (known : ∀ w ∈ t.triple.names, w ∈ f.permutation.names) :
    f.addTier t = ⟨f.permutation, f.tiers ++ [t.orderedBy f.permutation.index]⟩ := by
  unfold addTier appendTier
  rw [if_neg, Permutation.addAll_eq_self known]
  intro held
  obtain ⟨u, hu, same⟩ := List.any_eq_true.mp held
  exact fresh u hu ((Triple.sameVariables_iff.mp same v).mpr hv)

theorem orderedBy_index {p : Permutation} {t : Tier} {w : Triple} (hw : w ∈ p.windows)
    (same : t.triple.sameVariables w = true) : (t.orderedBy p.index).triple = w :=
  Tier.orderedBy_triple same (Permutation.index_lt_of_mem_windows hw).1
    (Permutation.index_lt_of_mem_windows hw).2

/-- A structure grown by a variable of a tier takes the tier over the window that this gave. -/
theorem Windowed.addTier_grown {f : Formula} {p : Permutation} {t : Tier} {w : Triple} {v : Nat}
    (h : f.Windowed) (hv : v ∈ t.triple.names) (fresh : v ∉ f.permutation.names)
    (grown : ∀ x, x ∈ p.names ↔ x ∈ f.permutation.names ∨ x = v) (hw : w ∈ p.windows)
    (same : t.triple.sameVariables w = true) :
    ((⟨p, f.tiers⟩ : Formula).addTier t).permutation = p ∧
      ((⟨p, f.tiers⟩ : Formula).addTier t).tiers.map Tier.triple = f.permutation.windows ++ [w] ∧
      ∀ x, x ∈ p.names ↔ x ∈ f.permutation.names ∨ x ∈ t.triple.names := by
  have known (x : Nat) (hx : x ∈ t.triple.names) : x ∈ p.names :=
    Permutation.mem_names_of_mem_windows hw ((Triple.sameVariables_iff.mp same x).mp hx)
  have added := addTier_of_fresh (f := ⟨p, f.tiers⟩) hv (fun u hu hv => fresh (h.known u hu v hv))
    known
  rw [added]
  refine ⟨rfl, ?_, fun x => ⟨?_, fun either => either.elim ?_ (known x)⟩⟩
  · rw [List.map_append, h, List.map_singleton, orderedBy_index hw same]
  · intro member
    rcases (grown x).mp member with old | rfl
    · exact .inl old
    · exact .inr hv
  · intro old
    exact (grown x).mpr (.inl old)

theorem violates_sortTiers {f : Formula} {τ : Valuation} :
    f.sortTiers.Violates τ ↔ f.Violates τ := by
  unfold Violates sortTiers
  simp only [List.mem_mergeSort]

/-- Sorting puts windows into their order. -/
theorem windowed_sortTiers {f : Formula}
    (perm : (f.tiers.map Tier.triple).Perm f.permutation.windows) : f.sortTiers.Windowed := by
  have sorted : (f.sortTiers.tiers.map Tier.triple).Perm f.permutation.windows :=
    ((List.mergeSort_perm _ _).map _).trans perm
  have ascending : (f.sortTiers.tiers.map Tier.triple).Pairwise fun w u =>
      f.permutation.index w.a ≤ f.permutation.index u.a := by
    rw [List.pairwise_map]
    exact pairwise_mergeSort_by (fun t : Tier => f.permutation.index t.triple.a) f.tiers
  refine sorted.eq_of_pairwise (fun w u hw (hu : u ∈ f.permutation.windows) below above => ?_)
    ascending (f.permutation.pairwise_windows.imp Nat.le_of_lt)
  exact Permutation.eq_of_index_eq (sorted.mem_iff.mp hw) hu (Nat.le_antisymm below above)

/-! ### Joining -/

/-- What a compact formula is after it took a tier. -/
structure Joins (f : Formula) (t : Tier) (g : Formula) : Prop where
  windowed : g.Windowed
  names : ∀ v, v ∈ g.permutation.names ↔ v ∈ f.permutation.names ∨ v ∈ t.triple.names
  violates : ∀ τ, g.Violates τ ↔ f.Violates τ ∨ t.Admits τ
  tiered : g.tiers ≠ []
  tiers : (∀ u ∈ f.tiers, u.triple.sameVariables t.triple = false) →
    ∃ u : Tier, u.Reorders t ∧ g.tiers.Perm (f.tiers ++ [u])

/-- Tiers that are reordered when another one comes. -/
theorem perm_addTier {f : Formula} {t : Tier}
    (apart : ∀ u ∈ f.tiers, u.triple.sameVariables t.triple = false) :
    ∃ u : Tier, u.Reorders t ∧ (f.addTier t).tiers.Perm (f.tiers ++ [u]) := by
  obtain ⟨u, reorders, tiers⟩ := tiers_addTier apart
  exact ⟨u, reorders, tiers ▸ .refl _⟩

theorem covers_some {t : Tier} {pair : Option (Nat × Nat)} (h : covers t pair = true) :
    ∃ v w, pair = some (v, w) ∧ v ∈ t.triple.names ∧ w ∈ t.triple.names := by
  obtain ⟨⟨v, w⟩, same, both⟩ := (Option.any_eq_true _ _).mp h
  simp only [Bool.and_eq_true, Triple.contains_iff] at both
  exact ⟨v, w, same, both⟩

theorem firstPair?_some {f : Formula} {v w : Nat} (h : f.firstPair? = some (v, w)) :
    2 ≤ f.permutation.size ∧ f.permutation.names[0]? = some v ∧ f.permutation.names[1]? = some w := by
  unfold firstPair? at h
  split at h
  · rename_i names
    cases h
    simp [Permutation.size, names]
  · cases h

theorem lastPair?_some {f : Formula} {v w : Nat} (h : f.lastPair? = some (v, w)) :
    2 ≤ f.permutation.size ∧ f.permutation.names[f.permutation.size - 2]? = some v ∧
      f.permutation.names[f.permutation.size - 1]? = some w := by
  unfold lastPair? at h
  split at h
  · rename_i names
    cases h
    rw [List.reverse_eq_iff] at names
    simp [Permutation.size, names]
  · cases h

theorem joins_addTier {f : Formula} {t : Tier} (h : f.Windowed)
    (held : (f.tierOver? t.triple).isSome = true) : f.Joins t (f.addTier t) := by
  have some : f.tiers.any (·.triple.sameVariables t.triple) = true :=
    List.any_eq_true.mpr (List.find?_isSome.mp held)
  refine ⟨?_, fun v => mem_names_addTier h.known, fun τ => violates_addTier,
    tiers_addTier_ne_nil f t, perm_addTier⟩
  unfold addTier
  rw [if_pos some]
  exact (map_triple_mergeTier f t).trans h

theorem joins_append {f : Formula} {t : Tier} {v : Nat} (h : f.Windowed)
    (hv : v ∈ t.triple.names) (fresh : v ∉ f.permutation.names)
    (covered : covers t f.lastPair? = true) :
    f.Joins t ((f.appendVariable v).addTier t) := by
  obtain ⟨x, y, pair, hx, hy⟩ := covers_some covered
  obtain ⟨size, lastX, lastY⟩ := lastPair?_some pair
  obtain ⟨w, windows, wa, wb, rfl⟩ := Permutation.exists_windows_add fresh size
  obtain rfl := Option.some.inj (wa.symm.trans lastX)
  obtain rfl := Option.some.inj (wb.symm.trans lastY)
  have same : t.triple.sameVariables w = true :=
    Triple.sameVariables_comm (by simp [Triple.sameVariables, Triple.contains_iff, hx, hy, hv])
  obtain ⟨permutation, triples, names⟩ := h.addTier_grown hv fresh
    (fun _ => Permutation.mem_add) (by simp [windows]) same
  refine ⟨triples.trans ?_, ?_, fun τ => violates_addTier, tiers_addTier_ne_nil _ t,
    fun apart => perm_addTier apart⟩
  · exact windows.symm.trans (congrArg Permutation.windows permutation.symm)
  · intro z
    exact (iff_of_eq (congrArg (z ∈ Permutation.names ·) permutation)).trans (names z)

theorem joins_prepend {f : Formula} {t : Tier} {v : Nat} (h : f.Windowed)
    (hv : v ∈ t.triple.names) (fresh : v ∉ f.permutation.names)
    (covered : covers t f.firstPair? = true) :
    Returns (f.prependVariable v) fun g => f.Joins t (g.addTier t).sortTiers := by
  obtain ⟨x, y, pair, hx, hy⟩ := covers_some covered
  obtain ⟨size, firstX, firstY⟩ := firstPair?_some pair
  unfold prependVariable
  refine (Permutation.insert_returns fresh).bind fun p order => Returns.pure ?_
  obtain ⟨w, windows, rfl, wb, wc⟩ := Permutation.exists_windows_cons order size
  obtain rfl := Option.some.inj (wb.symm.trans firstX)
  obtain rfl := Option.some.inj (wc.symm.trans firstY)
  have same : t.triple.sameVariables w = true :=
    Triple.sameVariables_comm (by simp [Triple.sameVariables, Triple.contains_iff, hx, hy, hv])
  obtain ⟨permutation, triples, names⟩ := h.addTier_grown (p := p) hv fresh
    (fun z => by simp [order, or_comm]) (by simp [windows]) same
  refine ⟨windowed_sortTiers ?_, ?_, fun τ => violates_sortTiers.trans violates_addTier, ?_, ?_⟩
  · rw [permutation, triples, windows]
    exact List.perm_append_singleton _ _
  · intro z
    exact (iff_of_eq (congrArg (z ∈ Permutation.names ·) permutation)).trans (names z)
  · intro none
    refine tiers_addTier_ne_nil ⟨p, f.tiers⟩ t (List.Perm.eq_nil ?_)
    exact none ▸ (List.mergeSort_perm _ _).symm
  · intro apart
    obtain ⟨u, reorders, perm⟩ := perm_addTier (f := ⟨p, f.tiers⟩) apart
    exact ⟨u, reorders, (List.mergeSort_perm _ _).trans perm⟩

theorem join?_returns {f : Formula} {t : Tier} (h : f.Windowed) :
    Returns (f.join? t) fun r => ∀ g ∈ r, f.Joins t g := by
  unfold join?
  split
  · apply Returns.pure
    intro g hg
    split at hg
    · rename_i held
      cases hg
      exact joins_addTier h held
    · cases hg
  · rename_i v only
    have new : v ∈ t.triple.names.filter (!f.permutation.contains ·) := by simp [only]
    simp only [List.mem_filter, Permutation.contains, Bool.not_eq_true', ← Bool.not_eq_true,
      List.contains_iff_mem] at new
    obtain ⟨hv, fresh⟩ := new
    split
    · rename_i covered
      apply Returns.pure
      intro g hg
      cases hg
      exact joins_append h hv fresh covered
    · split
      · rename_i covered
        refine (joins_prepend h hv fresh covered).bind fun g joins => Returns.pure ?_
        intro g' hg'
        cases hg'
        exact joins
      · exact Returns.pure (by simp)
  · exact Returns.pure (by simp)

/-! ### The compact formulas -/

theorem mem_names_ofNames {names : List Nat} {v : Nat} :
    v ∈ (Permutation.ofNames names).names ↔ v ∈ names :=
  Permutation.mem_addAll.trans (or_iff_right List.not_mem_nil)

/-- A tier alone is its own window. -/
theorem joins_ofTier (t : Tier) : Formula.empty.Joins t (.ofTier t) := by
  have names : (Permutation.ofNames t.triple.names).names = [t.triple.a, t.triple.b, t.triple.c] := by
    simp [Permutation.ofNames, Permutation.addAll, Permutation.add, Permutation.empty, Triple.names,
      t.triple.a_ne_b.symm, t.triple.a_ne_c.symm, t.triple.b_ne_c.symm]
  have windows : [t.triple] = (Permutation.ofNames t.triple.names).windows := by
    apply Permutation.eq_windows (by simp [Permutation.size, names])
    intro i w hw
    cases i with
    | zero =>
      cases hw
      simp [names]
    | succ i => simp at hw
  have added := addTier_of_fresh (f := ⟨.ofNames t.triple.names, []⟩)
    (Triple.name_mem_names t.triple .a) (by simp) fun v => mem_names_ofNames.mpr
  unfold ofTier
  rw [added]
  refine ⟨?_, ?_, ?_, List.cons_ne_nil _ _, fun _ => ⟨_, t.reorders_orderedBy _, .refl _⟩⟩
  · rw [Windowed, ← windows, List.nil_append, List.map_singleton,
      orderedBy_index (windows ▸ List.mem_singleton_self _) (Triple.sameVariables_refl _)]
  · intro v
    rw [mem_names_ofNames]
    simp [empty, Permutation.empty]
  · intro τ
    simp [Violates, empty, Tier.admits_orderedBy]

/-- The compact formulas hold the clauses of some tiers, over their variables. Where no two of the
tiers are over the same ones, each is a tier of the compact formulas, which have no others. -/
structure Splits (tiers : List Tier) (compact : List Formula) : Prop where
  windowed : ∀ f ∈ compact, f.Windowed
  tiered : ∀ f ∈ compact, f.tiers ≠ []
  names : ∀ f ∈ compact, ∀ v ∈ f.permutation.names, ∃ t ∈ tiers, v ∈ t.triple.names
  violates : ∀ τ, (∃ f ∈ compact, f.Violates τ) ↔ ∃ t ∈ tiers, t.Admits τ
  tiers : (tiers.map Tier.triple).Pairwise (fun w u => w.sameVariables u = false) →
    ∃ us, List.Forall₂ Tier.Reorders us tiers ∧ us.Perm (compact.flatMap Formula.tiers)

/-- What the compact formulas are after one of them took a tier, or a new one did. -/
structure Distributes (compact : List Formula) (t : Tier) (gs : List Formula) : Prop where
  windowed : ∀ g ∈ gs, g.Windowed
  tiered : ∀ g ∈ gs, g.tiers ≠ []
  names : ∀ g ∈ gs, ∀ v ∈ g.permutation.names,
    (∃ f ∈ compact, v ∈ f.permutation.names) ∨ v ∈ t.triple.names
  violates : ∀ τ, (∃ g ∈ gs, g.Violates τ) ↔ (∃ f ∈ compact, f.Violates τ) ∨ t.Admits τ
  tiers : (∀ u ∈ compact.flatMap Formula.tiers, u.triple.sameVariables t.triple = false) →
    ∃ u : Tier, u.Reorders t ∧
      (gs.flatMap Formula.tiers).Perm (compact.flatMap Formula.tiers ++ [u])

/-- The first formula took the tier. -/
theorem Joins.distributes {f g : Formula} {t : Tier} {rest : List Formula} (h : f.Joins t g)
    (windowed : ∀ f ∈ rest, f.Windowed) (tiered : ∀ f ∈ rest, f.tiers ≠ []) :
    Distributes (f :: rest) t (g :: rest) where
  windowed := List.forall_mem_cons.mpr ⟨h.windowed, windowed⟩
  tiered := List.forall_mem_cons.mpr ⟨h.tiered, tiered⟩
  names g' hg' v hv := by
    rcases List.mem_cons.mp hg' with rfl | hg'
    · exact ((h.names v).mp hv).imp (fun old => ⟨f, List.mem_cons_self, old⟩) id
    · exact .inl ⟨g', List.mem_cons_of_mem _ hg', hv⟩
  violates τ := by
    simp only [List.exists_mem_cons_iff, h.violates τ]
    exact or_right_comm
  tiers apart := by
    rw [List.flatMap_cons] at apart
    obtain ⟨u, reorders, perm⟩ := h.tiers fun u hu => apart u (List.mem_append_left _ hu)
    refine ⟨u, reorders, ?_⟩
    rw [List.flatMap_cons, List.flatMap_cons]
    refine (perm.append_right _).trans ?_
    rw [List.append_assoc, List.append_assoc]
    exact List.perm_append_comm.append_left _

/-- A later formula took the tier. -/
theorem Distributes.cons {f : Formula} {t : Tier} {compact gs : List Formula}
    (h : Distributes compact t gs) (windowed : f.Windowed) (tiered : f.tiers ≠ []) :
    Distributes (f :: compact) t (f :: gs) where
  windowed := List.forall_mem_cons.mpr ⟨windowed, h.windowed⟩
  tiered := List.forall_mem_cons.mpr ⟨tiered, h.tiered⟩
  names g hg v hv := by
    rcases List.mem_cons.mp hg with rfl | hg
    · exact .inl ⟨g, List.mem_cons_self, hv⟩
    · refine (h.names g hg v hv).imp_left ?_
      rintro ⟨f', hf', old⟩
      exact ⟨f', List.mem_cons_of_mem _ hf', old⟩
  violates τ := by simp only [List.exists_mem_cons_iff, h.violates τ, or_assoc]
  tiers apart := by
    rw [List.flatMap_cons] at apart
    obtain ⟨u, reorders, perm⟩ := h.tiers fun u hu => apart u (List.mem_append_right _ hu)
    refine ⟨u, reorders, ?_⟩
    rw [List.flatMap_cons, List.flatMap_cons, List.append_assoc]
    exact perm.append_left _

theorem distribute_returns {t : Tier} {compact : List Formula}
    (windowed : ∀ f ∈ compact, f.Windowed) (tiered : ∀ f ∈ compact, f.tiers ≠ []) :
    Returns (distribute t compact) (Distributes compact t) := by
  induction compact with
  | nil =>
    have alone := joins_ofTier t
    have nothing (τ) : ¬ Formula.empty.Violates τ := by simp [Violates, empty]
    refine Returns.pure ⟨by simpa using alone.windowed, by simpa using alone.tiered, ?_, ?_, ?_⟩
    · intro g hg v hv
      obtain rfl := List.mem_singleton.mp hg
      exact .inr (((alone.names v).mp hv).resolve_left List.not_mem_nil)
    · intro τ
      simp [alone.violates τ, nothing τ]
    · intro _
      obtain ⟨u, reorders, perm⟩ := alone.tiers fun u hu => absurd hu List.not_mem_nil
      refine ⟨u, reorders, ?_⟩
      rw [List.flatMap_singleton]
      exact perm
  | cons f rest ih =>
    obtain ⟨hf, hrest⟩ := List.forall_mem_cons.mp windowed
    obtain ⟨first, tiered⟩ := List.forall_mem_cons.mp tiered
    unfold distribute
    refine (join?_returns hf).bind fun r hr => ?_
    cases r with
    | some g => exact Returns.pure ((hr g rfl).distributes hrest tiered)
    | none => exact (ih hrest tiered).bind fun gs h => Returns.pure (h.cons hf first)

/-- Tiers taken one after the other. -/
theorem Splits.snoc {before : List Tier} {t : Tier} {compact gs : List Formula}
    (h : Splits before compact) (next : Distributes compact t gs) : Splits (before ++ [t]) gs where
  windowed := next.windowed
  tiered := next.tiered
  names g hg v hv := by
    rcases next.names g hg v hv with ⟨f, hf, old⟩ | new
    · obtain ⟨u, hu, held⟩ := h.names f hf v old
      exact ⟨u, List.mem_append_left _ hu, held⟩
    · exact ⟨t, by simp, new⟩
  violates τ := by
    rw [next.violates τ, h.violates τ]
    simp [or_and_right, exists_or]
  tiers apart := by
    rw [List.map_append, List.map_singleton] at apart
    obtain ⟨earlier, -, last⟩ := List.pairwise_append.mp apart
    obtain ⟨us, reorders, perm⟩ := h.tiers earlier
    have fresh : ∀ u ∈ compact.flatMap Formula.tiers, u.triple.sameVariables t.triple = false := by
      intro u hu
      obtain ⟨b, hb, same⟩ := exists_of_forall₂ reorders (perm.mem_iff.mpr hu)
      refine eq_false_of_ne_true fun meets => ?_
      have other := last b.triple (List.mem_map_of_mem hb) t.triple (List.mem_singleton_self _)
      exact Bool.false_ne_true (other.symm.trans
        (Triple.sameVariables_trans (Triple.sameVariables_comm same.same) meets))
    obtain ⟨u, reorder, all⟩ := next.tiers fresh
    exact ⟨us ++ [u], List.rel_append reorders (.cons reorder .nil), (perm.append_right _).trans all.symm⟩

theorem split_returns (f : Formula) : Returns f.split (Splits f.tiers) := by
  unfold split
  -- The tiers still to come complete those that the list holds so far.
  refine Returns.mono (Returns.foldlM
    (fun rest compact => ∃ before, before ++ rest = f.tiers ∧ Splits before compact)
    ?_ ⟨[], rfl, ?_⟩) ?_
  · intro t rest compact ⟨before, all, splits⟩
    exact (distribute_returns splits.windowed splits.tiered).mono fun gs next =>
      ⟨before ++ [t], by simp [← all], splits.snoc next⟩
  · exact ⟨by simp, by simp, by simp, by simp, fun _ => ⟨[], .nil, .refl _⟩⟩
  · rintro compact ⟨before, all, splits⟩
    rw [List.append_nil] at all
    exact all ▸ splits

end Formula

end TripletSat
