import TripletSat.Dimacs.Printer
import TripletSat.Proofs.Partition

/-!
Formulas that grew tier by tier. Their variables stand in the order in which the tiers mention them
first, so the octants alone, tier after tier, give the formula back. The formula of any clauses is one,
and so is a structure without empty tiers.
-/

namespace TripletSat

/-! ### The order of the names -/

namespace Permutation

variable {p : Permutation} {names names' : List Nat} {v w : Nat}

/-- The variables of the triple stand in its order. -/
def Ascends (p : Permutation) (t : Triple) : Prop :=
  p.index t.a < p.index t.b ∧ p.index t.b < p.index t.c

theorem index_inj (hv : v ∈ p.names) (same : p.index v = p.index w) : v = w := by
  have found : p.names[p.index v]? = some v := List.getElem?_idxOf hv
  have bound : p.index w < p.names.length := same ▸ List.idxOf_lt_length_of_mem hv
  have hw : w ∈ p.names := List.idxOf_lt_length_iff.mp bound
  have found' : p.names[p.index w]? = some w := List.getElem?_idxOf hw
  rw [same] at found
  exact Option.some.inj (found.symm.trans found')

theorem eq_of_names {p q : Permutation} (same : p.names = q.names) : p = q := by
  obtain ⟨_, _⟩ := p
  obtain ⟨_, _⟩ := q
  cases same
  rfl

theorem pairwise_index (p : Permutation) : p.names.Pairwise fun v w => p.index v < p.index w := by
  apply List.pairwise_iff_getElem.mpr
  intro i j hi hj before
  rw [index_eq (List.getElem?_eq_getElem hi), index_eq (List.getElem?_eq_getElem hj)]
  exact before

/-- Names that are added come to the end, in their order. -/
theorem exists_sublist_addAll (p : Permutation) (names : List Nat) :
    ∃ new, new.Sublist names ∧ (p.addAll names).names = p.names ++ new := by
  unfold addAll
  induction names generalizing p with
  | nil => exact ⟨[], .slnil, (List.append_nil _).symm⟩
  | cons v rest ih =>
    rw [List.foldl_cons]
    by_cases present : v ∈ p.names
    · have held : p.add v = p := dif_pos present
      obtain ⟨new, part, same⟩ := ih p
      rw [held]
      exact ⟨new, part.cons v, same⟩
    · obtain ⟨new, part, same⟩ := ih (p.add v)
      refine ⟨v :: new, part.cons_cons v, ?_⟩
      rw [same, names_add present, List.append_assoc]
      rfl

theorem index_addAll (hv : v ∈ p.names) : (p.addAll names).index v = p.index v := by
  obtain ⟨new, -, same⟩ := exists_sublist_addAll p names
  unfold index
  rw [same, List.idxOf_append_of_mem hv]

theorem Ascends.addAll {t : Triple} (known : ∀ v ∈ t.names, v ∈ p.names) :
    (p.addAll names).Ascends t ↔ p.Ascends t := by
  unfold Ascends
  rw [index_addAll (known t.a (Triple.name_mem_names t .a)),
    index_addAll (known t.b (Triple.name_mem_names t .b)),
    index_addAll (known t.c (Triple.name_mem_names t .c))]

theorem addAll_append (p : Permutation) (names names' : List Nat) :
    p.addAll (names ++ names') = (p.addAll names).addAll names' :=
  List.foldl_append

/-- Names that are all new are added as they are. -/
theorem names_addAll_of_nodup (nodup : (p.names ++ names).Nodup) :
    (p.addAll names).names = p.names ++ names := by
  obtain ⟨-, distinct, apart⟩ := List.nodup_append.mp nodup
  have fresh : names.filter (· ∉ p.names) = names :=
    List.filter_eq_self.mpr fun v hv => decide_eq_true fun known => apart v known v hv rfl
  rw [names_addAll, fresh, eraseDups_of_nodup distinct]

theorem ofNames_names (p : Permutation) : ofNames p.names = p :=
  eq_of_names (names_addAll_of_nodup (p := empty) p.nodup)

/-- Names may be added in the order in which they come to stand. -/
theorem addAll_eq_of_ascending (same : ∀ v, v ∈ names' ↔ v ∈ names)
    (ascending : names'.Pairwise fun v w => (p.addAll names).index v < (p.addAll names).index w) :
    p.addAll names' = p.addAll names := by
  obtain ⟨new, -, names_eq⟩ := exists_sublist_addAll p names
  obtain ⟨new', part', names_eq'⟩ := exists_sublist_addAll p names'
  have nodup : (p.names ++ new).Nodup := names_eq ▸ (p.addAll names).nodup
  have nodup' : (p.names ++ new').Nodup := names_eq' ▸ (p.addAll names').nodup
  have added (v : Nat) : v ∈ p.names ++ new' ↔ v ∈ p.names ++ new := by
    rw [← names_eq, ← names_eq', mem_addAll, mem_addAll, same]
  have perm : new'.Perm new :=
    (List.perm_append_left_iff p.names).mp ((List.perm_ext_iff_of_nodup nodup' nodup).mpr added)
  have last : new.Pairwise fun v w => (p.addAll names).index v < (p.addAll names).index w :=
    (p.addAll names).pairwise_index.sublist (names_eq ▸ List.sublist_append_right _ _)
  have equal : new' = new :=
    perm.eq_of_pairwise
      (fun v w _ _ below above => absurd (Nat.lt_trans below above) (Nat.lt_irrefl _))
      (ascending.sublist part') last
  apply eq_of_names
  rw [names_eq, names_eq', equal]

/-- The windows of a row of names mention it from left to right. -/
theorem names_addAll_windowsOf {a b : Nat} {more : List Nat} {nodup : (a :: b :: more).Nodup}
    (first : a ∈ p.names) (second : b ∈ p.names) (fresh : ∀ v ∈ more, v ∉ p.names) :
    (p.addAll ((windowsOf (a :: b :: more) nodup).flatMap Triple.names)).names = p.names ++ more := by
  induction more generalizing a b p with
  | nil => exact (List.append_nil _).symm
  | cons c more ih =>
    have away : c ∉ p.names := fresh c List.mem_cons_self
    have window : p.addAll [a, b, c] = p.add c := by
      have heldA : p.add a = p := dif_pos first
      have heldB : p.add b = p := dif_pos second
      show ((p.add a).add b).add c = p.add c
      rw [heldA, heldB]
    have tail : (c :: more).Nodup := (nodup_tail nodup).of_cons
    rw [windowsOf, List.flatMap_cons, addAll_append]
    show ((p.addAll [a, b, c]).addAll _).names = _
    rw [window, ih (mem_add.mpr (.inl second)) (mem_add.mpr (.inr rfl)), names_add away,
      List.append_assoc]
    · rfl
    · intro v hv
      rw [mem_add, not_or]
      refine ⟨fresh v (List.mem_cons_of_mem _ hv), ?_⟩
      rintro rfl
      exact (List.nodup_cons.mp tail).1 hv

theorem ofNames_windows (size : 3 ≤ p.size) : ofNames (p.windows.flatMap Triple.names) = p := by
  obtain ⟨names, nodup⟩ := p
  match names, nodup, size with
  | a :: b :: c :: more, nodup, _ =>
    have start : (ofNames [a, b, c]).names = [a, b, c] := by
      have ab := first_ne_second nodup
      have ac := first_ne_third nodup
      have bc := second_ne_third nodup
      simp [ofNames, addAll, add, empty, ab.symm, ac.symm, bc.symm]
    have fresh : ∀ v ∈ more, v ∉ (ofNames [a, b, c]).names := by
      rw [start]
      obtain ⟨-, -, apart⟩ := List.nodup_append.mp (show ([a, b, c] ++ more).Nodup from nodup)
      exact fun v hv front => apart v front v hv rfl
    apply eq_of_names
    unfold windows ofNames
    rw [windowsOf, List.flatMap_cons, addAll_append]
    show ((ofNames [a, b, c]).addAll _).names = _
    rw [names_addAll_windowsOf (by simp [start]) (by simp [start]) fresh, start]
    rfl

end Permutation

/-! ### Ordered tiers -/

namespace Tier

variable {t : Tier} {rank : Nat → Nat}

theorem orderedBy_of_ascending (ab : rank t.triple.a < rank t.triple.b)
    (bc : rank t.triple.b < rank t.triple.c) : t.orderedBy rank = t := by
  simp [orderedBy, Nat.not_lt_of_gt ab, Nat.not_lt_of_gt bc]

theorem orderedBy_ascends (ab : rank t.triple.a ≠ rank t.triple.b)
    (ac : rank t.triple.a ≠ rank t.triple.c) (bc : rank t.triple.b ≠ rank t.triple.c) :
    rank (t.orderedBy rank).triple.a < rank (t.orderedBy rank).triple.b ∧
      rank (t.orderedBy rank).triple.b < rank (t.orderedBy rank).triple.c := by
  grind [orderedBy, swap, Triple.swap]

theorem isEmpty_eq_false_iff : t.isEmpty = false ↔ ∃ τ, t.Admits τ := by
  unfold isEmpty
  rw [OctantSet.isEmpty_eq_false_iff]
  constructor
  · rintro ⟨o, ho⟩
    obtain ⟨τ, rfl⟩ := Valuation.exists_octant t.triple o
    exact ⟨τ, ho⟩
  · rintro ⟨τ, admits⟩
    exact ⟨_, admits⟩

/-- A tier merges into no tier over other variables. -/
theorem map_merge_of_apart {ts : List Tier} {u : Tier} (apart : ∀ t ∈ ts, t.Apart u) :
    ts.map (fun t => if t.triple.sameVariables u.triple then t.merge u else t) = ts := by
  conv => rhs; rw [← List.map_id ts]
  exact List.map_congr_left fun t ht => if_neg (apart t ht).not_sameVariables

/-- The tiers that hold one of the octants each. -/
def singles (t : Tier) : List Tier :=
  t.octants.toList.map fun o => ⟨t.triple, OctantSet.empty.insert o⟩

end Tier

theorem OctantSet.mem_foldl_union {os : List Octant} {s : OctantSet} {u : Octant} :
    u ∈ os.foldl (fun s o => s.union (empty.insert o)) s ↔ u ∈ s ∨ u ∈ os := by
  induction os generalizing s with
  | nil => simp
  | cons o rest ih =>
    rw [List.foldl_cons, ih, mem_union, mem_insert, List.mem_cons]
    simp [not_mem_empty, or_assoc]

namespace Formula

variable {f : Formula} {u : Tier}

theorem Distinct.apart (h : f.Distinct) : f.tiers.Pairwise Tier.Apart := by
  show f.tiers.Pairwise fun t u => t.triple.sameVariables u.triple = false
  exact List.pairwise_map.mp h

/-- A tier in the order of a permutation that has its variables. -/
theorem ascends_orderedBy {p : Permutation} (known : ∀ v ∈ u.triple.names, v ∈ p.names) :
    p.Ascends (u.orderedBy p.index).triple := by
  have differ {v w : Nat} (hv : v ∈ u.triple.names) (other : v ≠ w) : p.index v ≠ p.index w :=
    fun same => other (Permutation.index_inj (known v hv) same)
  exact Tier.orderedBy_ascends (differ (Triple.name_mem_names _ .a) u.triple.a_ne_b)
    (differ (Triple.name_mem_names _ .a) u.triple.a_ne_c)
    (differ (Triple.name_mem_names _ .b) u.triple.b_ne_c)

/-- The variables stand as the tiers mention them first, and those of a tier in this order too. -/
structure Grown (f : Formula) : Prop where
  distinct : f.Distinct
  solid : f.Solid
  names : f.permutation = .ofNames ((f.tiers.map Tier.triple).flatMap Triple.names)
  ascending : ∀ w ∈ f.tiers.map Tier.triple, f.permutation.Ascends w

theorem Grown.known (h : f.Grown) : f.Known := by
  intro t ht v hv
  rw [h.names, mem_names_ofNames]
  exact List.mem_flatMap.mpr ⟨t.triple, List.mem_map_of_mem ht, hv⟩

theorem grown_empty : empty.Grown := ⟨.nil, nofun, rfl, nofun⟩

theorem Grown.mergeTier (h : f.Grown) (held : f.tiers.any (·.triple.sameVariables u.triple) = true) :
    (f.mergeTier u).Grown where
  distinct := by
    have added := distinct_addTier h.distinct u
    unfold addTier at added
    rwa [if_pos held] at added
  solid t ht := by
    obtain ⟨t₀, ht₀, rfl⟩ := List.mem_map.mp ht
    split
    · rename_i same
      obtain ⟨τ, admits⟩ := Tier.isEmpty_eq_false_iff.mp (h.solid t₀ ht₀)
      exact Tier.isEmpty_eq_false_iff.mpr
        ⟨τ, (Tier.admits_merge (Triple.sameVariables_comm same)).mpr (.inl admits)⟩
    · exact h.solid t₀ ht₀
  names := by
    rw [map_triple_mergeTier]
    exact h.names
  ascending := by
    rw [map_triple_mergeTier]
    exact h.ascending

theorem Grown.appendTier (h : f.Grown) (some : u.isEmpty = false)
    (apart : ¬ f.tiers.any (·.triple.sameVariables u.triple) = true) : (f.appendTier u).Grown := by
  let q := f.permutation.addAll u.triple.names
  let v := u.orderedBy q.index
  have ascends : q.Ascends v.triple :=
    ascends_orderedBy fun x hx => Permutation.mem_addAll.mpr (.inr hx)
  have triples : (f.appendTier u).tiers.map Tier.triple = f.tiers.map Tier.triple ++ [v.triple] := by
    simp [Formula.appendTier, v, q]
  refine ⟨?_, fun t ht => ?_, ?_, fun w hw => ?_⟩
  · have added := distinct_addTier h.distinct u
    unfold addTier at added
    rwa [if_neg apart] at added
  · rcases List.mem_append.mp ht with old | new
    · exact h.solid t old
    · obtain rfl := List.mem_singleton.mp new
      obtain ⟨τ, admits⟩ := Tier.isEmpty_eq_false_iff.mp some
      exact Tier.isEmpty_eq_false_iff.mpr ⟨τ, Tier.admits_orderedBy.mpr admits⟩
  · -- Adding the variables of the clause in the order of the stored tier changes nothing.
    have pairwise : v.triple.names.Pairwise fun x y => q.index x < q.index y := by
      simp [Triple.names, ascends.1, ascends.2, Nat.lt_trans ascends.1 ascends.2]
    rw [triples, List.flatMap_append, List.flatMap_singleton, Permutation.ofNames,
      Permutation.addAll_append]
    show q = (Permutation.ofNames _).addAll v.triple.names
    rw [← h.names]
    exact (Permutation.addAll_eq_of_ascending (fun _ => Tier.mem_names_orderedBy) pairwise).symm
  · rw [triples] at hw
    rcases List.mem_append.mp hw with old | new
    · obtain ⟨t, ht, rfl⟩ := List.mem_map.mp old
      exact (Permutation.Ascends.addAll (h.known t ht)).mpr (h.ascending _ old)
    · obtain rfl := List.mem_singleton.mp new
      exact ascends

theorem Grown.addTier (h : f.Grown) (some : u.isEmpty = false) : (f.addTier u).Grown := by
  unfold Formula.addTier
  split
  · rename_i held
    exact h.mergeTier held
  · rename_i apart
    exact h.appendTier some apart

theorem grown_ofClauses (clauses : List Clause) : (ofClauses clauses).Grown := by
  have step {f : Formula} (h : f.Grown) : (clauses.foldl add f).Grown := by
    induction clauses generalizing f with
    | nil => exact h
    | cons c rest ih =>
      have one : (Tier.ofClause c).isEmpty = false := by
        obtain ⟨τ, octant⟩ := Valuation.exists_octant c.triple c.octant
        exact Tier.isEmpty_eq_false_iff.mpr ⟨τ, Tier.admits_ofClause.mpr octant⟩
      exact ih (h.addTier one)
  exact step grown_empty

/-- The variables stand in the order in which the clauses mention them. -/
theorem permutation_ofClauses (clauses : List Clause) :
    (ofClauses clauses).permutation = .ofNames (clauses.flatMap (·.triple.names)) := by
  have step {f : Formula} (known : f.Known) : (clauses.foldl add f).permutation =
      f.permutation.addAll (clauses.flatMap (·.triple.names)) := by
    induction clauses generalizing f with
    | nil => rfl
    | cons c rest ih =>
      have added : (f.add c).permutation = f.permutation.addAll c.triple.names := by
        unfold add Formula.addTier
        split
        · rename_i held
          obtain ⟨t, ht, same⟩ := List.any_eq_true.mp held
          refine (Permutation.addAll_eq_self fun v hv => known t ht v ?_).symm
          exact (Triple.sameVariables_iff.mp same v).mpr hv
        · rfl
      rw [List.foldl_cons, ih (f := f.add c) (known_addTier known), added, List.flatMap_cons,
        Permutation.addAll_append]
  exact step (f := empty) nofun

theorem Compact.windowed (h : f.Compact) : f.Windowed := by
  refine Permutation.eq_windows ?_ fun i w hw => ?_
  · have count := h.count
    rw [List.length_map]
    omega
  · rw [List.getElem?_map] at hw
    obtain ⟨t, ht, rfl⟩ := Option.map_eq_some_iff.mp hw
    exact h.windows i t ht

theorem Compact.grown (h : f.Compact) (solid : f.Solid) : f.Grown where
  distinct := h.windowed.distinct
  solid := solid
  names := by rw [h.windowed, Permutation.ofNames_windows h.names]
  ascending w hw := Permutation.index_lt_of_mem_windows (h.windowed ▸ hw)

/-! ### Growing again -/

/-- Octants over the variables of the last tier go into it. -/
theorem addTier_last {p : Permutation} {before : List Tier} {w : Triple} {s s' : OctantSet}
    (apart : ∀ t ∈ before, t.triple.sameVariables w = false) :
    (⟨p, before ++ [⟨w, s⟩]⟩ : Formula).addTier ⟨w, s'⟩ = ⟨p, before ++ [⟨w, s.union s'⟩]⟩ := by
  have along : (⟨w, s'⟩ : Tier).octantsAlong w = s' := by
    unfold Tier.octantsAlong
    rw [Tier.orderedBy_of_ascending w.rank_lt.1 w.rank_lt.2]
  have kept := Tier.map_merge_of_apart (u := ⟨w, s'⟩) apart
  unfold addTier Formula.mergeTier
  rw [if_pos (by simp [Triple.sameVariables_refl])]
  dsimp only
  rw [List.map_append, kept, List.map_singleton, if_pos w.sameVariables_refl, Tier.merge, along]

theorem foldl_addTier_last {p : Permutation} {before : List Tier} {w : Triple} {s : OctantSet}
    (apart : ∀ t ∈ before, t.triple.sameVariables w = false) (os : List Octant) :
    (os.map fun o => (⟨w, OctantSet.empty.insert o⟩ : Tier)).foldl addTier ⟨p, before ++ [⟨w, s⟩]⟩ =
      ⟨p, before ++ [⟨w, os.foldl (fun s o => s.union (OctantSet.empty.insert o)) s⟩]⟩ := by
  induction os generalizing s with
  | nil => rfl
  | cons o rest ih =>
    rw [List.map_cons, List.foldl_cons, addTier_last apart]
    exact ih

/-- The octants of a tier over new variables, one after the other. -/
theorem foldl_addTier_singles {t : Tier} (apart : ∀ u ∈ f.tiers, u.Apart t)
    (some : t.isEmpty = false) (ascends : (f.permutation.addAll t.triple.names).Ascends t.triple) :
    t.singles.foldl addTier f =
      ⟨f.permutation.addAll t.triple.names, f.tiers ++ [t]⟩ := by
  obtain ⟨w, s⟩ := t
  obtain ⟨o, os, octants⟩ : ∃ o os, s.toList = o :: os := by
    obtain ⟨o, ho⟩ := OctantSet.isEmpty_eq_false_iff.mp some
    exact List.exists_cons_of_ne_nil (List.ne_nil_of_mem (OctantSet.mem_toList.mpr ho))
  have first : f.addTier ⟨w, OctantSet.empty.insert o⟩ =
      ⟨f.permutation.addAll w.names, f.tiers ++ [⟨w, OctantSet.empty.insert o⟩]⟩ := by
    unfold addTier
    rw [if_neg]
    · unfold Formula.appendTier
      dsimp only
      rw [Tier.orderedBy_of_ascending (t := ⟨w, OctantSet.empty.insert o⟩) ascends.1 ascends.2]
    · intro held
      obtain ⟨u, hu, same⟩ := List.any_eq_true.mp held
      exact (apart u hu).not_sameVariables same
  have all : os.foldl (fun s o => s.union (OctantSet.empty.insert o)) (OctantSet.empty.insert o) =
      s := by
    refine OctantSet.ext fun u => ?_
    rw [OctantSet.mem_foldl_union, OctantSet.mem_insert, ← OctantSet.mem_toList (s := s), octants,
      List.mem_cons]
    simp [OctantSet.not_mem_empty]
  unfold Tier.singles
  rw [octants, List.map_cons, List.foldl_cons, first, foldl_addTier_last apart, all]

theorem foldl_addTier_flatMap_singles {ts : List Tier}
    (apart : (f.tiers ++ ts).Pairwise Tier.Apart)
    (solid : ∀ t ∈ ts, t.isEmpty = false)
    (ascending : ∀ t ∈ ts,
      (f.permutation.addAll ((ts.map Tier.triple).flatMap Triple.names)).Ascends t.triple) :
    (ts.flatMap Tier.singles).foldl addTier f =
      ⟨f.permutation.addAll ((ts.map Tier.triple).flatMap Triple.names), f.tiers ++ ts⟩ := by
  induction ts generalizing f with
  | nil => simp [Permutation.addAll]
  | cons t rest ih =>
    obtain ⟨some, solid⟩ := List.forall_mem_cons.mp solid
    have permutation : f.permutation.addAll (((t :: rest).map Tier.triple).flatMap Triple.names) =
        (f.permutation.addAll t.triple.names).addAll ((rest.map Tier.triple).flatMap Triple.names) := by
      rw [List.map_cons, List.flatMap_cons, Permutation.addAll_append]
    rw [permutation] at ascending ⊢
    obtain ⟨first, ascending⟩ := List.forall_mem_cons.mp ascending
    rw [Permutation.Ascends.addAll fun v hv => Permutation.mem_addAll.mpr (.inr hv)] at first
    have before : ∀ u ∈ f.tiers, u.Apart t := fun u hu =>
      (List.pairwise_append.mp apart).2.2 u hu t List.mem_cons_self
    have later := ih (f := ⟨f.permutation.addAll t.triple.names, f.tiers ++ [t]⟩)
      (by rwa [List.append_assoc]) solid ascending
    rw [List.flatMap_cons, List.foldl_append, foldl_addTier_singles before some first, later,
      List.append_assoc]
    rfl

/-- The octants alone, tier after tier, give the formula back. -/
theorem Grown.foldl_addTier (h : f.Grown) :
    (f.tiers.flatMap Tier.singles).foldl Formula.addTier empty = f := by
  obtain ⟨p, ts⟩ := f
  obtain rfl : p = Permutation.empty.addAll ((ts.map Tier.triple).flatMap Triple.names) := h.names
  exact foldl_addTier_flatMap_singles (f := empty) h.distinct.apart h.solid
    fun t ht => h.ascending _ (List.mem_map_of_mem ht)

end Formula

/-! ### The clauses of the octants -/

theorem Tier.clauses_returns {t : Tier} (positive : ∀ v ∈ t.triple.names, 0 < v) :
    Returns t.clauses fun cs => cs.map ofClause = t.singles := by
  refine (Returns.mapM fun o _ => Clause.ofOctant_returns positive).mono fun cs all => ?_
  unfold singles
  generalize t.octants.toList = os at all
  induction all with
  | nil => rfl
  | cons head _ ih =>
    rw [List.map_cons, List.map_cons, ih, Tier.ofClause, head.1, head.2]

namespace Formula

variable {f : Formula}

theorem clauses_returns (positive : ∀ t ∈ f.tiers, ∀ v ∈ t.triple.names, 0 < v) :
    Returns f.clauses fun cs => cs.map Tier.ofClause = f.tiers.flatMap Tier.singles := by
  unfold clauses
  refine (Returns.mapM fun t ht => Tier.clauses_returns (positive t ht)).bind fun css all => .pure ?_
  generalize f.tiers = ts at all
  induction all with
  | nil => rfl
  | cons head _ ih => rw [List.flatten_cons, List.map_append, head, ih, List.flatMap_cons]

theorem length_flatMap_singles (ts : List Tier) : (ts.flatMap Tier.singles).length = Tier.count ts := by
  rw [List.length_flatMap, Tier.count_eq_sum]
  congr 1
  refine List.map_congr_left fun t _ => ?_
  rw [Tier.singles, List.length_map, Tier.size, OctantSet.size_eq_length]

/-- The clauses are over the variables of the tiers. -/
theorem Solid.exists_triple_iff (solid : f.Solid) {cs : List Clause} {w : Triple}
    (listed : cs.map Tier.ofClause = f.tiers.flatMap Tier.singles) :
    (∃ c ∈ cs, c.triple = w) ↔ ∃ t ∈ f.tiers, t.triple = w := by
  have single (u : Tier) : (∃ c ∈ cs, Tier.ofClause c = u) ↔ ∃ t ∈ f.tiers, u ∈ t.singles := by
    rw [← List.mem_map, listed, List.mem_flatMap]
  constructor
  · rintro ⟨c, hc, rfl⟩
    obtain ⟨t, ht, one⟩ := (single _).mp ⟨c, hc, rfl⟩
    obtain ⟨o, -, same⟩ := List.mem_map.mp one
    exact ⟨t, ht, congrArg Tier.triple same⟩
  · rintro ⟨t, ht, rfl⟩
    obtain ⟨o, ho⟩ := OctantSet.isEmpty_eq_false_iff.mp (solid t ht)
    obtain ⟨c, hc, same⟩ := (single ⟨t.triple, OctantSet.empty.insert o⟩).mpr
      ⟨t, ht, List.mem_map_of_mem (OctantSet.mem_toList.mpr ho)⟩
    exact ⟨c, hc, congrArg Tier.triple same⟩

/-- The clauses of the octants give the formula back. -/
theorem Grown.clauses_returns (h : f.Grown) (positive : ∀ v ∈ f.permutation.names, 0 < v) :
    Returns f.clauses fun cs => ofClauses cs = f ∧ cs.length = f.clauseCount ∧
      ∀ w, (∃ c ∈ cs, c.triple = w) ↔ ∃ t ∈ f.tiers, t.triple = w := by
  refine (Formula.clauses_returns fun t ht v hv => positive v (h.known t ht v hv)).mono
    fun cs listed => ⟨?_, ?_, fun w => h.solid.exists_triple_iff listed⟩
  · rw [ofClauses_eq_foldl, listed, h.foldl_addTier]
  · rw [clauseCount, ← length_flatMap_singles, ← listed, List.length_map]

end Formula

end TripletSat
