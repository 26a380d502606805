import Mathlib.Data.List.Nodup
import TripletSat.Proofs.Windows

/-!
Clauses as tiers of forbidden octants. Adding a tier forbids its valuations and no others, so the
formula of a list of clauses is violated exactly where one of them is false.
-/

namespace TripletSat

namespace Lit

@[simp] theorem natAbs_signed (l : Lit) : l.signed.natAbs = l.name := by
  unfold signed
  split <;> simp

theorem signed_ne_zero (l : Lit) : l.signed ≠ 0 := by
  rw [← Int.natAbs_ne_zero, natAbs_signed]
  exact Nat.ne_of_gt l.name_pos

end Lit

theorem Clause.ofSigned?_signed (c : Clause) :
    ofSigned? c.a.signed c.b.signed c.c.signed = some c := by
  simp [ofSigned?, Lit.ofSigned?_signed, ofLits?, c.a_ne_b, c.a_ne_c, c.b_ne_c]

theorem Clause.nodup_names (c : Clause) : (c.lits.map Lit.name).Nodup := by
  simp [lits, c.a_ne_b, c.a_ne_c, c.b_ne_c]

theorem Clause.lit_inj {c : Clause} {l m : Lit} (hl : l ∈ c.lits) (hm : m ∈ c.lits)
    (name : l.name = m.name) : l = m :=
  List.inj_on_of_nodup_map c.nodup_names hl hm name

theorem Clause.natAbs_signed (c : Clause) : c.signed.map Int.natAbs = c.triple.names := by
  simp [signed, lits, triple, Triple.names]

theorem Tier.admits_ofClause {clause : Clause} {τ : Valuation} :
    (Tier.ofClause clause).Admits τ ↔ τ.octant clause.triple = clause.octant := by
  show _ ∈ OctantSet.empty.insert _ ↔ _
  rw [OctantSet.mem_insert]
  exact or_iff_right (OctantSet.not_mem_empty _)

theorem Clause.name_pos (clause : Clause) {v : Nat} (hv : v ∈ clause.triple.names) : 0 < v := by
  rcases Triple.mem_names.mp hv with rfl | rfl | rfl
  · exact clause.a.name_pos
  · exact clause.b.name_pos
  · exact clause.c.name_pos

namespace Formula

/-- The tiers mention variables of the permutation only. -/
def Known (f : Formula) : Prop := ∀ t ∈ f.tiers, ∀ v ∈ t.triple.names, v ∈ f.permutation.names

theorem map_triple_mergeTier (f : Formula) (u : Tier) :
    (f.mergeTier u).tiers.map Tier.triple = f.tiers.map Tier.triple := by
  simp only [mergeTier, List.map_map]
  apply List.map_congr_left
  intro t _
  simp only [Function.comp]
  split <;> rfl

/-- Adding a tier brings in what it has of a property that merging unites and that does not depend on
the order of the variables. -/
theorem exists_mem_addTier {f : Formula} {u : Tier} {P : Tier → Prop}
    (merge : ∀ t, t.triple.sameVariables u.triple = true → (P (t.merge u) ↔ P t ∨ P u))
    (ordered : ∀ rank, P (u.orderedBy rank) ↔ P u) :
    (∃ t ∈ (f.addTier u).tiers, P t) ↔ (∃ t ∈ f.tiers, P t) ∨ P u := by
  unfold addTier
  split
  · rename_i held
    simp only [mergeTier, List.mem_map, exists_exists_and_eq_and]
    constructor
    · rintro ⟨t, ht, has⟩
      split at has
      · rename_i same
        exact ((merge t same).mp has).imp (fun old => ⟨t, ht, old⟩) id
      · exact .inl ⟨t, ht, has⟩
    · rintro (⟨t, ht, has⟩ | has)
      · refine ⟨t, ht, ?_⟩
        split
        · rename_i same
          exact (merge t same).mpr (.inl has)
        · exact has
      · obtain ⟨t, ht, same⟩ := List.any_eq_true.mp held
        refine ⟨t, ht, ?_⟩
        rw [if_pos same]
        exact (merge t same).mpr (.inr has)
  · simp only [appendTier, List.mem_append, List.mem_singleton, or_and_right, exists_or,
      exists_eq_left, ordered]

theorem violates_addTier {f : Formula} {u : Tier} {τ : Valuation} :
    (f.addTier u).Violates τ ↔ f.Violates τ ∨ u.Admits τ :=
  exists_mem_addTier (fun _ same => Tier.admits_merge (Triple.sameVariables_comm same))
    fun _ => Tier.admits_orderedBy

theorem known_addTier {f : Formula} {u : Tier} (h : f.Known) : (f.addTier u).Known := by
  unfold addTier
  split
  · intro t ht
    obtain ⟨t₀, ht₀, rfl⟩ := List.mem_map.mp ht
    split <;> exact h t₀ ht₀
  · intro t ht v hv
    apply Permutation.mem_addAll.mpr
    rcases List.mem_append.mp ht with old | new
    · exact .inl (h t old v hv)
    · obtain rfl := List.mem_singleton.mp new
      exact .inr (Tier.mem_names_orderedBy.mp hv)

theorem mem_names_addTier {f : Formula} {u : Tier} {v : Nat} (h : f.Known) :
    v ∈ (f.addTier u).permutation.names ↔ v ∈ f.permutation.names ∨ v ∈ u.triple.names := by
  unfold addTier
  split
  · rename_i held
    obtain ⟨t, ht, same⟩ := List.any_eq_true.mp held
    refine ⟨.inl, fun either => either.elim id ?_⟩
    intro new
    exact h t ht v ((Triple.sameVariables_iff.mp same v).mpr new)
  · exact Permutation.mem_addAll

/-- No two tiers are over the same variables. -/
def Distinct (f : Formula) : Prop :=
  (f.tiers.map Tier.triple).Pairwise fun w u => w.sameVariables u = false

theorem Distinct.eq_of_sameVariables {f : Formula} {t u : Tier} (h : f.Distinct) (ht : t ∈ f.tiers)
    (hu : u ∈ f.tiers) (same : t.triple.sameVariables u.triple = true) : t = u := by
  by_contra other
  have symm : Std.Symm fun t u : Tier => t.triple.sameVariables u.triple = false :=
    ⟨fun t u apart => eq_false_of_ne_true fun same =>
      Bool.false_ne_true (apart.symm.trans (Triple.sameVariables_comm same))⟩
  exact Bool.false_ne_true ((List.Pairwise.forall (List.pairwise_map.mp h) ht hu other).symm.trans same)

theorem distinct_addTier {f : Formula} (h : f.Distinct) (t : Tier) : (f.addTier t).Distinct := by
  unfold addTier
  split
  · rwa [Distinct, map_triple_mergeTier]
  · rename_i apart
    rw [Distinct, appendTier, List.map_append, List.map_singleton]
    refine List.pairwise_append.mpr ⟨h, List.pairwise_singleton _ _, fun w hw w' hw' => ?_⟩
    obtain ⟨u, hu, rfl⟩ := List.mem_map.mp hw
    obtain rfl := List.mem_singleton.mp hw'
    refine eq_false_of_ne_true fun same => apart (List.any_eq_true.mpr ⟨u, hu, ?_⟩)
    exact Triple.sameVariables_trans same
      (Triple.sameVariables_iff.mpr fun _ => Tier.mem_names_orderedBy)

theorem ofClauses_eq_foldl (clauses : List Clause) :
    ofClauses clauses = (clauses.map Tier.ofClause).foldl addTier empty := by
  rw [List.foldl_map]
  rfl

theorem ofClauses_append_singleton (clauses : List Clause) (c : Clause) :
    ofClauses (clauses ++ [c]) = (ofClauses clauses).add c :=
  List.foldl_append

/-- The formula says what the clauses say, over their variables. -/
structure Encodes (f : Formula) (clauses : List Clause) : Prop where
  known : f.Known
  distinct : f.Distinct
  names : ∀ v, v ∈ f.permutation.names ↔ ∃ clause ∈ clauses, v ∈ clause.triple.names
  violates : ∀ τ, f.Violates τ ↔ ∃ clause ∈ clauses, τ.octant clause.triple = clause.octant

theorem Encodes.add {f : Formula} {clauses : List Clause} (h : f.Encodes clauses)
    (clause : Clause) : (f.add clause).Encodes (clauses ++ [clause]) where
  known := known_addTier h.known
  distinct := distinct_addTier h.distinct _
  names v := by
    unfold Formula.add
    rw [mem_names_addTier h.known, h.names v]
    simp [Tier.ofClause, or_and_right, exists_or]
  violates τ := by
    unfold Formula.add
    rw [violates_addTier, h.violates τ, Tier.admits_ofClause]
    simp [or_and_right, exists_or]

theorem encodes_empty : empty.Encodes [] where
  known := by simp [Known, empty]
  distinct := .nil
  names := by simp [empty, Permutation.empty]
  violates := by simp [Violates, empty]

theorem encodes_foldl {f : Formula} {before : List Clause} (h : f.Encodes before)
    (clauses : List Clause) : (clauses.foldl Formula.add f).Encodes (before ++ clauses) := by
  induction clauses generalizing f before with
  | nil => simpa using h
  | cons clause rest ih =>
    rw [List.foldl_cons, List.append_cons]
    exact ih (h.add clause)

theorem encodes_ofClauses (clauses : List Clause) : (ofClauses clauses).Encodes clauses :=
  encodes_foldl encodes_empty clauses

theorem Encodes.name_pos {f : Formula} {clauses : List Clause} (h : f.Encodes clauses) {v : Nat}
    (hv : v ∈ f.permutation.names) : 0 < v := by
  obtain ⟨clause, -, hv⟩ := (h.names v).mp hv
  exact clause.name_pos hv

theorem Encodes.not_violates {f : Formula} {clauses : List Clause} (h : f.Encodes clauses)
    {α : Assignment} (all : ∀ clause ∈ clauses, α.satisfies clause = true) :
    ¬ f.Violates α.value := by
  rw [h.violates]
  rintro ⟨clause, member, same⟩
  exact Assignment.not_violates_of_satisfies (all clause member) same

/-- An assignment of all variables that violates no tier makes every clause true. -/
theorem Encodes.satisfies {f : Formula} {clauses : List Clause} (h : f.Encodes clauses)
    {α : Assignment} (total : ∀ v ∈ f.permutation.names, (α.get? v).isSome = true)
    (none : ¬ f.Violates α.value) : ∀ clause ∈ clauses, α.satisfies clause = true := by
  rw [h.violates] at none
  intro clause member
  refine Assignment.satisfies_of_not_violates (fun v hv => total v ?_)
    fun same => none ⟨clause, member, same⟩
  exact (h.names v).mpr ⟨clause, member, hv⟩

/-- A formula that holds an octant is violated somewhere. -/
theorem exists_violates {f : Formula} (full : f.isEmpty = false) : ∃ τ, f.Violates τ := by
  obtain ⟨t, ht, some⟩ := List.all_eq_false.mp full
  obtain ⟨o, ho⟩ := OctantSet.isEmpty_eq_false_iff.mp (eq_false_of_ne_true some)
  obtain ⟨τ, rfl⟩ := Valuation.exists_octant t.triple o
  exact ⟨τ, t, ht, ho⟩

theorem Encodes.isEmpty_iff {f : Formula} {clauses : List Clause} (h : f.Encodes clauses) :
    f.isEmpty = true ↔ clauses = [] := by
  constructor
  · intro empty
    apply List.eq_nil_iff_forall_not_mem.mpr
    intro clause member
    obtain ⟨τ, same⟩ := Valuation.exists_octant clause.triple clause.octant
    obtain ⟨t, ht, admits⟩ := (h.violates τ).mpr ⟨clause, member, same⟩
    exact Tier.not_admits_of_isEmpty (List.all_eq_true.mp empty t ht) τ admits
  · rintro rfl
    apply eq_true_of_ne_false
    intro full
    obtain ⟨τ, violated⟩ := exists_violates full
    simpa using (h.violates τ).mp violated

end Formula

end TripletSat
