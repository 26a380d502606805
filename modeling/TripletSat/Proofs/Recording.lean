import Mathlib.Data.Finset.Card
import TripletSat.Proofs.Evaluation
import TripletSat.Proofs.Growth

/-!
Recording clauses. A clause adds one octant, unless the formula holds it already, and a tier at the end
where there is none over its variables. So the formula of a list of clauses counts them as sets of
literals, and its variables and its tiers stand in the order of their first appearance.
-/

namespace TripletSat

theorem OctantSet.size_insert (s : OctantSet) (o : Octant) :
    (s.insert o).size = if o ∈ s then s.size else s.size + 1 := by
  have each : ∀ o ∈ Octant.all, ∀ v : BitVec 8, ((⟨⟨v⟩⟩ : OctantSet).insert o).size =
      if o ∈ (⟨⟨v⟩⟩ : OctantSet) then (⟨⟨v⟩⟩ : OctantSet).size else (⟨⟨v⟩⟩ : OctantSet).size + 1 := by
    decide +kernel
  exact each o o.mem_all s.bits.toBitVec

theorem Valuation.octant_eq_octant_iff {σ τ : Valuation} {t : Triple} :
    σ.octant t = τ.octant t ↔ ∀ v ∈ t.names, σ v = τ v := by
  simp [octant, Triple.names]

/-- What comes anew at the end stays at the end. -/
theorem eraseDups_append_singleton {α : Type} [DecidableEq α] (xs : List α) (x : α) :
    (xs ++ [x]).eraseDups = if x ∈ xs then xs.eraseDups else xs.eraseDups ++ [x] := by
  rw [List.eraseDups_append]
  split <;> simp [List.removeAll, List.eraseDups_cons, *]

/-- The variables, in no order. -/
def Triple.varSet (t : Triple) : Finset Nat := t.names.toFinset

theorem Triple.sameVariables_iff_varSet_eq {t u : Triple} :
    t.sameVariables u = true ↔ t.varSet = u.varSet := by
  rw [sameVariables_iff, Finset.ext_iff]
  simp only [varSet, List.mem_toFinset]

namespace Clause

variable {c d : Clause}

/-- The literals, in no order. -/
def litSet (c : Clause) : Finset Lit := c.lits.toFinset

theorem litSet_eq_iff : c.litSet = d.litSet ↔ c.lits.Perm d.lits :=
  ⟨List.perm_of_nodup_nodup_toFinset_eq c.nodup_lits d.nodup_lits, List.toFinset_eq_of_perm _ _⟩

end Clause

/-! ### One clause more -/

namespace Tier

variable {t u : Tier} {c : Clause}

theorem Holds.sameVariables (h : t.Holds c) : t.triple.sameVariables c.triple = true := by
  obtain ⟨τ, octant⟩ := Valuation.exists_octant c.triple c.octant
  exact ((holds_iff octant).mp h).1

theorem size_ofClause (c : Clause) : (ofClause c).size = 1 := by
  show (OctantSet.empty.insert c.octant).size = 1
  rw [OctantSet.size_insert, if_neg (OctantSet.not_mem_empty _)]
  rfl

/-- A clause comes to a tier over its variables as one octant. -/
theorem size_merge_ofClause (same : t.triple.sameVariables c.triple = true) :
    (t.Holds c → (t.merge (ofClause c)).size = t.size) ∧
      (¬ t.Holds c → (t.merge (ofClause c)).size = t.size + 1) := by
  obtain ⟨τ, octant⟩ := Valuation.exists_octant c.triple c.octant
  have octants : (t.merge (ofClause c)).octants = t.octants.insert (τ.octant t.triple) := by
    refine OctantSet.ext fun o => ?_
    obtain ⟨σ, rfl⟩ := Valuation.exists_octant t.triple o
    rw [OctantSet.mem_insert, Valuation.octant_eq_octant_iff]
    refine (admits_merge (Triple.sameVariables_comm same)).trans (or_congr_right ?_)
    rw [admits_ofClause, ← octant, Valuation.octant_eq_octant_iff]
    exact forall_congr' fun v => imp_congr_left (Triple.sameVariables_iff.mp same v).symm
  rw [holds_iff octant, and_iff_right same, size, size, octants, OctantSet.size_insert]
  exact ⟨fun held => if_pos held, fun away => if_neg away⟩

end Tier

namespace Formula

variable {f : Formula} {u : Tier} {c : Clause}

/-- The tier over the variables of another takes it in, and the rest stay as they are. -/
theorem Distinct.exists_split_mergeTier (h : f.Distinct) {t : Tier} (ht : t ∈ f.tiers)
    (same : t.triple.sameVariables u.triple = true) :
    ∃ before after, f.tiers = before ++ t :: after ∧
      (f.mergeTier u).tiers = before ++ t.merge u :: after := by
  obtain ⟨before, after, split⟩ := List.append_of_mem ht
  obtain ⟨-, later, apart⟩ := List.pairwise_append.mp (split ▸ h.apart)
  obtain ⟨behind, -⟩ := List.pairwise_cons.mp later
  have away {x : Tier} (other : x.Apart t) : x.Apart u := Bool.eq_false_iff.mpr fun there =>
    other.not_sameVariables (Triple.sameVariables_trans there (Triple.sameVariables_comm same))
  refine ⟨before, after, split, ?_⟩
  have kept : before.map _ = before :=
    Tier.map_merge_of_apart fun x hx => away (apart x hx t List.mem_cons_self)
  have kept' : after.map _ = after :=
    Tier.map_merge_of_apart fun x hx => away (behind x hx).symm
  unfold mergeTier
  dsimp only
  rw [split, List.map_append, List.map_cons, kept, kept', if_pos same]

/-- A clause that the formula holds adds nothing, any other one octant. -/
theorem Distinct.clauseCount_add (h : f.Distinct) (c : Clause) :
    (f.Holds c → (f.add c).clauseCount = f.clauseCount) ∧
      (¬ f.Holds c → (f.add c).clauseCount = f.clauseCount + 1) := by
  unfold add addTier clauseCount
  split
  · rename_i held
    obtain ⟨t, ht, same⟩ := List.any_eq_true.mp held
    obtain ⟨before, after, split, merged⟩ := h.exists_split_mergeTier ht same
    have holds : f.Holds c ↔ t.Holds c := by
      refine ⟨fun ⟨t', ht', there⟩ => ?_, fun there => ⟨t, ht, there⟩⟩
      have shared := Triple.sameVariables_trans there.sameVariables (Triple.sameVariables_comm same)
      rwa [← h.eq_of_sameVariables ht' ht shared]
    obtain ⟨old, new⟩ := Tier.size_merge_ofClause same
    rw [holds, merged, split, Tier.count_append, Tier.count_append, Tier.count_cons, Tier.count_cons]
    exact ⟨fun there => by rw [old there], fun away => by rw [new away]; omega⟩
  · rename_i apart
    have away : ¬ f.Holds c := fun ⟨t, ht, there⟩ =>
      apart (List.any_eq_true.mpr ⟨t, ht, there.sameVariables⟩)
    refine ⟨fun there => absurd there away, fun _ => ?_⟩
    unfold appendTier
    rw [Tier.count_append, Tier.count_cons, Tier.count_nil, (Tier.reorders_orderedBy _ _).size,
      Tier.size_ofClause]

theorem Distinct.clauseCount_add_le (h : f.Distinct) (c : Clause) :
    (f.add c).clauseCount ≤ f.clauseCount + 1 := by
  obtain ⟨old, new⟩ := h.clauseCount_add c
  by_cases held : f.Holds c
  · exact Nat.le_of_eq (old held) |>.trans (Nat.le_succ _)
  · exact Nat.le_of_eq (new held)

/-- A tier over new variables comes to the end. -/
theorem varSets_addTier (f : Formula) (u : Tier) :
    (f.addTier u).tiers.map (·.triple.varSet) =
      if u.triple.varSet ∈ f.tiers.map (·.triple.varSet) then f.tiers.map (·.triple.varSet)
      else f.tiers.map (·.triple.varSet) ++ [u.triple.varSet] := by
  have listed : f.tiers.any (·.triple.sameVariables u.triple) = true ↔
      u.triple.varSet ∈ f.tiers.map (·.triple.varSet) := by
    simp only [List.any_eq_true, List.mem_map, Triple.sameVariables_iff_varSet_eq]
  unfold addTier
  rw [apply_ite (fun g : Formula => g.tiers.map (·.triple.varSet))]
  refine if_congr listed ?_ ?_
  · have triples := congrArg (List.map Triple.varSet) (map_triple_mergeTier f u)
    rwa [List.map_map, List.map_map] at triples
  · have same : (u.orderedBy (f.permutation.addAll u.triple.names).index).triple.varSet =
        u.triple.varSet :=
      Triple.sameVariables_iff_varSet_eq.mp (Tier.reorders_orderedBy _ _).same
    rw [appendTier, List.map_append, List.map_singleton, same]

/-! ### Lists of clauses -/

theorem holds_ofClauses_iff_litSet {clauses : List Clause} :
    (ofClauses clauses).Holds c ↔ c.litSet ∈ clauses.map Clause.litSet := by
  simp only [holds_ofClauses, List.mem_map, Clause.litSet_eq_iff]

/-- Clauses count as the sets of their literals. -/
theorem clauseCount_ofClauses (clauses : List Clause) :
    (ofClauses clauses).clauseCount = (clauses.map Clause.litSet).toFinset.card := by
  induction clauses using List.reverseRecOn with
  | nil => rfl
  | append_singleton before c ih =>
    obtain ⟨old, new⟩ := (encodes_ofClauses before).distinct.clauseCount_add c
    have more : ((before ++ [c]).map Clause.litSet).toFinset =
        insert c.litSet (before.map Clause.litSet).toFinset := by
      ext s
      simp
    rw [ofClauses_append_singleton, more]
    by_cases held : (ofClauses before).Holds c
    · have member := List.mem_toFinset.mpr (holds_ofClauses_iff_litSet.mp held)
      rw [old held, ih, Finset.insert_eq_of_mem member]
    · have fresh := mt (holds_ofClauses_iff_litSet.mpr ∘ List.mem_toFinset.mp) held
      rw [new held, ih, Finset.card_insert_of_notMem fresh]

theorem varSets_ofClauses (clauses : List Clause) :
    (ofClauses clauses).tiers.map (·.triple.varSet) = (clauses.map (·.triple.varSet)).eraseDups := by
  induction clauses using List.reverseRecOn with
  | nil => rfl
  | append_singleton before c ih =>
    have last : (Tier.ofClause c).triple.varSet = c.triple.varSet := rfl
    rw [ofClauses_append_singleton, add, varSets_addTier, ih, last, List.map_append, List.map_singleton,
      eraseDups_append_singleton]
    simp only [List.mem_eraseDups]

/-- What a formula keeps of the clauses it was made of. -/
structure Records (f : Formula) (clauses : List Clause) : Prop where
  evaluate : ∀ α : Assignment, ∃ b, f.evaluate α = .ok b ∧
    (b = true ↔ ∀ c ∈ clauses, ∃ l ∈ c.lits, α.litValue? l = some true)
  clauseCount : f.clauseCount = (clauses.map Clause.litSet).toFinset.card
  tierCount : f.tierCount = (clauses.map (·.triple.varSet)).toFinset.card
  names : f.permutation.names = (clauses.flatMap (·.triple.names)).eraseDups
  varSets : f.tiers.map (·.triple.varSet) = (clauses.map (·.triple.varSet)).eraseDups

theorem ofClauses_records (clauses : List Clause) : (ofClauses clauses).Records clauses where
  evaluate α := by
    obtain ⟨b, run, decides⟩ := evaluate_ofClauses clauses α
    refine ⟨b, run, decides.trans ?_⟩
    simp only [Assignment.satisfies, List.any_eq_true, Assignment.makesTrue, beq_iff_eq]
  clauseCount := clauseCount_ofClauses clauses
  tierCount := by
    have sets : (clauses.map (·.triple.varSet)).eraseDups.toFinset =
        (clauses.map (·.triple.varSet)).toFinset := by
      ext s
      simp
    rw [← sets, List.toFinset_card_of_nodup (nodup_eraseDups _), ← varSets_ofClauses, List.length_map]
    rfl
  names := by rw [permutation_ofClauses, Permutation.names_ofNames]
  varSets := varSets_ofClauses clauses

end Formula

end TripletSat
