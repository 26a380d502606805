import TripletSat.Proofs.Partition

/-!
Evaluation. A formula that is true violates no clause, and one that violates none is true where its
variables have values. The formula of a list of clauses holds these and no others, so it is true exactly
where each of them has a true literal, under partial assignments as well.
-/

namespace TripletSat

namespace Tier

variable {t u : Tier} {c d : Clause}

theorem holds_merge (same : u.triple.sameVariables t.triple = true) :
    (t.merge u).Holds c ↔ t.Holds c ∨ u.Holds c := by
  obtain ⟨τ, octant⟩ := Valuation.exists_octant c.triple c.octant
  have shared : t.triple.sameVariables c.triple = true ↔ u.triple.sameVariables c.triple = true :=
    ⟨Triple.sameVariables_trans same, Triple.sameVariables_trans (Triple.sameVariables_comm same)⟩
  rw [holds_iff octant, holds_iff octant, holds_iff octant, admits_merge same, ← shared]
  exact and_or_left

theorem holds_orderedBy {rank : Nat → Nat} : (t.orderedBy rank).Holds c ↔ t.Holds c := by
  obtain ⟨τ, octant⟩ := Valuation.exists_octant c.triple c.octant
  have shared : (t.orderedBy rank).triple.sameVariables c.triple = true ↔
      t.triple.sameVariables c.triple = true := by
    simp only [Triple.sameVariables_iff, mem_names_orderedBy]
  rw [holds_iff octant, holds_iff octant, admits_orderedBy, shared]

theorem holds_ofClause : (ofClause d).Holds c ↔ d.lits.Perm c.lits := by
  have member {o : Octant} : o ∈ (ofClause d).octants ↔ o = d.octant := by
    show o ∈ OctantSet.empty.insert _ ↔ _
    rw [OctantSet.mem_insert]
    exact or_iff_right (OctantSet.not_mem_empty _)
  constructor
  · rintro ⟨o, ho, d', gives, perm⟩
    obtain rfl := member.mp ho
    obtain rfl := Except.ok.inj ((Clause.ofOctant_triple_octant d).symm.trans gives)
    exact perm
  · intro perm
    exact ⟨d.octant, member.mpr rfl, d, Clause.ofOctant_triple_octant d, perm⟩

end Tier

namespace Formula

variable {f : Formula} {c : Clause} {α : Assignment}

theorem not_violates_of_evaluate (positive : ∀ t ∈ f.tiers, ∀ v ∈ t.triple.names, 0 < v)
    (held : f.evaluate α = .ok true) : ¬ f.Violates α.value := by
  rintro ⟨t, ht, admits⟩
  have satisfied := ((evaluate_decides positive α).of_eq held).mp rfl
  -- The clause of the octant that the assignment takes is false.
  obtain ⟨c, gives, triple, octant⟩ :=
    Clause.ofOctant_returns (o := α.value.octant t.triple) (positive t ht)
  have holds : f.Holds c := ⟨t, ht, _, admits, c, gives, .refl _⟩
  apply Assignment.not_violates_of_satisfies (satisfied c holds)
  rw [triple, octant]

theorem evaluate_eq_ok_true_iff (positive : ∀ t ∈ f.tiers, ∀ v ∈ t.triple.names, 0 < v)
    (total : ∀ t ∈ f.tiers, ∀ v ∈ t.triple.names, (α.get? v).isSome = true) :
    f.evaluate α = .ok true ↔ ¬ f.Violates α.value := by
  constructor
  · exact not_violates_of_evaluate positive
  · intro spared
    obtain ⟨b, run, judged⟩ := evaluate_decides positive α
    rw [run, judged.mpr]
    rintro c ⟨t, ht, o, ho, d, gives, perm⟩
    obtain ⟨triple, octant⟩ := Clause.of_ofOctant gives
    rw [← Clause.satisfies_of_perm perm]
    apply Assignment.satisfies_of_not_violates
    · rw [triple]
      exact total t ht
    · rw [triple, octant]
      rintro rfl
      exact spared ⟨t, ht, ho⟩

theorem holds_addTier {u : Tier} : (f.addTier u).Holds c ↔ f.Holds c ∨ u.Holds c :=
  exists_mem_addTier (fun _ same => Tier.holds_merge (Triple.sameVariables_comm same))
    fun _ => Tier.holds_orderedBy

theorem holds_ofClauses {clauses : List Clause} :
    (ofClauses clauses).Holds c ↔ ∃ d ∈ clauses, d.lits.Perm c.lits := by
  have folded (f : Formula) :
      (clauses.foldl add f).Holds c ↔ f.Holds c ∨ ∃ d ∈ clauses, d.lits.Perm c.lits := by
    induction clauses generalizing f with
    | nil => simp
    | cons d rest ih =>
      rw [List.foldl_cons, ih, add, holds_addTier, Tier.holds_ofClause, or_assoc]
      simp
  rw [ofClauses, folded]
  exact or_iff_right (by simp [Holds, empty])

/-- A formula of clauses evaluates, and to true where every clause has a true literal. -/
theorem evaluate_ofClauses (clauses : List Clause) (α : Assignment) :
    Returns ((ofClauses clauses).evaluate α) fun b =>
      b = true ↔ ∀ c ∈ clauses, α.satisfies c = true := by
  have encodes := encodes_ofClauses clauses
  refine (evaluate_decides (fun t ht v hv => encodes.name_pos (encodes.known t ht v hv)) α).mono
    fun b decides => decides.trans ?_
  simp only [holds_ofClauses]
  constructor
  · intro all c hc
    exact all c ⟨c, hc, .refl _⟩
  · rintro all c ⟨d, hd, perm⟩
    rw [← Clause.satisfies_of_perm perm]
    exact all d hd

theorem evaluate_ofClauses_eq_true {clauses : List Clause} :
    (ofClauses clauses).evaluate α = .ok true ↔ ∀ c ∈ clauses, α.satisfies c = true := by
  obtain ⟨b, run, decides⟩ := evaluate_ofClauses clauses α
  rw [run, ← decides, Except.ok.injEq]

end Formula

end TripletSat
