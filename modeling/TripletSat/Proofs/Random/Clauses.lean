import Mathlib.Data.Finset.Powerset
import Mathlib.Data.Nat.Choose.Basic
import Mathlib.Data.Set.Card
import Mathlib.Order.Interval.Finset.Nat
import Mathlib.Tactic.Ring
import TripletSat.Proofs.Recording
import TripletSat.Random.Instance

/-!
The number of clauses over the variables `1` to `n`, as sets of literals. Such a set is a choice of three
variables and of those among them that are negated, and the bound for random formulas is the number of
these choices.
-/

namespace TripletSat

/-- The variables of literals, and those of the negative ones. -/
def signPattern (literals : Finset Lit) : (_ : Finset Nat) × Finset Nat :=
  ⟨literals.image Lit.name, (literals.filter (·.negated)).image Lit.name⟩

namespace Clause

variable {n : Nat} {c d : Clause}

/-- The variables are among `1` to `n`. -/
def Over (n : Nat) (c : Clause) : Prop := ∀ v ∈ c.triple.names, v ∈ Finset.Icc 1 n

theorem over_iff : c.Over n ↔ ∀ l ∈ c.lits, l.name ≤ n := by
  unfold Over
  rw [names_triple, List.forall_mem_map]
  exact forall₂_congr fun l _ => by rw [Finset.mem_Icc, and_iff_right (Nat.succ_le_of_lt l.name_pos)]

theorem exists_ascending (c : Clause) :
    ∃ d : Clause, d.lits.Perm c.lits ∧ d.a.name < d.b.name ∧ d.b.name < d.c.name := by
  have perm : (c.lits.mergeSort (·.name ≤ ·.name)).Perm c.lits := List.mergeSort_perm _ _
  have sorted := pairwise_mergeSort_by Lit.name c.lits
  have distinct := (perm.map Lit.name).nodup_iff.mpr c.nodup_names
  obtain ⟨x, y, z, three⟩ := List.length_eq_three.mp perm.length_eq
  rw [three] at perm sorted distinct
  simp only [List.map_cons, List.map_nil, List.nodup_cons, List.pairwise_cons, List.mem_cons,
    List.not_mem_nil, or_false, not_or, forall_eq_or_imp, forall_eq] at sorted distinct
  exact ⟨⟨x, y, z, distinct.1.1, distinct.1.2, distinct.2.1⟩, perm,
    Nat.lt_of_le_of_ne sorted.1.1 distinct.1.1, Nat.lt_of_le_of_ne sorted.2.1 distinct.2.1⟩

/-- The clauses over `1` to `n`, as sets of literals. -/
def litSets (n : Nat) : Set (Finset Lit) := litSet '' {c | c.Over n}

theorem mem_litSet_iff {l : Lit} : l ∈ c.litSet ↔
    l.name ∈ (signPattern c.litSet).1 ∧ (l.negated = true ↔ l.name ∈ (signPattern c.litSet).2) := by
  unfold signPattern litSet
  simp only [Finset.mem_image, Finset.mem_filter, List.mem_toFinset]
  constructor
  · intro member
    refine ⟨⟨l, member, rfl⟩, fun negative => ⟨l, ⟨member, negative⟩, rfl⟩, ?_⟩
    rintro ⟨m, ⟨there, negative⟩, name⟩
    exact lit_inj there member name ▸ negative
  · rintro ⟨⟨m, member, name⟩, sign⟩
    have signs : l.negated = true ↔ m.negated = true := by
      refine sign.trans ⟨?_, fun negative => ⟨m, ⟨member, negative⟩, name⟩⟩
      rintro ⟨m', ⟨there, negative⟩, name'⟩
      exact lit_inj there member (name'.trans name.symm) ▸ negative
    have same : m = l := by
      rw [Lit.mk.injEq]
      exact ⟨name, (Bool.eq_iff_iff.mpr signs).symm⟩
    exact same ▸ member

theorem injOn_signPattern (n : Nat) : Set.InjOn signPattern (litSets n) := by
  rintro _ ⟨c, -, rfl⟩ _ ⟨d, -, rfl⟩ same
  ext l
  rw [mem_litSet_iff, mem_litSet_iff, same]

theorem fst_signPattern (c : Clause) : (signPattern c.litSet).1 = c.triple.varSet := by
  ext v
  simp only [signPattern, litSet, Triple.varSet, names_triple, Finset.mem_image, List.mem_toFinset,
    List.mem_map]

theorem signPattern_litSet {negative : Finset Nat} (within : negative ⊆ c.triple.varSet)
    (sign : ∀ l ∈ c.lits, l.negated = true ↔ l.name ∈ negative) :
    signPattern c.litSet = ⟨c.triple.varSet, negative⟩ := by
  refine Sigma.ext (fst_signPattern c) (heq_of_eq (Finset.ext fun v => ?_))
  simp only [signPattern, litSet, Finset.mem_image, Finset.mem_filter, List.mem_toFinset]
  constructor
  · rintro ⟨l, ⟨member, negated⟩, rfl⟩
    exact (sign l member).mp negated
  · intro listed
    have known := within listed
    rw [Triple.varSet, List.mem_toFinset, names_triple, List.mem_map] at known
    obtain ⟨l, member, rfl⟩ := known
    exact ⟨l, ⟨member, (sign l member).mpr listed⟩, rfl⟩

/-- Three variables with a sign each make a clause. -/
theorem exists_signPattern {names negative : Finset Nat} (three : names.card = 3) (positive : 0 ∉ names)
    (within : negative ⊆ names) :
    ∃ c : Clause, c.triple.varSet = names ∧ signPattern c.litSet = ⟨names, negative⟩ := by
  obtain ⟨x, y, z, xy, xz, yz, rfl⟩ := Finset.card_eq_three.mp three
  simp only [Finset.mem_insert, Finset.mem_singleton, not_or] at positive
  obtain ⟨hx, hy, hz⟩ := positive
  let c : Clause := ⟨⟨x, x ∈ negative, by omega⟩, ⟨y, y ∈ negative, by omega⟩,
    ⟨z, z ∈ negative, by omega⟩, xy, xz, yz⟩
  have names : c.triple.varSet = {x, y, z} := by simp [c, triple, Triple.varSet, Triple.names]
  refine ⟨c, names, ?_⟩
  rw [← names] at within ⊢
  exact signPattern_litSet within (by simp [c, lits])

theorem image_signPattern (n : Nat) : signPattern '' litSets n =
    ((Finset.Icc 1 n).powersetCard 3).sigma fun names => names.powerset := by
  ext ⟨names, negative⟩
  simp only [Set.mem_image, litSets, exists_exists_and_eq_and, Set.mem_ofPred_eq, Finset.mem_coe,
    Finset.mem_sigma, Finset.mem_powersetCard, Finset.mem_powerset]
  constructor
  · rintro ⟨c, ranged, pattern⟩
    have three : c.triple.varSet.card = 3 := List.toFinset_card_of_nodup c.triple.nodup_names
    have within : (signPattern c.litSet).2 ⊆ (signPattern c.litSet).1 :=
      Finset.image_subset_image (Finset.filter_subset _ _)
    have known := fst_signPattern c
    rw [pattern] at known within
    obtain rfl : names = c.triple.varSet := known
    exact ⟨⟨fun v hv => ranged v (List.mem_toFinset.mp hv), three⟩, within⟩
  · rintro ⟨⟨ranged, three⟩, within⟩
    obtain ⟨c, rfl, pattern⟩ := exists_signPattern three (fun zero => by simpa using ranged zero) within
    exact ⟨c, fun v hv => ranged (List.mem_toFinset.mpr hv), pattern⟩

theorem encard_litSets (n : Nat) : (litSets n).encard = (8 * n.choose 3 : Nat) := by
  have choices : (((Finset.Icc 1 n).powersetCard 3).sigma fun names => names.powerset).card =
      8 * n.choose 3 := by
    rw [Finset.card_sigma, Finset.sum_const_nat (m := 8), Finset.card_powersetCard, Nat.card_Icc,
      Nat.add_sub_cancel, Nat.mul_comm]
    intro names member
    rw [Finset.card_powerset, (Finset.mem_powersetCard.mp member).2]
    rfl
  rw [← (injOn_signPattern n).encard_image, image_signPattern, Set.encard_coe_eq_coe_finsetCard, choices]

end Clause

namespace Random

theorem product_eq_ok {m n : Nat} (small : m * n < UInt64.size) : product m n = .ok (m * n) :=
  if_pos small

theorem maxClauseCount_eq_choose {n : Nat} (small : 3 ≤ n → 8 * n * (n - 1) * (n - 2) < UInt64.size) :
    maxClauseCount n = .ok (8 * n.choose 3) := by
  unfold maxClauseCount
  split
  · rename_i few
    rw [Nat.choose_eq_zero_of_lt few]
    rfl
  · rename_i many
    have total := small (Nat.not_lt.mp many)
    have first : 8 * n * (n - 1) < UInt64.size :=
      Nat.lt_of_le_of_lt (Nat.le_mul_of_pos_right _ (by omega)) total
    have start : 8 * n < UInt64.size := Nat.lt_of_le_of_lt (Nat.le_mul_of_pos_right _ (by omega)) first
    have falling : 8 * n * (n - 1) * (n - 2) / 6 = 8 * n.choose 3 := by
      have ordered : n.descFactorial 3 = 6 * n.choose 3 := Nat.descFactorial_eq_factorial_mul_choose n 3
      have product : 8 * n * (n - 1) * (n - 2) = 8 * n.descFactorial 3 := by
        simp only [Nat.descFactorial_succ, Nat.descFactorial_zero, Nat.sub_zero]
        ring
      rw [product, ordered]
      omega
    exact (bind_of_ok (product_eq_ok start)).trans <| (bind_of_ok (product_eq_ok first)).trans <|
      (bind_of_ok (product_eq_ok total)).trans <| congrArg Except.ok falling

end Random

end TripletSat
