import Mathlib.Algebra.GroupWithZero.Nat
import TripletSat.Proofs.Completion
import TripletSat.Proofs.Reading

/-!
What a split keeps. The clauses of a tier are read off its octants, in whatever order it stores its
variables. Splitting loses none of them and repeats none, so the compact formulas are true together
exactly where the formula is, under partial assignments as well.
-/

namespace TripletSat

/-! ### The clauses of a tier -/

namespace Clause

variable {c d : Clause} {τ : Valuation}

theorem octant_eq_iff : τ.octant c.triple = c.octant ↔ ∀ l ∈ c.lits, τ l.name = l.negated := by
  simp [Valuation.octant, triple, octant, lits]

theorem names_triple (c : Clause) : c.triple.names = c.lits.map Lit.name := rfl

theorem nodup_lits (c : Clause) : c.lits.Nodup := c.nodup_names.of_map Lit.name

theorem mem_lits_iff (h : τ.octant c.triple = c.octant) {l : Lit} :
    l ∈ c.lits ↔ l.name ∈ c.triple.names ∧ l.negated = τ l.name := by
  rw [octant_eq_iff] at h
  rw [names_triple, List.mem_map]
  constructor
  · exact fun hl => ⟨⟨l, hl, rfl⟩, (h l hl).symm⟩
  · rintro ⟨⟨k, hk, name⟩, negated⟩
    have value := h k hk
    rw [name, ← negated] at value
    obtain ⟨_, _, _⟩ := k
    obtain ⟨_, _, _⟩ := l
    cases name
    cases value
    exact hk

/-- Over the same variables, a valuation makes the literals of one clause false only. -/
theorem perm_lits (same : c.triple.sameVariables d.triple = true) (hc : τ.octant c.triple = c.octant)
    (hd : τ.octant d.triple = d.octant) : c.lits.Perm d.lits :=
  (List.perm_ext_iff_of_nodup c.nodup_lits d.nodup_lits).mpr fun l => by
    rw [mem_lits_iff hc, mem_lits_iff hd, Triple.sameVariables_iff.mp same]

theorem sameVariables_of_perm (h : c.lits.Perm d.lits) : c.triple.sameVariables d.triple = true :=
  Triple.sameVariables_iff.mpr fun _ => (h.map Lit.name).mem_iff

theorem satisfies_of_perm (h : c.lits.Perm d.lits) (α : Assignment) :
    α.satisfies c = α.satisfies d :=
  h.any_eq

theorem of_ofOctant {t : Triple} {o : Octant} (h : ofOctant t o = .ok d) :
    d.triple = t ∧ d.octant = o := by
  unfold ofOctant at h
  split at h
  · cases h
    exact ⟨rfl, rfl⟩
  · cases h

end Clause

namespace Tier

variable {t u : Tier} {c : Clause} {τ : Valuation}

/-- One of the octants gives the literals of the clause, in some order. -/
def Holds (t : Tier) (c : Clause) : Prop :=
  ∃ o ∈ t.octants, ∃ d, Clause.ofOctant t.triple o = .ok d ∧ d.lits.Perm c.lits

theorem holds_iff (h : τ.octant c.triple = c.octant) :
    t.Holds c ↔ t.triple.sameVariables c.triple = true ∧ t.Admits τ := by
  constructor
  · rintro ⟨o, ho, d, gives, perm⟩
    obtain ⟨triple, octant⟩ := Clause.of_ofOctant gives
    refine ⟨triple ▸ Clause.sameVariables_of_perm perm, ?_⟩
    have false' : τ.octant d.triple = d.octant :=
      Clause.octant_eq_iff.mpr fun l hl => Clause.octant_eq_iff.mp h l (perm.mem_iff.mp hl)
    rw [triple, octant] at false'
    rwa [Admits, false']
  · rintro ⟨same, admits⟩
    have positive : ∀ v ∈ t.triple.names, 0 < v := fun v hv =>
      c.name_pos ((Triple.sameVariables_iff.mp same v).mp hv)
    obtain ⟨d, gives, triple, octant⟩ := Clause.ofOctant_returns (o := τ.octant t.triple) positive
    refine ⟨_, admits, d, gives, Clause.perm_lits (triple ▸ same) ?_ h⟩
    rw [triple, octant]

/-- Over the same variables, with the same clauses. -/
structure Restates (u t : Tier) : Prop where
  same : u.triple.sameVariables t.triple = true
  clauses : ∀ c, u.Holds c ↔ t.Holds c

theorem Reorders.restates (h : u.Reorders t) : u.Restates t where
  same := h.same
  clauses c := by
    obtain ⟨τ, octant⟩ := Valuation.exists_octant c.triple c.octant
    rw [holds_iff octant, holds_iff octant, h.admits τ]
    refine and_congr_left fun _ => ⟨fun shared => ?_, fun shared => ?_⟩
    · exact Triple.sameVariables_trans (Triple.sameVariables_comm h.same) shared
    · exact Triple.sameVariables_trans h.same shared

def Apart (t u : Tier) : Prop := t.triple.sameVariables u.triple = false

theorem Apart.not_sameVariables (h : t.Apart u) : ¬ t.triple.sameVariables u.triple = true :=
  Bool.eq_false_iff.mp h

theorem Apart.symm (h : t.Apart u) : u.Apart t :=
  Bool.eq_false_iff.mpr fun same => h.not_sameVariables (Triple.sameVariables_comm same)

section Lists

variable {us ts : List Tier}

theorem pairwise_apart (h : List.Forall₂ Reorders us ts)
    (apart : (ts.map triple).Pairwise fun w w' => w.sameVariables w' = false) :
    us.Pairwise Apart := by
  induction h with
  | nil => exact .nil
  | @cons u t us ts head tail ih =>
    obtain ⟨first, rest⟩ := List.pairwise_cons.mp apart
    refine List.pairwise_cons.mpr ⟨fun u' hu' => Bool.eq_false_iff.mpr fun same => ?_, ih rest⟩
    obtain ⟨t', ht', head'⟩ := exists_of_forall₂ tail hu'
    refine Bool.eq_false_iff.mp (first t'.triple (List.mem_map_of_mem ht')) ?_
    exact Triple.sameVariables_trans (Triple.sameVariables_comm head.same)
      (Triple.sameVariables_trans same head'.same)

theorem count_eq_sum (ts : List Tier) : count ts = (ts.map size).sum := by
  induction ts with
  | nil => rfl
  | cons t rest ih => rw [count_cons, ih, List.map_cons, List.sum_cons]

theorem count_append (us ts : List Tier) : count (us ++ ts) = count us + count ts := by
  rw [count_eq_sum, count_eq_sum, count_eq_sum, List.map_append, List.sum_append]

theorem count_perm (h : us.Perm ts) : count us = count ts := by
  rw [count_eq_sum, count_eq_sum, (h.map size).sum_nat]

theorem count_of_reorders (h : List.Forall₂ Reorders us ts) : count us = count ts := by
  induction h with
  | nil => rfl
  | cons head _ ih => rw [count_cons, count_cons, head.size, ih]

end Lists

end Tier

/-! ### Evaluation -/

theorem allChecked_decides {α : Type} {xs : List α} {test : α → Checked Bool} {Good : α → Prop}
    (h : ∀ x ∈ xs, Returns (test x) fun b => b = true ↔ Good x) :
    Returns (allChecked test xs) fun b => b = true ↔ ∀ x ∈ xs, Good x := by
  induction xs with
  | nil => exact Returns.pure (by simp)
  | cons x rest ih =>
    unfold allChecked
    apply (h x List.mem_cons_self).bind
    intro b hb
    cases b with
    | true =>
      refine (ih fun y hy => h y (List.mem_cons_of_mem _ hy)).mono fun b rest => ?_
      rw [rest, List.forall_mem_cons]
      exact (and_iff_right (hb.mp rfl)).symm
    | false =>
      refine Returns.pure (iff_of_false Bool.false_ne_true fun all => ?_)
      exact Bool.false_ne_true (hb.mpr (all x List.mem_cons_self))

namespace Formula

variable {f g : Formula} {gs : List Formula}

def Holds (f : Formula) (c : Clause) : Prop := ∃ t ∈ f.tiers, t.Holds c

/-- A formula is true where all clauses that it holds are. -/
theorem evaluate_decides (positive : ∀ t ∈ f.tiers, ∀ v ∈ t.triple.names, 0 < v) (α : Assignment) :
    Returns (f.evaluate α) fun b => b = true ↔ ∀ c, f.Holds c → α.satisfies c = true := by
  unfold evaluate
  refine (@allChecked_decides _ f.tiers _
    (fun t => ∀ c, t.Holds c → α.satisfies c = true) ?_).mono fun b decides => ?_
  · intro t ht
    refine (@allChecked_decides _ t.octants.toList _
      (fun o => ∀ d, Clause.ofOctant t.triple o = .ok d → α.satisfies d = true) ?_).mono
      fun b decides => ?_
    · intro o _
      refine (Clause.ofOctant_returns (positive t ht)).with_eq.bind fun d ⟨gives, _⟩ =>
        Returns.pure ⟨fun satisfied d' gives' => ?_, fun all => all d gives⟩
      obtain rfl := Except.ok.inj (gives.symm.trans gives')
      exact satisfied
    · rw [decides]
      constructor
      · rintro all c ⟨o, ho, d, gives, perm⟩
        rw [← Clause.satisfies_of_perm perm]
        exact all o (OctantSet.mem_toList.mpr ho) d gives
      · intro all o ho d gives
        exact all d ⟨o, OctantSet.mem_toList.mp ho, d, gives, .refl _⟩
  · rw [decides]
    constructor
    · rintro all c ⟨t, ht, holds⟩
      exact all t ht c holds
    · exact fun all t ht c holds => all c ⟨t, ht, holds⟩

/-! ### The parts of a split -/

/-- One tier for each window of at least three names, in their order. -/
structure Compact (g : Formula) : Prop where
  names : 3 ≤ g.permutation.size
  count : g.tiers.length + 2 = g.permutation.size
  windows : ∀ (i : Nat) (t : Tier), g.tiers[i]? = some t →
    g.permutation.names[i]? = some t.triple.a ∧ g.permutation.names[i + 1]? = some t.triple.b ∧
      g.permutation.names[i + 2]? = some t.triple.c

theorem Windowed.compact (h : g.Windowed) (some : g.tiers ≠ []) : g.Compact := by
  have names := h.known.three_le_size some
  have count : g.tiers.length = g.permutation.size - 2 := by
    rw [← List.length_map Tier.triple, h, Permutation.length_windows]
  refine ⟨names, by omega, fun i t ht => Permutation.getElem?_windows.mp ?_⟩
  rw [← h, List.getElem?_map, ht]
  rfl

/-- The compact formulas share out the clauses of a formula, and are true together where it is. -/
structure Partitions (f : Formula) (gs : List Formula) : Prop where
  compact : ∀ g ∈ gs, g.Compact
  appears : ∀ t ∈ f.tiers, ∃! i : Nat, ∃ g, gs[i]? = some g ∧ ∃ u ∈ g.tiers, u.Restates t
  only : ∀ g ∈ gs, ∀ u ∈ g.tiers, ∃ t ∈ f.tiers, u.Restates t
  count : (gs.map clauseCount).sum = f.clauseCount
  evaluate : ∀ α, ∃ b, f.evaluate α = .ok b ∧ (∀ g ∈ gs, ∃ b', g.evaluate α = .ok b') ∧
    (b = true ↔ ∀ g ∈ gs, g.evaluate α = .ok true)

theorem sum_clauseCount (gs : List Formula) :
    (gs.map clauseCount).sum = Tier.count (gs.flatMap Formula.tiers) := by
  induction gs with
  | nil => rfl
  | cons g rest ih =>
    rw [List.map_cons, List.sum_cons, ih, List.flatMap_cons, Tier.count_append]
    rfl

/-- Each tier is in the compact formulas, reordered, and whatever they hold is one of them. -/
theorem Splits.mem_tiers (h : Splits f.tiers gs) (distinct : f.Distinct) :
    (∀ t ∈ f.tiers, ∃ g ∈ gs, ∃ u ∈ g.tiers, u.Reorders t) ∧
      ∀ g ∈ gs, ∀ u ∈ g.tiers, ∃ t ∈ f.tiers, u.Reorders t := by
  obtain ⟨us, reorders, perm⟩ := h.tiers distinct
  constructor
  · intro t ht
    obtain ⟨u, hu, reorder⟩ := exists_of_forall₂ reorders.flip ht
    obtain ⟨g, hg, hu⟩ := List.mem_flatMap.mp (perm.mem_iff.mp hu)
    exact ⟨g, hg, u, hu, reorder⟩
  · intro g hg u hu
    exact exists_of_forall₂ reorders (perm.mem_iff.mpr (List.mem_flatMap.mpr ⟨g, hg, hu⟩))

theorem Splits.apart (h : Splits f.tiers gs) (distinct : f.Distinct) {i j : Nat} {g k : Formula}
    (other : i ≠ j) (hg : gs[i]? = some g) (hk : gs[j]? = some k) :
    ∀ u ∈ g.tiers, ∀ u' ∈ k.tiers, u.Apart u' := by
  obtain ⟨us, reorders, perm⟩ := h.tiers distinct
  have apart : (gs.flatMap Formula.tiers).Pairwise Tier.Apart :=
    (perm.pairwise_iff Tier.Apart.symm).mp (Tier.pairwise_apart reorders distinct)
  refine pairwise_getElem? ?_ (List.pairwise_flatMap.mp apart).2 other hg hk
  exact fun across u hu u' hu' => (across u' hu' u hu).symm

theorem Splits.holds_iff (h : Splits f.tiers gs) (distinct : f.Distinct) {c : Clause} :
    f.Holds c ↔ ∃ g ∈ gs, g.Holds c := by
  obtain ⟨into, back⟩ := h.mem_tiers distinct
  constructor
  · rintro ⟨t, ht, holds⟩
    obtain ⟨g, hg, u, hu, reorders⟩ := into t ht
    exact ⟨g, hg, u, hu, (reorders.restates.clauses c).mpr holds⟩
  · rintro ⟨g, hg, u, hu, holds⟩
    obtain ⟨t, ht, reorders⟩ := back g hg u hu
    exact ⟨t, ht, (reorders.restates.clauses c).mp holds⟩

theorem Splits.partitions (h : Splits f.tiers gs) (distinct : f.Distinct)
    (positive : ∀ t ∈ f.tiers, ∀ v ∈ t.triple.names, 0 < v) : f.Partitions gs := by
  obtain ⟨into, back⟩ := h.mem_tiers distinct
  refine ⟨fun g hg => (h.windowed g hg).compact (h.tiered g hg), fun t ht => ?_, fun g hg u hu => ?_,
    ?_, fun α => ?_⟩
  · obtain ⟨g, hg, u, hu, reorders⟩ := into t ht
    obtain ⟨i, hi⟩ := List.mem_iff_getElem?.mp hg
    refine ⟨i, ⟨g, hi, u, hu, reorders.restates⟩, ?_⟩
    rintro j ⟨k, hk, u', hu', restates⟩
    -- Tiers of different compact formulas are never over the same variables.
    by_contra other
    exact (h.apart distinct other hk hi u' hu' u hu).not_sameVariables
      (Triple.sameVariables_trans restates.same (Triple.sameVariables_comm reorders.same))
  · obtain ⟨t, ht, reorders⟩ := back g hg u hu
    exact ⟨t, ht, reorders.restates⟩
  · obtain ⟨us, reorders, perm⟩ := h.tiers distinct
    rw [sum_clauseCount, ← Tier.count_perm perm, Tier.count_of_reorders reorders]
    rfl
  · have named (g) (hg : g ∈ gs) : ∀ u ∈ g.tiers, ∀ v ∈ u.triple.names, 0 < v := by
      intro u hu v hv
      obtain ⟨t, ht, reorders⟩ := back g hg u hu
      exact positive t ht v ((Triple.sameVariables_iff.mp reorders.same v).mp hv)
    obtain ⟨b, run, decides⟩ := evaluate_decides positive α
    refine ⟨b, run, fun g hg => ?_, ?_⟩
    · obtain ⟨b', run', -⟩ := evaluate_decides (named g hg) α
      exact ⟨b', run'⟩
    · have each (g) (hg : g ∈ gs) :
          g.evaluate α = .ok true ↔ ∀ c, g.Holds c → α.satisfies c = true := by
        obtain ⟨b', run', decides'⟩ := evaluate_decides (named g hg) α
        rw [run', ← decides', Except.ok.injEq]
      rw [decides]
      constructor
      · exact fun all g hg => (each g hg).mpr fun c holds =>
          all c ((h.holds_iff distinct).mpr ⟨g, hg, holds⟩)
      · intro all c holds
        obtain ⟨g, hg, held⟩ := (h.holds_iff distinct).mp holds
        exact (each g hg).mp (all g hg) c held

/-- Splitting the formula of any clauses succeeds and loses nothing: each tier goes to one compact
formula, with its clauses, and every assignment, total or not, makes the formula true exactly if it
makes all compact ones true. -/
theorem split_partitions (clauses : List Clause) :
    ∃ gs, (ofClauses clauses).split = .ok gs ∧ (ofClauses clauses).Partitions gs := by
  have encodes := encodes_ofClauses clauses
  obtain ⟨gs, run, splits⟩ := split_returns (ofClauses clauses)
  exact ⟨gs, run, splits.partitions encodes.distinct fun t ht v hv =>
    encodes.name_pos (encodes.known t ht v hv)⟩

end Formula

end TripletSat
