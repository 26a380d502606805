import TripletSat.Proofs.Closure
import TripletSat.Proofs.Evaluation

/-!
Completion, read through assignments. What clauses complete to admits exactly the assignments of its
variables under which they evaluate to true, and it has no tiers only where nothing satisfies them.
-/

namespace TripletSat

namespace Formula

variable {f g : Formula} {more : Permutation} {α : Assignment}

/-- The structure of what satisfies some clauses, over the given variables too. -/
structure Solutions (f : Formula) (more : Permutation) (g : Formula) : Prop where
  names : g.permutation.names = f.permutation.names ++ more.names.filter (· ∉ f.permutation.names)
  admits : ∀ α : Assignment, (∀ v ∈ g.permutation.names, (α.get? v).isSome = true) →
    f.evaluate α = .ok (g.admits α)
  shape : g.tiers = [] ∨ g.Compact ∧ g.Solid
  gone : g.tiers = [] ↔ ∀ α : Assignment, f.evaluate α = .ok false

theorem Completes.admits_iff (h : f.Completes more g) (size : 3 ≤ g.permutation.size)
    (valued : ∀ v ∈ g.permutation.names, (α.get? v).isSome = true) :
    g.admits α = true ↔ ¬ f.Violates α.value := by
  rw [Formula.admits_iff, h.admits size]
  apply and_iff_left_of_imp
  intro spared t ht v hv
  have windowed := h.shaped.resolve_left (List.ne_nil_of_mem ht)
  exact valued v (Permutation.mem_names_of_mem_windows (windowed.triple_mem ht) hv)

theorem Completes.evaluate_eq (h : f.Completes more g) (size : 3 ≤ g.permutation.size)
    (windows : ∀ t ∈ f.tiers, t.triple ∈ f.permutation.windows)
    (positive : ∀ t ∈ f.tiers, ∀ v ∈ t.triple.names, 0 < v)
    (valued : ∀ v ∈ g.permutation.names, (α.get? v).isSome = true) :
    f.evaluate α = .ok (g.admits α) := by
  have total : ∀ t ∈ f.tiers, ∀ v ∈ t.triple.names, (α.get? v).isSome = true := by
    intro t ht v hv
    apply valued
    rw [h.permutation, Permutation.mem_addAll]
    exact .inl (Permutation.mem_names_of_mem_windows (windows t ht) hv)
  obtain ⟨b, run, -⟩ := evaluate_decides positive α
  have judged := evaluate_eq_ok_true_iff positive total
  rw [run, Except.ok.injEq] at judged
  rw [run, Bool.eq_iff_iff.mpr (judged.trans (h.admits_iff size valued).symm)]

theorem Completes.solutions (h : f.Completes more g) (size : 3 ≤ g.permutation.size)
    (windows : ∀ t ∈ f.tiers, t.triple ∈ f.permutation.windows)
    (positive : ∀ t ∈ f.tiers, ∀ v ∈ t.triple.names, 0 < v) : f.Solutions more g where
  names := by rw [h.permutation, Permutation.names_addAll_names]
  admits _ valued := h.evaluate_eq size windows positive valued
  shape := h.shaped.imp_right fun windowed =>
    ⟨windowed.compact (windowed.tiers_ne_nil size), h.solid⟩
  gone := by
    constructor
    · -- A true formula violates no clause even where the assignment leaves variables open.
      intro none α
      obtain ⟨b, run, -⟩ := evaluate_decides positive α
      cases b with
      | false => exact run
      | true => exact absurd none ((h.admits size _).mpr (not_violates_of_evaluate positive run)).1
    · -- Linked tiers that hold octants admit something, and the formula would be true there.
      intro all
      by_contra some
      have windowed := h.shaped.resolve_left some
      obtain ⟨τ, admitted⟩ := windowed.exists_admits_of_solid h.linked h.solid some
      have run := h.evaluate_eq size windows positive (α := .ofValuation τ g.permutation.names)
        fun v hv => by rw [Assignment.get?_ofValuation hv, Option.isSome_some]
      rw [all, windowed.admits_ofValuation admitted] at run
      cases run

/-- Completion turns clauses into exactly their solutions. The names keep their places and those that
are missing follow in the given order. -/
theorem complete_exact (windows : ∀ t ∈ f.tiers, t.triple ∈ f.permutation.windows)
    (different : (f.tiers.map Tier.triple).Nodup) (positive : ∀ v ∈ f.permutation.names, 0 < v)
    (size : 3 ≤ (f.permutation.addAll more.names).size) :
    Returns (f.complete more) fun (g, _) => f.Solutions more g := by
  apply (complete_returns (distinct_of_windows windows different) windows).mono
  intro (g, _) completes
  apply completes.solutions (completes.permutation ▸ size) windows
  intro t ht v hv
  exact positive v (Permutation.mem_names_of_mem_windows (windows t ht) hv)

/-- Clauses over the last window and over the first, none over the one between. -/
def gapped : Formula :=
  ⟨.ofNames [5, 1, 4, 2, 6], [⟨{ a := 4, b := 2, c := 6 }, .half .c false⟩,
    ⟨{ a := 5, b := 1, c := 4 }, OctantSet.empty.insert ⟨true, false, true⟩⟩]⟩

theorem complete_exact_gapped :
    (∀ t ∈ gapped.tiers, t.triple ∈ gapped.permutation.windows) ∧
      (gapped.tiers.map Tier.triple).Nodup ∧ (∀ v ∈ gapped.permutation.names, 0 < v) ∧
      3 ≤ (gapped.permutation.addAll (Permutation.ofNames [7, 2, 3]).names).size ∧
      Returns (gapped.complete (.ofNames [7, 2, 3])) fun (g, _) =>
        gapped.Solutions (.ofNames [7, 2, 3]) g := by
  have windows : ∀ t ∈ gapped.tiers, t.triple ∈ gapped.permutation.windows := by decide
  have different : (gapped.tiers.map Tier.triple).Nodup := by decide
  have positive : ∀ v ∈ gapped.permutation.names, 0 < v := by decide
  have size : 3 ≤ (gapped.permutation.addAll (Permutation.ofNames [7, 2, 3]).names).size := by decide
  exact ⟨windows, different, positive, size, complete_exact windows different positive size⟩

end Formula

end TripletSat
