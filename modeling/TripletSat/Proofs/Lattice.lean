import Mathlib.Order.Bounds.Basic
import TripletSat.Proofs.Remnants

/-!
The lattice of clean structures. Over one permutation they are ordered by what they admit, and each
is known by it. Intersection gives the greatest one below two others; union, which does not clean up,
still gives the least one above them. So both obey the laws of a lattice, cleared structures included.
-/

namespace TripletSat

namespace Formula

variable {p : Permutation} {f g : Formula}

/-- Cleared, or with a nonempty tier for each window of the permutation, and left alone by cleanup. -/
structure CleanOver (p : Permutation) (f : Formula) : Prop where
  permutation : f.permutation = p
  shape : f.tiers = [] ∨ f.tiers.map Tier.triple = p.windows ∧ ∀ t ∈ f.tiers, t.isEmpty = false
  cleaned : f.cleaned = .ok f

/-- Every octant is allowed. -/
def whole (p : Permutation) : Formula := ⟨p, p.windows.map Tier.complete⟩

theorem windowed_whole (p : Permutation) : (whole p).Windowed := by
  unfold Windowed whole
  rw [List.map_map]
  exact List.map_id _

theorem cleanOver_iff : CleanOver p f ↔ (whole p).Remnant f := by
  constructor
  · intro h
    have same : f.permutation = (whole p).permutation := h.permutation
    rcases h.shape with gone | ⟨windows, solid⟩
    · exact .of_nil ⟨same, .inl gone⟩ gone
    · have windowed : f.Windowed := windows.trans (congrArg Permutation.windows h.permutation.symm)
      have linked := (windowed.cleaned_eq_self_iff solid).mp h.cleaned
      refine ⟨⟨same, .inr (Tier.forall₂_shrinksTo ?_ fun t ht u _ _ o _ => ?_)⟩, solid, linked⟩
      · rw [windows, windowed_whole]
        rfl
      · obtain ⟨w, -, rfl⟩ := List.mem_map.mp ht
        exact OctantSet.mem_full o
  · intro h
    by_cases gone : f.tiers = []
    · refine ⟨h.shrinks.1, .inl gone, ?_⟩
      unfold cleaned cleanup propagate
      rw [if_pos (by rw [gone]; rfl)]
      rfl
    · have windowed := (h.shaped (windowed_whole p)).resolve_left gone
      refine ⟨h.shrinks.1, .inr ⟨?_, h.solid⟩, (windowed.cleaned_eq_self_iff h.solid).mpr h.linked⟩
      exact windowed.trans (congrArg Permutation.windows h.shrinks.1)

/-- What remains of a structure is known by the valuations it admits. -/
theorem Remnant.shrinks_iff {h : Formula} (hg : f.Remnant g) (hh : f.Remnant h)
    (windowed : f.Windowed) : h.ShrinksTo g ↔ ∀ τ, g.Admits τ → h.Admits τ := by
  refine ⟨fun shrinks τ => shrinks.admits, fun admits => ?_⟩
  have same : g.permutation = h.permutation := hg.shrinks.1.trans hh.shrinks.1.symm
  by_cases gone : g.tiers = []
  · exact ⟨same, .inl gone⟩
  · have gWindowed := (hg.shaped windowed).resolve_left gone
    obtain ⟨τ, hτ⟩ := gWindowed.exists_admits_of_solid hg.linked hg.solid gone
    have hWindowed := (hh.shaped windowed).resolve_left (admits τ hτ).1
    obtain ⟨-, part⟩ := gWindowed.within_of_admits hg.linked hWindowed same admits
    exact ⟨same, .inr part⟩

theorem Remnant.eq_of_admits_iff {h : Formula} (hg : f.Remnant g) (hh : f.Remnant h)
    (windowed : f.Windowed) (same : ∀ τ, g.Admits τ ↔ h.Admits τ) : g = h := by
  have below := (hg.shrinks_iff hh windowed).mpr fun τ => (same τ).mp
  have above := (hh.shrinks_iff hg windowed).mpr fun τ => (same τ).mpr
  exact above.antisymm below

theorem CleanOver.remnant (h : CleanOver p f) : (whole p).Remnant f := cleanOver_iff.mp h

/-- Partial assignments are admitted with values for the variables of all windows. -/
theorem CleanOver.admits_iff (h : CleanOver p f) {α : Assignment} :
    f.admits α = true ↔ f.Admits α.value ∧
      ∀ w ∈ p.windows, ∀ v ∈ w.names, (α.get? v).isSome = true := by
  rw [Formula.admits_iff]
  refine and_congr_right fun admits => ?_
  obtain ⟨windows, -⟩ := h.shape.resolve_left admits.1
  rw [← windows, List.forall_mem_map]

theorem CleanOver.admits_ofValuation_iff (h : CleanOver p f) {τ : Valuation} :
    f.admits (.ofValuation τ p.names) = true ↔ f.Admits τ := by
  obtain rfl := h.permutation
  constructor
  · intro admits
    rw [h.admits_iff] at admits
    obtain ⟨windows, -⟩ := h.shape.resolve_left admits.1.1
    refine ⟨admits.1.1, fun t ht => ?_⟩
    have known (v : Nat) (hv : v ∈ t.triple.names) : v ∈ f.permutation.names :=
      Permutation.mem_names_of_mem_windows (windows ▸ List.mem_map_of_mem ht) hv
    obtain ⟨-, same⟩ :=
      Assignment.octant?_eq_some_iff.mp (Assignment.octant?_ofValuation (τ := τ) known)
    rw [Tier.Admits, ← same]
    exact admits.1.2 t ht
  · intro admits
    obtain ⟨windows, -⟩ := h.shape.resolve_left admits.1
    exact Windowed.admits_ofValuation windows admits

end Formula

/-- The clean structures over a permutation. -/
def CleanStructure (p : Permutation) : Type := { f : Formula // f.CleanOver p }

namespace CleanStructure

open Formula

variable {p : Permutation}

/-- One structure is below another that admits what it admits. -/
instance : PartialOrder (CleanStructure p) where
  le a b := ∀ τ, a.1.Admits τ → b.1.Admits τ
  le_refl _ _ := id
  le_trans _ _ _ ab bc τ := bc τ ∘ ab τ
  le_antisymm a b ab ba := Subtype.ext <|
    a.2.remnant.eq_of_admits_iff b.2.remnant (windowed_whole p) fun τ => ⟨ab τ, ba τ⟩

variable {a b c : CleanStructure p}

theorem le_iff_shrinks : a ≤ b ↔ b.1.ShrinksTo a.1 :=
  (a.2.remnant.shrinks_iff b.2.remnant (windowed_whole p)).symm

theorem le_iff_admits : a ≤ b ↔ ∀ α, a.1.admits α = true → b.1.admits α = true := by
  constructor
  · intro below α admits
    rw [a.2.admits_iff] at admits
    exact b.2.admits_iff.mpr ⟨below _ admits.1, admits.2⟩
  · intro below τ admits
    exact b.2.admits_ofValuation_iff.mp (below _ (a.2.admits_ofValuation_iff.mpr admits))

theorem same_permutation (a b : CleanStructure p) : a.1.permutation = b.1.permutation :=
  a.2.permutation.trans b.2.permutation.symm

theorem exists_intersect (a b : CleanStructure p) :
    ∃ c : CleanStructure p, a.1.intersect b.1 = .ok c.1 ∧
      ∀ τ, c.1.Admits τ ↔ a.1.Admits τ ∧ b.1.Admits τ := by
  obtain ⟨k, run, remnant, admits⟩ := a.2.remnant.intersect b.2.remnant (windowed_whole p)
  exact ⟨⟨k, cleanOver_iff.mpr remnant⟩, run, admits⟩

theorem exists_union (a b : CleanStructure p) :
    ∃ c : CleanStructure p, a.1.union b.1 = .ok c.1 ∧ a.1.Unites b.1 c.1 := by
  obtain ⟨k, run, remnant, -⟩ := a.2.remnant.union b.2.remnant (windowed_whole p)
  have shaped {d : CleanStructure p} : d.1.Shaped := d.2.remnant.shaped (windowed_whole p)
  have unites := (union_returns shaped shaped (same_permutation a b)).of_eq run
  exact ⟨⟨k, cleanOver_iff.mpr remnant⟩, run, unites⟩

theorem isGLB_of_intersect (admits : ∀ τ, c.1.Admits τ ↔ a.1.Admits τ ∧ b.1.Admits τ) :
    IsGLB {a, b} c := by
  constructor
  · simp only [mem_lowerBounds, Set.forall_mem_insert, Set.mem_singleton_iff, forall_eq]
    exact ⟨fun τ hc => ((admits τ).mp hc).1, fun τ hc => ((admits τ).mp hc).2⟩
  · intro d below τ hd
    simp only [mem_lowerBounds, Set.forall_mem_insert, Set.mem_singleton_iff, forall_eq] at below
    exact (admits τ).mpr ⟨below.1 τ hd, below.2 τ hd⟩

theorem isLUB_of_union (unites : a.1.Unites b.1 c.1) : IsLUB {a, b} c := by
  constructor
  · simp only [mem_upperBounds, Set.forall_mem_insert, Set.mem_singleton_iff, forall_eq]
    exact ⟨fun τ ha => unites.keeps τ (.inl ha), fun τ hb => unites.keeps τ (.inr hb)⟩
  · intro d above τ hc
    simp only [mem_upperBounds, Set.forall_mem_insert, Set.mem_singleton_iff, forall_eq] at above
    obtain ⟨aboveA, aboveB⟩ := above
    -- Something of the operands is there, so the bound is not cleared.
    obtain ⟨t, ht⟩ := List.exists_mem_of_ne_nil _ hc.1
    obtain ⟨σ, -, either⟩ := unites.taken a.2.remnant b.2.remnant (windowed_whole p) ht (hc.2 t ht)
    have spared : d.1.Admits σ := either.elim (aboveA σ) (aboveB σ)
    have windowed : d.1.Windowed :=
      (d.2.remnant.shaped (windowed_whole p)).resolve_left spared.1
    have part {e : CleanStructure p} (below : e ≤ d) : d.1.Remnant e.1 :=
      ⟨le_iff_shrinks.mp below, e.2.remnant.solid, e.2.remnant.linked⟩
    exact unites.admits (part aboveA) (part aboveB) windowed hc

noncomputable instance : Lattice (CleanStructure p) :=
  .ofIsLUBofIsGLB (fun a b => (exists_union a b).choose) (fun a b => (exists_intersect a b).choose)
    (fun a b => isLUB_of_union (exists_union a b).choose_spec.2)
    (fun a b => isGLB_of_intersect (exists_intersect a b).choose_spec.2)

theorem union_eq (a b : CleanStructure p) : a.1.union b.1 = .ok (a ⊔ b).1 :=
  (exists_union a b).choose_spec.1

theorem intersect_eq (a b : CleanStructure p) : a.1.intersect b.1 = .ok (a ⊓ b).1 :=
  (exists_intersect a b).choose_spec.1

/-- Union and intersection of clean structures over one permutation are clean structures again, and
they are the operations of a lattice. An intersection admits what both structures admit. A union
admits what either admits, and is contained in every clean structure that does. -/
theorem union_intersect_laws (p : Permutation) :
    (∀ a b : CleanStructure p, a.1.union b.1 = .ok (a ⊔ b).1 ∧ a.1.intersect b.1 = .ok (a ⊓ b).1) ∧
    (∀ a b : CleanStructure p, a ⊔ b = b ⊔ a ∧ a ⊓ b = b ⊓ a) ∧
    (∀ a b c : CleanStructure p, a ⊔ b ⊔ c = a ⊔ (b ⊔ c) ∧ a ⊓ b ⊓ c = a ⊓ (b ⊓ c)) ∧
    (∀ a : CleanStructure p, a ⊔ a = a ∧ a ⊓ a = a) ∧
    (∀ a b : CleanStructure p, a ⊔ a ⊓ b = a ∧ a ⊓ (a ⊔ b) = a) ∧
    (∀ (a b : CleanStructure p) (α : Assignment),
      (a ⊓ b).1.admits α = true ↔ a.1.admits α = true ∧ b.1.admits α = true) ∧
    (∀ (a b : CleanStructure p) (α : Assignment),
      a.1.admits α = true ∨ b.1.admits α = true → (a ⊔ b).1.admits α = true) ∧
    ∀ a b c : CleanStructure p,
      (∀ α : Assignment, a.1.admits α = true ∨ b.1.admits α = true → c.1.admits α = true) →
        (a ⊔ b).1.tiers = [] ∨ (a ⊔ b).1.Within c.1 := by
  refine ⟨fun a b => ⟨union_eq a b, intersect_eq a b⟩, fun a b => ⟨sup_comm a b, inf_comm a b⟩,
    fun a b c => ⟨sup_assoc a b c, inf_assoc a b c⟩, fun a => ⟨sup_idem a, inf_idem a⟩,
    fun a b => ⟨sup_inf_self, inf_sup_self⟩, ?_, ?_, ?_⟩
  · intro a b α
    constructor
    · intro both
      exact ⟨le_iff_admits.mp inf_le_left α both, le_iff_admits.mp inf_le_right α both⟩
    · rintro ⟨ha, hb⟩
      have meet := (exists_intersect a b).choose_spec.2
      rw [CleanOver.admits_iff (a ⊓ b).2]
      rw [a.2.admits_iff] at ha
      rw [b.2.admits_iff] at hb
      exact ⟨(meet _).mpr ⟨ha.1, hb.1⟩, ha.2⟩
  · intro a b α either
    exact either.elim (le_iff_admits.mp le_sup_left α) (le_iff_admits.mp le_sup_right α)
  · intro a b c above
    have aboveA : a ≤ c := le_iff_admits.mpr fun α ha => above α (.inl ha)
    have aboveB : b ≤ c := le_iff_admits.mpr fun α hb => above α (.inr hb)
    obtain ⟨same, part⟩ := le_iff_shrinks.mp (sup_le aboveA aboveB)
    exact part.imp id fun part => ⟨same, part⟩

end CleanStructure

end TripletSat
