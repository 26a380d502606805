import TripletSat.Proofs.Closure

/-!
What is left of a structure. Restriction and intersection end in a cleanup, so every octant of what
they leave is part of an admitted valuation; two such remnants together make another one. Their union
may admit valuations that neither of them does, but a value that a variable always has in both it
always has in the union.
-/

namespace TripletSat

namespace Formula

variable {f g h : Formula} {w : Triple} {o : Octant} {v : Nat} {b : Bool}

/-- A part of a structure that cleanup leaves alone, or nothing of it. -/
structure Remnant (f g : Formula) : Prop where
  shrinks : f.ShrinksTo g
  solid : g.Solid
  linked : g.tiers.IsChain Tier.Linked

/-- The admitted valuations all take the octant. -/
def Takes (f : Formula) (w : Triple) (o : Octant) : Prop := ∀ τ, f.Admits τ → τ.octant w = o

theorem takes_iff : f.Takes w o ↔ ∀ p, f.Fixes (w.name p) (o.value p) := by
  constructor
  · rintro takes p τ admits
    rw [← takes τ admits, Valuation.value_octant]
  · intro fixes τ admits
    exact congr (congrArg₂ Octant.mk (fixes .a τ admits) (fixes .b τ admits)) (fixes .c τ admits)

theorem ShrinksTo.takes (h : f.ShrinksTo g) (takes : f.Takes w o) : g.Takes w o :=
  fun τ admits => takes τ (h.admits admits)

/-- Where the octants of a structure are taken by valuations that it admits, neighbours agree. -/
theorem Windowed.linked_of_exists_admits (h : f.Windowed)
    (taken : ∀ t ∈ f.tiers, ∀ o ∈ t.octants, ∃ τ : Valuation, τ.octant t.triple = o ∧ f.Admits τ) :
    f.tiers.IsChain Tier.Linked := by
  refine List.isChain_iff_getElem.mpr fun i bound => ?_
  have before := List.isChain_iff_getElem.mp h.isChain i bound
  have ht := List.getElem_mem (show i < f.tiers.length by omega)
  have hu := List.getElem_mem bound
  constructor
  · intro o ho
    obtain ⟨τ, rfl, admits⟩ := taken _ ht o ho
    exact ⟨_, admits.2 _ hu, congrArg τ before.1.symm, congrArg τ before.2.symm⟩
  · intro o ho
    obtain ⟨τ, rfl, admits⟩ := taken _ hu o ho
    exact ⟨_, admits.2 _ ht, congrArg τ before.1.symm, congrArg τ before.2.symm⟩

namespace Remnant

theorem of_nil (shrinks : f.ShrinksTo g) (gone : g.tiers = []) : f.Remnant g :=
  ⟨shrinks, by simp [Solid, gone], by simp [gone]⟩

theorem trans {k : Formula} (h : f.Remnant g) (h' : g.Remnant k) : f.Remnant k :=
  ⟨h.shrinks.trans h'.shrinks, h'.solid, h'.linked⟩

theorem shaped (h : f.Remnant g) (windowed : f.Windowed) : g.Shaped :=
  h.shrinks.shaped (.inr windowed)

theorem within (h : f.Remnant g) (some : g.tiers ≠ []) : g.Within f :=
  ⟨h.shrinks.1, h.shrinks.2.resolve_left some⟩

theorem exists_admits (h : f.Remnant g) (windowed : f.Windowed) {t : Tier} (ht : t ∈ g.tiers)
    {o : Octant} (ho : o ∈ t.octants) : ∃ τ : Valuation, τ.octant t.triple = o ∧ g.Admits τ :=
  ((h.shaped windowed).resolve_left (List.ne_nil_of_mem ht)).exists_admits h.linked ht ho

theorem exists_admits_of_full (h : f.Remnant g) (windowed : f.Windowed) (full : g.isEmpty = false) :
    ∃ τ, g.Admits τ :=
  ((h.shaped windowed).windowed full).exists_admits_of_solid h.linked h.solid
    (tiers_ne_nil_of_not_isEmpty full)

theorem intersect (hg : f.Remnant g) (hh : f.Remnant h) (windowed : f.Windowed) :
    Returns (g.intersect h) fun k => f.Remnant k ∧ ∀ τ, k.Admits τ ↔ g.Admits τ ∧ h.Admits τ := by
  refine (intersect_returns (hg.shaped windowed) (hg.shrinks.1.trans hh.shrinks.1.symm)).mono
    fun k intersects => ⟨hg.trans ⟨intersects.shrinks, intersects.solid, intersects.linked⟩, ?_⟩
  intro τ
  refine ⟨fun admits => ⟨intersects.shrinks.admits admits, ?_⟩, fun both => ?_⟩
  · exact intersects.within (hh.shaped windowed) τ admits
  · exact intersects.keeps τ both.1 both.2

end Remnant

theorem concretize_remnant (shape : f.Shaped) (solid : f.Solid) (known : v ∈ f.permutation.names) :
    Returns (f.concretize v b) fun g => f.Remnant g ∧ ∀ τ, g.Admits τ ↔ f.Admits τ ∧ τ v = b := by
  apply (concretize_returns shape known).mono
  intro g restricts
  obtain ⟨solid, linked⟩ := restricts.settled (.inr solid)
  exact ⟨⟨restricts.shrinks, solid, linked⟩, restricts.admits⟩

/-- The first value has the structure cleaned up, whatever its tiers hold. -/
theorem concretizeAll_remnant {values : List (Nat × Bool)} (shape : f.Shaped)
    (either : f.isEmpty = false ∨ f.Solid) (some : values ≠ [])
    (known : ∀ x ∈ values, x.1 ∈ f.permutation.names) :
    Returns (f.concretizeAll values) fun g =>
      f.Remnant g ∧ ∀ τ, g.Admits τ ↔ f.Admits τ ∧ ∀ x ∈ values, τ x.1 = x.2 := by
  obtain ⟨x, rest, rfl⟩ := List.exists_cons_of_ne_nil some
  obtain ⟨here, later⟩ := List.forall_mem_cons.mp known
  rw [concretizeAll_cons]
  apply (concretize_returns shape here).bind
  intro g first
  rw [← first.shrinks.1] at later
  apply (concretizeAll_returns (first.shrinks.shaped shape) later).mono
  intro h all
  obtain ⟨solid, linked⟩ := all.settles (first.settled either)
  have both := first.cons all
  exact ⟨⟨both.shrinks, solid, linked⟩, both.admits⟩

theorem concretizeOctant_remnant (shape : f.Shaped) (solid : f.Solid)
    (known : ∀ v ∈ w.names, v ∈ f.permutation.names) :
    Returns (f.concretizeOctant w o) fun g => f.Remnant g ∧ g.Takes w o := by
  rw [← concretizeAll_values]
  apply (concretizeAll_remnant shape (.inr solid) (List.cons_ne_nil _ _)
    (Octant.forall_name_values_iff.mpr known)).mono
  rintro g ⟨remnant, admits⟩
  exact ⟨remnant, fun τ hg => Octant.forall_values_iff.mp ((admits τ).mp hg).2⟩

/-- Each octant of a union is taken by a valuation that one of the two remnants admits. -/
theorem Unites.taken {k : Formula} (unites : g.Unites h k) (hg : f.Remnant g) (hh : f.Remnant h)
    (windowed : f.Windowed) {t : Tier} (ht : t ∈ k.tiers) {o : Octant} (ho : o ∈ t.octants) :
    ∃ τ : Valuation, τ.octant t.triple = o ∧ (g.Admits τ ∨ h.Admits τ) := by
  obtain ⟨σ, rfl⟩ := Valuation.exists_octant t.triple o
  rcases unites.covers t ht σ ho with ⟨u, hu, same, part⟩ | ⟨u, hu, same, part⟩
  · obtain ⟨τ, equal, admits⟩ := hg.exists_admits windowed hu part
    exact ⟨τ, same ▸ equal, .inl admits⟩
  · obtain ⟨τ, equal, admits⟩ := hh.exists_admits windowed hu part
    exact ⟨τ, same ▸ equal, .inr admits⟩

/-- What two structures make together is part of whatever they are both parts of. -/
theorem Unites.admits {k : Formula} (unites : g.Unites h k) (hg : f.Remnant g) (hh : f.Remnant h)
    (windowed : f.Windowed) {τ : Valuation} (admits : k.Admits τ) : f.Admits τ := by
  have kWindowed := unites.shaped.resolve_left admits.1
  have same : k.permutation = f.permutation := unites.permutation.trans hg.shrinks.1
  have under {u t : Tier} {p : Formula} (shrinks : f.ShrinksTo p) (hu : u ∈ p.tiers) (ht : t ∈ f.tiers)
      (equal : u.triple = t.triple) (part : u.Admits τ) : t.Admits τ := by
    have shrunk := shrinks.2.resolve_left (List.ne_nil_of_mem hu)
    obtain ⟨t', ht', shrinks'⟩ := exists_of_forall₂ shrunk.flip hu
    obtain rfl := windowed.eq_of_triple_eq ht' ht (shrinks'.1.symm.trans equal)
    exact Tier.ShrinksTo.admits shrinks' part
  constructor
  · intro none
    have := windowed
    rw [Windowed, none, ← same, ← kWindowed] at this
    exact admits.1 (List.map_eq_nil_iff.mp this.symm)
  · intro t ht
    obtain ⟨u, hu, equal⟩ := kWindowed.exists_tier (same ▸ windowed.triple_mem ht)
    rcases unites.covers u hu τ (admits.2 u hu) with ⟨p, hp, sits, part⟩ | ⟨p, hp, sits, part⟩
    · exact under hg.shrinks hp ht (sits.trans equal) part
    · exact under hh.shrinks hp ht (sits.trans equal) part

theorem Remnant.union (hg : f.Remnant g) (hh : f.Remnant h) (windowed : f.Windowed) :
    Returns (g.union h) fun k => f.Remnant k ∧
      ∀ v ∈ f.permutation.names, ∀ b, g.Fixes v b → h.Fixes v b → k.Fixes v b := by
  refine (union_returns (hg.shaped windowed) (hh.shaped windowed)
    (hg.shrinks.1.trans hh.shrinks.1.symm)).mono fun k unites => ?_
  have same : k.permutation = f.permutation := unites.permutation.trans hg.shrinks.1
  have taken {t : Tier} (ht : t ∈ k.tiers) {o : Octant} (ho : o ∈ t.octants) :=
    unites.taken hg hh windowed ht ho
  have remnant : f.Remnant k := by
    by_cases gone : k.tiers = []
    · exact .of_nil ⟨same, .inl gone⟩ gone
    · have kWindowed := unites.shaped.resolve_left gone
      have linked := kWindowed.linked_of_exists_admits fun t ht o ho => by
        obtain ⟨τ, equal, admits⟩ := taken ht ho
        exact ⟨τ, equal, unites.keeps τ admits⟩
      obtain ⟨-, within⟩ := kWindowed.within_of_admits linked windowed same
        fun τ => unites.admits hg hh windowed
      exact ⟨⟨same, .inr within⟩, unites.solid hg.solid hh.solid, linked⟩
  refine ⟨remnant, fun v known b fixes fixes' τ admits => ?_⟩
  -- Some tier mentions the variable, and one of the operands takes the octant that is taken there.
  have kWindowed := unites.shaped.resolve_left admits.1
  obtain ⟨t, ht, hv⟩ := kWindowed.exists_tier_of_mem admits.1 (same.symm ▸ known)
  obtain ⟨p, place⟩ := Triple.place?_eq_some_of_mem hv
  obtain ⟨σ, equal, either⟩ := taken ht (admits.2 t ht)
  have values := congrArg (fun u : Octant => u.value p) equal
  rw [Valuation.value_octant, Valuation.value_octant, Triple.name_of_place? place] at values
  rw [← values]
  exact either.elim (fixes σ) (fixes' σ)

end Formula

end TripletSat
