import TripletSat.Proofs.Hyper.Pinned

/-!
Unions of unified groups. Two groups over the same permutations that unification leaves alone make,
structure by structure, a third one: the value pairs of a union are those of either operand, and it
forces the values that both operands force. So uniting unified groups leaves nothing to unify.
-/

namespace TripletSat

/-- What tiers agree on, their unions agree on. -/
theorem Tier.Agrees.union {t t₁ t₂ u u₁ u₂ : Tier} (h₁ : t₁.Agrees u₁) (h₂ : t₂.Agrees u₂)
    (ht : ∀ o, o ∈ t.octants ↔ o ∈ t₁.octants ∨ o ∈ t₂.octants)
    (hu : ∀ o, o ∈ u.octants ↔ o ∈ u₁.octants ∨ o ∈ u₂.octants)
    (same : t₁.triple = t.triple ∧ t₂.triple = t.triple)
    (same' : u₁.triple = u.triple ∧ u₂.triple = u.triple) : t.Agrees u := by
  intro p q p' q' distinct hp hq x y
  have first := h₁ p q p' q' distinct (by rwa [same.1, same'.1]) (by rwa [same.1, same'.1]) x y
  have second := h₂ p q p' q' distinct (by rwa [same.2, same'.2]) (by rwa [same.2, same'.2]) x y
  simp only [ht, hu, or_and_right, exists_or, first, second]

namespace Formula

variable {f g k : Formula}

/-- The union of two clean structures over one permutation: tier by tier the octants of both, and
the values that both force. -/
structure Combines (f g k : Formula) : Prop where
  permutation : k.permutation = f.permutation ∧ k.permutation = g.permutation
  windowed : k.Windowed
  tidy : k.Tidy
  octants : ∀ t ∈ k.tiers, ∃ u ∈ f.tiers, ∃ w ∈ g.tiers,
    (u.triple = t.triple ∧ w.triple = t.triple) ∧
      ∀ o, o ∈ t.octants ↔ o ∈ u.octants ∨ o ∈ w.octants
  value : ∀ v ∈ k.permutation.names, ∀ b,
    k.value? v = some b ↔ f.value? v = some b ∧ g.value? v = some b

/-- Every clean structure is a part of the one that allows everything. -/
theorem Tidy.remnant (tidy : f.Tidy) (windowed : f.Windowed) :
    (uniform f.permutation .full).Remnant f := by
  refine ⟨⟨rfl, .inr (Tier.forall₂_shrinksTo ?_ fun t ht _ _ _ o _ => ?_)⟩, tidy.solid, tidy.linked⟩
  · rw [windowed, windowed_uniform]
    rfl
  · obtain ⟨_, -, rfl⟩ := List.mem_map.mp ht
    exact OctantSet.mem_full o

theorem Tidy.union_returns (hf : f.Tidy) (fWindowed : f.Windowed) (hg : g.Tidy)
    (gWindowed : g.Windowed) (same : f.permutation = g.permutation) :
    Returns (f.union g) (f.Combines g) := by
  have fPart := hf.remnant fWindowed
  have gPart := hg.remnant gWindowed
  rw [← same] at gPart
  obtain ⟨k, run, unites⟩ := Formula.union_returns (.inr fWindowed) (.inr gWindowed) same
  obtain ⟨remnant, fixes⟩ := (fPart.union gPart (windowed_uniform _ _)).of_eq run
  obtain ⟨σ, admits⟩ := fPart.exists_admits_of_full (windowed_uniform _ _) hf.nonempty
  have kAdmits := unites.keeps σ (.inl admits)
  have windowed : k.Windowed := unites.shaped.resolve_left kAdmits.1
  have tidy : k.Tidy := ⟨⟨kAdmits.not_isEmpty, remnant.solid⟩, remnant.linked⟩
  refine ⟨k, run, ⟨unites.permutation, unites.permutation.trans same⟩, windowed, tidy, fun t ht => ?_, fun v known b => ?_⟩
  · have window := windowed.triple_mem ht
    rw [unites.permutation] at window
    obtain ⟨u, hu, uTriple⟩ := fWindowed.exists_tier window
    obtain ⟨w, hw, wTriple⟩ := gWindowed.exists_tier (same ▸ window)
    refine ⟨u, hu, w, hw, ⟨uTriple, wTriple⟩, fun o => ⟨fun ho => ?_, ?_⟩⟩
    · obtain ⟨τ, rfl⟩ := Valuation.exists_octant t.triple o
      rcases unites.covers t ht τ ho with ⟨u', hu', triple, part⟩ | ⟨w', hw', triple, part⟩
      · obtain rfl := fWindowed.eq_of_triple_eq hu' hu (triple.trans uTriple.symm)
        exact .inl (uTriple ▸ part)
      · obtain rfl := gWindowed.eq_of_triple_eq hw' hw (triple.trans wTriple.symm)
        exact .inr (wTriple ▸ part)
    · rintro (ho | ho)
      · obtain ⟨τ, octant, admits⟩ := fWindowed.exists_admits hf.linked hu ho
        rw [← octant, uTriple]
        exact (unites.keeps τ (.inl admits)).2 t ht
      · obtain ⟨τ, octant, admits⟩ := gWindowed.exists_admits hg.linked hw ho
        rw [← octant, wTriple]
        exact (unites.keeps τ (.inr admits)).2 t ht
  · have fKnown : v ∈ f.permutation.names := unites.permutation ▸ known
    rw [windowed.value?_eq_some_iff tidy known, fWindowed.value?_eq_some_iff hf fKnown,
      gWindowed.value?_eq_some_iff hg (same ▸ fKnown)]
    exact ⟨fun all => ⟨fun τ h => all τ (unites.keeps τ (.inl h)),
      fun τ h => all τ (unites.keeps τ (.inr h))⟩, fun ⟨left, right⟩ => fixes v fKnown b left right⟩

theorem Combines.agrees {f' g' k' : Formula} (h : f.Combines g k) (h' : f'.Combines g' k')
    (left : f.Agrees f') (right : g.Agrees g') : k.Agrees k' := by
  intro t ht u hu
  obtain ⟨t₁, ht₁, t₂, ht₂, same, octants⟩ := h.octants t ht
  obtain ⟨u₁, hu₁, u₂, hu₂, same', octants'⟩ := h'.octants u hu
  exact (left t₁ ht₁ u₁ hu₁).union (right t₂ ht₂ u₂ hu₂) octants octants' same same'

end Formula

variable {parts parts' group : List Formula}

/-- The unions of two unified groups are a unified group. -/
theorem Firm.union (h : Firm parts) (h' : Firm parts')
    (same : List.Forall₂ (fun f g : Formula => f.permutation = g.permutation) parts parts') :
    Returns (unionParts parts parts') fun united => Firm united ∧ united.length = parts.length := by
  have each : Returns (unionParts parts parts')
      (List.Forall₂ (fun p k => Formula.Combines p.1 p.2 k) (parts.zip parts')) := by
    refine Returns.mapM fun (f, g) hfg => ?_
    obtain ⟨hf, hg⟩ := List.of_mem_zip hfg
    exact (h.closed.tidy hf (h.tiered f hf)).union_returns (h.closed.windowed f hf)
      (h'.closed.tidy hg (h'.tiered g hg)) (h'.closed.windowed g hg)
      (List.forall₂_zip same hfg)
  apply each.mono
  intro united combines
  -- Each union comes from the structures at its own place in the two groups.
  have origin {i : Nat} {k : Formula} (hk : united[i]? = some k) :
      ∃ f g, parts[i]? = some f ∧ parts'[i]? = some g ∧ f.Combines g k := by
    obtain ⟨⟨f, g⟩, hfg, combined⟩ := forall₂_getElem? combines hk
    obtain ⟨hf, hg⟩ := List.getElem?_zip_eq_some.mp hfg
    exact ⟨f, g, hf, hg, combined⟩
  have member {k : Formula} (hk : k ∈ united) :
      ∃ f ∈ parts, ∃ g ∈ parts', f.Combines g k := by
    obtain ⟨i, hi⟩ := List.getElem?_of_mem hk
    obtain ⟨f, g, hf, hg, combined⟩ := origin hi
    exact ⟨f, List.mem_of_getElem? hf, g, List.mem_of_getElem? hg, combined⟩
  have tidy {k : Formula} (hk : k ∈ united) : k.Windowed ∧ k.Tidy := by
    obtain ⟨_, -, _, -, combined⟩ := member hk
    exact ⟨combined.windowed, combined.tidy⟩
  have length := combines.length_eq
  rw [List.length_zip, same.length_eq, Nat.min_self, ← same.length_eq] at length
  refine ⟨⟨fun k hk => Formula.tiers_ne_nil_of_not_isEmpty (tidy hk).2.nonempty, ?_, ?_, ?_, ?_, ?_⟩,
    length.symm⟩
  · exact fun k hk => (tidy hk).1
  · exact fun k hk => (tidy hk).2.solid
  · exact fun k hk => ((tidy hk).1.cleaned_eq_self_iff (tidy hk).2.solid).mpr (tidy hk).2.linked
  · refine List.pairwise_iff_getElem.mpr fun i j hi hj before => ?_
    obtain ⟨f, g, hf, hg, combined⟩ := origin (List.getElem?_eq_getElem hi)
    obtain ⟨f', g', hf', hg', combined'⟩ := origin (List.getElem?_eq_getElem hj)
    have apart := Nat.ne_of_lt before
    exact combined.agrees combined' (h.closed.agrees apart hf hf') (h'.closed.agrees apart hg hg')
  · intro k hk v b forced k' hk' known
    obtain ⟨f, hf, g, hg, combined⟩ := member hk
    obtain ⟨f', hf', g', hg', combined'⟩ := member hk'
    obtain ⟨left, right⟩ :=
      (combined.value v (combined.windowed.mem_names_of_value? forced) b).mp forced
    refine (combined'.value v known b).mpr ⟨?_, ?_⟩
    · exact h.closed.forced f hf v b left f' hf' (combined'.permutation.1 ▸ known)
    · exact h'.closed.forced g hg v b right g' hg' (combined'.permutation.2 ▸ known)

theorem Pinned.union_firm {others : List Formula} {w : Triple} {o : Octant} (hosts : Hosts others w)
    (h : Pinned others w o parts ∧ Firm parts) (h' : Pinned others w o parts' ∧ Firm parts') :
    Ensures (unionParts parts parts') fun united => Pinned others w o united ∧ Firm united :=
  (h.1.union h'.1 hosts).both
    ((h.2.union h'.2 (h.1.permutations h'.1)).mono fun _ => And.left).ensures

/-- A group from which unification takes nothing is unified. -/
theorem firm_of_run_unify {a : List Formula} (two : 2 ≤ group.length)
    (windowed : ∀ f ∈ group, f.Windowed) (run : (unify group).run = .ok (.ok ⟨a, 0⟩)) :
    Firm group := by
  obtain ⟨greatest, count⟩ : Greatest group a ∧ 0 + octantCount a = octantCount group :=
    (unify_greatest_attempts two windowed).ensures.of_canReturn run
  obtain rfl : a = group :=
    eq_of_octantCount_le greatest.within.shrinks greatest.tiered (by omega)
  exact ⟨greatest.tiered, greatest.closed⟩

theorem run_unify_unions {a b : List Formula} (two : 2 ≤ parts.length)
    (windowed : ∀ f ∈ parts, f.Windowed) (windowed' : ∀ f ∈ parts', f.Windowed)
    (same : List.Forall₂ (fun f g : Formula => f.permutation = g.permutation) parts parts')
    (run : (unify parts).run = .ok (.ok ⟨a, 0⟩)) (run' : (unify parts').run = .ok (.ok ⟨b, 0⟩)) :
    Returns (unionParts parts parts') fun united =>
      (unify united).run = .ok (.ok ⟨united, 0⟩) := by
  have firm := firm_of_run_unify two windowed run
  have firm' := firm_of_run_unify (same.length_eq ▸ two) windowed' run'
  exact (firm.union firm' same).mono fun united ⟨unified, length⟩ => unified.run_unify (length ▸ two)

end TripletSat
