import TripletSat.Proofs.Ensures
import TripletSat.Proofs.Splitting

/-!
Completion. A compact formula completes to the structure of the valuations that none of its clauses
forbids. The structures of a formula therefore have in common what satisfies it, and one of them is
empty only if nothing does.
-/

namespace TripletSat

namespace Formula

theorem triple_allowed (f : Formula) (w : Triple) : (f.allowed w).triple = w := by
  unfold allowed
  cases f.tierOver? w <;> rfl

/-- Different windows are over different variables. -/
theorem distinct_of_windows {f : Formula} (windows : ∀ t ∈ f.tiers, t.triple ∈ f.permutation.windows)
    (different : (f.tiers.map Tier.triple).Nodup) : f.Distinct := by
  refine List.Pairwise.imp_of_mem (fun {w u} hw hu other => ?_) different
  rw [← List.forall_mem_map] at windows
  exact eq_false_of_ne_true fun same =>
    other (Permutation.eq_of_sameVariables (windows w hw) (windows u hu) same)

theorem Windowed.distinct {f : Formula} (h : f.Windowed) : f.Distinct :=
  distinct_of_windows (fun _ => h.triple_mem) h.nodup_triples

/-- What a window allows is what the tier of clauses over it does not forbid. -/
theorem Distinct.admits_allowed {f : Formula} {w : Triple} {τ : Valuation} (h : f.Distinct) :
    (f.allowed w).Admits τ ↔
      ∀ t ∈ f.tiers, t.triple.sameVariables w = true → ¬ t.Admits τ := by
  have every : (Tier.complete w).Admits τ := OctantSet.mem_full _
  unfold allowed
  cases found : f.tierOver? w with
  | none =>
    apply iff_of_true every
    intro t ht same
    have other := List.find?_eq_none.mp found t ht
    exact absurd same other
  | some u =>
    obtain ⟨hu, same⟩ := tierOver?_some found
    refine (Tier.admits_minus same).trans ⟨?_, ?_⟩
    · intro ⟨_, away⟩ t ht same'
      rwa [h.eq_of_sameVariables ht hu
        (Triple.sameVariables_trans same' (Triple.sameVariables_comm same))]
    · intro away
      exact ⟨every, away u hu same⟩

/-- A clean structure over the given variables too, admitting what the clauses do not forbid. -/
structure Completes (f : Formula) (more : Permutation) (g : Formula) : Prop where
  permutation : g.permutation = f.permutation.addAll more.names
  shaped : g.Shaped
  solid : g.Solid
  linked : g.tiers.IsChain Tier.Linked
  admits : 3 ≤ g.permutation.size → ∀ τ, g.Admits τ ↔ ¬ f.Violates τ

theorem complete_returns {f : Formula} {more : Permutation} (distinct : f.Distinct)
    (windows : ∀ t ∈ f.tiers, t.triple ∈ f.permutation.windows) :
    Returns (f.complete more) fun (g, _) => f.Completes more g := by
  have known : f.tiers.find? (!f.isWindow ·) = none := by
    refine List.find?_eq_none.mpr fun t ht => ?_
    have window := Permutation.isWindow_iff.mpr (windows t ht)
    simp [isWindow, window]
  unfold complete
  rw [known]
  dsimp only
  have windowed : (⟨f.permutation.addAll more.names,
      (f.permutation.addAll more.names).windows.map f.allowed⟩ : Formula).Windowed := by
    simp [Windowed, Function.comp_def, triple_allowed]
  apply (cleanup_returns (.inr windowed)).mono
  rintro ⟨g, status⟩ ⟨cleans, linked⟩
  refine ⟨cleans.shrinks.1, cleans.shrinks.shaped (.inr windowed), cleans.solid, linked, ?_⟩
  intro size τ
  rw [cleans.shrinks.1] at size
  change 3 ≤ (f.permutation.addAll more.names).size at size
  constructor
  · rintro hg ⟨t, ht, admits⟩
    have hw : t.triple ∈ (f.permutation.addAll more.names).windows :=
      Permutation.mem_windows_addAll (windows t ht)
    have allowed := (cleans.shrinks.admits hg).2 _ (List.mem_map_of_mem hw)
    exact distinct.admits_allowed.mp allowed t ht (Triple.sameVariables_refl _) admits
  · intro spared
    refine cleans.keeps τ ⟨windowed.tiers_ne_nil size, fun t ht => ?_⟩
    obtain ⟨w, -, rfl⟩ := List.mem_map.mp ht
    exact distinct.admits_allowed.mpr fun t ht _ admits => spared ⟨t, ht, admits⟩

/-- Completion refuses whatever is no window. -/
theorem complete_ensures {f : Formula} {more : Permutation} (distinct : f.Distinct) :
    Ensures (f.complete more) fun (g, _) =>
      (∀ t ∈ f.tiers, t.triple ∈ f.permutation.windows) ∧ f.Completes more g := by
  cases known : f.tiers.find? (!f.isWindow ·) with
  | some t =>
    unfold complete
    rw [known]
    exact .fault
  | none =>
    have windows : ∀ t ∈ f.tiers, t.triple ∈ f.permutation.windows := by
      intro t ht
      have window := List.find?_eq_none.mp known t ht
      simp only [Bool.not_eq_true', Bool.not_eq_false] at window
      exact Permutation.isWindow_iff.mp window
    exact (complete_returns distinct windows).ensures.mono fun _ completes => ⟨windows, completes⟩

end Formula

/-- Either all formulas complete to structures that hold an octant, or one of them does not. -/
def Completion.Sound (more : Permutation) (fs : List Formula) (done : Completion) : Prop :=
  match done.empty? with
  | none => List.Forall₂ (fun f g => f.Completes more g ∧ g.isEmpty = false) fs done.formulas
  | some _ => ∃ f ∈ fs, ∃ g, f.Completes more g ∧ g.isEmpty = true

theorem completeAllFrom_returns {more : Permutation} {index : Nat} {fs : List Formula}
    (windowed : ∀ f ∈ fs, f.Windowed) :
    Returns (completeAllFrom more index fs) (Completion.Sound more fs) := by
  induction fs generalizing index with
  | nil => exact Returns.pure .nil
  | cons f rest ih =>
    obtain ⟨hf, hrest⟩ := List.forall_mem_cons.mp windowed
    unfold completeAllFrom
    apply (Formula.complete_returns hf.distinct fun _ => hf.triple_mem).bind
    intro ⟨g, _⟩ completes
    dsimp only
    split
    · rename_i empty
      exact Returns.pure ⟨f, List.mem_cons_self, g, completes, empty⟩
    · rename_i full
      refine (ih hrest).bind fun done sound => Returns.pure ?_
      unfold Completion.Sound at sound ⊢
      dsimp only
      split
      · rename_i none
        rw [none] at sound
        exact .cons ⟨completes, eq_false_of_ne_true full⟩ sound
      · rename_i e some
        rw [some] at sound
        obtain ⟨f', hf', found⟩ := sound
        exact ⟨f', List.mem_cons_of_mem _ hf', found⟩

/-- Where no formula is empty, each has been completed on its own. -/
theorem completeAllFrom_ensures {more : Permutation} {index : Nat} {fs : List Formula} :
    Ensures (completeAllFrom more index fs) fun done => done.empty? = none →
      List.Forall₂ (fun f g => ∃ status, f.complete more = .ok (g, status)) fs done.formulas := by
  induction fs generalizing index with
  | nil => exact .pure fun _ => .nil
  | cons f rest ih =>
    unfold completeAllFrom
    apply Ensures.bind (P := fun r => f.complete more = .ok r) ⟨id⟩
    intro (g, status) completed
    dsimp only
    split
    · exact .pure nofun
    · apply ih.bind
      intro done formulas
      exact .pure fun none => .cons ⟨status, completed⟩ (formulas none)

namespace Formula

theorem Known.three_le_size {f : Formula} (h : f.Known) (some : f.tiers ≠ []) :
    3 ≤ f.permutation.size := by
  obtain ⟨t, ht⟩ := List.exists_mem_of_ne_nil _ some
  exact (List.subperm_of_subset t.triple.nodup_names fun v => h t ht v).length_le

theorem Windowed.mem_names_iff {f : Formula} (h : f.Windowed) (some : f.tiers ≠ []) {v : Nat} :
    v ∈ f.permutation.names ↔ ∃ w ∈ f.tiers.map Tier.triple, v ∈ w.names := by
  rw [h]
  refine ⟨Permutation.exists_window (h.known.three_le_size some), ?_⟩
  rintro ⟨w, hw, hv⟩
  exact Permutation.mem_names_of_mem_windows hw hv

/-- A compact formula of `f` is completed to the variables of `f`. -/
theorem Completes.names {f g g' : Formula} {compact : List Formula} (h : g.Completes f.permutation g')
    (known : f.Known) (splits : Splits f.tiers compact) (hg : g ∈ compact) (v : Nat) :
    v ∈ g'.permutation.names ↔ v ∈ f.permutation.names := by
  rw [h.permutation, Permutation.mem_addAll]
  apply or_iff_right_of_imp
  intro held
  obtain ⟨t, ht, hv⟩ := splits.names g hg v held
  exact known t ht v hv

/-- Structures over the variables of a formula, true together exactly where it is. -/
structure Represents (f : Formula) (group : List Formula) : Prop where
  some : group ≠ []
  windowed : ∀ g ∈ group, g.Windowed
  full : ∀ g ∈ group, g.Full
  names : ∀ g ∈ group, ∀ v, v ∈ g.permutation.names ↔ v ∈ f.permutation.names
  admits : ∀ τ, AllAdmit group τ ↔ ¬ f.Violates τ

/-- A formula that holds an octant has structures; one of them is empty only if nothing satisfies
the formula. -/
theorem structures_attempts {f : Formula} (known : f.Known) (full : f.isEmpty = false) :
    Attempts f.structures
      (fun group => f.Represents group ∧ ∀ g ∈ group, g.tiers.IsChain Tier.Linked)
      fun _ => ∀ τ, f.Violates τ := by
  unfold structures completeAll
  apply (Attempts.lift (split_returns f)).bind
  intro compact splits
  apply (Attempts.lift (completeAllFrom_returns splits.windowed)).bind
  intro done sound
  have admits {g g' : Formula} (hg : g ∈ compact) (completes : g.Completes f.permutation g') :
      ∀ τ, g'.Admits τ ↔ ¬ g.Violates τ := by
    have perm : g'.permutation.names.Perm f.permutation.names :=
      (List.perm_ext_iff_of_nodup g'.permutation.nodup f.permutation.nodup).mpr
        (completes.names known splits hg)
    apply completes.admits
    rw [Permutation.size, perm.length_eq]
    exact known.three_le_size (tiers_ne_nil_of_not_isEmpty full)
  unfold Completion.Sound at sound
  split
  · rename_i e some
    rw [some] at sound
    obtain ⟨g, hg, g', completes, empty⟩ := sound
    refine Attempts.throw fun τ => (splits.violates τ).mp ⟨g, hg, ?_⟩
    by_contra spared
    simp [((admits hg completes τ).mpr spared).not_isEmpty] at empty
  · rename_i none
    rw [none] at sound
    refine Attempts.pure ⟨⟨?_, ?_, ?_, ?_, fun τ => ⟨?_, ?_⟩⟩, ?_⟩
    · intro nothing
      obtain ⟨τ, violated⟩ := exists_violates full
      obtain ⟨g, hg, -⟩ := (splits.violates τ).mpr violated
      rw [nothing, List.forall₂_nil_right_iff] at sound
      simp [sound] at hg
    · exact forall_mem_of_forall₂ sound fun g _ g' h => h.1.shaped.windowed h.2
    · exact forall_mem_of_forall₂ sound fun g _ g' h => ⟨h.2, h.1.solid⟩
    · exact forall_mem_of_forall₂ sound fun g hg g' h => h.1.names known splits hg
    · intro all violated
      obtain ⟨g, hg, violated⟩ := (splits.violates τ).mpr violated
      obtain ⟨g', hg', completes, -⟩ := exists_of_forall₂ sound hg
      exact (admits hg completes τ).mp (all g' hg') violated
    · intro spared
      exact forall_mem_of_forall₂ sound fun g hg g' h => (admits hg h.1 τ).mpr fun violated =>
        spared ((splits.violates τ).mp ⟨g, hg, violated⟩)
    · exact forall_mem_of_forall₂ sound fun g _ g' h => h.1.linked

end Formula

end TripletSat
