import Mathlib.Logic.Function.Basic
import TripletSat.Proofs.Clauses
import TripletSat.Proofs.Propagation

/-!
Extension. Where neighbouring tiers agree on their shared pairs, each octant of each tier is part of
a valuation that the whole structure admits. So cleanup is exact: it leaves the octants that admitted
assignments take, and no tier where there is no such assignment.
-/

namespace TripletSat

theorem Valuation.octant_update {τ : Valuation} {t : Triple} {v : Nat} {b : Bool}
    (away : v ∉ t.names) : Valuation.octant (Function.update τ v b) t = τ.octant t := by
  simp only [Triple.mem_names, not_or] at away
  obtain ⟨ha, hb, hc⟩ := away
  simp only [octant, Function.update_of_ne (Ne.symm ha), Function.update_of_ne (Ne.symm hb),
    Function.update_of_ne (Ne.symm hc)]

namespace Assignment

/-- The values that a valuation gives some variables. -/
def ofValuation (τ : Valuation) (names : List Nat) : Assignment :=
  names.foldl (fun α v => α.assign v (τ v)) empty

theorem get?_ofValuation {τ : Valuation} {names : List Nat} {v : Nat} (h : v ∈ names) :
    (ofValuation τ names).get? v = some (τ v) := by
  have given (names : List Nat) (α : Assignment) :
      (names.foldl (fun α v => α.assign v (τ v)) α).get? v =
        if v ∈ names then some (τ v) else α.get? v := by
    induction names generalizing α with
    | nil => rfl
    | cons w rest ih =>
      rw [List.foldl_cons, ih, get?_assign]
      by_cases same : v = w <;> simp [same]
  rw [ofValuation, given, if_pos h]

theorem octant?_ofValuation {τ : Valuation} {names : List Nat} {t : Triple}
    (h : ∀ v ∈ t.names, v ∈ names) : (ofValuation τ names).octant? t = some (τ.octant t) := by
  have given (p : Place) := get?_ofValuation (τ := τ) (h _ (Triple.name_mem_names t p))
  simp only [octant?]
  rw [show t.a = t.name .a from rfl, show t.b = t.name .b from rfl, show t.c = t.name .c from rfl,
    given, given, given]
  rfl

end Assignment

namespace Tier

/-- The tier in front of a chain takes an octant that leads on to the valuation's own, by giving the
one variable that the chain does not mention its value. -/
theorem admits_update_front {t u : Tier} {rest : List Tier} {τ : Valuation} {o : Octant}
    (before : t.Precedes u) (fresh : ∀ w ∈ u :: rest, t.triple.a ∉ w.triple.names)
    (ho : o ∈ t.octants) (leads : (τ.octant u.triple).a = o.b ∧ (τ.octant u.triple).b = o.c)
    (admits : ∀ w ∈ u :: rest, w.Admits τ) :
    Valuation.octant (Function.update τ t.triple.a o.a) t.triple = o ∧
      ∀ w ∈ t :: u :: rest, w.Admits (Function.update τ t.triple.a o.a) := by
  have here : Valuation.octant (Function.update τ t.triple.a o.a) t.triple = o := by
    obtain ⟨hb, hc⟩ := leads
    simp only [Valuation.octant] at hb hc
    rw [← before.1] at hb
    rw [← before.2] at hc
    simp only [Valuation.octant, Function.update_self, Function.update_of_ne t.triple.a_ne_b.symm,
      Function.update_of_ne t.triple.a_ne_c.symm, hb, hc]
  refine ⟨here, List.forall_mem_cons.mpr ⟨?_, ?_⟩⟩
  · rw [Admits, here]
    exact ho
  · intro w hw
    rw [Admits, Valuation.octant_update (fresh w hw)]
    exact admits w hw

/-- Every octant of a linked chain of windows is part of a valuation that all of its tiers admit. -/
theorem exists_valuation {names : List Nat} {nodup : names.Nodup} {tiers : List Tier}
    (triples : tiers.map triple = Permutation.windowsOf names nodup)
    (linked : tiers.IsChain Linked) {t : Tier} (ht : t ∈ tiers) {o : Octant} (ho : o ∈ t.octants) :
    ∃ τ : Valuation, τ.octant t.triple = o ∧ ∀ u ∈ tiers, u.Admits τ := by
  induction tiers generalizing names t o with
  | nil => cases ht
  | cons first rest ih =>
    match names, nodup, triples with
    | a :: b :: c :: more, nodup, triples =>
      obtain ⟨head, tail⟩ := List.cons.inj triples
      cases rest with
      | nil =>
        obtain rfl := List.mem_singleton.mp ht
        obtain ⟨τ, rfl⟩ := Valuation.exists_octant t.triple o
        exact ⟨τ, rfl, List.forall_mem_singleton.mpr ho⟩
      | cons second rest =>
        obtain ⟨link, chain⟩ := List.isChain_cons_cons.mp linked
        have before : first.Precedes second := by
          have windows := Permutation.isChain_windowsOf (a :: b :: c :: more) nodup
          rw [← triples, ← isChain_precedes] at windows
          exact (List.isChain_cons_cons.mp windows).1
        have fresh : ∀ w ∈ second :: rest, first.triple.a ∉ w.triple.names := by
          intro w hw member
          have window : w.triple ∈ Permutation.windows ⟨b :: c :: more, (List.nodup_cons.mp nodup).2⟩ := by
            rw [Permutation.windows, ← tail]
            exact List.mem_map_of_mem hw
          rw [head] at member
          exact (List.nodup_cons.mp nodup).1 (Permutation.mem_names_of_mem_windows window member)
        rcases List.mem_cons.mp ht with rfl | ht
        · -- Forward: the link leads on to an octant of the next tier.
          obtain ⟨v, hv, leads⟩ := link.1 o ho
          obtain ⟨τ, rfl, admits⟩ := ih tail chain List.mem_cons_self hv
          exact ⟨_, admits_update_front before fresh ho leads admits⟩
        · -- Backward: the link leads back from the octant that the valuation takes there.
          obtain ⟨τ, rfl, admits⟩ := ih tail chain ht ho
          obtain ⟨u, hu, leads⟩ := link.2 _ (admits second List.mem_cons_self)
          obtain ⟨-, extended⟩ := admits_update_front before fresh hu leads admits
          exact ⟨_, Valuation.octant_update (fresh t ht), extended⟩

end Tier

namespace Formula

variable {f g : Formula}

theorem Windowed.exists_admits (h : f.Windowed) (linked : f.tiers.IsChain Tier.Linked) {t : Tier}
    (ht : t ∈ f.tiers) {o : Octant} (ho : o ∈ t.octants) :
    ∃ τ : Valuation, τ.octant t.triple = o ∧ f.Admits τ := by
  obtain ⟨τ, same, admits⟩ := Tier.exists_valuation h linked ht ho
  exact ⟨τ, same, List.ne_nil_of_mem ht, admits⟩

/-- A valuation that a structure admits, as an assignment of its variables. -/
theorem Windowed.admits_ofValuation (h : f.Windowed) {τ : Valuation} (hf : f.Admits τ) :
    f.admits (.ofValuation τ f.permutation.names) = true := by
  have octant (t : Tier) (ht : t ∈ f.tiers) :=
    Assignment.octant?_ofValuation (τ := τ) (t := t.triple) fun v hv =>
      Permutation.mem_names_of_mem_windows (h.triple_mem ht) hv
  simp only [admits, Bool.and_eq_true, Bool.not_eq_true', List.all_eq_true]
  refine ⟨hf.not_isEmpty, fun t ht => ?_⟩
  rw [octant t ht]
  exact hf.2 t ht

/-- What a formula is after everything went that no admitted assignment takes. -/
structure Tightens (f g : Formula) : Prop where
  permutation : g.permutation = f.permutation
  admits : ∀ α : Assignment, f.admits α = true ↔ g.admits α = true
  windowed : (∃ α : Assignment, f.admits α = true) → g.Windowed
  octants : ∀ t ∈ g.tiers, ∀ o, o ∈ t.octants ↔
    ∃ α : Assignment, f.admits α = true ∧ α.octant? t.triple = some o
  gone : (¬ ∃ α : Assignment, f.admits α = true) → g.tiers = []

theorem Cleans.admit_iff (h : f.Cleans g) {τ : Valuation} : f.Admits τ ↔ g.Admits τ :=
  ⟨h.keeps τ, h.shrinks.admits⟩

/-- Cleaning up keeps the tiers' triples, so the same values are asked for. -/
theorem Cleans.tightens (h : f.Cleans g) (windowed : f.Windowed)
    (linked : g.tiers.IsChain Tier.Linked) : f.Tightens g := by
  have shaped := h.shrinks.shaped (.inr windowed)
  have windowed' (some : g.tiers ≠ []) : g.Windowed := shaped.resolve_left some
  have valued {α : Assignment} (some : g.tiers ≠ []) :
      (∀ t ∈ f.tiers, ∀ v ∈ t.triple.names, (α.get? v).isSome = true) ↔
        ∀ t ∈ g.tiers, ∀ v ∈ t.triple.names, (α.get? v).isSome = true :=
    h.shrinks.forall_triple_iff (fun w => ∀ v ∈ w.names, (α.get? v).isSome = true) some
  have taken {t : Tier} (ht : t ∈ g.tiers) {o : Octant} (ho : o ∈ t.octants) :
      ∃ α : Assignment, f.admits α = true ∧ α.octant? t.triple = some o := by
    have windows := windowed' (List.ne_nil_of_mem ht)
    obtain ⟨τ, rfl, admits⟩ := windows.exists_admits linked ht ho
    refine ⟨_, windowed.admits_ofValuation (h.admit_iff.mpr admits), ?_⟩
    apply Assignment.octant?_ofValuation
    rw [← h.shrinks.1]
    exact fun v hv => Permutation.mem_names_of_mem_windows (windows.triple_mem ht) hv
  refine ⟨h.shrinks.1, fun α => ?_, ?_, fun t ht o => ⟨taken ht, ?_⟩, ?_⟩
  · rw [admits_iff, admits_iff, h.admit_iff]
    exact and_congr_right fun admits => valued admits.1
  · rintro ⟨α, admits⟩
    exact windowed' (h.keeps _ (admits_iff.mp admits).1).1
  · rintro ⟨α, admits, same⟩
    obtain ⟨-, rfl⟩ := Assignment.octant?_eq_some_iff.mp same
    exact (h.keeps _ (admits_iff.mp admits).1).2 t ht
  · intro none
    by_contra some
    obtain ⟨t, ht⟩ := List.exists_mem_of_ne_nil _ some
    obtain ⟨o, ho⟩ := OctantSet.isEmpty_eq_false_iff.mp (h.solid t ht)
    obtain ⟨α, admits, -⟩ := taken ht ho
    exact none ⟨α, admits⟩

/-- Cleanup is exact: it ends, keeps the admitted assignments, leaves in each tier the octants that
they take, and clears a structure that admits none. -/
theorem cleanup_exact (windowed : f.Windowed) : Returns f.cleanup fun (g, _) => f.Tightens g :=
  (cleanup_returns (.inr windowed)).mono fun (_, _) ⟨cleans, linked⟩ =>
    cleans.tightens windowed linked

/-- Two windows, the first of which fixes the second variable, so that the other one loses octants. -/
def narrowed : Formula :=
  ⟨.ofNames [1, 2, 3, 4],
    [⟨{ a := 1, b := 2, c := 3 }, .half .b true⟩, ⟨{ a := 2, b := 3, c := 4 }, .full⟩]⟩

theorem cleanup_exact_narrowed :
    narrowed.Windowed ∧ Returns narrowed.cleanup fun (g, _) => narrowed.Tightens g := by
  have windowed : narrowed.Windowed := rfl
  exact ⟨windowed, cleanup_exact windowed⟩

end Formula

end TripletSat
