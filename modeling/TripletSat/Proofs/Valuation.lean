import Mathlib.Data.List.Forall2
import TripletSat.Formula.Reading

/-!
Valuations: a truth value for every variable. A tier admits a valuation that takes one of its
octants, and a structure one that all of its tiers admit; `admits_iff` relates this to partial
assignments. The order in which a tier stores its variables does not matter to a valuation.
-/

namespace TripletSat

abbrev Valuation := Nat → Bool

/-- The octant that a valuation takes on a triple. -/
def Valuation.octant (τ : Valuation) (t : Triple) : Octant := ⟨τ t.a, τ t.b, τ t.c⟩

theorem Valuation.value_octant (τ : Valuation) (t : Triple) (p : Place) :
    (τ.octant t).value p = τ (t.name p) := by
  cases p <;> rfl

/-- A triple's variables are distinct, so they take any values. -/
theorem Valuation.exists_octant (t : Triple) (o : Octant) : ∃ τ : Valuation, τ.octant t = o := by
  refine ⟨fun v => if v = t.a then o.a else if v = t.b then o.b else o.c, ?_⟩
  simp [octant, t.a_ne_b.symm, t.a_ne_c.symm, t.b_ne_c.symm]

theorem Valuation.octant_swap (τ : Valuation) (t : Triple) (p q : Place) :
    τ.octant (t.swap p q) = (τ.octant t).swap p q := by
  cases p <;> cases q <;> rfl

theorem Octant.swap_swap (o : Octant) (p q : Place) : (o.swap p q).swap p q = o := by
  cases p <;> cases q <;> rfl

theorem Octant.key_inj {o u : Octant} (h : o.key = u.key) : o = u := by
  have := ofKey?_key o
  rw [h, ofKey?_key u] at this
  exact (Option.some.inj this).symm

theorem OctantSet.value_of_forced? {s : OctantSet} {p : Place} {b : Bool} {o : Octant}
    (h : s.forced? p = some b) (member : o ∈ s) : o.value p = b := by
  have away {c : Bool} (none : (s.inter (half p c)).isEmpty = true) : o.value p ≠ c := by
    intro same
    exact isEmpty_iff.mp none o (mem_inter.mpr ⟨member, mem_half.mpr same⟩)
  unfold forced? at h
  split at h
  · cases h
  · split at h
    · rename_i none
      cases h
      exact eq_true_of_ne_false (away none)
    · split at h
      · rename_i none
        cases h
        exact eq_false_of_ne_true (away none)
      · cases h

namespace Triple

theorem mem_names {t : Triple} {v : Nat} : v ∈ t.names ↔ v = t.a ∨ v = t.b ∨ v = t.c := by
  simp [names]

theorem nodup_names (t : Triple) : t.names.Nodup := by
  simp [names, t.a_ne_b, t.a_ne_c, t.b_ne_c]

theorem name_mem_names (t : Triple) (p : Place) : t.name p ∈ t.names := by
  cases p <;> simp [names, name]

theorem name_of_place? {t : Triple} {v : Nat} {p : Place} (h : t.place? v = some p) :
    t.name p = v := by
  unfold place? at h
  split at h
  · rename_i same
    cases h
    exact same.symm
  · split at h
    · rename_i same
      cases h
      exact same.symm
    · split at h
      · rename_i same
        cases h
        exact same.symm
      · cases h

theorem place?_eq_some_of_mem {t : Triple} {v : Nat} (h : v ∈ t.names) : ∃ p, t.place? v = some p := by
  unfold place?
  rcases mem_names.mp h with rfl | rfl | rfl
  · exact ⟨.a, if_pos rfl⟩
  · exact ⟨.b, by rw [if_neg t.a_ne_b.symm, if_pos rfl]⟩
  · exact ⟨.c, by rw [if_neg t.a_ne_c.symm, if_neg t.b_ne_c.symm, if_pos rfl]⟩

theorem sameVariables_iff {t u : Triple} :
    t.sameVariables u = true ↔ ∀ v, v ∈ t.names ↔ v ∈ u.names := by
  have := t.a_ne_b
  have := t.a_ne_c
  have := t.b_ne_c
  have := u.a_ne_b
  have := u.a_ne_c
  have := u.b_ne_c
  simp only [sameVariables, Bool.and_eq_true, contains_iff, mem_names]
  constructor
  · rintro ⟨⟨ha, hb⟩, hc⟩ v
    grind
  · intro h
    exact ⟨⟨(h _).1 (.inl rfl), (h _).1 (.inr (.inl rfl))⟩, (h _).1 (.inr (.inr rfl))⟩

theorem sameVariables_refl (t : Triple) : t.sameVariables t = true :=
  sameVariables_iff.mpr fun _ => Iff.rfl

theorem sameVariables_comm {t u : Triple} (h : t.sameVariables u = true) :
    u.sameVariables t = true :=
  sameVariables_iff.mpr fun v => (sameVariables_iff.mp h v).symm

theorem sameVariables_trans {t u w : Triple} (h : t.sameVariables u = true)
    (h' : u.sameVariables w = true) : t.sameVariables w = true :=
  sameVariables_iff.mpr fun v => (sameVariables_iff.mp h v).trans (sameVariables_iff.mp h' v)

theorem name_inj {t : Triple} {p q : Place} (h : t.name p = t.name q) : p = q := by
  have := t.a_ne_b
  have := t.a_ne_c
  have := t.b_ne_c
  cases p <;> cases q <;> simp_all [name, eq_comm]

theorem mem_names_swap {t : Triple} {p q : Place} {v : Nat} :
    v ∈ (t.swap p q).names ↔ v ∈ t.names := by
  cases p <;> cases q <;> simp only [swap, mem_names] <;> grind

theorem rank_lt (w : Triple) : w.rank w.a < w.rank w.b ∧ w.rank w.b < w.rank w.c := by
  simp [rank, w.a_ne_b.symm, w.a_ne_c.symm, w.b_ne_c.symm]

end Triple

namespace Tier

/-- The valuation takes one of the octants. -/
def Admits (t : Tier) (τ : Valuation) : Prop := τ.octant t.triple ∈ t.octants

theorem admits_swap {t : Tier} {τ : Valuation} {p q : Place} :
    (t.swap p q).Admits τ ↔ t.Admits τ := by
  simp only [Admits, swap, OctantSet.mem_swap, Valuation.octant_swap, Octant.swap_swap]

theorem admits_orderedBy {t : Tier} {τ : Valuation} {rank : Nat → Nat} :
    (t.orderedBy rank).Admits τ ↔ t.Admits τ := by
  unfold orderedBy
  dsimp only
  repeat' split
  all_goals simp only [admits_swap]

theorem mem_names_orderedBy {t : Tier} {rank : Nat → Nat} {v : Nat} :
    v ∈ (t.orderedBy rank).triple.names ↔ v ∈ t.triple.names := by
  unfold orderedBy
  dsimp only
  repeat' split
  all_goals simp only [Tier.swap, Triple.mem_names_swap]

/-- Three variables have one ascending order. -/
theorem orderedBy_triple {t : Tier} {w : Triple} {rank : Nat → Nat}
    (same : t.triple.sameVariables w = true) (ab : rank w.a < rank w.b)
    (bc : rank w.b < rank w.c) : (t.orderedBy rank).triple = w := by
  obtain ⟨⟨a, b, c, hab, hac, hbc⟩, s⟩ := t
  obtain ⟨x, y, z, hxy, hxz, hyz⟩ := w
  simp only [Triple.sameVariables, Bool.and_eq_true, Triple.contains_iff, Triple.mem_names] at same
  obtain ⟨⟨ha, hb⟩, hc⟩ := same
  have ac := Nat.lt_trans ab bc
  rcases ha with rfl | rfl | rfl <;> rcases hb with rfl | rfl | rfl <;>
    rcases hc with rfl | rfl | rfl <;>
    first
    | contradiction
    | simp_all [orderedBy, Tier.swap, Triple.swap, Nat.not_lt_of_gt]

theorem mem_octantsAlong {t : Tier} {w : Triple} {τ : Valuation}
    (same : t.triple.sameVariables w = true) : τ.octant w ∈ t.octantsAlong w ↔ t.Admits τ := by
  have order := orderedBy_triple same w.rank_lt.1 w.rank_lt.2
  rw [← @admits_orderedBy t τ w.rank, Admits, order]
  rfl

theorem admits_merge {t u : Tier} {τ : Valuation}
    (same : u.triple.sameVariables t.triple = true) :
    (t.merge u).Admits τ ↔ t.Admits τ ∨ u.Admits τ := by
  rw [← mem_octantsAlong same]
  exact OctantSet.mem_union

theorem admits_meet {t u : Tier} {τ : Valuation}
    (same : u.triple.sameVariables t.triple = true) :
    (t.meet u).Admits τ ↔ t.Admits τ ∧ u.Admits τ := by
  rw [← mem_octantsAlong same]
  exact OctantSet.mem_inter

theorem admits_minus {t u : Tier} {τ : Valuation}
    (same : u.triple.sameVariables t.triple = true) :
    (t.minus u).Admits τ ↔ t.Admits τ ∧ ¬ u.Admits τ := by
  rw [← mem_octantsAlong same]
  exact OctantSet.mem_inter.trans (and_congr_right fun _ => OctantSet.mem_compl)

/-- A valuation survives a meeting in two variables to which one of the other tier gives the same
values. -/
theorem mem_agreeing {t : Tier} {w : Triple} {s : OctantSet} {τ σ : Valuation} {p q p' q' : Place}
    (hp : σ (w.name p') = τ (t.triple.name p)) (hq : σ (w.name q') = τ (t.triple.name q))
    (ht : t.Admits τ) (hs : σ.octant w ∈ s) :
    τ.octant t.triple ∈ t.octants.agreeing p q s p' q' := by
  refine OctantSet.mem_agreeing.mpr ⟨ht, _, hs, ?_, ?_⟩
  · rw [Valuation.value_octant, Valuation.value_octant, hp]
  · rw [Valuation.value_octant, Valuation.value_octant, hq]

theorem admits_agreeing {t u : Tier} {τ : Valuation} {p q p' q' : Place}
    (hp : t.triple.name p = u.triple.name p') (hq : t.triple.name q = u.triple.name q')
    (ht : t.Admits τ) (hu : u.Admits τ) :
    τ.octant t.triple ∈ t.octants.agreeing p q u.octants p' q' :=
  mem_agreeing (congrArg τ hp.symm) (congrArg τ hq.symm) ht hu

theorem not_admits_of_isEmpty {t : Tier} (h : t.isEmpty = true) (τ : Valuation) : ¬ t.Admits τ :=
  OctantSet.isEmpty_iff.mp h _

theorem value_of_value? {t : Tier} {τ : Valuation} {v : Nat} {b : Bool} (h : t.value? v = some b)
    (ht : t.Admits τ) : τ v = b := by
  unfold value? at h
  split at h
  case h_1 p place =>
    rw [← Triple.name_of_place? place]
    exact (τ.value_octant t.triple p).symm.trans (OctantSet.value_of_forced? h ht)
  case h_2 => cases h

end Tier

namespace Formula

/-- Read as a structure, every tier admits the valuation. Without tiers there is nothing to read. -/
def Admits (f : Formula) (τ : Valuation) : Prop := f.tiers ≠ [] ∧ ∀ t ∈ f.tiers, t.Admits τ

/-- Read as clauses, some clause is false under the valuation. -/
def Violates (f : Formula) (τ : Valuation) : Prop := ∃ t ∈ f.tiers, t.Admits τ

theorem Admits.not_isEmpty {f : Formula} {τ : Valuation} (h : f.Admits τ) : f.isEmpty = false := by
  obtain ⟨tiers, admits⟩ := h
  obtain ⟨t, ht⟩ := List.exists_mem_of_ne_nil _ tiers
  simp only [isEmpty, List.all_eq_false]
  exact ⟨t, ht, fun empty => Tier.not_admits_of_isEmpty empty τ (admits t ht)⟩

theorem tiers_ne_nil_of_not_isEmpty {f : Formula} (h : f.isEmpty = false) : f.tiers ≠ [] := by
  intro none
  simp [isEmpty, none] at h

theorem Admits.value_of_value? {f : Formula} {τ : Valuation} {v : Nat} {b : Bool}
    (h : f.Admits τ) (forced : f.value? v = some b) : τ v = b := by
  obtain ⟨t, ht, value⟩ := List.exists_of_findSome?_eq_some forced
  exact Tier.value_of_value? value (h.2 t ht)

end Formula

namespace Assignment

/-- The values of an assignment, variables without one being false. -/
def value (α : Assignment) : Valuation := fun v => (α.get? v).getD false

theorem get?_eq_value {α : Assignment} {v : Nat} (h : (α.get? v).isSome = true) :
    α.get? v = some (α.value v) := by
  obtain ⟨b, hb⟩ := Option.isSome_iff_exists.mp h
  simp [value, hb]

theorem octant?_eq_some_iff {α : Assignment} {t : Triple} {o : Octant} :
    α.octant? t = some o ↔
      (∀ v ∈ t.names, (α.get? v).isSome = true) ∧ α.value.octant t = o := by
  obtain ⟨x, y, z⟩ := o
  cases ha : α.get? t.a <;> cases hb : α.get? t.b <;> cases hc : α.get? t.c <;>
    simp [octant?, Triple.names, Valuation.octant, value, ha, hb, hc]

theorem value_of_makesTrue {α : Assignment} {l : Lit} (h : α.makesTrue l = true) :
    α.value l.name ≠ l.negated := by
  cases hv : α.get? l.name <;> simp_all [makesTrue, litValue?, value]

theorem makesTrue_iff {α : Assignment} {l : Lit} (h : (α.get? l.name).isSome = true) :
    α.makesTrue l = true ↔ α.value l.name ≠ l.negated := by
  simp [makesTrue, litValue?, get?_eq_value h]

/-- A clause is violated by the valuations that take its own octant. -/
theorem not_violates_of_satisfies {α : Assignment} {clause : Clause}
    (h : α.satisfies clause = true) : α.value.octant clause.triple ≠ clause.octant := by
  intro same
  simp only [Valuation.octant, Clause.triple, Clause.octant, Octant.mk.injEq] at same
  obtain ⟨l, hl, true'⟩ := List.any_eq_true.mp h
  have away := value_of_makesTrue true'
  simp only [Clause.lits, List.mem_cons, List.not_mem_nil, or_false] at hl
  rcases hl with rfl | rfl | rfl
  · exact away same.1
  · exact away same.2.1
  · exact away same.2.2

theorem satisfies_of_not_violates {α : Assignment} {clause : Clause}
    (total : ∀ v ∈ clause.triple.names, (α.get? v).isSome = true)
    (h : α.value.octant clause.triple ≠ clause.octant) : α.satisfies clause = true := by
  have ha := makesTrue_iff (total clause.a.name (by simp [Clause.triple, Triple.names]))
  have hb := makesTrue_iff (total clause.b.name (by simp [Clause.triple, Triple.names]))
  have hc := makesTrue_iff (total clause.c.name (by simp [Clause.triple, Triple.names]))
  simp only [satisfies, Clause.lits, List.any_cons, List.any_nil, Bool.or_false, Bool.or_eq_true,
    ha, hb, hc]
  simp only [Valuation.octant, Clause.triple, Clause.octant, ne_eq, Octant.mk.injEq] at h
  grind

end Assignment

/-- A structure admits an assignment that has values for its variables and whose values it admits. -/
theorem Formula.admits_iff {f : Formula} {α : Assignment} :
    f.admits α = true ↔ f.Admits α.value ∧
      ∀ t ∈ f.tiers, ∀ v ∈ t.triple.names, (α.get? v).isSome = true := by
  have tier (t : Tier) : (α.octant? t.triple).any t.octants.contains = true ↔
      (∀ v ∈ t.triple.names, (α.get? v).isSome = true) ∧ t.Admits α.value := by
    rw [Option.any_eq_true]
    constructor
    · rintro ⟨o, ho, member⟩
      obtain ⟨total, rfl⟩ := Assignment.octant?_eq_some_iff.mp ho
      exact ⟨total, member⟩
    · rintro ⟨total, member⟩
      exact ⟨_, Assignment.octant?_eq_some_iff.mpr ⟨total, rfl⟩, member⟩
  simp only [Formula.admits, Bool.and_eq_true, Bool.not_eq_true', List.all_eq_true, tier]
  constructor
  · rintro ⟨full, all⟩
    exact ⟨⟨Formula.tiers_ne_nil_of_not_isEmpty full, fun t ht => (all t ht).2⟩,
      fun t ht => (all t ht).1⟩
  · rintro ⟨admits, total⟩
    exact ⟨admits.not_isEmpty, fun t ht => ⟨total t ht, admits.2 t ht⟩⟩

end TripletSat
