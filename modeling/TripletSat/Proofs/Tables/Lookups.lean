import Mathlib
import TripletSat.Proofs.Tables.Operations

/-!
The look-up tables are never stale. Whatever operations a formula went through, its tables are those
that its names and tiers give anew, so a look-up in them finds what a search does.
-/

namespace TripletSat

theorem Formula.Reached.indexed {f : Formula} (h : f.Reached) : f.indexed.Reached := by
  induction h with
  | empty => exact .empty
  | ofNames names =>
    have start := Indexed.Reached.ofNames names
    rwa [Permutation.roster_ofNames] at start
  | ofClauses clauses => exact .ofClauses (Formula.ofClauses_indexed clauses)
  | @step f g op before operands run ih operandsReached =>
    have run' : f.indexed.apply (op.map Formula.indexed) = .ok g.indexed := by
      rw [Formula.apply_indexed before.placed, run]
      rfl
    refine .step ih (fun z hz => ?_) run'
    rw [Operation.operands_map] at hz
    obtain ⟨h, hh, rfl⟩ := List.mem_map.mp hz
    exact operandsReached h hh

/-- The tables are as the names and the tiers have them, after the same operations. -/
theorem Indexed.Reached.formula {x : Indexed} (h : x.Reached) :
    x.formula.Reached ∧ x = x.formula.indexed := by
  have current {f : Formula} (reached : f.Reached) :
      f.indexed.formula.Reached ∧ f.indexed = f.indexed.formula.indexed := by
    rw [f.formula_indexed]
    exact ⟨reached, rfl⟩
  induction h with
  | empty => exact current .empty
  | ofNames names =>
    rw [Permutation.roster_ofNames]
    exact current (.ofNames names)
  | @ofClauses clauses x run =>
    rw [Formula.ofClauses_indexed] at run
    obtain rfl := Except.ok.inj run
    exact current (.ofClauses clauses)
  | @step x y op before operands run ih operandsCurrent =>
    obtain ⟨reached, same⟩ := ih
    have back : (op.map Indexed.formula).map Formula.indexed = op :=
      Operation.map_map_of_operands fun z hz => (operandsCurrent z hz).2.symm
    have run' : x.formula.indexed.apply ((op.map Indexed.formula).map Formula.indexed) = _ :=
      Formula.apply_indexed reached.placed
    rw [back, ← same, run] at run'
    cases result : x.formula.apply (op.map Indexed.formula) with
    | error e =>
      rw [result] at run'
      cases run'
    | ok g =>
      rw [result] at run'
      obtain rfl := Except.ok.inj run'
      refine current (.step reached (fun h hh => ?_) result)
      rw [Operation.operands_map] at hh
      obtain ⟨z, hz, rfl⟩ := List.mem_map.mp hh
      exact (operandsCurrent z hz).1

namespace Indexed

/-- What the look-ups in the tables of a formula answer. -/
structure Current (x : Indexed) : Prop where
  distinct : x.tiers.Pairwise fun t u => t.triple.sameVariables u.triple = false
  /-- A key in ascending order finds the tier over its variables. -/
  found : ∀ a b c, a ≤ b → b ≤ c → ∀ t, x.tierWithKey? [a, b, c] = .ok (some t) ↔
    t ∈ x.tiers ∧ ∀ v, v ∈ t.triple.names ↔ v ∈ [a, b, c]
  missing : ∀ a b c, a ≤ b → b ≤ c → (x.tierWithKey? [a, b, c] = .ok none ↔
    ¬ ∃ t ∈ x.tiers, ∀ v, v ∈ t.triple.names ↔ v ∈ [a, b, c])
  /-- The variables of a tier stand in its order. -/
  ordered : ∀ t ∈ x.tiers, ∃ i j k, i < j ∧ j < k ∧ x.roster.index? t.triple.a = some i ∧
    x.roster.index? t.triple.b = some j ∧ x.roster.index? t.triple.c = some k
  nodup : x.roster.names.Nodup
  inverse : ∀ v i, x.roster.index? v = some i ↔ x.roster.get? i = some v

theorem current_indexed {f : Formula} (h : f.Placed) : f.indexed.Current where
  distinct := h.distinct.apart
  found a b c ab bc t := by
    rw [f.tierWithKey?_indexed, Except.ok.injEq, Formula.tierWithKey?_eq_some_iff h.distinct,
      Triple.sortedNames_eq_key_iff ab bc]
    rfl
  missing a b c ab bc := by
    rw [f.tierWithKey?_indexed, Except.ok.injEq, Formula.tierWithKey?_eq_none_iff]
    simp only [ne_eq, Triple.sortedNames_eq_key_iff ab bc, not_exists, not_and]
    rfl
  ordered t ht := by
    have place (p : Place) : f.indexed.roster.index? (t.triple.name p) =
        some (f.permutation.index (t.triple.name p)) :=
      (Table.ofList_eq_some_iff f.permutation.nodup).mpr
        (List.getElem?_idxOf (h.known t ht _ (Triple.name_mem_names _ p)))
    obtain ⟨ab, bc⟩ := h.ascends t ht
    exact ⟨_, _, _, ab, bc, place .a, place .b, place .c⟩
  nodup := f.permutation.nodup
  inverse _ _ := Table.ofList_eq_some_iff f.permutation.nodup

/-- The tables are never stale: a look-up in them answers what the names and tiers say, and what a
search without tables finds after the same operations. -/
theorem current_of_reached {x : Indexed} (h : x.Reached) :
    x.Current ∧ x.formula.Reached ∧
      (∀ key, x.tierWithKey? key = .ok (x.formula.tierWithKey? key)) ∧
      (∀ v, x.roster.index? v = x.formula.permutation.index? v) ∧
      ∀ i, x.roster.get? i = x.formula.permutation.get? i := by
  obtain ⟨reached, same⟩ := h.formula
  generalize x.formula = f at reached same ⊢
  subst same
  exact ⟨current_indexed reached.placed, reached, f.tierWithKey?_indexed, fun _ => rfl, fun _ => rfl⟩

/-! ### A tier that moves -/

def opening : Clause :=
  ⟨⟨21, false, by decide⟩, ⟨22, true, by decide⟩, ⟨23, false, by decide⟩,
    by decide, by decide, by decide⟩

def crossing : Tier := ⟨{ a := 21, b := 25, c := 22 }, .full⟩

/-- A variable comes before those of a clause, then a tier over it, which sorting puts in front. -/
def extended : Checked Indexed := do
  let x ← ofClauses [opening]
  let y ← x.prependVariable 25
  let z ← y.addTier crossing
  return z.sortTiers

theorem reached_extended {x : Indexed} (run : extended = .ok x) : x.Reached := by
  obtain ⟨y, first, run⟩ := ok_of_bind run
  obtain ⟨z, second, run⟩ := ok_of_bind run
  obtain ⟨w, third, run⟩ := ok_of_bind run
  have opened : y.Reached := .ofClauses first
  have prepended : z.Reached := @Reached.step y z (.prependVariable 25) opened nofun second
  have crossed : w.Reached := @Reached.step z w (.addTier crossing) prepended nofun third
  exact @Reached.step w x .sortTiers crossed nofun run

theorem current_of_reached_extended :
    ∃ x : Indexed, x.Reached ∧
      (x.roster.names, x.tiers.map (·.triple.names)) = ([25, 21, 22, 23], [[25, 21, 22], [21, 22, 23]]) ∧
      x.Current ∧ x.formula.Reached ∧
        (∀ key, x.tierWithKey? key = .ok (x.formula.tierWithKey? key)) ∧
        (∀ v, x.roster.index? v = x.formula.permutation.index? v) ∧
        ∀ i, x.roster.get? i = x.formula.permutation.get? i := by
  have view : extended.map (fun x => (x.roster.names, x.tiers.map (·.triple.names))) =
      .ok ([25, 21, 22, 23], [[25, 21, 22], [21, 22, 23]]) := by
    cbv
  cases run : extended with
  | error e =>
    rw [run] at view
    cases view
  | ok x =>
    rw [run] at view
    have reached := reached_extended run
    exact ⟨x, reached, Except.ok.inj view, current_of_reached reached⟩

end Indexed
end TripletSat
