import Mathlib.Data.List.Nodup
import TripletSat.Assignment

/-!
Assignments as finite maps. An assignment is known by its values, and carrying its entries over to
other names keeps them, as long as no two variables get the same name.
-/

namespace TripletSat

namespace Assignment

theorem lookup_eq_some_iff {entries : List (Nat × Bool)} (ascending : entries.Pairwise (·.1 < ·.1))
    {v : Nat} {b : Bool} : entries.lookup v = some b ↔ (v, b) ∈ entries := by
  induction entries with
  | nil => simp
  | cons entry rest ih =>
    obtain ⟨u, old⟩ := entry
    obtain ⟨above, tail⟩ := List.pairwise_cons.mp ascending
    rw [lookup_entry, List.mem_cons, Prod.mk.injEq]
    by_cases here : v = u
    · subst here
      rw [if_pos rfl]
      refine ⟨fun same => .inl ⟨rfl, (Option.some.inj same).symm⟩, ?_⟩
      rintro (⟨-, rfl⟩ | later)
      · rfl
      · exact absurd (above _ later) (Nat.lt_irrefl v)
    · rw [if_neg here, ih tail]
      exact ⟨.inr, fun either => either.resolve_left fun same => here same.1⟩

variable {α β : Assignment} {v n : Nat} {b : Bool}

theorem get?_eq_some_iff : α.get? v = some b ↔ (v, b) ∈ α.entries :=
  lookup_eq_some_iff α.ascending

theorem nodup_names (α : Assignment) : (α.entries.map Prod.fst).Nodup :=
  List.pairwise_map.mpr (α.ascending.imp Nat.ne_of_lt)

/-- An assignment is known by its values. -/
theorem ext (same : ∀ v, α.get? v = β.get? v) : α = β := by
  have perm : α.entries.Perm β.entries := by
    refine (List.perm_ext_iff_of_nodup α.nodup_names.of_map β.nodup_names.of_map).mpr fun (v, b) => ?_
    rw [← get?_eq_some_iff, ← get?_eq_some_iff, same]
  obtain ⟨entries, ascending⟩ := α
  obtain ⟨entries', ascending'⟩ := β
  congr 1
  refine perm.eq_of_pairwise ?_ ascending ascending'
  intro e e' _ _ below above
  exact absurd (Nat.lt_trans below above) (Nat.lt_irrefl _)

theorem get?_ofList {entries : List (Nat × Bool)} (nodup : (entries.map Prod.fst).Nodup) :
    (ofList entries).get? v = some b ↔ (v, b) ∈ entries := by
  have placed (α : Assignment) :
      (entries.foldl (fun α e => α.assign e.1 e.2) α).get? v = some b ↔
        (v, b) ∈ entries ∨ v ∉ entries.map Prod.fst ∧ α.get? v = some b := by
    induction entries generalizing α with
    | nil => simp
    | cons entry rest ih =>
      obtain ⟨u, c⟩ := entry
      obtain ⟨away, nodup⟩ := List.nodup_cons.mp nodup
      rw [List.foldl_cons, ih nodup, get?_assign]
      by_cases here : v = u
      · subst here
        have none : (v, b) ∉ rest := fun later =>
          away (List.mem_map.mpr ⟨(v, b), later, rfl⟩)
        simp [none, away, eq_comm]
      · simp [here]
  exact (placed empty).trans (or_iff_left fun empty => Option.some_ne_none b empty.2.symm)

/-- The values under other names; a variable without one loses its value. -/
def mapNames (ρ : Nat → Option Nat) (α : Assignment) : Assignment :=
  ofList (α.entries.filterMap fun e => (ρ e.1).map (·, e.2))

variable {ρ : Nat → Option Nat} (injective : ∀ v w n, ρ v = some n → ρ w = some n → v = w)

include injective

theorem nodup_filterMap_names :
    ((α.entries.filterMap fun e => (ρ e.1).map (·, e.2)).map Prod.fst).Nodup := by
  have names : (α.entries.filterMap fun e => (ρ e.1).map (·, e.2)).map Prod.fst =
      (α.entries.map Prod.fst).filterMap ρ := by
    rw [List.map_filterMap, List.filterMap_map]
    refine congrArg (List.filterMap · α.entries) (funext fun e => ?_)
    cases named : ρ e.1 <;> simp [named]
  rw [names]
  exact α.nodup_names.filterMap injective

theorem get?_mapNames (named : ρ v = some n) : (α.mapNames ρ).get? n = α.get? v := by
  refine Option.ext fun b => ?_
  rw [mapNames, get?_ofList (nodup_filterMap_names injective), get?_eq_some_iff, List.mem_filterMap]
  constructor
  · rintro ⟨⟨w, c⟩, member, same⟩
    obtain ⟨m, named', same⟩ := Option.map_eq_some_iff.mp same
    cases same
    obtain rfl := injective v w _ named named'
    exact member
  · intro member
    refine ⟨(v, b), member, ?_⟩
    rw [named]
    rfl

end Assignment

end TripletSat
