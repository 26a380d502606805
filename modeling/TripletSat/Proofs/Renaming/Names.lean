import Mathlib.Data.List.Nodup
import Mathlib.Logic.Equiv.Basic
import TripletSat.Proofs.Structure
import TripletSat.Split

/-!
Renaming: the same triples, permutations, tiers and formulas under other names. What does not compare
names by their order commutes with it.
-/

namespace TripletSat

variable (π : Equiv.Perm Nat)

theorem apply_beq_apply (v w : Nat) : (π v == π w) = (v == w) := by
  rw [Bool.eq_iff_iff]
  simp

/-! ### Triples -/

namespace Triple

def rename (t : Triple) : Triple :=
  ⟨π t.a, π t.b, π t.c, π.injective.ne t.a_ne_b, π.injective.ne t.a_ne_c, π.injective.ne t.b_ne_c⟩

variable {t u : Triple} {v w : Nat}

@[simp] theorem rename_a : (t.rename π).a = π t.a := rfl

@[simp] theorem rename_b : (t.rename π).b = π t.b := rfl

@[simp] theorem rename_c : (t.rename π).c = π t.c := rfl

@[simp] theorem name_rename (p : Place) : (t.rename π).name p = π (t.name p) := by cases p <;> rfl

@[simp] theorem names_rename : (t.rename π).names = t.names.map π := rfl

@[simp] theorem place?_rename : (t.rename π).place? (π v) = t.place? v := by simp [place?]

@[simp] theorem contains_rename : (t.rename π).contains (π v) = t.contains v := by
  simp [contains, apply_beq_apply]

@[simp] theorem rank_rename : (t.rename π).rank (π v) = t.rank v := by simp [rank]

@[simp] theorem sameVariables_rename :
    (t.rename π).sameVariables (u.rename π) = t.sameVariables u := by
  simp [sameVariables]

theorem swap_rename (p q : Place) : (t.rename π).swap p q = (t.swap p q).rename π := by
  cases p <;> cases q <;> rfl

@[simp] theorem rename_symm_rename : (t.rename π).rename π.symm = t := by
  obtain ⟨a, b, c⟩ := t
  simp [rename]

end Triple

/-! ### Permutations -/

namespace Permutation

def rename (p : Permutation) : Permutation := ⟨p.names.map π, List.Nodup.map π.injective p.nodup⟩

variable {p q : Permutation} {v : Nat}

@[simp] theorem names_rename : (p.rename π).names = p.names.map π := rfl

@[simp] theorem size_rename : (p.rename π).size = p.size := List.length_map π

@[simp] theorem contains_rename : (p.rename π).contains (π v) = p.contains v := by
  simp [contains]

@[simp] theorem rename_symm_rename : (p.rename π).rename π.symm = p := by
  obtain ⟨names, nodup⟩ := p
  simp [rename, Function.comp_def]

theorem rename_inj : p.rename π = q.rename π ↔ p = q := by
  refine ⟨fun same => ?_, fun same => same ▸ rfl⟩
  have back := congrArg (rename π.symm) same
  rwa [rename_symm_rename, rename_symm_rename] at back

@[simp] theorem index_rename : (p.rename π).index (π v) = p.index v := by
  unfold index
  rw [names_rename]
  induction p.names with
  | nil => rfl
  | cons u rest ih => simp [List.idxOf_cons, ih, apply_beq_apply]

@[simp] theorem index?_rename : (p.rename π).index? (π v) = p.index? v := by
  unfold index?
  rw [names_rename]
  induction p.names with
  | nil => rfl
  | cons u rest ih => simp [List.idxOf?_cons, ih, apply_beq_apply]

theorem add_rename : (p.rename π).add (π v) = (p.add v).rename π := by
  by_cases known : v ∈ p.names
  · simp [add, known]
  · simp [add, known, rename]

theorem addAll_rename (names : List Nat) :
    (p.rename π).addAll (names.map π) = (p.addAll names).rename π := by
  induction names generalizing p with
  | nil => rfl
  | cons v rest ih =>
    show ((p.rename π).add (π v)).addAll (rest.map π) = ((p.add v).addAll rest).rename π
    rw [add_rename, ih]

@[simp] theorem sameVariables_rename :
    (p.rename π).sameVariables (q.rename π) = p.sameVariables q := by
  simp [sameVariables, Function.comp_def]

@[simp] theorem isWindow_rename {t : Triple} :
    (p.rename π).isWindow (t.rename π) = p.isWindow t := by
  simp [isWindow]

theorem windows_rename : (p.rename π).windows = p.windows.map (Triple.rename π) := by
  have windowsOf : ∀ (names : List Nat) (nodup : names.Nodup) (nodup' : (names.map π).Nodup),
      windowsOf (names.map π) nodup' = (windowsOf names nodup).map (Triple.rename π) := by
    intro names
    induction names with
    | nil => intro _ _; rfl
    | cons a rest ih =>
      intro nodup nodup'
      match rest, ih with
      | [], _ | [_], _ => rfl
      | b :: c :: rest, ih => exact congrArg (_ :: ·) (ih _ _)
  exact windowsOf _ _ _

end Permutation

/-! ### Tiers -/

namespace Tier

def rename (t : Tier) : Tier := { t with triple := t.triple.rename π }

variable {t u : Tier} {v : Nat}

@[simp] theorem triple_rename : (t.rename π).triple = t.triple.rename π := rfl

@[simp] theorem octants_rename : (t.rename π).octants = t.octants := rfl

@[simp] theorem isEmpty_rename : (t.rename π).isEmpty = t.isEmpty := rfl

@[simp] theorem rename_symm_rename : (t.rename π).rename π.symm = t := by simp [rename]

theorem swap_rename (p q : Place) : (t.rename π).swap p q = (t.swap p q).rename π := by
  simp [swap, rename, Triple.swap_rename]

theorem orderedBy_rename {rank rank' : Nat → Nat} (same : ∀ v, rank' (π v) = rank v) :
    (t.rename π).orderedBy rank' = (t.orderedBy rank).rename π := by
  have ite (c : Prop) [Decidable c] (t u : Tier) :
      (if c then t.rename π else u.rename π) = (if c then t else u).rename π := by
    split <;> rfl
  simp only [orderedBy, triple_rename, Triple.rename_a, Triple.rename_b, Triple.rename_c, same,
    swap_rename, ite]

@[simp] theorem octantsAlong_rename {w : Triple} :
    (t.rename π).octantsAlong (w.rename π) = t.octantsAlong w := by
  unfold octantsAlong
  rw [orderedBy_rename π fun v => Triple.rank_rename π]
  rfl

theorem merge_rename : (t.rename π).merge (u.rename π) = (t.merge u).rename π := by
  unfold merge
  rw [triple_rename, octantsAlong_rename]
  rfl

theorem meet_rename : (t.rename π).meet (u.rename π) = (t.meet u).rename π := by
  unfold meet
  rw [triple_rename, octantsAlong_rename]
  rfl

theorem minus_rename : (t.rename π).minus (u.rename π) = (t.minus u).rename π := by
  unfold minus
  rw [triple_rename, octantsAlong_rename]
  rfl

@[simp] theorem value?_rename : (t.rename π).value? (π v) = t.value? v := by simp [value?]

end Tier

/-! ### Formulas -/

namespace Formula

def rename (f : Formula) : Formula := ⟨f.permutation.rename π, f.tiers.map (Tier.rename π)⟩

variable {f g : Formula} {t : Tier} {w : Triple} {v : Nat}

@[simp] theorem permutation_rename : (f.rename π).permutation = f.permutation.rename π := rfl

@[simp] theorem tiers_rename : (f.rename π).tiers = f.tiers.map (Tier.rename π) := rfl

@[simp] theorem varCount_rename : (f.rename π).varCount = f.varCount := Permutation.size_rename π

@[simp] theorem tierCount_rename : (f.rename π).tierCount = f.tierCount := List.length_map _

@[simp] theorem clauseCount_rename : (f.rename π).clauseCount = f.clauseCount := by
  simp [clauseCount, Tier.count, Tier.size, List.foldr_map]

@[simp] theorem isEmpty_rename : (f.rename π).isEmpty = f.isEmpty := by
  simp [isEmpty, Function.comp_def]

@[simp] theorem rename_symm_rename : (f.rename π).rename π.symm = f := by
  simp [rename, Function.comp_def]

theorem tierOver?_rename :
    (f.rename π).tierOver? (w.rename π) = (f.tierOver? w).map (Tier.rename π) := by
  simp [tierOver?, Function.comp_def]

@[simp] theorem value?_rename : (f.rename π).value? (π v) = f.value? v := by
  simp [value?, List.findSome?_map, Function.comp_def]

theorem mergeTier_rename : (f.rename π).mergeTier (t.rename π) = (f.mergeTier t).rename π := by
  unfold mergeTier rename
  simp only [List.map_map, Function.comp_def, Formula.mk.injEq, true_and]
  refine List.map_congr_left fun u _ => ?_
  rw [Tier.triple_rename, Tier.triple_rename, Triple.sameVariables_rename, Tier.merge_rename]
  split <;> rfl

theorem appendTier_rename : (f.rename π).appendTier (t.rename π) = (f.appendTier t).rename π := by
  have rank (v : Nat) : ((f.permutation.addAll t.triple.names).rename π).index (π v) =
      (f.permutation.addAll t.triple.names).index v := Permutation.index_rename π
  have ordered := Tier.orderedBy_rename π (t := t) rank
  simp only [appendTier, permutation_rename, Tier.triple_rename, Triple.names_rename,
    Permutation.addAll_rename, tiers_rename, ordered]
  simp [rename]

theorem addTier_rename : (f.rename π).addTier (t.rename π) = (f.addTier t).rename π := by
  unfold addTier
  rw [tiers_rename, List.any_map, mergeTier_rename, appendTier_rename]
  simp only [Function.comp_def, Tier.triple_rename, Triple.sameVariables_rename]
  split <;> rfl

theorem foldl_addTier_rename (tiers : List Tier) :
    (tiers.map (Tier.rename π)).foldl addTier (f.rename π) =
      (tiers.foldl addTier f).rename π := by
  induction tiers generalizing f with
  | nil => rfl
  | cons t rest ih => rw [List.map_cons, List.foldl_cons, List.foldl_cons, addTier_rename, ih]

theorem appendVariable_rename :
    (f.rename π).appendVariable (π v) = (f.appendVariable v).rename π := by
  simp [appendVariable, rename, Permutation.add_rename]

theorem sortTiers_rename : (f.rename π).sortTiers = f.sortTiers.rename π := by
  unfold sortTiers rename
  rw [List.map_mergeSort]
  simp

theorem allowed_rename : (f.rename π).allowed (w.rename π) = (f.allowed w).rename π := by
  unfold allowed
  rw [tierOver?_rename]
  cases f.tierOver? w with
  | none => rfl
  | some u => exact Tier.minus_rename π (t := .complete w)

end Formula

end TripletSat
