import TripletSat.Proofs.Assignments
import TripletSat.Proofs.Dimacs.Reduction
import TripletSat.Proofs.Dimacs.Source
import TripletSat.Proofs.Evaluation

/-!
The generic reader. The names it returns are the variables of the text in the order of their first
appearance, and through them the formula it returns has the assignments of the text.
-/

namespace TripletSat

namespace Assignment

/-- Some literal of a clause in signed form is true. -/
def MeetsSigned (σ : Assignment) (clause : List Int) : Prop :=
  ∃ n ∈ clause, σ.get? n.natAbs = some (decide (0 < n))

end Assignment

namespace Dimacs

/-- A literal beside its negation. -/
def Tautology (clause : List Int) : Prop := ∃ n ∈ clause, -n ∈ clause

/-- Every clause that is no tautology has a true literal. -/
def Solves (σ : Assignment) (clauses : List (List Int)) : Prop :=
  ∀ clause ∈ clauses, ¬ Tautology clause → σ.MeetsSigned clause

/-! ### Names -/

section Names

variable {names : Permutation} {v w n : Nat}

theorem sourceName?_eq_some :
    sourceName? names v = some n ↔ n ∈ names.names ∧ v = names.index n + 1 := by
  cases v with
  | zero => simp [sourceName?]
  | succ i =>
    show names.names[i]? = some n ↔ _
    rw [Nat.add_right_cancel_iff]
    constructor
    · intro here
      have known := List.mem_of_getElem? here
      have found : names.names[names.index n]? = some n := List.getElem?_idxOf known
      exact ⟨known, Permutation.getElem?_names_inj here found⟩
    · rintro ⟨known, rfl⟩
      exact List.getElem?_idxOf known

theorem sourceName?_inj (hv : sourceName? names v = some n) (hw : sourceName? names w = some n) :
    v = w := by
  rw [sourceName?_eq_some] at hv hw
  rw [hv.2, hw.2]

theorem sourceName?_rename {m : Int} (known : m.natAbs ∈ names.names) :
    sourceName? names (rename names m).name = some m.natAbs :=
  sourceName?_eq_some.mpr ⟨known, rfl⟩

theorem negated_rename {m : Int} : (rename names m).negated = decide (m < 0) := rfl

theorem rename_inj {m k : Int} (known : m.natAbs ∈ names.names)
    (known' : k.natAbs ∈ names.names) (same : rename names m = rename names k) : m = k := by
  have magnitude : some m.natAbs = some k.natAbs := by
    rw [← sourceName?_rename known, ← sourceName?_rename known', same]
  have sign : (m < 0) = (k < 0) := by
    simpa [rename] using congrArg Lit.negated same
  have := Option.some.inj magnitude
  grind

theorem negate_rename {m : Int} (nonzero : m ≠ 0) :
    (rename names m).negate = rename names (-m) := by
  have sign : (!decide (m < 0)) = decide (-m < 0) := by grind
  simp only [rename, Lit.negate, sign, Int.natAbs_neg]

end Names

/-- A variable of the text and the one that stands for it have the same value, or none. -/
def Agrees (names : Permutation) (σ α : Assignment) : Prop :=
  ∀ v n, sourceName? names v = some n → α.get? v = σ.get? n

/-- The values of the variables of the text. -/
def sourceAssignment (names : Permutation) (α : Assignment) : Assignment :=
  α.mapNames (sourceName? names)

theorem agrees_sourceAssignment (names : Permutation) (α : Assignment) :
    Agrees names (sourceAssignment names α) α := by
  intro v n named
  exact (Assignment.get?_mapNames (fun _ _ _ => sourceName?_inj) named).symm

theorem exists_agrees (names : Permutation) (σ : Assignment) : ∃ α, Agrees names σ α := by
  let place (n : Nat) : Option Nat := (names.index? n).map (· + 1)
  have placed (v n : Nat) : place n = some v ↔ sourceName? names v = some n := by
    cases v with
    | zero => simp [place, sourceName?]
    | succ i =>
      simp only [place, Option.map_eq_some_iff, Nat.add_right_cancel_iff, exists_eq_right]
      exact Permutation.index?_eq_some_iff
  have injective (n m v : Nat) (hn : place n = some v) (hm : place m = some v) : n = m := by
    rw [placed] at hn hm
    exact Option.some.inj (hn.symm.trans hm)
  exact ⟨σ.mapNames place, fun v n named =>
    Assignment.get?_mapNames injective ((placed v n).mpr named)⟩

section Clauses

variable {names : Permutation} {σ α : Assignment} {clause : List Int}

theorem Agrees.meets_iff (h : Agrees names σ α) (nonzero : 0 ∉ clause)
    (known : ∀ n ∈ clause, n.natAbs ∈ names.names) :
    α.Meets (clause.map (rename names)).eraseDups ↔ σ.MeetsSigned clause := by
  have each (n : Int) (hn : n ∈ clause) :
      α.makesTrue (rename names n) = true ↔ σ.get? n.natAbs = some (decide (0 < n)) := by
    have sign : (!decide (n < 0)) = decide (0 < n) := by grind
    rw [Assignment.get?_of_makesTrue, h _ _ (sourceName?_rename (known n hn)), negated_rename, sign]
  unfold Assignment.Meets Assignment.MeetsSigned
  simp only [List.mem_eraseDups, List.mem_map, exists_exists_and_eq_and]
  exact exists_congr fun n => and_congr_right (each n)

theorem isTautology_iff (nonzero : 0 ∉ clause) (known : ∀ n ∈ clause, n.natAbs ∈ names.names) :
    isTautology (clause.map (rename names)).eraseDups = true ↔ Tautology clause := by
  unfold isTautology Tautology
  simp only [List.any_eq_true, List.contains_iff_mem, List.mem_eraseDups, List.mem_map,
    exists_exists_and_eq_and]
  refine exists_congr fun n => and_congr_right fun hn => ?_
  have apart : n ≠ 0 := fun zero => nonzero (zero ▸ hn)
  rw [negate_rename apart]
  constructor
  · rintro ⟨m, hm, same⟩
    have known' : (-n).natAbs ∈ names.names := by
      rw [Int.natAbs_neg]
      exact known n hn
    rwa [← rename_inj (known m hm) known' same]
  · intro opposite
    exact ⟨-n, opposite, rfl⟩

end Clauses

/-! ### Reading -/

/-- The instance has the assignments of the clauses, its names leading from one to the other. -/
structure Instance.Restates (found : Instance) (clauses : List (List Int)) : Prop where
  built : ∃ reduced, found.formula = .ofClauses reduced
  names : found.names.names = (clauses.flatten.map Int.natAbs).eraseDups
  complete : ∀ σ, Solves σ clauses →
    ∃ α, Agrees found.names σ α ∧ found.formula.evaluate α = .ok true
  sound : ∀ σ α, Agrees found.names σ α → found.formula.evaluate α = .ok true → Solves σ clauses

theorem restates_of_reduces {names : Permutation} {clauses : List (List Int)}
    {reduced : List Clause} (same : names = .ofNames (clauses.flatten.map Int.natAbs))
    (nonzero : ∀ clause ∈ clauses, 0 ∉ clause)
    (h : Reduces names.size (clauses.map fun clause => (clause.map (rename names)).eraseDups)
      reduced) : Instance.Restates ⟨.ofClauses reduced, names⟩ clauses := by
  have first : names.names = (clauses.flatten.map Int.natAbs).eraseDups := by
    rw [same, Permutation.names_ofNames]
  have known (clause : List Int) (hc : clause ∈ clauses) : ∀ n ∈ clause, n.natAbs ∈ names.names := by
    intro n hn
    rw [first, List.mem_eraseDups]
    exact List.mem_map_of_mem (List.mem_flatten.mpr ⟨clause, hc, hn⟩)
  -- The literals of the clauses, renamed and made true on both sides.
  have renamed {σ α : Assignment} (agrees : Agrees names σ α) :
      (∀ lits ∈ clauses.map fun clause => (clause.map (rename names)).eraseDups,
        isTautology lits = false → α.Meets lits) ↔ Solves σ clauses := by
    rw [List.forall_mem_map]
    refine forall₂_congr fun clause hc => ?_
    rw [agrees.meets_iff (nonzero clause hc) (known clause hc), Bool.eq_false_iff, ne_eq,
      isTautology_iff (nonzero clause hc) (known clause hc)]
  refine ⟨⟨reduced, rfl⟩, first, fun σ solves => ?_, fun σ α agrees satisfied => ?_⟩
  · obtain ⟨α, agrees⟩ := exists_agrees names σ
    obtain ⟨β, kept, satisfied⟩ := h.complete α ((renamed agrees).mpr solves)
    refine ⟨β, fun v n named => ?_, Formula.evaluate_ofClauses_eq_true.mpr satisfied⟩
    obtain ⟨known, rfl⟩ := sourceName?_eq_some.mp named
    have below : names.index n < names.size := List.idxOf_lt_length_iff.mpr known
    rw [kept _ below, agrees _ n named]
  · rw [Formula.evaluate_ofClauses_eq_true] at satisfied
    exact (renamed agrees).mp (h.sound α satisfied)

theorem sourceNames_eq (sources : List SourceClause) :
    sourceNames sources =
      .ofNames ((sources.map SourceClause.literals).flatten.map Int.natAbs) := by
  unfold sourceNames
  rw [List.map_flatten, List.map_map, List.flatMap_def]
  rfl

theorem reduceAll_restates {names : Permutation} {clauses : List (List Int)}
    (same : names = .ofNames (clauses.flatten.map Int.natAbs))
    (nonempty : ∀ clause ∈ clauses, clause ≠ []) (nonzero : ∀ clause ∈ clauses, 0 ∉ clause) :
    Returns (reduceAll names.size
        (clauses.map fun clause => (clause.map (rename names)).eraseDups)) fun reduced =>
      Instance.Restates ⟨.ofClauses reduced, names⟩ clauses := by
  refine (reduceAll_returns ?_ ?_ ?_).mono fun _ => restates_of_reduces same nonzero
  · refine List.forall_mem_map.mpr fun clause hc empty => ?_
    obtain ⟨n, hn⟩ := List.exists_mem_of_ne_nil _ (nonempty clause hc)
    have member : rename names n ∈ (clause.map (rename names)).eraseDups :=
      List.mem_eraseDups.mpr (List.mem_map_of_mem hn)
    rw [empty] at member
    cases member
  · exact List.forall_mem_map.mpr fun _ _ => nodup_eraseDups _
  · refine List.forall_mem_map.mpr fun clause hc l hl => ?_
    obtain ⟨n, hn, rfl⟩ := List.mem_map.mp (List.mem_eraseDups.mp hl)
    have known : n.natAbs ∈ names.names := by
      rw [same, Permutation.names_ofNames, List.mem_eraseDups]
      exact List.mem_map_of_mem (List.mem_flatten.mpr ⟨clause, hc, hn⟩)
    have below : names.index n.natAbs < names.size := List.idxOf_lt_length_iff.mpr known
    exact below

theorem Instance.read_attempts (text : String) :
    Attempts (read text) (fun found => ∃ clauses, clauses? text = some clauses ∧
      found.Restates clauses) fun _ => True := by
  unfold read
  have lifted : Attempts (read.liftExcept (SourceClause.ofText text))
      (SourceClause.ofText text = .ok ·) fun _ => True := by
    refine ⟨_, rfl, ?_⟩
    cases SourceClause.ofText text with
    | ok clauses => exact rfl
    | error e => trivial
  refine lifted.bind fun sources read => ?_
  split
  · exact .throw trivial
  · rename_i noneEmpty
    have said := SourceClause.clauses?_of_ofText read
    have nonempty : ∀ clause ∈ sources.map SourceClause.literals, clause ≠ [] := by
      have all := List.find?_eq_none.mp (Option.eq_none_iff_forall_ne_some.mpr noneEmpty)
      simpa [List.forall_mem_map] using all
    have reduced := reduceAll_restates (sourceNames_eq sources) nonempty
      (zero_not_mem_of_clauses? said)
    rw [List.map_map] at reduced
    exact (Attempts.lift reduced).bind fun _ restates => .pure ⟨_, said, restates⟩

/-- The generic reader ends without a fault on every text. An instance that it returns has the
assignments of the clauses of the text: one that solves the clauses extends to one under which the
formula is true, and one under which it is true solves the clauses. The names are the variables of
the text in the order of their first appearance, each of them once. -/
theorem Instance.read_equisatisfiable (text : String) :
    ∃ answer, (read text).run = .ok answer ∧ ∀ found, answer = .ok found →
      ∃ clauses, clauses? text = some clauses ∧
        (∀ σ, Solves σ clauses → ∃ α, Agrees found.names σ α ∧ found.formula.evaluate α = .ok true) ∧
        (∀ α, found.formula.evaluate α = .ok true →
          Agrees found.names (sourceAssignment found.names α) α ∧
            Solves (sourceAssignment found.names α) clauses) ∧
        (∀ i, sourceName? found.names (i + 1) = (clauses.flatten.map Int.natAbs).eraseDups[i]?) ∧
        (∀ v, (sourceName? found.names v).isSome = true ↔ 1 ≤ v ∧ v ≤ found.names.size) ∧
        ∀ v w n, sourceName? found.names v = some n → sourceName? found.names w = some n → v = w := by
  obtain ⟨answer, run, sound⟩ := read_attempts text
  refine ⟨answer, run, ?_⟩
  intro found ok
  subst ok
  obtain ⟨clauses, said, restates⟩ := sound
  refine ⟨clauses, said, restates.complete, ?_, ?_, ?_, fun _ _ _ => sourceName?_inj⟩
  · intro α satisfied
    have agrees := agrees_sourceAssignment found.names α
    exact ⟨agrees, restates.sound _ α agrees satisfied⟩
  · intro i
    rw [← restates.names]
    rfl
  · intro v
    cases v with
    | zero => simp [sourceName?]
    | succ i =>
      show (found.names.names[i]?).isSome = true ↔ _
      rw [Option.isSome_iff_ne_none, ne_eq, List.getElem?_eq_none_iff]
      show ¬ found.names.size ≤ i ↔ _
      omega

example : ∃ found, (Instance.read "9 -7 0\n4 -4 0").run = .ok (.ok found) ∧
    found.names.names = [9, 7, 4] ∧ found.formula.permutation.names = [1, 2, 4] :=
  ⟨_, rfl, rfl, rfl⟩

end Dimacs

end TripletSat
