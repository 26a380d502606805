import TripletSat.CommandLine.Run
import TripletSat.Proofs.Dimacs.Generic
import TripletSat.Proofs.Solver

/-!
Certificates under the names of a text. The literals that are printed for an assignment stand for the
clauses of the text, and the verdict of the solver carries over to them.
-/

namespace TripletSat

namespace Formula

/-- What a verdict says of the assignments under which the clauses are true. -/
def Judges (clauses : List Clause) : Except Error Outcome → Prop
  | .ok (.satisfiable α) => (ofClauses clauses).evaluate α = .ok true ∧
      ∀ v, (α.get? v).isSome = true → v ∈ (ofClauses clauses).permutation.names
  | .ok .unsatisfiable => ∀ α, (ofClauses clauses).evaluate α ≠ .ok true
  | .error _ => True

theorem solve_judges (clauses : List Clause) (check : Bool) :
    Returns ((ofClauses clauses).solve check).outcome fun r => Judges clauses r.1 := by
  have encodes := encodes_ofClauses clauses
  apply (solve_concludes encodes check).outcome.mono
  rintro ⟨answer, events⟩ sound
  match answer, sound with
  | .error _, _ => trivial
  | .ok .unsatisfiable, violated =>
    intro α true'
    rw [evaluate_ofClauses_eq_true] at true'
    exact encodes.not_violates true' (violated α.value)
  | .ok (.satisfiable α), sound =>
    have sound : if (ofClauses clauses).isEmpty then α = .empty
      else (ofClauses clauses).Certifies α := sound
    split at sound
    · rename_i empty
      subst sound
      refine ⟨?_, by simp [Assignment.get?_empty]⟩
      rw [evaluate_ofClauses_eq_true, encodes.isEmpty_iff.mp empty]
      simp
    · exact ⟨evaluate_of_certifies encodes sound, fun v => (sound.names v).mp⟩

end Formula

namespace CommandLine

open Dimacs

/-- Literals of the clauses, of each variable one at most, that make every clause true but for
tautologies. -/
structure Certificate (clauses : List (List Int)) (lits : List Int) : Prop where
  nodup : (lits.map Int.natAbs).Nodup
  known : ∀ l ∈ lits, ∃ clause ∈ clauses, ∃ n ∈ clause, n.natAbs = l.natAbs
  meets : ∀ clause ∈ clauses, ¬ Tautology clause → ∃ n ∈ clause, n ∈ lits

/-- The variable of the text that a variable stands for. -/
def nameOf (names : Option Permutation) (v : Nat) : Option Nat :=
  match names with
  | some names => sourceName? names v
  | none => some v

variable {names : Option Permutation} {α : Assignment}

theorem certificateLits_eq (names : Option Permutation) (α : Assignment) :
    certificateLits names α = α.entries.filterMap fun e =>
      (nameOf names e.1).map fun name => if e.2 then (name : Int) else -(name : Int) := by
  unfold certificateLits
  refine congrArg (List.filterMap · α.entries) (funext fun e => ?_)
  cases names with
  | none => rfl
  | some names => cases named : sourceName? names e.1 <;> simp [nameOf, named]

theorem nameOf_inj {v w n : Nat} (hv : nameOf names v = some n) (hw : nameOf names w = some n) :
    v = w := by
  cases names with
  | none => exact Option.some.inj (hv.trans hw.symm)
  | some names => exact sourceName?_inj hv hw

theorem natAbs_signed (name : Nat) (value : Bool) :
    (if value then (name : Int) else -(name : Int)).natAbs = name := by
  cases value <;> simp

theorem signed_natAbs (n : Int) :
    (if decide (0 < n) then (n.natAbs : Int) else -(n.natAbs : Int)) = n := by
  by_cases positive : 0 < n
  · rw [if_pos (decide_eq_true positive)]
    omega
  · rw [if_neg (by simpa using positive)]
    omega

theorem nodup_certificateLits (names : Option Permutation) (α : Assignment) :
    ((certificateLits names α).map Int.natAbs).Nodup := by
  have names' : (certificateLits names α).map Int.natAbs =
      (α.entries.map Prod.fst).filterMap (nameOf names) := by
    rw [certificateLits_eq, List.map_filterMap, List.filterMap_map]
    refine congrArg (List.filterMap · α.entries) (funext fun e => ?_)
    cases named : nameOf names e.1 <;> simp [named, natAbs_signed]
  rw [names']
  exact α.nodup_names.filterMap fun v w n => nameOf_inj

theorem exists_of_mem_certificateLits {l : Int} (h : l ∈ certificateLits names α) :
    ∃ v, (α.get? v).isSome = true ∧ nameOf names v = some l.natAbs := by
  rw [certificateLits_eq] at h
  obtain ⟨⟨v, b⟩, entry, same⟩ := List.mem_filterMap.mp h
  obtain ⟨name, named, rfl⟩ := Option.map_eq_some_iff.mp same
  refine ⟨v, ?_, ?_⟩
  · rw [Assignment.get?_eq_some_iff.mpr entry]
    rfl
  · rw [natAbs_signed]
    exact named

theorem mem_certificateLits {v : Nat} {n : Int} (named : nameOf names v = some n.natAbs)
    (value : α.get? v = some (decide (0 < n))) : n ∈ certificateLits names α := by
  rw [certificateLits_eq]
  refine List.mem_filterMap.mpr ⟨(v, decide (0 < n)), Assignment.get?_eq_some_iff.mp value, ?_⟩
  dsimp only
  rw [named, Option.map_some, signed_natAbs]

/-- The formula has the assignments of the clauses, and a certificate for each. -/
structure Speaks (f : Formula) (names : Option Permutation) (clauses : List (List Int)) : Prop where
  built : ∃ given, f = .ofClauses given
  complete : ∀ σ, Solves σ clauses → ∃ α, f.evaluate α = .ok true
  certifies : ∀ α, f.evaluate α = .ok true →
    (∀ v, (α.get? v).isSome = true → v ∈ f.permutation.names) →
      Certificate clauses (certificateLits names α)

/-! ### The generic reader -/

theorem speaks_of_restates {found : Instance} {clauses : List (List Int)}
    (h : found.Restates clauses) : Speaks found.formula (some found.names) clauses where
  built := h.built
  complete σ solves := by
    obtain ⟨α, -, true'⟩ := h.complete σ solves
    exact ⟨α, true'⟩
  certifies α true' _ := by
    have mem_names (v : Nat) : v ∈ found.names.names ↔
        ∃ clause ∈ clauses, ∃ n ∈ clause, n.natAbs = v := by
      rw [h.names, List.mem_eraseDups]
      simp
    refine ⟨nodup_certificateLits _ α, fun l hl => ?_, fun clause hc sound => ?_⟩
    · obtain ⟨v, -, named⟩ := exists_of_mem_certificateLits hl
      exact (mem_names _).mp (sourceName?_eq_some.mp named).1
    · have agrees := agrees_sourceAssignment found.names α
      obtain ⟨n, hn, value⟩ := h.sound _ α agrees true' clause hc sound
      have named : sourceName? found.names (found.names.index n.natAbs + 1) = some n.natAbs :=
        sourceName?_eq_some.mpr ⟨(mem_names _).mpr ⟨clause, hc, n, hn, rfl⟩, rfl⟩
      rw [← agrees _ _ named] at value
      have named : nameOf (some found.names) (found.names.index n.natAbs + 1) = some n.natAbs := named
      exact ⟨n, hn, mem_certificateLits named value⟩

/-! ### The strict reader -/

theorem pos_signed (l : Lit) : decide (0 < l.signed) = !l.negated := by
  have positive := l.name_pos
  unfold Lit.signed
  cases l.negated with
  | true => simp
  | false => simpa using positive

theorem not_tautology_signed (c : Clause) : ¬ Tautology c.signed := by
  rintro ⟨n, hn, opposite⟩
  obtain ⟨l, hl, rfl⟩ := List.mem_map.mp hn
  obtain ⟨m, hm, same⟩ := List.mem_map.mp opposite
  have name : m.name = l.name := by
    rw [← Lit.natAbs_signed, same, Int.natAbs_neg, Lit.natAbs_signed]
  obtain rfl := Clause.lit_inj hm hl name
  have positive := m.name_pos
  have magnitude := Lit.natAbs_signed m
  omega

theorem meetsSigned_iff {σ : Assignment} {c : Clause} :
    σ.MeetsSigned c.signed ↔ σ.satisfies c = true := by
  rw [Assignment.satisfies_iff]
  unfold Assignment.MeetsSigned Assignment.Meets Clause.signed
  simp only [List.mem_map, exists_exists_and_eq_and, Lit.natAbs_signed, pos_signed,
    Assignment.get?_of_makesTrue]

theorem speaks_of_document (d : Document) :
    Speaks d.formula none (d.clauses.map Clause.signed) where
  built := ⟨d.clauses, rfl⟩
  complete σ solves := by
    refine ⟨σ, Formula.evaluate_ofClauses_eq_true.mpr fun c hc => ?_⟩
    exact meetsSigned_iff.mp (solves _ (List.mem_map_of_mem hc) (not_tautology_signed c))
  certifies α true' domain := by
    have satisfied := Formula.evaluate_ofClauses_eq_true.mp true'
    refine ⟨nodup_certificateLits _ α, fun l hl => ?_, List.forall_mem_map.mpr fun c hc _ => ?_⟩
    · obtain ⟨v, given, named⟩ := exists_of_mem_certificateLits hl
      obtain ⟨c, hc, hv⟩ := ((Formula.encodes_ofClauses d.clauses).names v).mp (domain v given)
      obtain ⟨k, hk, rfl⟩ := List.mem_map.mp (Clause.names_triple c ▸ hv)
      refine ⟨c.signed, List.mem_map_of_mem hc, k.signed, List.mem_map_of_mem hk, ?_⟩
      rw [Lit.natAbs_signed]
      exact Option.some.inj named
    · obtain ⟨n, hn, value⟩ := meetsSigned_iff.mpr (satisfied c hc)
      exact ⟨n, hn, mem_certificateLits rfl value⟩

end CommandLine

end TripletSat
