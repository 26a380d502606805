import Mathlib.Data.List.Nodup
import TripletSat.Proofs.Random.Clauses
import TripletSat.Proofs.Returns

/-!
Clauses from any generator whose samples hold what they promise: as many indices as asked for, distinct and
below the bound. Such a clause is over three variables of the range, and nothing fails but the generator.
-/

namespace TripletSat

theorem Clause.eq_of_ofLits {a b c : Lit} {clause : Clause} (h : ofLits a b c = .ok clause) :
    clause.a = a ∧ clause.b = b ∧ clause.c = c := by
  unfold ofLits ofLits? at h
  split at h
  · rename_i made
    cases h
    obtain ⟨_, same⟩ := Option.dite_none_right_eq_some.mp made
    cases same
    exact ⟨rfl, rfl, rfl⟩
  · cases h

namespace Random

/-- So many indices, distinct and below the bound. -/
structure Picked (amount bound : Nat) (indices : List Nat) : Prop where
  length : indices.length = amount
  nodup : indices.Nodup
  below : ∀ i ∈ indices, i < bound

/-- What a sample promises, of each one the generator gives. -/
def Generator.Samples (σ : Type) [Generator σ] : Prop :=
  ∀ bound amount (s s' : σ) indices, amount ≤ bound → sample bound amount s = some (indices, s') →
    Picked amount bound indices

variable {α β σ : Type} {s s' : σ}

/-- A result with the property, or a generator that gives none. -/
def Draws (x : Checked (α × σ)) (P : α → Prop) : Prop :=
  Either (fun r => P r.1) (· = .exhaustedSource) x

namespace Draws

variable {x : Checked (α × σ)} {f : α × σ → Checked (β × σ)} {P : α → Prop} {Q : β → Prop}

theorem pure {a : α} (h : P a) : Draws (Pure.pure (a, s)) P := h

theorem bind (hx : Draws x P) (hf : ∀ a s', P a → Draws (f (a, s')) Q) : Draws (x >>= f) Q := by
  cases x with
  | error e => exact hx
  | ok r => exact hf r.1 r.2 hx

theorem getDM {x : Option (α × σ)} (h : ∀ a s', x = some (a, s') → P a) :
    Draws (x.getDM (throw .exhaustedSource)) P := by
  cases x with
  | none => rfl
  | some r => exact h r.1 r.2 rfl

end Draws

theorem getDM_eq_ok_iff {x : Option α} {e : Fault} {a : α} :
    x.getDM (throw e) = (.ok a : Checked α) ↔ x = some a := by
  cases x with
  | none => exact ⟨nofun, nofun⟩
  | some b =>
    exact ⟨fun h => congrArg some (Except.ok.inj h), fun h => congrArg Except.ok (Option.some.inj h)⟩

variable [Generator σ] {n : Nat} {c : Clause} {l : Lit}

theorem drawLit_draws (index : Nat) (s : σ) : Draws (drawLit index s) (·.name = index + 1) :=
  (Draws.getDM (P := fun _ => True) fun _ _ _ => trivial).bind fun _ _ _ => .pure rfl

theorem drawClause_draws (samples : Generator.Samples σ) (three : 3 ≤ n) (s : σ) :
    Draws (drawClause n s) (Clause.Over n) := by
  unfold drawClause
  rw [if_neg (Nat.not_lt.mpr three)]
  refine (Draws.getDM fun indices s' given => samples n 3 s s' indices three given).bind ?_
  rintro indices s ⟨length, nodup, below⟩
  obtain ⟨i, j, k, rfl⟩ := List.length_eq_three.mp length
  refine (drawLit_draws i s).bind fun a s ha => ?_
  refine (drawLit_draws j s).bind fun b s hb => ?_
  refine (drawLit_draws k s).bind fun c s hc => ?_
  have distinct : (i ≠ j ∧ i ≠ k) ∧ j ≠ k := by simpa using nodup
  let clause : Clause := ⟨a, b, c, by omega, by omega, by omega⟩
  have names : clause.triple.names = [i, j, k].map (· + 1) := by
    simp [clause, Clause.triple, Triple.names, ha, hb, hc]
  have ranged : clause.Over n := fun v hv => by
    obtain ⟨x, hx, rfl⟩ := List.mem_map.mp (names ▸ hv)
    exact Finset.mem_Icc.mpr ⟨by omega, below x hx⟩
  show Draws (do return (← Clause.ofLits clause.a clause.b clause.c, s)) _
  rw [clause.ofLits_lits]
  exact .pure ranged

theorem drawClause_over (samples : Generator.Samples σ) (run : drawClause n s = .ok (c, s')) :
    c.Over n := by
  by_cases three : 3 ≤ n
  · have draws := drawClause_draws samples three s
    unfold Draws at draws
    rw [run] at draws
    exact draws
  · unfold drawClause at run
    rw [if_pos (Nat.not_le.mp three)] at run
    cases run

/-! ### The values a clause takes -/

theorem drawLit_eq_ok_iff {index : Nat} : drawLit index s = .ok (l, s') ↔
    l.name = index + 1 ∧ Generator.coin s = some (l.negated, s') := by
  unfold drawLit
  constructor
  · intro run
    obtain ⟨⟨negated, s₁⟩, coin, same⟩ := ok_of_bind run
    cases same
    exact ⟨rfl, getDM_eq_ok_iff.mp coin⟩
  · rintro ⟨name, coin⟩
    obtain ⟨_, negated, _⟩ := l
    obtain rfl := name
    exact (bind_of_ok (getDM_eq_ok_iff.mpr coin)).trans rfl

/-- A sample of three indices, and then a sign for each of them. -/
theorem drawClause_eq_ok_iff : drawClause n s = .ok (c, s') ↔ 3 ≤ n ∧ ∃ s₁ s₂ s₃,
    Generator.sample n 3 s = some ([c.a.name - 1, c.b.name - 1, c.c.name - 1], s₁) ∧
    Generator.coin s₁ = some (c.a.negated, s₂) ∧ Generator.coin s₂ = some (c.b.negated, s₃) ∧
    Generator.coin s₃ = some (c.c.negated, s') := by
  unfold drawClause
  constructor
  · intro run
    split at run
    · cases run
    · rename_i three
      obtain ⟨⟨indices, s₁⟩, given, run⟩ := ok_of_bind run
      split at run
      · rename_i i j k s₁' indexed
        cases indexed
        obtain ⟨⟨a, s₂⟩, litA, run⟩ := ok_of_bind run
        obtain ⟨⟨b, s₃⟩, litB, run⟩ := ok_of_bind run
        obtain ⟨⟨c', s₄⟩, litC, run⟩ := ok_of_bind run
        obtain ⟨clause, made, same⟩ := ok_of_bind run
        cases same
        obtain ⟨rfl, rfl, rfl⟩ := Clause.eq_of_ofLits made
        obtain ⟨nameA, signA⟩ := drawLit_eq_ok_iff.mp litA
        obtain ⟨nameB, signB⟩ := drawLit_eq_ok_iff.mp litB
        obtain ⟨nameC, signC⟩ := drawLit_eq_ok_iff.mp litC
        refine ⟨Nat.le_of_not_lt three, s₁, s₂, s₃, ?_, signA, signB, signC⟩
        rw [nameA, nameB, nameC]
        exact getDM_eq_ok_iff.mp given
      · cases run
  · rintro ⟨three, s₁, s₂, s₃, given, signA, signB, signC⟩
    rw [if_neg (Nat.not_lt.mpr three)]
    have name (l : Lit) : l.name = l.name - 1 + 1 := (Nat.sub_add_cancel l.name_pos).symm
    exact (bind_of_ok (getDM_eq_ok_iff.mpr given)).trans <|
      (bind_of_ok (drawLit_eq_ok_iff.mpr ⟨name c.a, signA⟩)).trans <|
      (bind_of_ok (drawLit_eq_ok_iff.mpr ⟨name c.b, signB⟩)).trans <|
      (bind_of_ok (drawLit_eq_ok_iff.mpr ⟨name c.c, signC⟩)).trans <|
      (bind_of_ok c.ofLits_lits).trans rfl

end Random

end TripletSat
