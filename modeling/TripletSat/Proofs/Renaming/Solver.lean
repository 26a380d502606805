import Mathlib.SetTheory.Cardinal.Arithmetic
import TripletSat.Proofs.Renaming.Route
import TripletSat.Proofs.Solver

/-!
The solver does not depend on the names of the variables: on clauses whose variables have other names
it gives the same answer about them.
-/

namespace TripletSat

variable (π : Equiv.Perm Nat)

/-! ### Clauses -/

/-- The literals of a clause under other names. -/
def Clause.RenamesTo (ρ : Nat → Nat) (c c' : Clause) : Prop :=
  c'.lits.map (fun l => (l.name, l.negated)) = c.lits.map fun l => (ρ l.name, l.negated)

/-- A map that takes finitely many names apart agrees on them with a permutation of all names. -/
theorem exists_perm {ρ : Nat → Nat} {names : Set Nat} (finite : names.Finite)
    (injective : Set.InjOn ρ names) : ∃ π : Equiv.Perm Nat, ∀ v ∈ names, π v = ρ v := by
  have few : Cardinal.mk names < Cardinal.mk Nat := by
    rw [Cardinal.mk_nat]
    exact Cardinal.lt_aleph0_iff_set_finite.mpr finite
  obtain ⟨π, agrees⟩ := Cardinal.extend_function_of_lt ⟨_, injective.injective⟩ few ⟨Equiv.refl Nat⟩
  exact ⟨π, fun v hv => agrees ⟨v, hv⟩⟩

theorem Tier.ofClause_rename {ρ : Nat → Nat} {c c' : Clause} (renames : c.RenamesTo ρ c')
    (same : ∀ v ∈ c.triple.names, π v = ρ v) : Tier.ofClause c' = (Tier.ofClause c).rename π := by
  simp only [Clause.RenamesTo, Clause.lits, List.map_cons, List.map_nil, List.cons.injEq,
    Prod.mk.injEq, and_true] at renames
  obtain ⟨⟨nameA, signA⟩, ⟨nameB, signB⟩, nameC, signC⟩ := renames
  have triple : c'.triple = c.triple.rename π := by
    simp only [Clause.triple, Triple.names, List.forall_mem_cons] at same
    simp only [Clause.triple, Triple.rename, nameA, nameB, nameC, same]
  have octant : c'.octant = c.octant := by
    simp only [Clause.octant, signA, signB, signC]
  unfold ofClause rename
  rw [triple, octant]

namespace Formula

theorem ofClauses_rename {ρ : Nat → Nat} {clauses renamed : List Clause}
    (renames : List.Forall₂ (Clause.RenamesTo ρ) clauses renamed)
    (same : ∀ c ∈ clauses, ∀ v ∈ c.triple.names, π v = ρ v) :
    ofClauses renamed = (ofClauses clauses).rename π := by
  have tiers : renamed.map Tier.ofClause = (clauses.map Tier.ofClause).map (Tier.rename π) := by
    induction renames with
    | nil => rfl
    | cons head _ ih =>
      obtain ⟨first, rest⟩ := List.forall_mem_cons.mp same
      rw [List.map_cons, List.map_cons, List.map_cons, ih rest, Tier.ofClause_rename π head first]
  rw [ofClauses_eq_foldl, ofClauses_eq_foldl, tiers]
  exact foldl_addTier_rename π (f := empty) _

end Formula

/-! ### The search and the verdict -/

/-- The same error, or an empty structure both times. -/
def Error.Alike (e e' : Error) : Prop :=
  e' = e ∨ ∃ i j, e = .emptyStructure i ∧ e' = .emptyStructure j

theorem Error.Alike.of_eq {e e' : Error} (h : e = e') : e.Alike e' := .inl h.symm

theorem Error.alike_emptyStructure (e e' : EmptyStructure) : e.error.Alike e'.error :=
  .inr ⟨e.index, e'.index, rfl, rfl⟩

namespace Formula

variable {f : Formula}

theorem search_echoes (known : f.Known) (full : f.isEmpty = false) (check : Bool) :
    Echoes (fun α α' => α' = α.rename π) Error.Alike (f.search check)
      ((f.rename π).search check) := by
  have several {group : List Formula} (shaped : ∀ g ∈ group, g.Shaped) :
      Echoes (fun α α' => α' = α.rename π) Error.Alike
        (do
          let unified ← Logged.ofAttempt ((unify group).adapt EmptyStructure.error)
          let system ← HyperSystem.ofStructures unified.group check
          return (← system.findRoute).assignment)
        (do
          let unified ← Logged.ofAttempt
            ((unify (group.map (Formula.rename π))).adapt EmptyStructure.error)
          let system ← HyperSystem.ofStructures unified.group check
          return (← system.findRoute).assignment) := by
    refine Echoes.bind (.ofAttempt ((unify_shadows π shaped).adapt fun e e' _ =>
      Error.alike_emptyStructure e e')) fun u u' ⟨hu, same⟩ => ?_
    rw [same]
    refine Echoes.bind_and_eq ((HyperSystem.ofStructures_echoes π hu check).weaken fun _ _ => .of_eq)
      fun s _ => ?_
    refine Echoes.bind_eq ((HyperSystem.findRoute_echoes π s).weaken fun _ _ => .of_eq)
      fun route => ?_
    exact .pure (Route.assignment_rename π route)
  unfold search
  refine Echoes.bind_and_eq (.ofAttempt (((structures_shadows π f).with_attempts
    (structures_attempts known full)).adapt fun e e' _ => Error.alike_emptyStructure e e'))
    fun group ⟨represents, _⟩ => ?_
  have shaped : ∀ g ∈ group, g.Shaped := fun g hg => .inr (represents.windowed g hg)
  match group, shaped with
  | [], shaped => exact several shaped
  | [lone], _ =>
    dsimp only [List.map]
    rw [anyAssignment?_rename]
    cases lone.anyAssignment? with
    | none => exact .throw (.inl rfl)
    | some α => exact .pure rfl
  | _ :: _ :: _, shaped => exact several shaped

end Formula

/-- The same verdict, with the certificate under other names. -/
def Outcome.rename (ρ : Nat → Nat) : Outcome → Outcome
  | .satisfiable α => .satisfiable (α.rename ρ)
  | .unsatisfiable => .unsatisfiable

namespace Formula

variable {f : Formula}

theorem solve_echoes {clauses renamed : List Clause} (h : f.Encodes clauses)
    (h' : (f.rename π).Encodes renamed) (check : Bool) :
    Echoes (fun o o' => o' = o.rename π) (· = ·) (f.solve check) ((f.rename π).solve check) := by
  unfold solve
  refine .report (.ite (by rw [isEmpty_rename]) (fun _ => .pure rfl) fun full => ?_)
  have full := eq_false_of_ne_true full
  have full' := (isEmpty_rename π).trans full
  have certified := (search_echoes π h.known full check).with_concludes
    (search_concludes h.known full check) (search_concludes h'.known full' check)
  refine Echoes.bind (.run certified) fun r r' matched => ?_
  match r, r', matched with
  | .ok α, .ok _, ⟨same, certifies, certifies'⟩ =>
    subst same
    dsimp only
    rw [evaluate_of_certifies h certifies, evaluate_of_certifies h' certifies']
    exact .pure rfl
  | .error e, .error e', alike =>
    have empty (i j : Nat) : Echoes (ε := Error) (ζ := Error) (fun o o' => o' = Outcome.rename π o)
        (· = ·)
        (do Logged.report (.unsatisfiable i); return .unsatisfiable)
        (do Logged.report (.unsatisfiable j); return .unsatisfiable) :=
      .report (.pure rfl)
    rcases alike with rfl | ⟨i, j, rfl, rfl⟩
    · cases e' with
      | emptyStructure i => exact empty i i
      | _ => exact .throw rfl
    · exact empty i j

/-- On clauses whose variables have other names, in whatever order, solving gives the same answer:
the same verdict with the certificate under these names, or the same error. -/
theorem solve_rename {ρ : Nat → Nat} {clauses renamed : List Clause}
    (injective : Set.InjOn ρ {v | ∃ c ∈ clauses, v ∈ c.triple.names})
    (renames : List.Forall₂ (Clause.RenamesTo ρ) clauses renamed) (check : Bool) :
    ∃ answer events events',
      ((ofClauses clauses).solve check).outcome = .ok (answer, events) ∧
      ((ofClauses renamed).solve check).outcome = .ok (answer.map (Outcome.rename ρ), events') := by
  have encodes := encodes_ofClauses clauses
  have finite : {v | ∃ c ∈ clauses, v ∈ c.triple.names}.Finite := by
    refine (List.finite_toSet (ofClauses clauses).permutation.names).subset fun v hv => ?_
    exact (encodes.names v).mpr hv
  obtain ⟨π, agrees⟩ := exists_perm finite injective
  have same := ofClauses_rename π renames fun c hc v hv => agrees v ⟨c, hc, hv⟩
  have encodes' := encodes_ofClauses renamed
  rw [same] at encodes'
  obtain ⟨⟨answer, events⟩, run, sound⟩ := (solve_concludes encodes check).outcome
  obtain ⟨⟨answer', events'⟩, run', matched⟩ := solve_echoes π encodes encodes' check [] [] _ run
  refine ⟨answer, events, events', run, ?_⟩
  rw [same]
  refine run'.trans (congrArg (fun r => Except.ok (r, events')) ?_)
  match answer, answer', matched with
  | .error _, .error _, same => exact congrArg _ same.symm
  | .ok .unsatisfiable, .ok _, same => exact congrArg _ same
  | .ok (.satisfiable α), .ok _, same =>
    subst same
    have certified : (ofClauses clauses).Decided (.satisfiable α) := sound
    refine congrArg (fun α => Except.ok (Outcome.satisfiable α)) (Assignment.rename_congr ?_)
    intro v assigned
    refine agrees v ((encodes.names v).mp ?_)
    -- The certificate has no other names than the clauses.
    by_cases empty : (ofClauses clauses).isEmpty = true
    · rw [Decided, if_pos empty] at certified
      subst certified
      exact absurd assigned Bool.false_ne_true
    · rw [Decided, if_neg empty] at certified
      exact (certified.names v).mp assigned

/-- Two clauses with two common variables. -/
def ascending : List Clause :=
  [Clause.ofSigned? 1 (-2) 3, Clause.ofSigned? 2 (-3) (-4)].filterMap id

/-- The same clauses with the names in the opposite order. -/
def descending : List Clause :=
  [Clause.ofSigned? 9 (-8) 7, Clause.ofSigned? 8 (-7) (-6)].filterMap id

theorem solve_rename_descending :
    ∃ α events events',
      ((ofClauses ascending).solve true).outcome = .ok (.ok (.satisfiable α), events) ∧
      ((ofClauses descending).solve true).outcome =
        .ok (.ok (.satisfiable (α.rename (10 - ·))), events') := by
  have injective : Set.InjOn (10 - ·) {v | ∃ c ∈ ascending, v ∈ c.triple.names} := by
    intro v hv w hw same
    have small {u : Nat} (hu : ∃ c ∈ ascending, u ∈ c.triple.names) : u ≤ 4 := by
      have all : ∀ c ∈ ascending, ∀ u ∈ c.triple.names, u ≤ 4 := by decide
      obtain ⟨c, hc, member⟩ := hu
      exact all c hc u member
    have hv := small hv
    have hw := small hw
    dsimp only at same
    omega
  have renames : List.Forall₂ (Clause.RenamesTo (10 - ·)) ascending descending :=
    .cons rfl (.cons rfl .nil)
  obtain ⟨answer, events, events', run, run'⟩ := solve_rename injective renames true
  have verdict : ∃ α events, ((ofClauses ascending).solve true).outcome =
      .ok (.ok (.satisfiable α), events) := ⟨_, _, rfl⟩
  obtain ⟨α, _, verdict⟩ := verdict
  obtain ⟨rfl, rfl⟩ := Prod.mk.inj (Except.ok.inj (verdict.symm.trans run))
  exact ⟨α, _, events', run, run'⟩

end Formula

end TripletSat
