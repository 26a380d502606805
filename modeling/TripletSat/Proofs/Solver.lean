import TripletSat.Proofs.Evaluation
import TripletSat.Proofs.Hyper.Route
import TripletSat.Solver

/-!
The solver. What the search returns assigns the variables of the formula and satisfies it, and an
empty structure on the way means that nothing does. So the answers of the solver are right: it calls
no satisfiable formula unsatisfiable, and never rejects its own certificate.
-/

namespace TripletSat

namespace Formula

/-! ### Structures on the way -/

namespace Represents

variable {f : Formula} {group : List Formula}

theorem reduces {group' : List Formula} (h : f.Represents group) (reduces : Reduces group group')
    (full : ∀ g ∈ group', g.Full) : f.Represents group' where
  some none := h.some (by
    have := reduces.shrinks
    rwa [none, List.forall₂_nil_right_iff] at this)
  windowed g hg := (reduces.shaped (fun g hg => .inr (h.windowed g hg)) g hg).windowed
    (full g hg).nonempty
  full := full
  names := forall_mem_of_forall₂ reduces.shrinks fun g hg g' shrinks v => by
    rw [shrinks.1]
    exact h.names g hg v
  admits τ := reduces.admit_iff.symm.trans (h.admits τ)

theorem sameVariables (h : f.Represents group) {g g' : Formula} (hg : g ∈ group)
    (hg' : g' ∈ group) : g.permutation.sameVariables g'.permutation = true :=
  Permutation.sameVariables_of_mem_iff fun v => (h.names g hg v).trans (h.names g' hg' v).symm

theorem violates_of_disjoint (h : f.Represents group) (disjoint : Disjoint group) (τ : Valuation) :
    f.Violates τ := by
  by_contra spared
  exact disjoint τ ((h.admits τ).mpr spared)

end Represents

/-- An assignment of exactly the variables of the formula that satisfies it. -/
structure Certifies (f : Formula) (α : Assignment) : Prop where
  names : ∀ v, (α.get? v).isSome = true ↔ v ∈ f.permutation.names
  spares : ¬ f.Violates α.value

/-- A route that the system of a formula accepts is a certificate. -/
theorem Represents.certifies {f : Formula} {group : List Formula} {s : HyperSystem} {route : Route}
    (h : f.Represents group) (founded : s.Founded group) (accepts : s.Accepts route) :
    f.Certifies route.assignment := by
  have admits := accepts.admits
  simp only [HyperSystem.admits, Bool.and_eq_true, List.all_eq_true, admits_iff] at admits
  obtain ⟨⟨basic, -⟩, others⟩ := admits
  obtain ⟨g, hg, shrinks⟩ := founded.origin
  refine ⟨?_, (h.admits _).mp ?_⟩
  · intro v
    have windowed := founded.clean.formed.windowed
    rw [Route.isSome_get?_assignment, accepts.steps, ← windowed.mem_names_iff basic.1, shrinks.1]
    exact h.names g hg v
  · intro g hg
    rcases founded.covers g hg with other | shrinks
    · exact (others g other).1
    · exact shrinks.admits basic

/-! ### The search -/

theorem Represents.unify_attempts {f : Formula} {group : List Formula} (h : f.Represents group)
    (two : 2 ≤ group.length) :
    Attempts (unify group) (fun u => f.Represents u.group ∧ 2 ≤ u.group.length)
      fun _ => ∀ τ, f.Violates τ := by
  refine Attempts.mono (TripletSat.unify_attempts two fun g hg => .inr (h.windowed g hg))
    (fun u ⟨reduces, full, _⟩ => ⟨h.reduces reduces full, ?_⟩) fun _ => h.violates_of_disjoint
  exact reduces.shrinks.length_eq ▸ two

theorem Represents.ofStructures_concludes {f : Formula} {group : List Formula} {check : Bool}
    (h : f.Represents group) (two : 2 ≤ group.length) :
    Concludes (HyperSystem.ofStructures group check) (HyperSystem.Founded group)
      fun e => (∃ i, e = .emptyStructure i) ∧ ∀ τ, f.Violates τ :=
  Concludes.mono (HyperSystem.ofStructures_concludes two h.windowed
    (fun g hg => (h.full g hg).solid) fun _ hg _ hg' => h.sameVariables hg hg')
    (fun _ founded => founded) fun _ ⟨empty, disjoint⟩ => ⟨empty, h.violates_of_disjoint disjoint⟩

theorem Represents.two_le_length {f : Formula} {group : List Formula} (h : f.Represents group)
    (several : ∀ g, group ≠ [g]) : 2 ≤ group.length := by
  match group, h.some, several with
  | [g], _, several => exact absurd rfl (several g)
  | _ :: _ :: _, _, _ => simp

/-- A lone clean structure has an assignment to walk to. -/
theorem anyAssignment?_certifies {f lone : Formula} (h : f.Represents [lone])
    (linked : lone.tiers.IsChain Tier.Linked) :
    ∃ α, lone.anyAssignment? = some α ∧ f.Certifies α := by
  have member : lone ∈ [lone] := List.mem_singleton_self lone
  obtain ⟨α, found, admits, names⟩ := anyAssignment?_some (h.windowed lone member)
    (h.full lone member) linked
  refine ⟨α, found, fun v => (names v).trans (h.names lone member v), ?_⟩
  exact (h.admits _).mp (by simpa [AllAdmit] using admits)

/-- A search ends in a certificate, without a route, or with an empty structure of a formula that
nothing satisfies. -/
theorem search_concludes {f : Formula} (known : f.Known) (full : f.isEmpty = false) (check : Bool) :
    Concludes (f.search check) f.Certifies fun e =>
      (∃ tier, e = .routeNotFound tier) ∨ (∃ i, e = .emptyStructure i) ∧ ∀ τ, f.Violates τ := by
  unfold search
  apply Concludes.bind (Concludes.ofAttempt (Attempts.adapt (Attempts.mono
    (structures_attempts known full) (fun _ => id) fun e none => .inr ⟨⟨e.index, rfl⟩, none⟩)))
  intro group sound
  split
  · rename_i lone
    obtain ⟨α, found, certifies⟩ := anyAssignment?_certifies sound.1 (sound.2 lone (List.mem_singleton_self _))
    rw [found]
    exact Concludes.pure certifies
  · rename_i several
    have represents := sound.1
    apply Concludes.bind (Concludes.ofAttempt (Attempts.adapt (Attempts.mono
      (represents.unify_attempts (represents.two_le_length several)) (fun _ => id)
      fun e none => .inr ⟨⟨e.index, rfl⟩, none⟩)))
    rintro u ⟨unified, two⟩
    apply Concludes.bind (Concludes.mono (unified.ofStructures_concludes two) (fun _ => id)
      fun _ => .inr)
    intro s founded
    apply Concludes.bind (Concludes.mono
      (HyperSystem.findRoute_concludes founded.clean founded.complete) (fun _ => id) fun _ => .inl)
    intro route accepts
    exact Concludes.pure (unified.certifies founded accepts)

theorem evaluate_of_certifies {f : Formula} {clauses : List Clause} {α : Assignment}
    (h : f.Encodes clauses) (certifies : f.Certifies α) : f.evaluate α = .ok true := by
  have positive : ∀ t ∈ f.tiers, ∀ v ∈ t.triple.names, 0 < v :=
    fun t ht v hv => h.name_pos (h.known t ht v hv)
  apply (evaluate_eq_ok_true_iff positive _).mpr certifies.spares
  exact fun t ht v hv => (certifies.names v).mpr (h.known t ht v hv)

/-! ### The verdict -/

/-- A verdict on the formula is right. -/
def Decided (f : Formula) : Outcome → Prop
  | .satisfiable α => if f.isEmpty then α = .empty else f.Certifies α
  | .unsatisfiable => ∀ τ, f.Violates τ

/-- The verdict is right, and the errors are those of the search that no empty structure explains. -/
theorem solve_concludes_of_search {f : Formula} {clauses : List Clause} {check : Bool}
    {E : Error → Prop} (h : f.Encodes clauses)
    (search : f.isEmpty = false → Concludes (f.search check) f.Certifies fun e =>
      E e ∨ (∃ i, e = .emptyStructure i) ∧ ∀ τ, f.Violates τ)
    (apart : ∀ i, ¬ E (.emptyStructure i)) : Concludes (f.solve check) f.Decided E := by
  unfold solve
  apply Concludes.bind (P := fun _ => True) (Concludes.report trivial)
  intro _ _
  split
  · rename_i empty
    exact Concludes.pure (by simp [Decided, empty])
  · rename_i full
    have full := eq_false_of_ne_true full
    apply Concludes.bind (Concludes.run (search full))
    intro r hr
    cases r with
    | ok α =>
      apply Concludes.bind (P := (true = ·))
        (Concludes.lift ⟨_, evaluate_of_certifies h hr, rfl⟩)
      intro b hb
      subst hb
      have certifies : f.Certifies α := hr
      exact Concludes.pure (by simpa [Decided, full] using certifies)
    | error e =>
      -- An empty structure is a verdict; every other error stays one.
      rcases hr with other | ⟨⟨i, rfl⟩, none⟩
      · cases e with
        | emptyStructure i => exact absurd other (apart i)
        | _ => exact Concludes.throw other
      · apply Concludes.bind (P := fun _ => True) (Concludes.report trivial)
        intro _ _
        exact Concludes.pure none

theorem solve_concludes {f : Formula} {clauses : List Clause} (h : f.Encodes clauses) (check : Bool) :
    Concludes (f.solve check) f.Decided fun e => ∃ tier, e = .routeNotFound tier :=
  solve_concludes_of_search h (fun full => search_concludes h.known full check) (by simp)

/-- Nothing that the search calls on its way reports an empty structure. -/
def Proceeds (f : Formula) (check : Bool) : Prop :=
  ∃ group, f.structures.run = .ok (.ok group) ∧
    match group with
    | [lone] => ∃ α, lone.anyAssignment? = some α
    | _ => ∃ unified, (unify group).run = .ok (.ok unified) ∧
      Concludes (HyperSystem.ofStructures unified.group check) (fun _ => True) fun _ => False

theorem proceeds {f : Formula} {τ : Valuation} (known : f.Known) (full : f.isEmpty = false)
    (spared : ¬ f.Violates τ) (check : Bool) : f.Proceeds check := by
  have sound (none : ∀ τ, f.Violates τ) : False := spared (none τ)
  obtain ⟨group, same, represents, linked⟩ :=
    (structures_attempts known full).exists_ok fun _ => sound
  refine ⟨group, same, ?_⟩
  split
  · rename_i lone
    obtain ⟨α, found, -⟩ := anyAssignment?_certifies represents
      (linked lone (List.mem_singleton_self lone))
    exact ⟨α, found⟩
  · rename_i several
    obtain ⟨u, same, unified, two⟩ :=
      (represents.unify_attempts (represents.two_le_length several)).exists_ok fun _ => sound
    exact ⟨u, same, (unified.ofStructures_concludes two).mono (fun _ _ => trivial)
      fun _ h => sound h.2⟩

/-- Only clauses that no assignment satisfies are called unsatisfiable. On clauses that some
assignment satisfies, no step of the search finds a structure empty. -/
theorem solve_unsatisfiable_sound (clauses : List Clause) (check : Bool) :
    (∀ events, ((ofClauses clauses).solve check).outcome = .ok (.ok .unsatisfiable, events) →
      ¬ ∃ α : Assignment, ∀ clause ∈ clauses, α.satisfies clause = true) ∧
    ((∃ α : Assignment, ∀ clause ∈ clauses, α.satisfies clause = true) → clauses ≠ [] →
      (ofClauses clauses).Proceeds check) := by
  have encodes := encodes_ofClauses clauses
  constructor
  · rintro events verdict ⟨α, satisfied⟩
    have none := (solve_concludes encodes check).outcome.of_eq verdict
    exact encodes.not_violates satisfied (none α.value)
  · rintro ⟨α, satisfied⟩ some
    refine proceeds encodes.known (eq_false_of_ne_true ?_)
      (encodes.not_violates satisfied) check
    intro empty
    exact some (encodes.isEmpty_iff.mp empty)

/-- The eight clauses over three variables. -/
def octants : List Clause :=
  Octant.all.map fun o => ⟨⟨1, o.a, by decide⟩, ⟨2, o.b, by decide⟩, ⟨3, o.c, by decide⟩,
    by simp, by simp, by simp⟩

theorem solve_unsatisfiable_sound_octants :
    ∃ events, ((ofClauses octants).solve true).outcome = .ok (.ok .unsatisfiable, events) ∧
      ¬ ∃ α : Assignment, ∀ clause ∈ octants, α.satisfies clause = true := by
  have verdict : ∃ events,
      ((ofClauses octants).solve true).outcome = .ok (.ok .unsatisfiable, events) := ⟨_, rfl⟩
  obtain ⟨events, verdict⟩ := verdict
  exact ⟨events, verdict, (solve_unsatisfiable_sound octants true).1 events verdict⟩

/-- What an answer says about the clauses that were asked about. -/
def Answers (clauses : List Clause) : Except Error Outcome → Prop
  | .ok (.satisfiable α) =>
    if (ofClauses clauses).isEmpty then α = .empty
    else (∀ v, (α.get? v).isSome = true ↔ v ∈ (ofClauses clauses).permutation.names) ∧
      ∀ clause ∈ clauses, α.satisfies clause = true
  | .ok .unsatisfiable => True
  | .error e => ∃ tier, e = .routeNotFound tier

/-- There are as many structures as compact formulas. -/
theorem structures_ensures {f : Formula} {compact : List Formula} (splits : f.split = .ok compact) :
    Ensures f.structures fun group => group.length = compact.length := by
  unfold structures completeAll
  apply Ensures.bind (P := (· = compact)) (Ensures.lift ⟨fun returned => ?_⟩)
  · intro gs same
    subst same
    apply (Ensures.lift completeAllFrom_ensures).bind
    intro done completed
    split
    · exact .throw
    · rename_i none
      exact .pure (completed none).length_eq.symm
  · exact (Except.ok.inj (splits.symm.trans returned)).symm

/-- A search through one structure needs no route. -/
theorem search_concludes_lone {f : Formula} {compact : List Formula} (known : f.Known)
    (full : f.isEmpty = false) (splits : f.split = .ok compact) (lone : compact.length = 1)
    (check : Bool) :
    Concludes (f.search check) f.Certifies fun e =>
      (∃ i, e = .emptyStructure i) ∧ ∀ τ, f.Violates τ := by
  have structures := (structures_attempts known full).and_ensures (structures_ensures splits)
  unfold search
  apply Concludes.bind (Concludes.ofAttempt (Attempts.adapt (structures.mono (fun _ => id)
    fun e none => ⟨⟨e.index, rfl⟩, none⟩)))
  rintro group ⟨⟨represents, linked⟩, length⟩
  obtain ⟨g, rfl⟩ := List.length_eq_one_iff.mp (length.trans lone)
  obtain ⟨α, found, certifies⟩ := anyAssignment?_certifies represents
    (linked g (List.mem_singleton_self g))
  dsimp only
  rw [found]
  exact Concludes.pure certifies

/-- Where the clauses split into a single compact formula, solving decides them: it returns an
assignment that satisfies every clause if there is one, and calls them unsatisfiable if there is
none. -/
theorem solve_decides_lone {clauses : List Clause} {compact : List Formula}
    (splits : (ofClauses clauses).split = .ok compact) (lone : compact.length = 1) (check : Bool) :
    ((∃ α : Assignment, ∀ clause ∈ clauses, α.satisfies clause = true) →
      ∃ β events, ((ofClauses clauses).solve check).outcome = .ok (.ok (.satisfiable β), events) ∧
        ∀ clause ∈ clauses, β.satisfies clause = true) ∧
    ((¬ ∃ α : Assignment, ∀ clause ∈ clauses, α.satisfies clause = true) →
      ∃ events, ((ofClauses clauses).solve check).outcome = .ok (.ok .unsatisfiable, events)) := by
  have encodes := encodes_ofClauses clauses
  have full : (ofClauses clauses).isEmpty = false := by
    refine eq_false_of_ne_true fun empty => ?_
    rw [encodes.isEmpty_iff.mp empty] at splits
    obtain rfl : [] = compact := Except.ok.inj splits
    cases lone
  have concludes : Concludes ((ofClauses clauses).solve check) (ofClauses clauses).Decided
      fun _ => False :=
    solve_concludes_of_search encodes (fun full =>
      (search_concludes_lone encodes.known full splits lone check).mono (fun _ => id) fun _ => .inr)
      fun _ => id
  obtain ⟨⟨answer, events⟩, run, sound⟩ := concludes.outcome
  match answer, sound with
  | .ok (.satisfiable β), sound =>
    have certifies : (ofClauses clauses).Certifies β := by
      have sound : if (ofClauses clauses).isEmpty then β = .empty
        else (ofClauses clauses).Certifies β := sound
      rwa [if_neg (Bool.eq_false_iff.mp full)] at sound
    have satisfied := encodes.satisfies (fun v hv => (certifies.names v).mpr hv) certifies.spares
    exact ⟨fun _ => ⟨β, events, run, satisfied⟩, fun none => absurd ⟨β, satisfied⟩ none⟩
  | .ok .unsatisfiable, violated =>
    refine ⟨fun ⟨α, satisfied⟩ => ?_, fun _ => ⟨events, run⟩⟩
    exact absurd (violated α.value) (encodes.not_violates satisfied)

/-- Clauses that make a chain of windows, grown at its end and then at its start. -/
def chained : List Clause :=
  [⟨⟨3, false, by decide⟩, ⟨4, true, by decide⟩, ⟨5, false, by decide⟩, by simp, by simp, by simp⟩,
    ⟨⟨4, false, by decide⟩, ⟨5, false, by decide⟩, ⟨6, true, by decide⟩, by simp, by simp, by simp⟩,
    ⟨⟨2, true, by decide⟩, ⟨3, true, by decide⟩, ⟨4, false, by decide⟩, by simp, by simp, by simp⟩]

theorem solve_decides_lone_chained :
    ∃ compact, (ofClauses chained).split = .ok compact ∧ compact.length = 1 ∧
      ∃ β events, ((ofClauses chained).solve true).outcome = .ok (.ok (.satisfiable β), events) ∧
        ∀ clause ∈ chained, β.satisfies clause = true := by
  have one : ∃ compact, (ofClauses chained).split = .ok compact ∧ compact.length = 1 :=
    ⟨_, rfl, rfl⟩
  obtain ⟨compact, splits, lone⟩ := one
  have satisfiable : ∃ α : Assignment, ∀ clause ∈ chained, α.satisfies clause = true :=
    ⟨.ofList [(3, true), (4, true)], by decide⟩
  exact ⟨compact, splits, lone, (solve_decides_lone splits lone true).1 satisfiable⟩

end Formula

end TripletSat
