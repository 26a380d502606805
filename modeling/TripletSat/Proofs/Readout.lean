import Mathlib.Data.Bool.Basic
import Mathlib.Data.List.Lex
import Mathlib.Order.Lattice
import TripletSat.Proofs.Closure
import TripletSat.Proofs.Reading

/-!
What is read out of a clean structure. The walk finds the least solution, the variables taken in the
order of the permutation and false before true. The value read for a variable is the one that it has in
all solutions, whichever tier it is read from.
-/

namespace TripletSat

theorem cons_le_cons_iff {α : Type} [LinearOrder α] {x y : α} {xs ys : List α} :
    x :: xs ≤ y :: ys ↔ x < y ∨ x = y ∧ xs ≤ ys := by
  rw [le_iff_lt_or_eq, le_iff_lt_or_eq, List.cons_lt_cons_iff, List.cons.injEq, and_or_left, or_assoc]

namespace Octant

variable {o u next : Octant}

/-- The keys order octants by their values from left to right. -/
theorem cons_le_cons_of_key_lt (below : o.key < u.key) (xs ys : List Bool) :
    o.a :: o.b :: o.c :: xs ≤ u.a :: u.b :: u.c :: ys := by
  have differ : o.a < u.a ∨ o.a = u.a ∧ (o.b < u.b ∨ o.b = u.b ∧ o.c < u.c) := by
    obtain ⟨_, _, _⟩ := o
    obtain ⟨_, _, _⟩ := u
    revert below
    decide +revert
  simp only [cons_le_cons_iff]
  exact differ.imp_right fun ⟨same, differ⟩ =>
    ⟨same, differ.imp_right fun ⟨same, differ⟩ => ⟨same, .inl differ⟩⟩

/-- The first successor that passes comes before any other one that does. -/
theorem eq_or_lt_of_find?_successors {allowed : Octant → Bool}
    (found : o.successors.find? allowed = some next) (hu : u ∈ o.successors)
    (passes : allowed u = true) : next = u ∨ next.c < u.c := by
  simp only [successors, List.mem_cons, List.not_mem_nil, or_false] at hu
  rw [successors, List.find?_cons] at found
  split at found
  · cases found
    rcases hu with rfl | rfl
    · exact .inl rfl
    · exact .inr rfl
  · rename_i refused
    have last := List.mem_of_find?_eq_some found
    rw [List.mem_singleton] at last
    rcases hu with rfl | rfl
    · rw [passes] at refused
      cases refused
    · exact .inl last

end Octant

/-- The first octant of the list has the least key. -/
theorem OctantSet.eq_or_lt_of_toList {s : OctantSet} {o u : Octant} {rest : List Octant}
    (list : s.toList = o :: rest) (hu : u ∈ s) : o = u ∨ o.key < u.key := by
  have ascending := s.pairwise_toList
  rw [← mem_toList, list] at hu
  rw [list] at ascending
  exact (List.mem_cons.mp hu).imp Eq.symm (List.rel_of_pairwise_cons ascending)

namespace Formula

variable {f : Formula} {t : Tier} {rest : List Tier} {o : Octant} {α β : Assignment} {v : Nat} {b : Bool}

/-! ### The least solution -/

/-- From the octant that a solution takes, the walk goes on below that solution. -/
theorem walk_least {σ : Valuation} (chain : (t :: rest).IsChain Tier.Precedes)
    (different : (rest.map (·.triple.c)).Nodup) (stands : σ.octant t.triple = o)
    (solves : ∀ u ∈ rest, u.Admits σ) (walked : walk o α rest = some β) :
    (rest.map (·.triple.c)).map β.value ≤ (rest.map (·.triple.c)).map σ := by
  induction rest generalizing t o α with
  | nil => exact le_refl _
  | cons u rest ih =>
    obtain ⟨before, chain⟩ := List.isChain_cons_cons.mp chain
    obtain ⟨here, later⟩ := List.forall_mem_cons.mp solves
    obtain ⟨away, different⟩ := List.nodup_cons.mp different
    rw [walk] at walked
    split at walked
    · rename_i next found
      have value : β.value u.triple.c = next.c := by
        simp [Assignment.value, get?_walk walked away, Assignment.get?_assign]
      have successor : σ.octant u.triple ∈ o.successors := by
        rw [Octant.mem_successors, ← stands]
        exact ⟨congrArg σ before.1.symm, congrArg σ before.2.symm⟩
      rw [List.map_cons, List.map_cons, List.map_cons, cons_le_cons_iff, value]
      rcases Octant.eq_or_lt_of_find?_successors found successor here with same | lower
      · exact .inr ⟨congrArg Octant.c same, ih chain different same.symm later walked⟩
      · exact .inl lower
    · cases walked

/-- What the walk finds is below every solution. -/
theorem anyAssignment?_le (windowed : f.Windowed) (found : f.anyAssignment? = some α) {σ : Valuation}
    (solves : f.Admits σ) : f.permutation.names.map α.value ≤ f.permutation.names.map σ := by
  obtain ⟨t, rest, tiers⟩ := List.exists_cons_of_ne_nil solves.1
  have names := windowed.names_eq tiers
  have chain := windowed.isChain
  have admits := solves.2
  rw [tiers] at chain admits
  obtain ⟨here, later⟩ := List.forall_mem_cons.mp admits
  obtain ⟨-, different, apart⟩ := List.nodup_append.mp (names ▸ f.permutation.nodup)
  simp only [anyAssignment?, tiers] at found
  split at found
  · cases found
  · rename_i o octants list
    -- The walk does not come back to the first three variables.
    have starts : α.octant? t.triple = some o := by
      rw [octant?_walk found fun v hv ahead => apart v hv v ahead rfl]
      exact Assignment.octant?_assignOctant .empty t.triple o
    obtain ⟨-, rfl⟩ := Assignment.octant?_eq_some_iff.mp starts
    rw [names, List.map_append, List.map_append]
    rcases OctantSet.eq_or_lt_of_toList list here with same | lower
    · have triple : t.triple.names.map α.value = t.triple.names.map σ := by
        simpa [Valuation.octant, Triple.names] using same
      have ahead := walk_least chain different same.symm later found
      rw [triple]
      exact List.cons_le_cons _ (List.cons_le_cons _ (List.cons_le_cons _ ahead))
    · exact Octant.cons_le_cons_of_key_lt lower _ _

/-- An assignment of exactly the variables of a structure that it admits, below every other one. -/
structure LeastSolution (f : Formula) (α : Assignment) : Prop where
  names : ∀ v, (α.get? v).isSome = true ↔ v ∈ f.permutation.names
  admits : f.admits α = true
  least : ∀ β : Assignment, f.admits β = true →
    f.permutation.names.map α.value ≤ f.permutation.names.map β.value

/-- In a clean structure of at least three variables the walk finds the least solution. -/
theorem exists_leastSolution (windowed : f.Windowed) (solid : f.Solid) (clean : f.cleaned = .ok f)
    (size : 3 ≤ f.permutation.size) : ∃ α, f.anyAssignment? = some α ∧ f.LeastSolution α := by
  have tidy := windowed.tidy solid clean (windowed.tiers_ne_nil size)
  obtain ⟨α, found, admits, names⟩ := anyAssignment?_some windowed tidy.toFull tidy.linked
  refine ⟨α, found, names, ?_, fun β hβ => ?_⟩
  · apply Formula.admits_iff.mpr ⟨admits, fun t ht v hv => (names v).mpr ?_⟩
    exact Permutation.mem_names_of_mem_windows (windowed.triple_mem ht) hv
  · exact anyAssignment?_le windowed found (Formula.admits_iff.mp hβ).1

/-- The third of five variables has to be true, the others are free. -/
def waisted : Formula := .along (.ofNames [3, 1, 4, 5, 2]) [.half .c true, .half .b true, .half .a true]

theorem windowed_waisted : waisted.Windowed := windowed_along (by decide)

theorem solid_waisted : waisted.Solid := by
  unfold Solid
  decide

theorem exists_leastSolution_waisted :
    (waisted.Windowed ∧ waisted.Solid ∧ waisted.cleaned = .ok waisted ∧
      3 ≤ waisted.permutation.size) ∧
    ∃ α, waisted.anyAssignment? = some α ∧ waisted.LeastSolution α := by
  have clean : waisted.cleaned = .ok waisted := rfl
  have size : 3 ≤ waisted.permutation.size := by decide
  exact ⟨⟨windowed_waisted, solid_waisted, clean, size⟩,
    exists_leastSolution windowed_waisted solid_waisted clean size⟩

/-- Over two variables a structure has no tier, so it admits nothing. -/
theorem not_exists_leastSolution :
    ¬ ∀ f : Formula, f.Windowed → f.Solid → f.cleaned = .ok f →
      ∃ α, f.anyAssignment? = some α ∧ f.LeastSolution α := by
  intro claim
  obtain ⟨α, found, -⟩ := claim ⟨.ofNames [1, 2], []⟩ rfl nofun rfl
  cases found

/-! ### The backbone -/

theorem Windowed.fixes_iff (h : f.Windowed) (known : v ∈ f.permutation.names) :
    f.Fixes v b ↔ ∀ α : Assignment, f.admits α = true → α.get? v = some b := by
  constructor
  · intro fixes α admits
    rw [h.get?_of_admits known admits, fixes _ (Formula.admits_iff.mp admits).1]
  · intro given τ admits
    have value := given _ (h.admits_ofValuation admits)
    rw [Assignment.get?_ofValuation known] at value
    exact Option.some.inj value

theorem Windowed.forced_iff (h : f.Windowed) (tidy : f.Tidy) (known : v ∈ f.permutation.names) :
    f.value? v = some b ↔ ∀ α : Assignment, f.admits α = true → α.get? v = some b :=
  (h.value?_eq_some_iff tidy known).trans (h.fixes_iff known)

theorem Windowed.mixed_iff (h : f.Windowed) (tidy : f.Tidy) (known : v ∈ f.permutation.names) :
    f.value? v = none ↔ ∀ b, ∃ α : Assignment, f.admits α = true ∧ α.get? v = some b := by
  constructor
  · intro mixed b
    by_contra away
    push Not at away
    -- Every solution would give the variable the other value.
    have other : f.value? v = some !b := by
      apply (h.forced_iff tidy known).mpr
      intro α admits
      have value := h.get?_of_admits known admits
      have differs : α.value v ≠ b := by
        rintro rfl
        exact away α admits value
      rw [value, Bool.eq_not.mpr differs]
    rw [mixed] at other
    cases other
  · intro both
    apply Option.eq_none_iff_forall_ne_some.mpr
    intro b forced
    obtain ⟨α, admits, other⟩ := both !b
    rw [(h.forced_iff tidy known).mp forced α admits, Option.some.injEq] at other
    exact (Bool.eq_not_self b).mp other

/-- The tiers that mention a variable tell the same of it. -/
theorem Windowed.valueOf_eq (h : f.Windowed) (tidy : f.Tidy) (ht : t ∈ f.tiers)
    (hv : v ∈ t.triple.names) : t.valueOf v = .ok (f.value? v) := by
  have known := Permutation.mem_names_of_mem_windows (h.triple_mem ht) hv
  have same : t.value? v = f.value? v := Option.ext fun b =>
    (h.tier_value?_eq_some_iff tidy ht hv).trans (h.value?_eq_some_iff tidy known).symm
  obtain ⟨p, place⟩ := Triple.place?_eq_some_of_mem hv
  rw [← same]
  simp only [Tier.valueOf, Tier.value?, place]
  rfl

/-- The value of a variable is the one that it has in all admitted assignments, if there is one, and
each tier that mentions the variable tells it. -/
structure TellsBackbone (f : Formula) (v : Nat) : Prop where
  forced : ∀ b, f.value? v = some b ↔ ∀ α : Assignment, f.admits α = true → α.get? v = some b
  mixed : f.value? v = none ↔ ∀ b, ∃ α : Assignment, f.admits α = true ∧ α.get? v = some b
  tiers : ∀ t ∈ f.tiers, v ∈ t.triple.names → t.valueOf v = .ok (f.value? v)

/-- A clean structure of at least three variables tells its backbone. -/
theorem value_tells_backbone (windowed : f.Windowed) (solid : f.Solid) (clean : f.cleaned = .ok f)
    (size : 3 ≤ f.permutation.size) (known : v ∈ f.permutation.names) : f.TellsBackbone v := by
  have tidy := windowed.tidy solid clean (windowed.tiers_ne_nil size)
  constructor
  · exact fun b => windowed.forced_iff tidy known
  · exact windowed.mixed_iff tidy known
  · exact fun t => windowed.valueOf_eq tidy

theorem value_tells_backbone_waisted :
    (waisted.Windowed ∧ waisted.Solid ∧ waisted.cleaned = .ok waisted ∧
      3 ≤ waisted.permutation.size ∧ 4 ∈ waisted.permutation.names) ∧ waisted.TellsBackbone 4 := by
  have clean : waisted.cleaned = .ok waisted := rfl
  have size : 3 ≤ waisted.permutation.size := by decide
  have known : 4 ∈ waisted.permutation.names := by decide
  exact ⟨⟨windowed_waisted, solid_waisted, clean, size, known⟩,
    value_tells_backbone windowed_waisted solid_waisted clean size known⟩

/-- Over two variables no assignment is admitted, so all of them have the value, yet it is mixed. -/
theorem not_value_tells_backbone :
    ¬ ∀ f : Formula, f.Windowed → f.Solid → f.cleaned = .ok f →
      ∀ v ∈ f.permutation.names, f.TellsBackbone v := by
  intro claim
  have tells := claim ⟨.ofNames [1, 2], []⟩ rfl nofun rfl 1 (by decide)
  have value := (tells.forced true).mpr nofun
  cases value

end Formula

end TripletSat
