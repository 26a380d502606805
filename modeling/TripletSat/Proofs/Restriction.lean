import TripletSat.Proofs.Lattice

/-!
Restriction to values. It keeps exactly the assignments with the value, and what several restrictions
leave is known by what it admits, so their order does not matter, not even where one of them finds
nothing left.
-/

namespace TripletSat

namespace Formula

variable {f g : Formula} {v : Nat} {b : Bool} {values values' : List (Nat × Bool)}

theorem concretizeAll_pair {x y : Nat × Bool} :
    f.concretizeAll [x, y] = f.concretize x.1 x.2 >>= (·.concretize y.1 y.2) := by
  simp [concretizeAll]

/-! ### What is admitted -/

theorem Restricts.admits_iff (h : f.Restricts v b g) (windowed : f.Windowed)
    (known : v ∈ f.permutation.names) {α : Assignment} :
    g.admits α = true ↔ f.admits α = true ∧ α.get? v = some b := by
  have valued (some : g.tiers ≠ []) :=
    h.shrinks.forall_triple_iff (fun w => ∀ x ∈ w.names, (α.get? x).isSome = true) some
  rw [Formula.admits_iff, Formula.admits_iff]
  constructor
  · rintro ⟨admits, total⟩
    obtain ⟨held, value⟩ := (h.admits _).mp admits
    have both := And.intro held ((valued admits.1).mpr total)
    exact ⟨both, value ▸ windowed.get?_of_admits known (Formula.admits_iff.mpr both)⟩
  · rintro ⟨⟨held, total⟩, given⟩
    have value : α.value v = b := by simp [Assignment.value, given]
    have admits := (h.admits _).mpr ⟨held, value⟩
    exact ⟨admits, (valued admits.1).mp total⟩

/-! ### The order -/

theorem concretizeAll_of_isEmpty (empty : f.isEmpty = true) : f.concretizeAll values = .ok f := by
  induction values with
  | nil => rfl
  | cons x rest ih =>
    have same : f.concretize x.1 x.2 = .ok f := if_pos empty
    rw [concretizeAll_cons, same]
    exact ih

/-- Values may be given in any order. -/
theorem Windowed.concretizeAll_perm (windowed : f.Windowed)
    (known : ∀ x ∈ values, x.1 ∈ f.permutation.names) (perm : values.Perm values') :
    Returns (f.concretizeAll values) fun g => f.concretizeAll values' = .ok g := by
  by_cases none : values = []
  · subst none
    rw [← perm.nil_eq]
    exact Returns.pure rfl
  · cases full : f.isEmpty with
    | true =>
      rw [concretizeAll_of_isEmpty full, concretizeAll_of_isEmpty full]
      exact Returns.pure rfl
    | false =>
      obtain ⟨g, run, hg, admits⟩ := concretizeAll_remnant (.inr windowed) (.inl full) none known
      have some : values' ≠ [] := by
        rintro rfl
        exact none perm.eq_nil
      have known' : ∀ x ∈ values', x.1 ∈ f.permutation.names :=
        fun x hx => known x (perm.mem_iff.mpr hx)
      obtain ⟨h, run', hh, admits'⟩ := concretizeAll_remnant (.inr windowed) (.inl full) some known'
      refine ⟨g, run, ?_⟩
      rw [run', hg.eq_of_admits_iff hh windowed fun τ => ?_]
      simp only [admits, admits', perm.mem_iff]

/-- Restriction to a value keeps exactly the assignments with that value. The order of two
restrictions does not matter, nor does that of the three which make up one to an octant. -/
structure RestrictsExactly (f : Formula) : Prop where
  admits : ∀ v ∈ f.permutation.names, ∀ b, Returns (f.concretize v b) fun g =>
    ∀ α : Assignment, g.admits α = true ↔ f.admits α = true ∧ α.get? v = some b
  commutes : ∀ v ∈ f.permutation.names, ∀ w ∈ f.permutation.names, ∀ b c,
    Returns (f.concretize v b >>= (·.concretize w c)) fun g =>
      (f.concretize w c >>= (·.concretize v b)) = .ok g
  octant : ∀ t : Triple, (∀ v ∈ t.names, v ∈ f.permutation.names) → ∀ o : Octant,
    Returns (f.concretizeOctant t o) fun g =>
      ∀ values, values.Perm (o.values t) → f.concretizeAll values = .ok g

theorem concretize_exact (windowed : f.Windowed) : f.RestrictsExactly where
  admits v known b := (concretize_returns (.inr windowed) known).mono fun _ restricts _ =>
    restricts.admits_iff windowed known
  commutes v hv w hw b c := by
    rw [← concretizeAll_pair (x := (v, b)) (y := (w, c)), ← concretizeAll_pair (x := (w, c)) (y := (v, b))]
    exact windowed.concretizeAll_perm (by simp [hv, hw]) (.swap ..)
  octant t known o := by
    have known' := Octant.forall_name_values_iff (o := o).mpr known
    rw [← concretizeAll_values]
    obtain ⟨g, run, -⟩ := windowed.concretizeAll_perm known' (.refl _)
    refine ⟨g, run, fun values perm => ?_⟩
    exact (windowed.concretizeAll_perm known' perm.symm).of_eq run

theorem concretize_exact_narrowed : narrowed.Windowed ∧ narrowed.RestrictsExactly := by
  have windowed : narrowed.Windowed := rfl
  exact ⟨windowed, concretize_exact windowed⟩

end Formula

end TripletSat
