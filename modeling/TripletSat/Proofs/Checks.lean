import TripletSat.Proofs.Algebra

/-!
The checks of the constructors. A reader puts each clause into a formula by operations that fault on tiers
over different variables; they never do, so the reader follows the one that adds without checks.
-/

namespace TripletSat

/-! ### Adding tiers -/

namespace Tier

variable {t u : Tier} {w : Triple} {p : Place} {v : Nat}

/-- A tier is what another one over its variables is in its order, if they admit the same. -/
theorem octantsAlong_eq (same : t.triple.sameVariables u.triple = true)
    (admits : ∀ τ, u.Admits τ ↔ t.Admits τ) : t.octantsAlong u.triple = u.octants := by
  refine OctantSet.ext fun o => ?_
  obtain ⟨τ, rfl⟩ := Valuation.exists_octant u.triple o
  rw [mem_octantsAlong same]
  exact (admits τ).symm

/-- The variable comes to its place, and those that stand elsewhere stay. -/
theorem bring_returns (known : v ∈ t.triple.names) :
    Returns (t.bring p v) fun t' => t'.triple.name p = v ∧
      (∀ q, q ≠ p → t.triple.name q ≠ v → t'.triple.name q = t.triple.name q) ∧
      (∀ x, x ∈ t'.triple.names ↔ x ∈ t.triple.names) ∧ ∀ τ, t'.Admits τ ↔ t.Admits τ := by
  obtain ⟨q, place⟩ := Triple.place?_eq_some_of_mem known
  have found := Triple.name_of_place? place
  unfold bring
  rw [place]
  refine .pure ⟨?_, fun r away other => ?_, fun x => Triple.mem_names_swap, fun τ => admits_swap⟩
  · rw [← found]
    cases p <;> cases q <;> rfl
  · have apart : r ≠ q := fun same => other (same ▸ found)
    revert away apart
    cases p <;> cases q <;> cases r <;> simp [swap, Triple.swap, Triple.name]

theorem transpose_eq (same : t.triple.sameVariables w = true) :
    t.transpose w.a w.b w.c = .ok ⟨w, t.octantsAlong w⟩ := by
  have known (x : Nat) : x ∈ t.triple.names ↔ x ∈ w.names := Triple.sameVariables_iff.mp same x
  obtain ⟨t₁, first, a₁, -, names₁, admits₁⟩ :=
    bring_returns (p := .a) ((known w.a).mpr (w.name_mem_names .a))
  obtain ⟨t₂, second, b₂, kept₂, names₂, admits₂⟩ :=
    bring_returns (p := .b) ((names₁ w.b).mpr ((known w.b).mpr (w.name_mem_names .b)))
  obtain ⟨t₃, third, c₃, kept₃, -, admits₃⟩ := bring_returns (p := .c)
    ((names₂ w.c).mpr ((names₁ w.c).mpr ((known w.c).mpr (w.name_mem_names .c))))
  have a₂ : t₂.triple.name .a = w.a := (kept₂ .a nofun (a₁ ▸ w.a_ne_b)).trans a₁
  have a₃ : t₃.triple.name .a = w.a := (kept₃ .a nofun (a₂ ▸ w.a_ne_c)).trans a₂
  have b₃ : t₃.triple.name .b = w.b := (kept₃ .b nofun (b₂ ▸ w.b_ne_c)).trans b₂
  have triple : t₃.triple = w := by
    obtain ⟨⟨a, b, c, _, _, _⟩, _⟩ := t₃
    obtain ⟨_, _, _, _, _, _⟩ := w
    cases a₃
    cases b₃
    cases c₃
    rfl
  unfold transpose
  rw [bind_of_ok first, bind_of_ok second, third]
  subst triple
  have octants := octantsAlong_eq same fun τ => by rw [admits₃, admits₂, admits₁]
  rw [octants]

end Tier

namespace Formula

/-- Adds a tier by operations that check their arguments. -/
def addTierChecked (f : Formula) (t : Tier) : Checked Formula :=
  if f.tiers.any (·.triple.sameVariables t.triple) then do
    let tiers ← f.tiers.mapM fun u =>
      if u.triple.sameVariables t.triple then do
        u.requireSame t
        let along ← t.transpose u.triple.a u.triple.b u.triple.c
        return { u with octants := u.octants.union along.octants }
      else return u
    return { f with tiers }
  else do
    let permutation := f.permutation.addAll t.triple.names
    let order := (t.orderedBy permutation.index).triple
    return ⟨permutation, f.tiers ++ [← t.transpose order.a order.b order.c]⟩

theorem addTierChecked_eq (f : Formula) (t : Tier) : f.addTierChecked t = .ok (f.addTier t) := by
  unfold addTierChecked addTier
  split
  · have merged (u : Tier) :
        (if u.triple.sameVariables t.triple then do
          u.requireSame t
          let along ← t.transpose u.triple.a u.triple.b u.triple.c
          return { u with octants := u.octants.union along.octants }
        else return u : Checked Tier) =
          pure (if u.triple.sameVariables t.triple then u.merge t else u) := by
      split
      · rename_i same
        rw [Tier.transpose_eq (Triple.sameVariables_comm same), Tier.requireSame, if_pos same]
        rfl
      · rfl
    simp only [merged, List.mapM_pure]
    rfl
  · have same : t.triple.sameVariables
        (t.orderedBy (f.permutation.addAll t.triple.names).index).triple = true :=
      Triple.sameVariables_iff.mpr fun _ => Tier.mem_names_orderedBy.symm
    dsimp only
    rw [Tier.transpose_eq same, Tier.octantsAlong_eq same fun _ => Tier.admits_orderedBy]
    rfl

/-- The clauses before, the latest first, and one more. -/
theorem addTierChecked_ofClauses (before : List Clause) (c : Clause) :
    (ofClauses before.reverse).addTierChecked (.ofClause c) = .ok (ofClauses (c :: before).reverse) := by
  rw [addTierChecked_eq, List.reverse_cons, ofClauses_append_singleton]
  rfl

end Formula

/-! ### Attempts that cannot fault -/

/-- The attempt does not fault, and ends as the plain computation does. -/
def Follows {ε α β : Type} (x : Attempt ε β) (y : Except ε α) (g : α → β) : Prop :=
  x.run = .ok (y.map g)

namespace Follows

variable {ε α β α' β' : Type} {g : α → β} {g' : α' → β'}

theorem pure (a : α) : Follows (pure (g a) : Attempt ε β) (.ok a) g := rfl

theorem throw (e : ε) : Follows (throw e : Attempt ε β) (.error e) g := rfl

theorem lift (y : Except ε α) : Follows (ExceptT.mk (Pure.pure y) : Attempt ε α) y id := by
  cases y <;> rfl

theorem bind {x : Attempt ε β} {y : Except ε α} {f : β → Attempt ε β'} {h : α → Except ε α'}
    (hx : Follows x y g) (hf : ∀ a, y = .ok a → Follows (f (g a)) (h a) g') :
    Follows (x >>= f) (y >>= h) g' := by
  unfold Follows at hx ⊢
  rw [ExceptT.run_bind, hx]
  cases y with
  | ok a => exact hf a rfl
  | error e => rfl

end Follows

end TripletSat
