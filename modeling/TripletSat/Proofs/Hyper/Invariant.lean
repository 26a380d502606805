import Mathlib.Data.List.TakeWhile
import TripletSat.Proofs.Hyper.Parts

/-!
The states of a hyper-structure system under construction.

`Carries` is what no step may lose: a valuation that all structures admit has a vertex on every
layer, whose parts admit it and whose edges lead on to its next vertex. Between steps a system is
clean, its layers mirroring the basic tiers, or stale from some layer on, everything behind being
dirty; cutting a stale system back makes it clean again.
-/

namespace TripletSat

theorem length_takeWhile_reverse {α : Type} {p : α → Bool} {xs : List α} {start : Nat}
    (bound : start ≤ xs.length) (before : ∀ i, i + 1 = start → ∀ x ∈ xs[i]?, p x = false)
    (after : ∀ i ≥ start, ∀ x ∈ xs[i]?, p x = true) :
    (xs.reverse.takeWhile p).length = xs.length - start := by
  have halves : xs.reverse = (xs.drop start).reverse ++ (xs.take start).reverse := by
    rw [← List.reverse_append, List.take_append_drop]
  have behind : ∀ x ∈ (xs.drop start).reverse, p x = true := by
    intro x hx
    obtain ⟨i, hi⟩ := List.mem_iff_getElem?.mp (List.mem_reverse.mp hx)
    rw [List.getElem?_drop] at hi
    exact after (start + i) (Nat.le_add_right _ _) x hi
  have front : (xs.take start).reverse.takeWhile p = [] := by
    rw [List.takeWhile_eq_nil_iff]
    intro some hp
    rw [List.length_reverse, List.length_take, Nat.min_eq_left bound] at some
    have last : xs[start - 1]? = (xs.take start).reverse[0]? := by
      rw [List.getElem?_reverse (by simp; omega), List.getElem?_take_of_lt (by simp; omega)]
      congr 1
      simp
      omega
    have member := last.trans (List.getElem?_eq_getElem (by simp; omega))
    have away := before (start - 1) (by omega) _ member
    exact Bool.false_ne_true (away.symm.trans hp)
  rw [halves, List.takeWhile_append_of_pos behind, front, List.append_nil, List.length_reverse,
    List.length_drop]

theorem Formula.Windowed.getElem?_tiers {f : Formula} (h : f.Windowed) (i : Nat) :
    f.permutation.windows[i]? = f.tiers[i]?.map Tier.triple := by
  rw [← h, List.getElem?_map]

/-- A vertex of a valuation: its parts admit it, and its edges lead on to it. -/
structure Vertex.Carries (v : Vertex) (here : Triple) (next : Option Triple) (τ : Valuation) :
    Prop where
  octant : v.octant = τ.octant here
  parts : AllAdmit v.parts τ
  leads : ∀ w ∈ next, τ.octant w ∈ v.targets

namespace HyperSystem

variable {s s' : HyperSystem} {τ : Valuation}

/-- The window under a layer. -/
def window? (s : HyperSystem) (i : Nat) : Option Triple := s.basic.permutation.windows[i]?

/-- The window under the layer after one, if that is built. -/
def following? (s : HyperSystem) (i : Nat) : Option Triple :=
  if i + 1 < s.layers.length then s.window? (i + 1) else none

structure Carries (s : HyperSystem) (τ : Valuation) : Prop where
  basic : s.basic.Admits τ
  others : AllAdmit s.others τ
  vertices : ∀ i w layer, s.window? i = some w → s.layers[i]? = some layer →
    ∃ v ∈ layer, v.Carries w (s.following? i) τ

/-- A full basic structure, others that know its variables, and well-formed layers over its tiers,
the last of them without edges. -/
structure Formed (s : HyperSystem) : Prop where
  windowed : s.basic.Windowed
  full : s.basic.Full
  shaped : ∀ f ∈ s.others, f.Shaped
  known : ∀ f ∈ s.others, ∀ v ∈ s.basic.permutation.names, v ∈ f.permutation.names
  layers : ∀ layer ∈ s.layers, layer.Formed s.others
  fits : s.layers.length ≤ s.tierCount
  bare : ∀ i layer, i + 1 = s.layers.length → s.layers[i]? = some layer → layer.Bare

/-- A step forward: octants of the basic structure may go, but no valuation that is carried. -/
structure Advances (s s' : HyperSystem) : Prop where
  others : s'.others = s.others
  basic : s.basic.ShrinksTo s'.basic
  keeps : ∀ τ, s.Carries τ → s'.Carries τ

/-- How often layers were built again. -/
def restarts (s : HyperSystem) : Nat := s.rebuilds + s.reseeds

/-- The octants of a layer are those of its basic tier. -/
def Mirrors (s : HyperSystem) (i : Nat) : Prop :=
  ∀ layer t, s.layers[i]? = some layer → s.basic.tiers[i]? = some t →
    ∀ o, o ∈ Layer.keys layer ↔ o ∈ t.octants

structure Clean (s : HyperSystem) : Prop where
  formed : s.Formed
  fresh : ∀ layer ∈ s.layers, layer.Fresh
  mirrors : ∀ i, s.Mirrors i

/-- Clean up to a layer, and dirty from there on. -/
structure Stale (s : HyperSystem) (start : Nat) : Prop where
  formed : s.Formed
  bound : start < s.layers.length
  fresh : ∀ i < start, ∀ layer ∈ s.layers[i]?, layer.Fresh
  mirrors : ∀ i < start, s.Mirrors i
  dirty : ∀ i ≥ start, ∀ layer ∈ s.layers[i]?, layer.isDirty = true

/-- What a step of the construction makes of a clean system. Layers turn dirty only when a tier lost
an octant and cleanup took another one elsewhere. -/
structure Progress (s s' : HyperSystem) : Prop where
  advances : s.Advances s'
  length : s'.layers.length = s.layers.length
  restarts : s'.restarts = s.restarts
  settles : s'.Clean ∨ ∃ start, s'.Stale start ∧ s'.basic.clauseCount + 2 ≤ s.basic.clauseCount

namespace Advances

theorem refl (s : HyperSystem) : s.Advances s := ⟨rfl, .refl s.basic, fun _ => id⟩

theorem trans {s'' : HyperSystem} (h : s.Advances s') (h' : s'.Advances s'') : s.Advances s'' :=
  ⟨h'.others.trans h.others, h.basic.trans h'.basic, fun τ carries => h'.keeps τ (h.keeps τ carries)⟩

theorem not_carries (h : s.Advances s') (none : ∀ τ, ¬ s'.Carries τ) (τ : Valuation) :
    ¬ s.Carries τ :=
  fun carries => none τ (h.keeps τ carries)

end Advances

theorem Progress.refl (h : s.Clean) : s.Progress s := ⟨.refl s, rfl, rfl, .inl h⟩

theorem Progress.trans {s'' : HyperSystem} (h : s.Progress s') (h' : s'.Progress s'') :
    s.Progress s'' := by
  refine ⟨h.advances.trans h'.advances, h'.length.trans h.length, h'.restarts.trans h.restarts, ?_⟩
  rcases h'.settles with clean | ⟨start, stale, fewer⟩
  · exact .inl clean
  · have := h.advances.basic.clauseCount_le
    exact .inr ⟨start, stale, by omega⟩

theorem Formed.tiers_ne_nil (h : s.Formed) : s.basic.tiers ≠ [] :=
  Formula.tiers_ne_nil_of_not_isEmpty h.full.nonempty

theorem Formed.exists_tier (h : s.Formed) {i : Nat} (bound : i < s.tierCount) :
    ∃ t, s.basic.tiers[i]? = some t ∧ s.window? i = some t.triple := by
  obtain ⟨t, ht⟩ : ∃ t, s.basic.tiers[i]? = some t :=
    ⟨_, List.getElem?_eq_getElem (show i < s.basic.tiers.length from bound)⟩
  refine ⟨t, ht, ?_⟩
  rw [window?, h.windowed.getElem?_tiers, ht]
  rfl

theorem Formed.window?_eq (h : s.Formed) {i : Nat} {t : Tier} (ht : s.basic.tiers[i]? = some t) :
    s.window? i = some t.triple := by
  rw [window?, h.windowed.getElem?_tiers, ht]
  rfl

theorem Carries.holds (h : s.Carries τ) {i : Nat} {w : Triple} {layer : Layer}
    (hw : s.window? i = some w) (hl : s.layers[i]? = some layer) :
    layer.Holds (τ.octant w) τ := by
  obtain ⟨v, hv, carries⟩ := h.vertices i w layer hw hl
  exact ⟨v, hv, carries.octant, carries.parts⟩

/-! ### Counting dirty layers -/

theorem Layer.isDirty_of_fresh {layer : Layer} (h : layer.Fresh) : layer.isDirty = false := by
  simp only [Layer.isDirty, List.any_eq_false]
  intro v hv
  simp [h v hv]

theorem dirtyCount_eq {start : Nat} (bound : start ≤ s.layers.length)
    (before : ∀ i, i + 1 = start → ∀ layer ∈ s.layers[i]?, layer.isDirty = false)
    (dirty : ∀ i ≥ start, ∀ layer ∈ s.layers[i]?, layer.isDirty = true) :
    s.dirtyCount = s.layers.length - start :=
  length_takeWhile_reverse bound before dirty

theorem dirtyCount_of_last (h : ∀ i, i + 1 = s.layers.length → ∀ layer ∈ s.layers[i]?,
    layer.isDirty = false) : s.dirtyCount = 0 := by
  rw [dirtyCount_eq (Nat.le_refl _) h, Nat.sub_self]
  intro i hi layer hl
  rw [List.getElem?_eq_none hi] at hl
  cases hl

theorem dirtyCount_of_fresh (h : ∀ layer ∈ s.layers, layer.Fresh) : s.dirtyCount = 0 :=
  dirtyCount_of_last fun _ _ layer hl => Layer.isDirty_of_fresh (h layer (List.mem_of_getElem? hl))

theorem Clean.dirtyCount (h : s.Clean) : s.dirtyCount = 0 := dirtyCount_of_fresh h.fresh

theorem Stale.dirtyCount {start : Nat} (h : s.Stale start) :
    s.dirtyCount = s.layers.length - start := by
  refine dirtyCount_eq (Nat.le_of_lt h.bound) ?_ h.dirty
  intro i hi layer hl
  exact Layer.isDirty_of_fresh (h.fresh i (by omega) layer hl)

theorem Stale.dirtyCount_pos {start : Nat} (h : s.Stale start) : 0 < s.dirtyCount := by
  have := h.bound
  rw [h.dirtyCount]
  omega

end HyperSystem

end TripletSat
