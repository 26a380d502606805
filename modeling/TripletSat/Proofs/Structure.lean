import TripletSat.Proofs.Windows
import TripletSat.Unification

/-!
Compact triplet structures and how they shrink. Every operation of the solver takes octants out of
tiers or clears a structure that ran out of them; `ShrinksTo` is what all of them have in common.
-/

namespace TripletSat

theorem forall₂_comp {α β γ : Type} {R : α → β → Prop} {S : β → γ → Prop} {T : α → γ → Prop}
    (comp : ∀ a b c, R a b → S b c → T a c) {xs : List α} {ys : List β} {zs : List γ}
    (h : List.Forall₂ R xs ys) (h' : List.Forall₂ S ys zs) : List.Forall₂ T xs zs := by
  induction h generalizing zs with
  | nil =>
    cases h'
    exact .nil
  | cons head _ ih =>
    cases h' with
    | cons head' tail' => exact .cons (comp _ _ _ head head') (ih tail')

theorem forall₂_trans {α : Type} {R : α → α → Prop} (trans : ∀ a b c, R a b → R b c → R a c)
    {xs ys zs : List α} (h : List.Forall₂ R xs ys) (h' : List.Forall₂ R ys zs) :
    List.Forall₂ R xs zs :=
  forall₂_comp trans h h'

theorem forall_mem_of_forall₂ {α β : Type} {R : α → β → Prop} {P : β → Prop} {xs : List α}
    {ys : List β} (h : List.Forall₂ R xs ys) (step : ∀ x ∈ xs, ∀ y, R x y → P y) :
    ∀ y ∈ ys, P y := by
  induction h with
  | nil => simp
  | cons head _ ih =>
    intro y hy
    rcases List.mem_cons.mp hy with rfl | hy
    · exact step _ List.mem_cons_self _ head
    · exact ih (fun x hx => step x (List.mem_cons_of_mem _ hx)) y hy

theorem exists_of_forall₂ {α β : Type} {R : α → β → Prop} {xs : List α} {ys : List β}
    (h : List.Forall₂ R xs ys) {x : α} (hx : x ∈ xs) : ∃ y ∈ ys, R x y := by
  have all : ∀ x ∈ xs, ∃ y ∈ ys, R x y :=
    forall_mem_of_forall₂ h.flip fun y hy _ related => ⟨y, hy, related⟩
  exact all x hx

theorem forall₂_getElem? {α β : Type} {R : α → β → Prop} {xs : List α} {ys : List β} {i : Nat}
    {y : β} (h : List.Forall₂ R xs ys) (hy : ys[i]? = some y) : ∃ x, xs[i]? = some x ∧ R x y := by
  induction h generalizing i with
  | nil => simp at hy
  | cons head _ ih =>
    cases i with
    | zero => exact ⟨_, rfl, Option.some.inj hy ▸ head⟩
    | succ i => exact ih hy

theorem pairwise_mergeSort_by {α : Type} (rank : α → Nat) (xs : List α) :
    (xs.mergeSort fun x y => rank x ≤ rank y).Pairwise fun x y => rank x ≤ rank y := by
  refine (List.pairwise_mergeSort ?_ ?_ xs).imp fun below => of_decide_eq_true below
  · intro x y z below below'
    simp only [decide_eq_true_eq] at *
    omega
  · intro x y
    simp only [Bool.or_eq_true, decide_eq_true_eq]
    omega

/-- Members at different positions, in either order. -/
theorem pairwise_getElem? {α : Type} {R : α → α → Prop} (symm : ∀ {x y}, R x y → R y x) {xs : List α}
    {i j : Nat} {x y : α} (h : xs.Pairwise R) (apart : i ≠ j) (hx : xs[i]? = some x)
    (hy : xs[j]? = some y) : R x y := by
  obtain ⟨hi, rfl⟩ := List.getElem?_eq_some_iff.mp hx
  obtain ⟨hj, rfl⟩ := List.getElem?_eq_some_iff.mp hy
  have related := List.pairwise_iff_getElem.mp h
  rcases Nat.lt_or_gt_of_ne apart with before | behind
  · exact related i j hi hj before
  · exact symm (related j i hj hi behind)

theorem forall₂_antisymm {α : Type} {R : α → α → Prop} (antisymm : ∀ a b, R a b → R b a → a = b)
    {xs ys : List α} (h : List.Forall₂ R xs ys) (h' : List.Forall₂ R ys xs) : xs = ys := by
  induction h with
  | nil => rfl
  | cons head _ ih =>
    obtain ⟨head', tail'⟩ := List.forall₂_cons.mp h'
    rw [antisymm _ _ head head', ih tail']

theorem forall₂_modify {α : Type} {R : α → α → Prop} {f : α → α} (refl : ∀ x, R x x) {xs : List α}
    {i : Nat} (step : ∀ x ∈ xs[i]?, R x (f x)) : List.Forall₂ R xs (xs.modify i f) := by
  induction xs generalizing i with
  | nil => cases i <;> exact .nil
  | cons x rest ih =>
    cases i with
    | zero => exact .cons (step x rfl) (List.forall₂_same.mpr fun y _ => refl y)
    | succ i => exact .cons (refl x) (ih step)

theorem forall_mem_modify {α : Type} {P : α → Prop} {f : α → α} {xs : List α} {i : Nat}
    (all : ∀ x ∈ xs, P x) (step : ∀ x ∈ xs[i]?, P (f x)) : ∀ y ∈ xs.modify i f, P y := by
  induction xs generalizing i with
  | nil => cases i <;> simp
  | cons x rest ih =>
    have hx := all x List.mem_cons_self
    have hrest := fun y hy => all y (List.mem_cons_of_mem x hy)
    cases i with
    | zero => exact List.forall_mem_cons.mpr ⟨step x rfl, hrest⟩
    | succ i => exact List.forall_mem_cons.mpr ⟨hx, ih hrest step⟩

namespace OctantSet

theorem pairwise_toList (s : OctantSet) : s.toList.Pairwise fun o u => o.key < u.key :=
  List.Pairwise.filter _ (by decide)

theorem nodup_of_ascending {os : List Octant} (h : os.Pairwise fun o u => o.key < u.key) :
    os.Nodup := by
  refine List.Pairwise.imp (fun {o u} below => ?_) h
  rintro rfl
  exact Nat.lt_irrefl _ below

theorem nodup_toList (s : OctantSet) : s.toList.Nodup := nodup_of_ascending s.pairwise_toList

/-- An ascending list is known by its members. -/
theorem eq_of_ascending {os us : List Octant} (ascending : os.Pairwise fun o u => o.key < u.key)
    (ascending' : us.Pairwise fun o u => o.key < u.key) (members : ∀ o, o ∈ os ↔ o ∈ us) : os = us := by
  have perm : os.Perm us :=
    (List.perm_ext_iff_of_nodup (nodup_of_ascending ascending) (nodup_of_ascending ascending')).mpr members
  refine perm.eq_of_pairwise ?_ ascending ascending'
  intro o u _ _ below above
  exact absurd (Nat.lt_trans below above) (Nat.lt_irrefl _)

/-- The octants of a set are the only ascending list of its members. -/
theorem eq_toList {s : OctantSet} {os : List Octant} (ascending : os.Pairwise fun o u => o.key < u.key)
    (members : ∀ o, o ∈ os ↔ o ∈ s) : os = s.toList :=
  eq_of_ascending ascending s.pairwise_toList fun o => (members o).trans mem_toList.symm

theorem ext {s t : OctantSet} (h : ∀ o, o ∈ s ↔ o ∈ t) : s = t := by
  have keys : ∀ i < 8, ∃ o : Octant, o.key = i := by
    intro i bound
    have some : ∀ i < 8, ∃ o ∈ Octant.all, o.key = i := by decide
    obtain ⟨o, -, same⟩ := some i bound
    exact ⟨o, same⟩
  obtain ⟨⟨v⟩⟩ := s
  obtain ⟨⟨w⟩⟩ := t
  suffices same : v = w by rw [same]
  apply BitVec.eq_of_getLsbD_eq
  intro i bound
  obtain ⟨o, rfl⟩ := keys i bound
  have both := h o
  rw [mem_iff_bit, mem_iff_bit] at both
  exact Bool.eq_iff_iff.mpr both

theorem toList_sublist {s t : OctantSet} (h : ∀ o ∈ s, o ∈ t) : s.toList.Sublist t.toList :=
  List.monotone_filter_right _ h

theorem size_le {s t : OctantSet} (h : ∀ o ∈ s, o ∈ t) : s.size ≤ t.size := by
  rw [size_eq_length, size_eq_length]
  exact (toList_sublist h).length_le

/-- A part that is as large is the whole. -/
theorem eq_of_size_le {s t : OctantSet} (h : ∀ o ∈ s, o ∈ t) (size : t.size ≤ s.size) : s = t := by
  rw [size_eq_length, size_eq_length] at size
  have lists := (toList_sublist h).eq_of_length_le size
  exact ext fun o => by rw [← mem_toList, lists, mem_toList]

end OctantSet

namespace Tier

/-- The same triple, and octants out of the old ones. -/
def ShrinksTo (t u : Tier) : Prop := u.triple = t.triple ∧ ∀ o ∈ u.octants, o ∈ t.octants

theorem ShrinksTo.refl (t : Tier) : t.ShrinksTo t := ⟨rfl, fun _ => id⟩

theorem ShrinksTo.trans {t u w : Tier} (h : t.ShrinksTo u) (h' : u.ShrinksTo w) : t.ShrinksTo w :=
  ⟨h'.1.trans h.1, fun o ho => h.2 o (h'.2 o ho)⟩

theorem ShrinksTo.admits {t u : Tier} {τ : Valuation} (h : t.ShrinksTo u) (hu : u.Admits τ) :
    t.Admits τ := by
  have := h.2 _ hu
  rwa [h.1] at this

theorem ShrinksTo.size_le {t u : Tier} (h : t.ShrinksTo u) : u.size ≤ t.size :=
  OctantSet.size_le h.2

theorem ShrinksTo.eq_of_size_le {t u : Tier} (h : t.ShrinksTo u) (size : t.size ≤ u.size) :
    u = t := by
  obtain ⟨triple, octants⟩ := t
  obtain ⟨triple', octants'⟩ := u
  obtain ⟨rfl, part⟩ := h
  exact congrArg _ (OctantSet.eq_of_size_le part size)

theorem ShrinksTo.antisymm {t u : Tier} (h : t.ShrinksTo u) (h' : u.ShrinksTo t) : t = u :=
  h'.eq_of_size_le h.size_le

theorem count_le {ts us : List Tier} (h : List.Forall₂ ShrinksTo ts us) :
    count us ≤ count ts := by
  induction h with
  | nil => exact Nat.le_refl _
  | cons head _ ih => simpa using Nat.add_le_add head.size_le ih

/-- Tiers with as many octants as before have lost none. -/
theorem eq_of_count_le {ts us : List Tier} (h : List.Forall₂ ShrinksTo ts us)
    (size : count ts ≤ count us) : us = ts := by
  induction h with
  | nil => rfl
  | cons head tail ih =>
    rw [count_cons, count_cons] at size
    have := head.size_le
    have := count_le tail
    rw [head.eq_of_size_le (by omega), ih (by omega)]

theorem map_triple_of_forall₂ {ts us : List Tier} (h : List.Forall₂ ShrinksTo ts us) :
    us.map triple = ts.map triple := by
  induction h with
  | nil => rfl
  | cons head _ ih => rw [List.map_cons, List.map_cons, head.1, ih]

end Tier

namespace Formula

/-- One tier for each window of the permutation, in order. -/
def Windowed (f : Formula) : Prop := f.tiers.map Tier.triple = f.permutation.windows

/-- A structure: windows, or no tier at all. -/
def Shaped (f : Formula) : Prop := f.tiers = [] ∨ f.Windowed

/-- No tier has lost all of its octants. -/
def Solid (f : Formula) : Prop := ∀ t ∈ f.tiers, t.isEmpty = false

/-- Every tier of a structure that has tiers holds an octant. -/
structure Full (f : Formula) : Prop where
  nonempty : f.isEmpty = false
  solid : f.Solid

theorem Shaped.windowed {f : Formula} (h : f.Shaped) (full : f.isEmpty = false) : f.Windowed :=
  h.resolve_left (tiers_ne_nil_of_not_isEmpty full)

theorem Windowed.triple_mem {f : Formula} (h : f.Windowed) {t : Tier} (ht : t ∈ f.tiers) :
    t.triple ∈ f.permutation.windows :=
  h ▸ List.mem_map_of_mem ht

theorem Windowed.exists_tier {f : Formula} (h : f.Windowed) {w : Triple}
    (hw : w ∈ f.permutation.windows) : ∃ t ∈ f.tiers, t.triple = w := by
  rw [← h] at hw
  exact List.mem_map.mp hw

theorem Windowed.nodup_triples {f : Formula} (h : f.Windowed) : (f.tiers.map Tier.triple).Nodup := by
  rw [h]
  exact f.permutation.nodup_windows

theorem Windowed.tiers_ne_nil {f : Formula} (h : f.Windowed) (size : 3 ≤ f.permutation.size) :
    f.tiers ≠ [] := by
  intro none
  have count := congrArg List.length h
  rw [none, Permutation.length_windows] at count
  simp only [List.map_nil, List.length_nil] at count
  omega

theorem Windowed.tierCount_add_two {f : Formula} (h : f.Windowed) (full : f.tiers ≠ []) :
    f.tierCount + 2 = f.varCount := by
  have count := congrArg List.length h
  rw [List.length_map, Permutation.length_windows] at count
  have := List.length_pos_of_ne_nil full
  simp only [tierCount, varCount]
  omega

theorem Solid.not_isEmpty {f : Formula} (h : f.Solid) (full : f.tiers ≠ []) : f.isEmpty = false := by
  obtain ⟨t, ht⟩ := List.exists_mem_of_ne_nil _ full
  exact List.all_eq_false.mpr ⟨t, ht, by simp [h t ht]⟩

/-- Over the same permutation, every tier shrunk or all of them gone. -/
def ShrinksTo (f g : Formula) : Prop :=
  g.permutation = f.permutation ∧ (g.tiers = [] ∨ List.Forall₂ Tier.ShrinksTo f.tiers g.tiers)

namespace ShrinksTo

variable {f g : Formula}

theorem refl (f : Formula) : f.ShrinksTo f :=
  ⟨rfl, .inr (List.forall₂_same.mpr fun t _ => .refl t)⟩

theorem tiers_eq_nil (h : f.ShrinksTo g) (gone : f.tiers = []) : g.tiers = [] := by
  rcases h.2 with gone' | shrunk
  · exact gone'
  · rw [gone] at shrunk
    exact List.forall₂_nil_left_iff.mp shrunk

theorem trans {h : Formula} (hfg : f.ShrinksTo g) (hgh : g.ShrinksTo h) : f.ShrinksTo h := by
  refine ⟨hgh.1.trans hfg.1, ?_⟩
  rcases hgh.2 with gone | shrunk
  · exact .inl gone
  · rcases hfg.2 with gone | shrunk'
    · exact .inl (hgh.tiers_eq_nil gone)
    · exact .inr (forall₂_trans (R := Tier.ShrinksTo) (fun _ _ _ => .trans) shrunk' shrunk)

theorem clear (f : Formula) : f.ShrinksTo f.clear := ⟨rfl, .inl rfl⟩

theorem shaped (h : f.ShrinksTo g) (shape : f.Shaped) : g.Shaped := by
  rcases h.2 with gone | shrunk
  · exact .inl gone
  · rcases shape with none | windows
    · exact .inl (h.tiers_eq_nil none)
    · refine .inr ?_
      rw [Windowed, Tier.map_triple_of_forall₂ shrunk, h.1]
      exact windows

theorem admits {τ : Valuation} (h : f.ShrinksTo g) (hg : g.Admits τ) : f.Admits τ := by
  have shrunk := h.2.resolve_left hg.1
  refine ⟨fun none => hg.1 (h.tiers_eq_nil none), forall_mem_of_forall₂ shrunk.flip ?_⟩
  intro u hu t ht
  exact Tier.ShrinksTo.admits ht (hg.2 u hu)

/-- Over the same triples, both have tiers of the same kind. -/
theorem forall_triple_iff (P : Triple → Prop) (h : f.ShrinksTo g) (full : g.tiers ≠ []) :
    (∀ t ∈ f.tiers, P t.triple) ↔ ∀ t ∈ g.tiers, P t.triple := by
  have same := Tier.map_triple_of_forall₂ (h.2.resolve_left full)
  rw [← List.forall_mem_map, ← same, List.forall_mem_map]

theorem antisymm (h : f.ShrinksTo g) (h' : g.ShrinksTo f) : f = g := by
  have tiers : f.tiers = g.tiers := by
    rcases h.2 with gone | shrunk
    · rw [gone, h'.tiers_eq_nil gone]
    · rcases h'.2 with gone | shrunk'
      · rw [gone, h.tiers_eq_nil gone]
      · exact forall₂_antisymm (fun _ _ => Tier.ShrinksTo.antisymm) shrunk shrunk'
  obtain ⟨p, ts⟩ := f
  obtain ⟨q, us⟩ := g
  obtain rfl := h.1
  exact congrArg _ tiers

theorem eq_of_clauseCount_le (h : f.ShrinksTo g) (full : g.tiers ≠ [])
    (count : f.clauseCount ≤ g.clauseCount) : g = f := by
  have tiers := Tier.eq_of_count_le (h.2.resolve_left full) count
  obtain ⟨p, ts⟩ := f
  obtain ⟨q, us⟩ := g
  obtain rfl := h.1
  exact congrArg _ tiers

theorem clauseCount_le (h : f.ShrinksTo g) : g.clauseCount ≤ f.clauseCount := by
  rcases h.2 with gone | shrunk
  · simp [clauseCount, gone]
  · exact Tier.count_le shrunk

theorem clauseCount_lt (h : f.ShrinksTo g) (full : g.tiers ≠ []) (changed : g ≠ f) :
    g.clauseCount < f.clauseCount := by
  by_contra above
  exact changed (h.eq_of_clauseCount_le full (Nat.le_of_not_lt above))

end ShrinksTo

end Formula

/-- A valuation that every structure of a group admits. -/
def AllAdmit (group : List Formula) (τ : Valuation) : Prop := ∀ f ∈ group, f.Admits τ

theorem allAdmit_of_shrinksTo {group group' : List Formula} {τ : Valuation}
    (h : List.Forall₂ Formula.ShrinksTo group group') (all : AllAdmit group' τ) :
    AllAdmit group τ :=
  forall_mem_of_forall₂ h.flip fun f hf _ shrinks => Formula.ShrinksTo.admits shrinks (all f hf)

theorem octantCount_le {group group' : List Formula}
    (h : List.Forall₂ Formula.ShrinksTo group group') :
    octantCount group' ≤ octantCount group := by
  induction h with
  | nil => exact Nat.le_refl _
  | cons head _ ih => simpa using Nat.add_le_add head.clauseCount_le ih

theorem eq_of_octantCount_le {group group' : List Formula}
    (h : List.Forall₂ Formula.ShrinksTo group group') (full : ∀ f ∈ group', f.tiers ≠ [])
    (count : octantCount group ≤ octantCount group') : group' = group := by
  induction h with
  | nil => rfl
  | cons head tail ih =>
    obtain ⟨first, rest⟩ := List.forall_mem_cons.mp full
    rw [octantCount_cons, octantCount_cons] at count
    have := head.clauseCount_le
    have := octantCount_le tail
    rw [head.eq_of_clauseCount_le first (by omega), ih rest (by omega)]

end TripletSat
