import Mathlib.Data.List.SplitBy
import TripletSat.Proofs.Algebra

/-!
Unification. Meetings, cleanups and forced values only take out octants, and none that a valuation
of its structure takes while the valuations of the other structures support it. So a group that
unifies keeps all of its common valuations, and a structure can run empty only in a group that has
none. A round that takes out nothing leaves nothing to do.
-/

namespace TripletSat

theorem mem_of_mem_splitBy {α : Type} {r : α → α → Bool} {xs ys : List α} {x : α}
    (h : ys ∈ xs.splitBy r) (hx : x ∈ ys) : x ∈ xs := by
  rw [← List.flatten_splitBy r xs]
  exact List.mem_flatten.mpr ⟨ys, h, hx⟩

theorem forall₂_of_zipIdx {α β : Type} {R : α → β → Prop} {xs : List α} {ys : List β}
    (h : List.Forall₂ (fun x y => R x.1 y) xs.zipIdx ys) : List.Forall₂ R xs ys := by
  rw [← List.forall₂_map_left_iff, List.zipIdx_map_fst] at h
  exact h

/-! ### Groups -/

/-- Valuations of each structure of a group, by its index, that support each other: whatever one of
them gives to two variables of a window is given by one of every other structure with such a window,
and a value that a variable always has in one structure it has in all. -/
structure Coherent (group : List Formula) (S : Nat → Valuation → Prop) : Prop where
  admits : ∀ i f, group[i]? = some f → ∀ τ, S i τ → f.Admits τ
  inhabited : ∀ i f, group[i]? = some f → ∃ τ, S i τ
  paired : ∀ i j f g, i ≠ j → group[i]? = some f → group[j]? = some g →
    ∀ t ∈ f.permutation.windows, ∀ u ∈ g.permutation.windows, ∀ v w, v ≠ w →
      v ∈ t.names → w ∈ t.names → v ∈ u.names → w ∈ u.names →
        ∀ τ, S i τ → ∃ σ, S j σ ∧ σ v = τ v ∧ σ w = τ w
  valued : ∀ i j f g, group[i]? = some f → group[j]? = some g → ∀ v ∈ f.permutation.names,
    v ∈ g.permutation.names → ∀ b, (∀ τ, S i τ → τ v = b) → ∀ τ, S j τ → τ v = b

namespace Coherent

variable {group group' : List Formula} {S : Nat → Valuation → Prop}

/-- A common valuation supports itself. -/
theorem single {τ : Valuation} (all : AllAdmit group τ) : Coherent group fun _ => (· = τ) where
  admits _ f hf _ same := same ▸ all f (List.mem_of_getElem? hf)
  inhabited _ _ _ := ⟨τ, rfl⟩
  paired _ _ _ _ _ _ _ _ _ _ _ _ _ _ _ _ _ _ σ same := ⟨σ, same, rfl, rfl⟩
  valued _ _ _ _ _ _ _ _ _ _ given _ same := same ▸ given τ rfl

theorem congr (h : Coherent group S)
    (same : List.Forall₂ (fun f g : Formula => f.permutation = g.permutation) group group')
    (admits : ∀ i g, group'[i]? = some g → ∀ τ, S i τ → g.Admits τ) : Coherent group' S where
  admits := admits
  inhabited i g hg := by
    obtain ⟨f, hf, -⟩ := forall₂_getElem? same hg
    exact h.inhabited i f hf
  paired i j g g' apart hg hg' t ht u hu := by
    obtain ⟨f, hf, equal⟩ := forall₂_getElem? same hg
    obtain ⟨f', hf', equal'⟩ := forall₂_getElem? same hg'
    exact h.paired i j f f' apart hf hf' t (equal ▸ ht) u (equal' ▸ hu)
  valued i j g g' hg hg' v hv hv' := by
    obtain ⟨f, hf, equal⟩ := forall₂_getElem? same hg
    obtain ⟨f', hf', equal'⟩ := forall₂_getElem? same hg'
    exact h.valued i j f f' hf hf' v (equal ▸ hv) (equal' ▸ hv')

/-- A group admits what it admits after it shrank. -/
theorem of_shrinks (h : Coherent group' S) (shrinks : List.Forall₂ Formula.ShrinksTo group group') :
    Coherent group S := by
  refine h.congr (shrinks.flip.imp fun _ _ shrinks => shrinks.1) fun i f hf τ hτ => ?_
  obtain ⟨g, hg, shrinks⟩ := forall₂_getElem? shrinks.flip hf
  exact Formula.ShrinksTo.admits shrinks (h.admits i g hg τ hτ)

end Coherent

/-- Every structure shrinks and coherent valuations stay. -/
structure Reduces (group group' : List Formula) : Prop where
  shrinks : List.Forall₂ Formula.ShrinksTo group group'
  spares : ∀ S, Coherent group S → Coherent group' S

namespace Reduces

variable {group group' : List Formula}

theorem refl (group : List Formula) : Reduces group group :=
  ⟨List.forall₂_same.mpr fun f _ => .refl f, fun _ => id⟩

theorem trans {group'' : List Formula} (h : Reduces group group') (h' : Reduces group' group'') :
    Reduces group group'' :=
  ⟨forall₂_trans (R := Formula.ShrinksTo) (fun _ _ _ => .trans) h.shrinks h'.shrinks,
    fun S coherent => h'.spares S (h.spares S coherent)⟩

theorem of_admits (shrinks : List.Forall₂ Formula.ShrinksTo group group')
    (admits : ∀ S, Coherent group S → ∀ i g, group'[i]? = some g → ∀ τ, S i τ → g.Admits τ) :
    Reduces group group' :=
  ⟨shrinks, fun S coherent =>
    coherent.congr (shrinks.imp fun _ _ shrinks => shrinks.1.symm) (admits S coherent)⟩

theorem keeps (h : Reduces group group') (τ : Valuation) (all : AllAdmit group τ) :
    AllAdmit group' τ := by
  intro g hg
  obtain ⟨i, hi⟩ := List.mem_iff_getElem?.mp hg
  exact (h.spares _ (.single all)).admits i g hi τ rfl

theorem antisymm (h : Reduces group group') (h' : Reduces group' group) : group = group' :=
  forall₂_antisymm (fun _ _ => Formula.ShrinksTo.antisymm) h.shrinks h'.shrinks

theorem admit_iff (h : Reduces group group') {τ : Valuation} :
    AllAdmit group τ ↔ AllAdmit group' τ :=
  ⟨h.keeps τ, allAdmit_of_shrinksTo h.shrinks⟩

theorem shaped (h : Reduces group group') (shaped : ∀ f ∈ group, f.Shaped) :
    ∀ f ∈ group', f.Shaped :=
  forall_mem_of_forall₂ h.shrinks fun f hf _ shrinks => shrinks.shaped (shaped f hf)

theorem octantCount_le (h : Reduces group group') : octantCount group' ≤ octantCount group :=
  TripletSat.octantCount_le h.shrinks

end Reduces

/-! ### Meetings -/

/-- The places of an occurrence hold its variables, if there is a tier at its spot. -/
def Occurrence.Holds (group : List Formula) (x : Occurrence) : Prop :=
  ∀ f ∈ group[x.spot.owner]?, ∀ t ∈ f.tiers[x.spot.tier]?,
    t.triple.name x.p = x.v ∧ t.triple.name x.q = x.w

/-- Both occurrences of a meeting hold, in different structures and of the same two variables. -/
structure Meeting.Holds (group : List Formula) (m : Meeting) : Prop where
  left : m.left.Holds group
  right : m.right.Holds group
  apart : m.left.spot.owner ≠ m.right.spot.owner
  sameV : m.left.v = m.right.v
  sameW : m.left.w = m.right.w
  distinct : m.left.v ≠ m.left.w

theorem Occurrence.Holds.reduces {group group' : List Formula} {x : Occurrence}
    (h : x.Holds group) (reduces : Reduces group group') : x.Holds group' := by
  intro g hg u hu
  obtain ⟨f, hf, -, gone | shrunk⟩ := forall₂_getElem? reduces.shrinks hg
  · simp [gone] at hu
  · obtain ⟨t, ht, same, -⟩ := forall₂_getElem? shrunk hu
    rw [same]
    exact h f hf t ht

theorem Meeting.Holds.reduces {group group' : List Formula} {m : Meeting} (h : m.Holds group)
    (reduces : Reduces group group') : m.Holds group' :=
  { h with left := h.left.reduces reduces, right := h.right.reduces reduces }

theorem Triple.mem_placePairs {t : Triple} {p q : Place} :
    (p, q) ∈ t.placePairs ↔ t.name p < t.name q := by
  have := t.a_ne_b
  have := t.a_ne_c
  have := t.b_ne_c
  have ordered (x y : Place) : (p, q) = (if t.name x ≤ t.name y then (x, y) else (y, x)) ↔
      p = x ∧ q = y ∧ t.name x ≤ t.name y ∨ p = y ∧ q = x ∧ t.name y < t.name x := by
    grind
  simp only [placePairs, List.map_cons, List.map_nil, List.mem_cons, List.not_mem_nil, or_false,
    ordered]
  cases p <;> cases q <;> simp [name] <;> omega

theorem mem_occurrences {group : List Formula} {x : Occurrence} :
    x ∈ occurrences group ↔ ∃ f t, group[x.spot.owner]? = some f ∧ f.tiers[x.spot.tier]? = some t ∧
      t.triple.name x.p = x.v ∧ t.triple.name x.q = x.w ∧ x.v < x.w := by
  simp only [occurrences, Tier.occurrences, List.mem_flatMap, List.mem_map, Prod.exists,
    List.mem_zipIdx_iff_getElem?, Triple.mem_placePairs]
  constructor
  · rintro ⟨f, owner, hf, t, tier, ht, p, q, below, rfl⟩
    exact ⟨f, t, hf, ht, rfl, rfl, below⟩
  · rintro ⟨f, t, hf, ht, hv, hw, below⟩
    refine ⟨f, _, hf, t, _, ht, x.p, x.q, ?_, ?_⟩
    · rwa [hv, hw]
    · rw [hv, hw]

theorem occurrences_hold {group : List Formula} {x : Occurrence} (h : x ∈ occurrences group) :
    x.Holds group := by
  obtain ⟨f, t, hf, ht, hv, hw, -⟩ := mem_occurrences.mp h
  intro f' hf' t' ht'
  obtain rfl := Option.some.inj (hf.symm.trans hf')
  obtain rfl := Option.some.inj (ht.symm.trans ht')
  exact ⟨hv, hw⟩

theorem mem_of_mem_pairsOf {α : Type} {xs : List α} {x y : α} (h : (x, y) ∈ pairsOf xs) :
    x ∈ xs ∧ y ∈ xs := by
  induction xs with
  | nil => cases h
  | cons z rest ih =>
    rw [pairsOf, List.mem_append, List.mem_map] at h
    rcases h with ⟨w, hw, same⟩ | h
    · obtain ⟨rfl, rfl⟩ := Prod.mk.inj same
      exact ⟨List.mem_cons_self, List.mem_cons_of_mem _ hw⟩
    · exact ⟨List.mem_cons_of_mem _ (ih h).1, List.mem_cons_of_mem _ (ih h).2⟩

/-- The members of a block that a test without exceptions cuts out are all related. -/
theorem related_of_mem_splitBy {α : Type} {r : α → α → Bool} {xs ys : List α} {x y : α}
    (refl : ∀ x, r x x = true) (symm : ∀ x y, r x y = true → r y x = true)
    (trans : ∀ x y z, r x y = true → r y z = true → r x z = true)
    (h : ys ∈ xs.splitBy r) (hx : x ∈ ys) (hy : y ∈ ys) : r x y = true := by
  have : IsTrans α (r · ·) := ⟨trans⟩
  have : Std.Symm fun x y => r x y = true := ⟨symm⟩
  exact (List.isChain_of_mem_splitBy h).pairwise.forall_of_forall (fun x _ => refl x) hx hy

theorem meetings_hold {group : List Formula} {m : Meeting} (h : m ∈ meetings group) :
    m.Holds group := by
  obtain ⟨block, hblock, h⟩ := List.mem_flatMap.mp h
  obtain ⟨⟨left, right⟩, pair, h⟩ := List.mem_filterMap.mp h
  obtain ⟨hleft, hright⟩ := mem_of_mem_pairsOf pair
  have occurs {x : Occurrence} (hx : x ∈ block) : x ∈ occurrences group :=
    List.mem_mergeSort.mp (mem_of_mem_splitBy hblock hx)
  have same : (left.v == right.v && left.w == right.w) = true :=
    related_of_mem_splitBy (r := fun x y => x.v == y.v && x.w == y.w) (by simp)
      (by simp +contextual) (by simp +contextual) hblock hleft hright
  simp only [Bool.and_eq_true, beq_iff_eq] at same
  dsimp only at h
  split at h
  · cases h
  · rename_i apart
    cases h
    obtain ⟨-, -, -, -, -, -, below⟩ := mem_occurrences.mp (occurs hleft)
    exact ⟨occurrences_hold (occurs hleft), occurrences_hold (occurs hright), apart, same.1, same.2,
      Nat.ne_of_lt below⟩

theorem getElem?_setOctants {group : List Formula} {spot : Spot} {s : OctantSet} {owner : Nat}
    (apart : spot.owner ≠ owner) : (setOctants group spot s)[owner]? = group[owner]? := by
  simp [setOctants, apart]

theorem setOctants_reduces {group : List Formula} {spot : Spot} {f : Formula} {t : Tier}
    {s : OctantSet} (hf : group[spot.owner]? = some f) (ht : f.tiers[spot.tier]? = some t)
    (part : ∀ o ∈ s, o ∈ t.octants)
    (kept : ∀ S, Coherent group S → ∀ τ, S spot.owner τ → τ.octant t.triple ∈ s) :
    Reduces group (setOctants group spot s) := by
  refine .of_admits (forall₂_modify .refl fun g hg => ⟨rfl, .inr ?_⟩) fun S coherent i g hg τ hτ => ?_
  · obtain rfl := Option.some.inj (hf.symm.trans hg)
    refine forall₂_modify .refl fun u hu => ⟨rfl, ?_⟩
    obtain rfl := Option.some.inj (ht.symm.trans hu)
    exact part
  · by_cases here : spot.owner = i
    · subst here
      obtain ⟨full, admits⟩ := coherent.admits _ f hf τ hτ
      rw [setOctants, List.getElem?_modify_eq, hf] at hg
      obtain rfl := Option.some.inj hg
      refine ⟨fun none => full (List.modify_eq_nil_iff.mp none), forall_mem_modify admits ?_⟩
      intro u hu
      obtain rfl := Option.some.inj (ht.symm.trans hu)
      exact kept S coherent τ hτ
    · rw [getElem?_setOctants here] at hg
      exact coherent.admits i g hg τ hτ

theorem octantsAt?_eq_some_iff {group : List Formula} {spot : Spot} {s : OctantSet} :
    octantsAt? group spot = some s ↔
      ∃ f t, group[spot.owner]? = some f ∧ f.tiers[spot.tier]? = some t ∧ t.octants = s := by
  cases hf : group[spot.owner]? with
  | none => simp [octantsAt?, hf]
  | some f => cases ht : f.tiers[spot.tier]? <;> simp [octantsAt?, hf, ht]

/-- A coherent valuation survives a meeting, as a valuation of the other structure supports it. -/
theorem Coherent.mem_agreeing {group : List Formula} {S : Nat → Valuation → Prop} {i j : Nat}
    {f g : Formula} {t u : Tier} {p q p' q' : Place} {s : OctantSet} (h : Coherent group S)
    (apart : i ≠ j) (hf : group[i]? = some f) (hg : group[j]? = some g) (windowed : f.Windowed)
    (windowed' : g.Windowed) (ht : t ∈ f.tiers) (hu : u ∈ g.tiers)
    (hp : t.triple.name p = u.triple.name p') (hq : t.triple.name q = u.triple.name q')
    (distinct : t.triple.name p ≠ t.triple.name q) (kept : ∀ σ, S j σ → σ.octant u.triple ∈ s)
    {τ : Valuation} (hτ : S i τ) : τ.octant t.triple ∈ t.octants.agreeing p q s p' q' := by
  obtain ⟨σ, hσ, sameV, sameW⟩ := h.paired i j f g apart hf hg t.triple (windowed.triple_mem ht)
    u.triple (windowed'.triple_mem hu) _ _ distinct (Triple.name_mem_names _ p)
    (Triple.name_mem_names _ q) (hp ▸ Triple.name_mem_names _ p') (hq ▸ Triple.name_mem_names _ q')
    τ hτ
  exact Tier.mem_agreeing (hp ▸ sameV) (hq ▸ sameW) ((h.admits i f hf τ hτ).2 t ht) (kept σ hσ)

theorem Meeting.Holds.restrict_reduces {group : List Formula} {m : Meeting} (h : m.Holds group)
    (shaped : ∀ f ∈ group, f.Shaped) : Reduces group (m.restrict group) := by
  unfold restrict
  split
  · rename_i left right atLeft atRight
    obtain ⟨f, t, hf, ht, rfl⟩ := octantsAt?_eq_some_iff.mp atLeft
    obtain ⟨g, u, hg, hu, rfl⟩ := octantsAt?_eq_some_iff.mp atRight
    dsimp only
    split
    · exact .refl group
    · obtain ⟨tv, tw⟩ := h.left f hf t ht
      obtain ⟨uv, uw⟩ := h.right g hg u hu
      have p := tv.trans (h.sameV.trans uv.symm)
      have q := tw.trans (h.sameW.trans uw.symm)
      have distinct : t.triple.name m.left.p ≠ t.triple.name m.left.q := by
        rw [tv, tw]
        exact h.distinct
      have windowed {i j : Nat} {f : Formula} {t : Tier} (hf : group[i]? = some f)
          (ht : f.tiers[j]? = some t) : f.Windowed :=
        (shaped f (List.mem_of_getElem? hf)).resolve_left
          (List.ne_nil_of_mem (List.mem_of_getElem? ht))
      -- The left tier keeps what the right one supports, then the other way round.
      have left (S) (coherent : Coherent group S) (τ) (hτ : S m.left.spot.owner τ) :
          τ.octant t.triple ∈ t.octants.agreeing m.left.p m.left.q u.octants m.right.p m.right.q :=
        coherent.mem_agreeing h.apart hf hg (windowed hf ht) (windowed hg hu)
          (List.mem_of_getElem? ht) (List.mem_of_getElem? hu) p q distinct
          (fun σ hσ => (coherent.admits _ g hg σ hσ).2 u (List.mem_of_getElem? hu)) hτ
      have first := setOctants_reduces hf ht (fun o ho => (OctantSet.mem_agreeing.mp ho).1) left
      refine first.trans (setOctants_reduces ((getElem?_setOctants h.apart).trans hg) hu
        (fun o ho => (OctantSet.mem_agreeing.mp ho).1) fun S coherent σ hσ => ?_)
      have coherent := coherent.of_shrinks first.shrinks
      exact coherent.mem_agreeing h.apart.symm hg hf (windowed hg hu) (windowed hf ht)
        (List.mem_of_getElem? hu) (List.mem_of_getElem? ht) p.symm q.symm (p ▸ q ▸ distinct)
        (left S coherent) hσ
  · exact .refl group

theorem foldl_restrict_reduces {ms : List Meeting} {group : List Formula}
    (hold : ∀ m ∈ ms, m.Holds group) (shaped : ∀ f ∈ group, f.Shaped) :
    Reduces group (ms.foldl Meeting.restrict group) := by
  induction ms generalizing group with
  | nil => exact .refl group
  | cons m rest ih =>
    have first := (hold m List.mem_cons_self).restrict_reduces shaped
    exact first.trans (ih (fun m' hm' => (hold m' (List.mem_cons_of_mem _ hm')).reduces first)
      (first.shaped shaped))

/-- Meetings that leave a group alone one after the other do so each. -/
theorem restrict_eq_of_foldl {ms : List Meeting} {group : List Formula}
    (hold : ∀ m ∈ ms, m.Holds group) (shaped : ∀ f ∈ group, f.Shaped)
    (idle : ms.foldl Meeting.restrict group = group) : ∀ m ∈ ms, m.restrict group = group := by
  induction ms with
  | nil => simp
  | cons m rest ih =>
    obtain ⟨holds, hold⟩ := List.forall_mem_cons.mp hold
    have first := holds.restrict_reduces shaped
    have later := foldl_restrict_reduces (fun m' hm' => (hold m' hm').reduces first)
      (first.shaped shaped)
    rw [List.foldl_cons] at idle
    rw [idle] at later
    have alone := later.antisymm first
    rw [alone] at idle
    exact List.forall_mem_cons.mpr ⟨alone, ih hold idle⟩

/-! ### Cleanup -/

/-- An error of a group: its structures have no valuation in common. -/
def Disjoint (group : List Formula) : Prop := ∀ τ, ¬ AllAdmit group τ

theorem disjoint_of_mem {group : List Formula} {f : Formula} (hf : f ∈ group)
    (none : ∀ τ, AllAdmit group τ → ¬ f.Admits τ) : Disjoint group :=
  fun τ all => none τ all (all f hf)

/-- What an error tells: no valuations of the structures support each other. -/
def Barren (group : List Formula) : Prop := ∀ S, ¬ Coherent group S

theorem Barren.disjoint {group : List Formula} (h : Barren group) : Disjoint group :=
  fun _ all => h _ (.single all)

theorem Reduces.barren {group group' : List Formula} (h : Reduces group group')
    (barren : Barren group') : Barren group :=
  fun S coherent => barren S (h.spares S coherent)

theorem barren_of_getElem? {group : List Formula} {i : Nat} {f : Formula} (hf : group[i]? = some f)
    (none : ∀ S, Coherent group S → ∀ τ, S i τ → ¬ f.Admits τ) : Barren group := by
  intro S coherent
  obtain ⟨τ, hτ⟩ := coherent.inhabited i f hf
  exact none S coherent τ hτ (coherent.admits i f hf τ hτ)

namespace Formula

/-- Every tier holds an octant, and each octant extends into the neighbouring tiers. -/
structure Tidy (f : Formula) : Prop extends f.Full where
  linked : f.tiers.IsChain Tier.Linked

/-- The admitted valuations all give the variable the value. -/
def Fixes (f : Formula) (v : Nat) (value : Bool) : Prop := ∀ τ, f.Admits τ → τ v = value

theorem ShrinksTo.fixes {f g : Formula} {v : Nat} {value : Bool} (h : f.ShrinksTo g)
    (fixes : f.Fixes v value) : g.Fixes v value :=
  fun τ admits => fixes τ (h.admits admits)

end Formula

theorem cleanAll_attempts {group : List Formula} (shaped : ∀ f ∈ group, f.Shaped) :
    Attempts (cleanAll group) (fun g => Reduces group g ∧ ∀ f ∈ g, f.Tidy)
      fun _ => Barren group := by
  unfold cleanAll
  refine Attempts.mono (Attempts.mapM (R := fun x (g : Formula) => x.1.Cleans g ∧ g.Tidy) ?_) ?_
    fun _ => id
  · intro ⟨f, i⟩ hx
    have hf := List.fst_mem_of_mem_zipIdx hx
    apply (Attempts.lift (Formula.cleaned_returns (shaped _ hf))).bind
    intro g ⟨cleans, linked⟩
    split
    · rename_i empty
      refine Attempts.throw (barren_of_getElem? (List.mem_zipIdx_iff_getElem?.mp hx) ?_)
      intro S _ τ _ admits
      simp [(cleans.keeps τ admits).not_isEmpty] at empty
    · rename_i full
      exact Attempts.pure ⟨cleans, ⟨eq_false_of_ne_true full, cleans.solid⟩, linked⟩
  · intro g hg
    have cleans := forall₂_of_zipIdx (R := fun (f g : Formula) => f.Cleans g ∧ g.Tidy) hg
    refine ⟨.of_admits (cleans.imp fun _ _ h => h.1.shrinks) ?_, ?_⟩
    · intro S coherent i g hg τ hτ
      obtain ⟨f, hf, h, -⟩ := forall₂_getElem? cleans hg
      exact h.keeps τ (coherent.admits i f hf τ hτ)
    · exact forall_mem_of_forall₂ cleans fun _ _ _ h => h.2

/-! ### Forced values -/

/-- A value is forced where a structure has the variable and admits no other value for it. -/
def Forcing.Fixed (group : List Formula) (x : Forcing) : Prop :=
  ∃ f, group[x.owner]? = some f ∧ x.v ∈ f.permutation.names ∧ f.Fixes x.v x.value

/-- Every structure with the variable admits no other value for it. -/
def Forcing.Reaches (x : Forcing) (group : List Formula) : Prop :=
  ∀ f ∈ group, x.v ∈ f.permutation.names → f.Fixes x.v x.value

namespace Forcing

variable {group group' : List Formula} {x : Forcing}

theorem Fixed.shrinks (h : x.Fixed group)
    (shrinks : List.Forall₂ Formula.ShrinksTo group group') : x.Fixed group' := by
  obtain ⟨f, hf, known, fixes⟩ := h
  obtain ⟨g, hg, shrinks⟩ := forall₂_getElem? shrinks.flip hf
  exact ⟨g, hg, shrinks.1.symm ▸ known,
    Formula.ShrinksTo.fixes shrinks fixes⟩

theorem Reaches.shrinks (h : x.Reaches group)
    (shrinks : List.Forall₂ Formula.ShrinksTo group group') : x.Reaches group' :=
  forall_mem_of_forall₂ shrinks fun f hf _ shrinks known =>
    shrinks.fixes (h f hf (shrinks.1 ▸ known))

/-- Coherent valuations have the forced values in every structure with the variable. -/
theorem Fixed.value (h : x.Fixed group) {S : Nat → Valuation → Prop} (coherent : Coherent group S)
    {i : Nat} {f : Formula} (hf : group[i]? = some f) (known : x.v ∈ f.permutation.names)
    {τ : Valuation} (hτ : S i τ) : τ x.v = x.value := by
  obtain ⟨g, hg, known', fixes⟩ := h
  exact coherent.valued _ i g f hg hf x.v known' known x.value
    (fun σ hσ => fixes σ (coherent.admits _ g hg σ hσ)) τ hτ

theorem mem_forced {group : List Formula} {x : Forcing} :
    x ∈ (group.zipIdx.flatMap fun (f, owner) =>
        f.permutation.names.filterMap fun v => (f.value? v).map (⟨v, owner, ·⟩)) ↔
      ∃ f, group[x.owner]? = some f ∧ x.v ∈ f.permutation.names ∧ f.value? x.v = some x.value := by
  simp only [List.mem_flatMap, List.mem_filterMap, Option.map_eq_some_iff, Prod.exists,
    List.mem_zipIdx_iff_getElem?]
  constructor
  · rintro ⟨f, owner, hf, v, known, value, forced, rfl⟩
    exact ⟨f, hf, known, forced⟩
  · rintro ⟨f, hf, known, forced⟩
    exact ⟨f, _, hf, x.v, known, x.value, forced, rfl⟩

theorem fixed_of_mem_forcings (h : x ∈ forcings group) : x.Fixed group := by
  obtain ⟨block, hblock, head⟩ := List.mem_filterMap.mp h
  have member := mem_of_mem_splitBy hblock (List.mem_of_head? head)
  obtain ⟨f, hf, known, forced⟩ := mem_forced.mp (List.mem_mergeSort.mp member)
  exact ⟨f, hf, known, fun τ admits => admits.value_of_value? forced⟩

/-- For each variable that a structure forces, some forced value stands. -/
theorem exists_mem_forcings {i v : Nat} {f : Formula} {value : Bool} (hf : group[i]? = some f)
    (known : v ∈ f.permutation.names) (forced : f.value? v = some value) :
    ∃ x ∈ forcings group, x.v = v := by
  have forced := (@mem_forced group ⟨v, i, value⟩).mpr ⟨f, hf, known, forced⟩
  have member := (@List.mem_mergeSort _ (fun x y : Forcing => decide (x.v ≤ y.v)) _ _).mpr forced
  rw [← List.flatten_splitBy (fun x y => x.v == y.v) (List.mergeSort _ _),
    List.mem_flatten] at member
  obtain ⟨block, hblock, member⟩ := member
  obtain ⟨x, rest, rfl⟩ := List.exists_cons_of_ne_nil (List.ne_nil_of_mem member)
  refine ⟨x, List.mem_filterMap.mpr ⟨_, hblock, rfl⟩, ?_⟩
  have same := related_of_mem_splitBy (r := fun x y => x.v == y.v) (by simp) (by simp +contextual)
    (by simp +contextual) hblock List.mem_cons_self member
  simpa using same

/-- A structure that took over a forced value loses only valuations without it. -/
structure Spreads (x : Forcing) (f g : Formula) : Prop where
  shrinks : f.ShrinksTo g
  tidy : g.Tidy
  keeps : ∀ τ, f.Admits τ → (x.v ∈ f.permutation.names → τ x.v = x.value) → g.Admits τ
  fixes : x.v ∈ f.permutation.names → g.Fixes x.v x.value

theorem spread_attempts (shaped : ∀ f ∈ group, f.Shaped) (tidy : ∀ f ∈ group, f.Tidy)
    (fixed : x.Fixed group) :
    Attempts (x.spread group)
      (fun g => Reduces group g ∧ (∀ f ∈ g, f.Tidy) ∧ x.Reaches g) fun _ => Barren group := by
  unfold spread
  refine Attempts.mono (Attempts.mapM (R := fun y => x.Spreads y.1) ?_) ?_ fun _ => id
  · intro ⟨f, index⟩ hy
    have at' := List.mem_zipIdx_iff_getElem?.mp hy
    have hf := List.mem_of_getElem? at'
    dsimp only
    split
    · rename_i left
      refine Attempts.pure ⟨.refl _, tidy f hf, fun _ admits _ => admits, fun known => ?_⟩
      simp only [Bool.or_eq_true, decide_eq_true_eq, Bool.not_eq_true', beq_iff_eq] at left
      rcases left with (rfl | unknown) | forced
      · obtain ⟨g, hg, -, fixes⟩ := fixed
        obtain rfl := Option.some.inj (at'.symm.trans hg)
        exact fixes
      · exact absurd (List.contains_iff_mem.mpr known) (by simpa [Permutation.contains] using unknown)
      · exact fun τ admits => admits.value_of_value? forced
    · rename_i other
      simp only [Bool.or_eq_true, not_or, Bool.not_eq_true', Bool.not_eq_false] at other
      obtain ⟨⟨-, known⟩, -⟩ := other
      have known := List.contains_iff_mem.mp known
      apply (Attempts.lift (Formula.concretize_returns (shaped f hf) known)).bind
      intro g restricts
      split
      · rename_i empty
        refine Attempts.throw (barren_of_getElem? at' ?_)
        intro S coherent τ hτ admits
        have admits' := (restricts.admits τ).mpr ⟨admits, fixed.value coherent at' known hτ⟩
        simp [admits'.not_isEmpty] at empty
      · rename_i nonempty
        obtain ⟨solid, linked⟩ := restricts.settles (tidy f hf).nonempty
        exact Attempts.pure ⟨restricts.shrinks, ⟨⟨eq_false_of_ne_true nonempty, solid⟩, linked⟩,
          (fun τ admits given => (restricts.admits τ).mpr ⟨admits, given known⟩),
          fun _ τ admits => ((restricts.admits τ).mp admits).2⟩
  · intro g hg
    have spreads := forall₂_of_zipIdx (R := x.Spreads) hg
    refine ⟨.of_admits (spreads.imp fun _ _ h => h.shrinks) ?_,
      forall_mem_of_forall₂ spreads fun _ _ _ h => h.tidy,
      forall_mem_of_forall₂ spreads fun f _ g h known => h.fixes (h.shrinks.1 ▸ known)⟩
    intro S coherent i g hg τ hτ
    obtain ⟨f, hf, h⟩ := forall₂_getElem? spreads hg
    exact h.keeps τ (coherent.admits i f hf τ hτ) fun known => fixed.value coherent hf known hτ

end Forcing

/-! ### Rounds -/

/-- Nothing is left to do: every meeting leaves the group alone, and forced values have spread. -/
structure Settled (ms : List Meeting) (group : List Formula) : Prop where
  met : ∀ m ∈ ms, m.restrict group = group
  reached : ∀ x ∈ forcings group, x.Reaches group

/-- A round makes `next` of a group; a round that changes nothing shows that nothing is left to do. -/
structure Rounds (ms : List Meeting) (group next : List Formula) : Prop where
  reduces : Reduces group next
  tidy : ∀ f ∈ next, f.Tidy
  settled : next = group → Settled ms group

theorem unifyRound_attempts {ms : List Meeting} {group : List Formula}
    (hold : ∀ m ∈ ms, m.Holds group) (shaped : ∀ f ∈ group, f.Shaped) :
    Attempts (unifyRound ms group) (Rounds ms group) fun _ => Barren group := by
  unfold unifyRound
  have restricted := foldl_restrict_reduces hold shaped
  apply Attempts.bind (Attempts.mono (cleanAll_attempts (restricted.shaped shaped))
    (fun _ => id) fun _ => restricted.barren)
  intro cleaned ⟨cleans, tidy⟩
  have reduces := restricted.trans cleans
  -- Whatever is forced after cleanup is forced while the values spread.
  refine Attempts.mono (Attempts.foldlM (fun rest g => Reduces cleaned g ∧ (∀ f ∈ g, f.Tidy) ∧
      (∀ x ∈ rest, x.Fixed g) ∧ ∀ x ∈ forcings cleaned, x ∈ rest ∨ x.Reaches g)
    ?_ ⟨.refl cleaned, tidy, fun _ => Forcing.fixed_of_mem_forcings, fun _ => .inl⟩)
    ?_ fun _ => reduces.barren
  · intro x rest g ⟨spread, tidy', fixed, reached⟩
    refine Attempts.mono (Forcing.spread_attempts (spread.shaped (reduces.shaped shaped)) tidy'
      (fixed x List.mem_cons_self)) ?_ fun _ => spread.barren
    intro g' ⟨spread', tidy'', reaches⟩
    refine ⟨spread.trans spread', tidy'',
      fun y hy => (fixed y (List.mem_cons_of_mem _ hy)).shrinks spread'.shrinks, fun y hy => ?_⟩
    rcases reached y hy with head | done
    · rcases List.mem_cons.mp head with rfl | tail
      · exact .inr reaches
      · exact .inl tail
    · exact .inr (done.shrinks spread'.shrinks)
  · intro next ⟨spread, tidy', _, reached⟩
    refine ⟨reduces.trans spread, tidy', fun idle => ?_⟩
    -- What shrinks between equal groups stays the same.
    rw [idle] at spread reached
    obtain rfl : cleaned = group := spread.antisymm reduces
    have alone := cleans.antisymm restricted
    exact ⟨restrict_eq_of_foldl hold shaped alone, fun x hx => (reached x hx).resolve_left (by simp)⟩

/-- Each round but the last removes an octant, so as many rounds as there are octants suffice. -/
theorem unifyRounds_attempts {ms : List Meeting} {limit fuel : Nat} {group : List Formula}
    (hold : ∀ m ∈ ms, m.Holds group) (shaped : ∀ f ∈ group, f.Shaped)
    (enough : octantCount group < fuel) :
    Attempts (unifyRounds ms limit fuel group)
      (fun g => Reduces group g ∧ (∀ f ∈ g, f.Tidy) ∧ Settled ms g) fun _ => Barren group := by
  induction fuel generalizing group with
  | zero => omega
  | succ fuel ih =>
    unfold unifyRounds
    apply (unifyRound_attempts hold shaped).bind
    intro next ⟨reduces, tidy, settled⟩
    split
    · rename_i count
      have idle := eq_of_octantCount_le reduces.shrinks
        (fun f hf => Formula.tiers_ne_nil_of_not_isEmpty (tidy f hf).nonempty) (Nat.le_of_eq count.symm)
      exact Attempts.pure ⟨reduces, tidy, idle ▸ settled idle⟩
    · have fewer := reduces.octantCount_le
      exact Attempts.mono (ih (fun m hm => (hold m hm).reduces reduces) (reduces.shaped shaped)
        (by omega)) (fun g ⟨later, rest⟩ => ⟨reduces.trans later, rest⟩) fun _ => reduces.barren

/-- What a unification answers: the group without the octants that the structures deny each other,
and their number. -/
structure Unifies (group : List Formula) (u : Unified) : Prop where
  reduces : Reduces group u.group
  tidy : ∀ f ∈ u.group, f.Tidy
  settled : Settled (meetings group) u.group
  removed : u.removed + octantCount u.group = octantCount group

theorem unify_unifies {group : List Formula} (two : 2 ≤ group.length)
    (shaped : ∀ f ∈ group, f.Shaped) :
    Attempts (unify group) (Unifies group) fun _ => Barren group := by
  unfold unify
  rw [if_neg (by omega)]
  dsimp only
  split
  · rename_i index found
    obtain ⟨bound, empty, -⟩ := List.findIdx?_eq_some_iff_getElem.mp found
    refine Attempts.throw (barren_of_getElem? (List.getElem?_eq_getElem bound) ?_)
    intro S _ τ _ admits
    simp [admits.not_isEmpty] at empty
  · apply (unifyRounds_attempts (fun m => meetings_hold) shaped
      (Nat.lt_add_of_pos_right (by decide))).bind
    intro g ⟨reduces, tidy, settled⟩
    exact Attempts.pure ⟨reduces, tidy, settled, Nat.sub_add_cancel reduces.octantCount_le⟩

theorem unify_attempts {group : List Formula} (two : 2 ≤ group.length)
    (shaped : ∀ f ∈ group, f.Shaped) :
    Attempts (unify group)
      (fun u => Reduces group u.group ∧ (∀ f ∈ u.group, f.Full) ∧
        u.removed + octantCount u.group = octantCount group)
      fun _ => Disjoint group :=
  (unify_unifies two shaped).mono
    (fun _ h => ⟨h.reduces, fun f hf => (h.tidy f hf).toFull, h.removed⟩) fun _ => Barren.disjoint

/-- A group of any size: the structures that come out hold an octant each. -/
theorem unifyGroup_attempts {group : List Formula} (shaped : ∀ f ∈ group, f.Shaped) :
    Attempts (unifyGroup group)
      (fun g => Reduces group g ∧ ∀ f ∈ g, f.isEmpty = false) fun _ => Disjoint group := by
  unfold unifyGroup
  split
  · exact Attempts.pure ⟨.refl [], by simp⟩
  · rename_i f
    split
    · rename_i empty
      refine Attempts.throw (barren_of_getElem? (i := 0) rfl ?_).disjoint
      intro S _ τ _ admits
      simp [admits.not_isEmpty] at empty
    · rename_i full
      exact Attempts.pure ⟨.refl [f], by simpa using full⟩
  · rename_i none one
    have two : 2 ≤ group.length := by
      match group, none, one with
      | [], none, _ => exact absurd rfl none
      | [f], _, one => exact absurd rfl (one f)
      | _ :: _ :: _, _, _ => simp
    exact (unify_attempts two shaped).bind fun u hu =>
      Attempts.pure ⟨hu.1, fun f hf => (hu.2.1 f hf).nonempty⟩

/-! ### What a call leaves behind -/

/-- The structures that a group reduces to have its tiers, so they need the same values. -/
theorem Reduces.admits_iff {group group' : List Formula} (h : Reduces group group')
    (α : Assignment) : (∀ f ∈ group, f.admits α = true) ↔ ∀ f ∈ group', f.admits α = true := by
  let Valued (w : Triple) : Prop := ∀ v ∈ w.names, (α.get? v).isSome = true
  simp only [Formula.admits_iff]
  constructor
  · intro all
    have admits := h.keeps _ fun f hf => (all f hf).1
    have valued : ∀ g ∈ group', g.tiers ≠ [] → ∀ t ∈ g.tiers, Valued t.triple :=
      forall_mem_of_forall₂ h.shrinks fun f hf g shrinks full =>
        (shrinks.forall_triple_iff Valued full).mp (all f hf).2
    exact fun g hg => ⟨admits g hg, valued g hg (admits g hg).1⟩
  · intro all
    have admits := h.admit_iff.mpr fun g hg => (all g hg).1
    have valued : ∀ f ∈ group, ∀ t ∈ f.tiers, Valued t.triple :=
      forall_mem_of_forall₂ h.shrinks.flip fun g hg f shrinks =>
        (Formula.ShrinksTo.forall_triple_iff Valued shrinks (all g hg).1.1).mpr (all g hg).2
    exact fun f hf => ⟨admits f hf, valued f hf⟩

/-- What the answer to a unification says about the structures before and after it. -/
def Unification.Sound (group : List Formula) : Except EmptyStructure Nat → List Formula → Prop
  | .ok removed, held =>
    (∀ α : Assignment, (∀ f ∈ group, f.admits α = true) ↔ ∀ f ∈ held, f.admits α = true) ∧
    List.Forall₂ Formula.ShrinksTo group held ∧ (∀ f ∈ held, f.Full) ∧
    removed + octantCount held = octantCount group
  | .error _, held => (∀ α : Assignment, ¬ ∀ f ∈ group, f.admits α = true) ∧ held = group

theorem run_unifyHeld (group : List Formula) :
    (unifyHeld.run.run group : Checked _) = (unify group).run >>= fun
      | .error e => pure (.error e, group)
      | .ok unified => pure (.ok unified.removed, unified.group) := by
  change ((liftM (unify group).run : ExceptT EmptyStructure (StateT (List Formula) Checked) _) >>=
    _).run.run group = _
  rcases (unify group).run with fault | answer
  · rfl
  · cases answer <;> rfl

/-- Unification keeps every common assignment, takes out octants only, and counts them. It fails
only on structures that have no assignment in common, and then leaves them alone. -/
theorem unifyHeld_sound {group : List Formula} (two : 2 ≤ group.length)
    (windowed : ∀ f ∈ group, f.Windowed) :
    Returns (unifyHeld.run.run group) fun (answer, held) =>
      Unification.Sound group answer held := by
  rw [run_unifyHeld]
  apply Returns.bind (unify_attempts two fun f hf => .inr (windowed f hf))
  intro answer h
  cases answer with
  | ok unified =>
    obtain ⟨reduces, full, removed⟩ := h
    exact Returns.pure ⟨reduces.admits_iff, reduces.shrinks, full, removed⟩
  | error e =>
    refine Returns.pure ⟨fun α all => h α.value ?_, rfl⟩
    intro f hf
    exact (Formula.admits_iff.mp (all f hf)).1

/-- The structure over a permutation with the same octants in every tier. -/
def Formula.uniform (p : Permutation) (s : OctantSet) : Formula := ⟨p, p.windows.map (⟨·, s⟩)⟩

theorem Formula.windowed_uniform (p : Permutation) (s : OctantSet) : (uniform p s).Windowed := by
  simp [Windowed, uniform, Function.comp_def]

/-- A formula over the windows, each with octants of its own. -/
def Formula.along (p : Permutation) (sets : List OctantSet) : Formula :=
  ⟨p, (p.windows.zip sets).map fun x => ⟨x.1, x.2⟩⟩

theorem Formula.windowed_along {p : Permutation} {sets : List OctantSet}
    (length : p.windows.length ≤ sets.length) : (along p sets).Windowed := by
  rw [Windowed, along, List.map_map]
  exact List.map_fst_zip length

/-- Two orders of four variables, the first structure forcing values on the second. -/
def crossed : List Formula :=
  [.uniform (.ofNames [1, 2, 3, 4]) (.half .a true), .uniform (.ofNames [4, 1, 3, 2]) .full]

theorem unifyHeld_sound_crossed :
    2 ≤ crossed.length ∧ (∀ f ∈ crossed, f.Windowed) ∧
      Returns (unifyHeld.run.run crossed) fun (answer, held) =>
        Unification.Sound crossed answer held := by
  have two : 2 ≤ crossed.length := by decide
  have windowed : ∀ f ∈ crossed, f.Windowed := by simp [crossed, Formula.windowed_uniform]
  exact ⟨two, windowed, unifyHeld_sound two windowed⟩

end TripletSat
