import TripletSat.Proofs.Extension
import TripletSat.Proofs.Unification

/-!
Closure. Where unification answers, it answers the greatest closed group below its argument: each
step spares the octants of every closed group, and a group that no step changes is closed. So the
order of the structures does not matter, nor does unifying once more.
-/

namespace TripletSat

/-- Both tiers hold the same value pairs for any two variables that both mention. -/
def Tier.Agrees (t u : Tier) : Prop :=
  ∀ p q p' q' : Place, p ≠ q → t.triple.name p = u.triple.name p' →
    t.triple.name q = u.triple.name q' → ∀ x y : Bool,
      (∃ o ∈ t.octants, o.value p = x ∧ o.value q = y) ↔
        ∃ o ∈ u.octants, o.value p' = x ∧ o.value q' = y

def Formula.Agrees (f g : Formula) : Prop := ∀ t ∈ f.tiers, ∀ u ∈ g.tiers, t.Agrees u

/-- Structures without an empty tier that cleanup leaves alone, that agree on the value pairs they
share and that force the same values. -/
structure Closed (group : List Formula) : Prop where
  windowed : ∀ f ∈ group, f.Windowed
  solid : ∀ f ∈ group, f.Solid
  clean : ∀ f ∈ group, f.cleaned = .ok f
  agree : group.Pairwise Formula.Agrees
  forced : ∀ f ∈ group, ∀ v b, f.value? v = some b → ∀ g ∈ group, v ∈ g.permutation.names →
    g.value? v = some b

/-- Over the same permutation, each tier a part of its counterpart. -/
def Formula.Within (g f : Formula) : Prop :=
  g.permutation = f.permutation ∧ List.Forall₂ Tier.ShrinksTo f.tiers g.tiers

def Within (c group : List Formula) : Prop := List.Forall₂ Formula.Within c group

theorem Within.shrinks {c group : List Formula} (h : Within c group) :
    List.Forall₂ Formula.ShrinksTo group c :=
  List.Forall₂.imp (fun _ _ within => ⟨within.1, .inr within.2⟩) h.flip

/-! ### Clean structures -/

namespace Tier

/-- Over the same distinct triples, a part of each tier makes a part of the structure. -/
theorem forall₂_shrinksTo {ts us : List Tier} (same : us.map triple = ts.map triple)
    (part : ∀ t ∈ ts, ∀ u ∈ us, u.triple = t.triple → ∀ o ∈ u.octants, o ∈ t.octants) :
    List.Forall₂ ShrinksTo ts us := by
  induction ts generalizing us with
  | nil =>
    obtain rfl := List.map_eq_nil_iff.mp same
    exact .nil
  | cons t ts ih =>
    obtain ⟨u, us, rfl⟩ := List.exists_cons_of_ne_nil (l := us) (by rintro rfl; simp at same)
    obtain ⟨head, tail⟩ := List.cons.inj same
    refine .cons ⟨head, part t List.mem_cons_self u List.mem_cons_self head⟩ (ih tail ?_)
    exact fun t ht u hu => part t (List.mem_cons_of_mem _ ht) u (List.mem_cons_of_mem _ hu)

end Tier

namespace Formula

variable {f g : Formula} {v : Nat} {b : Bool}

/-- Where each octant of the part is extended by a valuation, valuations tell the part. -/
theorem Windowed.within_of_admits (hg : g.Windowed) (linked : g.tiers.IsChain Tier.Linked)
    (hf : f.Windowed) (same : g.permutation = f.permutation)
    (part : ∀ τ, g.Admits τ → f.Admits τ) : g.Within f := by
  refine ⟨same, Tier.forall₂_shrinksTo (by rw [hg, hf, same]) fun t ht u hu equal o ho => ?_⟩
  obtain ⟨τ, rfl, admits⟩ := hg.exists_admits linked hu ho
  rw [equal]
  exact (part τ admits).2 t ht

theorem Windowed.exists_admits_of_solid (h : f.Windowed) (linked : f.tiers.IsChain Tier.Linked)
    (solid : f.Solid) (some : f.tiers ≠ []) : ∃ τ, f.Admits τ := by
  obtain ⟨t, ht⟩ := List.exists_mem_of_ne_nil _ some
  obtain ⟨o, ho⟩ := OctantSet.isEmpty_eq_false_iff.mp (solid t ht)
  obtain ⟨τ, -, admits⟩ := h.exists_admits linked ht ho
  exact ⟨τ, admits⟩

theorem Windowed.cleaned_eq_self_iff (h : f.Windowed) (solid : f.Solid) :
    f.cleaned = .ok f ↔ f.tiers.IsChain Tier.Linked := by
  refine ⟨fun clean => ((cleaned_returns (.inr h)).of_eq clean).2, fun linked => ?_⟩
  obtain ⟨g, clean, cleans, -⟩ := cleaned_returns (.inr h)
  rw [clean]
  refine congrArg _ (cleans.shrinks.antisymm ?_).symm
  by_cases some : f.tiers = []
  · exact ⟨cleans.shrinks.1.symm, .inl some⟩
  · obtain ⟨τ, admits⟩ := h.exists_admits_of_solid linked solid some
    have windowed := (cleans.shrinks.shaped (.inr h)).resolve_left (cleans.keeps τ admits).1
    obtain ⟨same, part⟩ := h.within_of_admits linked windowed cleans.shrinks.1.symm cleans.keeps
    exact ⟨same, .inr part⟩

theorem Windowed.tidy (h : f.Windowed) (solid : f.Solid) (clean : f.cleaned = .ok f)
    (some : f.tiers ≠ []) : f.Tidy :=
  ⟨⟨solid.not_isEmpty some, solid⟩, (h.cleaned_eq_self_iff solid).mp clean⟩

end Formula

theorem OctantSet.forced?_eq_some {s : OctantSet} {p : Place} {b : Bool} (some : s.isEmpty = false)
    (all : ∀ o ∈ s, o.value p = b) : s.forced? p = .some b := by
  obtain ⟨o, ho⟩ := isEmpty_eq_false_iff.mp some
  have half (c : Bool) : (s.inter (half p c)).isEmpty = true ↔ c ≠ b := by
    rw [isEmpty_iff]
    simp only [mem_inter, mem_half, not_and]
    exact ⟨fun none same => none o ho ((all o ho).trans same.symm),
      fun other u hu same => other (same.symm.trans (all u hu))⟩
  cases b <;> simp [forced?, some, half]

theorem Formula.Windowed.mem_names_of_value? {f : Formula} {v : Nat} {b : Bool} (h : f.Windowed)
    (forced : f.value? v = some b) : v ∈ f.permutation.names := by
  obtain ⟨t, ht, value⟩ := List.exists_of_findSome?_eq_some forced
  refine Permutation.mem_names_of_mem_windows (h.triple_mem ht) ?_
  cases place : t.triple.place? v with
  | none => simp [Tier.value?, place] at value
  | some p => exact Triple.name_of_place? place ▸ Triple.name_mem_names _ p

/-- Each tier of a clean structure that mentions a variable forces the value that all of the
structure's valuations give it. -/
theorem Formula.Windowed.tier_value?_eq_some_iff {f : Formula} {t : Tier} {v : Nat} {b : Bool}
    (h : f.Windowed) (tidy : f.Tidy) (ht : t ∈ f.tiers) (hv : v ∈ t.triple.names) :
    t.value? v = some b ↔ f.Fixes v b := by
  refine ⟨fun forced τ admits => Tier.value_of_value? forced (admits.2 t ht), fun fixes => ?_⟩
  obtain ⟨p, place⟩ := Triple.place?_eq_some_of_mem hv
  simp only [Tier.value?, place]
  refine OctantSet.forced?_eq_some (tidy.solid t ht) fun o ho => ?_
  obtain ⟨τ, rfl, admits⟩ := h.exists_admits tidy.linked ht ho
  rw [Valuation.value_octant, Triple.name_of_place? place]
  exact fixes τ admits

/-- A clean structure forces the value that all of its valuations have. -/
theorem Formula.Windowed.value?_eq_some_iff {f : Formula} {v : Nat} {b : Bool} (h : f.Windowed)
    (tidy : f.Tidy) (known : v ∈ f.permutation.names) : f.value? v = some b ↔ f.Fixes v b := by
  refine ⟨fun forced τ admits => admits.value_of_value? forced, fun fixes => ?_⟩
  have some := tiers_ne_nil_of_not_isEmpty tidy.nonempty
  obtain ⟨t, ht, hv⟩ := h.exists_tier_of_mem some known
  have forced := (h.tier_value?_eq_some_iff tidy ht hv).mpr fixes
  cases found : f.value? v with
  | none => simp [List.findSome?_eq_none_iff.mp found t ht] at forced
  | some c =>
    obtain ⟨τ, admits⟩ := h.exists_admits_of_solid tidy.linked tidy.solid some
    rw [← fixes τ admits, admits.value_of_value? found]

/-! ### Closed groups -/

theorem Tier.Agrees.symm {t u : Tier} (h : t.Agrees u) : u.Agrees t := by
  intro p q p' q' distinct hp hq x y
  refine (h p' q' p q ?_ hp.symm hq.symm x y).symm
  rintro rfl
  exact distinct (Triple.name_inj (hp.trans hq.symm))

theorem Formula.Agrees.symm {f g : Formula} (h : f.Agrees g) : g.Agrees f :=
  fun t ht u hu => (h u hu t ht).symm

namespace Closed

variable {part group : List Formula}

theorem perm (h : Closed part) (perm : part.Perm group) : Closed group where
  windowed f hf := h.windowed f (perm.mem_iff.mpr hf)
  solid f hf := h.solid f (perm.mem_iff.mpr hf)
  clean f hf := h.clean f (perm.mem_iff.mpr hf)
  agree := (perm.pairwise_iff Formula.Agrees.symm).mp h.agree
  forced f hf v b forced g hg := h.forced f (perm.mem_iff.mpr hf) v b forced g (perm.mem_iff.mpr hg)

theorem linked (h : Closed part) {f : Formula} (hf : f ∈ part) : f.tiers.IsChain Tier.Linked :=
  ((h.windowed f hf).cleaned_eq_self_iff (h.solid f hf)).mp (h.clean f hf)

theorem tidy (h : Closed part) {f : Formula} (hf : f ∈ part) (some : f.tiers ≠ []) : f.Tidy :=
  (h.windowed f hf).tidy (h.solid f hf) (h.clean f hf) some

theorem agrees (h : Closed part) {i j : Nat} {f g : Formula} (apart : i ≠ j)
    (hf : part[i]? = some f) (hg : part[j]? = some g) : f.Agrees g :=
  pairwise_getElem? Formula.Agrees.symm h.agree apart hf hg

/-- What the structures of a closed group admit supports itself. -/
theorem coherent (h : Closed part) (some : ∀ f ∈ part, f.tiers ≠ []) :
    Coherent part fun i τ => ∃ f, part[i]? = .some f ∧ f.Admits τ where
  admits i f hf τ := by
    rintro ⟨g, hg, admits⟩
    obtain rfl := Option.some.inj (hf.symm.trans hg)
    exact admits
  inhabited i f hf := by
    have member := List.mem_of_getElem? hf
    obtain ⟨τ, admits⟩ := (h.windowed f member).exists_admits_of_solid (h.linked member)
      (h.solid f member) (some f member)
    exact ⟨τ, f, hf, admits⟩
  paired i j f g apart hf hg w hw w' hw' v v' distinct hv hv' uv uv' τ := by
    rintro ⟨f', hf', admits⟩
    obtain rfl := Option.some.inj (hf.symm.trans hf')
    have member := List.mem_of_getElem? hg
    obtain ⟨t, ht, rfl⟩ := (h.windowed f (List.mem_of_getElem? hf)).exists_tier hw
    obtain ⟨u, hu, rfl⟩ := (h.windowed g member).exists_tier hw'
    have place {t : Triple} {v : Nat} (h : v ∈ t.names) : ∃ p, t.name p = v := by
      obtain ⟨p, hp⟩ := Triple.place?_eq_some_of_mem h
      exact ⟨p, Triple.name_of_place? hp⟩
    obtain ⟨p, rfl⟩ := place hv
    obtain ⟨q, rfl⟩ := place hv'
    obtain ⟨p', hp⟩ := place uv
    obtain ⟨q', hq⟩ := place uv'
    have different : p ≠ q := by
      rintro rfl
      exact distinct rfl
    -- The other tier has an octant with this value pair, and a valuation extends it.
    obtain ⟨o, ho, ov, ow⟩ := (h.agrees apart hf hg t ht u hu p q p' q' different hp.symm hq.symm
      _ _).mp ⟨_, admits.2 t ht, τ.value_octant t.triple p, τ.value_octant t.triple q⟩
    obtain ⟨σ, rfl, admits'⟩ := (h.windowed g member).exists_admits (h.linked member) hu ho
    rw [Valuation.value_octant, hp] at ov
    rw [Valuation.value_octant, hq] at ow
    exact ⟨σ, ⟨g, hg, admits'⟩, ov, ow⟩
  valued i j f g hf hg v known known' b given σ := by
    rintro ⟨g', hg', admits⟩
    obtain rfl := Option.some.inj (hg.symm.trans hg')
    have member := List.mem_of_getElem? hf
    have forced := ((h.windowed f member).value?_eq_some_iff (h.tidy member (some f member))
      known).mpr fun τ admits => given τ ⟨f, hf, admits⟩
    exact admits.value_of_value? (h.forced f member v b forced g (List.mem_of_getElem? hg) known')

end Closed

/-- A group that still admits what a closed group admits contains it. -/
theorem Closed.within {part group : List Formula} (h : Closed part)
    (same : List.Forall₂ (fun f g : Formula => f.permutation = g.permutation) part group)
    (windowed : ∀ f ∈ group, f.Windowed)
    (coherent : Coherent group fun i τ => ∃ f, part[i]? = some f ∧ f.Admits τ) :
    Within part group := by
  refine List.forall₂_iff_get.mpr ⟨same.length_eq, fun i hi hj => ?_⟩
  have hf : part[i]? = some (part.get ⟨i, hi⟩) := List.getElem?_eq_getElem hi
  have hg : group[i]? = some (group.get ⟨i, hj⟩) := List.getElem?_eq_getElem hj
  have member := List.mem_of_getElem? hf
  exact (h.windowed _ member).within_of_admits (h.linked member)
    (windowed _ (List.mem_of_getElem? hg)) (same.get hi hj)
    fun τ admits => coherent.admits i _ hg τ ⟨_, hf, admits⟩

/-! ### Meetings -/

/-- In an ascending list cut at each step up, members of different blocks differ. -/
theorem pairwise_blocks {α : Type} {le r : α → α → Bool} (refl : ∀ x, le x x = true)
    (trans : ∀ x y z, le x y = true → le y z = true → le x z = true)
    (same : ∀ x y, r x y = true ↔ le x y = true ∧ le y x = true) {blocks : List (List α)}
    (ascending : blocks.flatten.Pairwise fun x y => le x y = true)
    (cut : blocks.IsChain fun b c => ∃ hb hc, r (b.getLast hb) (c.head hc) = false) :
    blocks.Pairwise fun b c => ∀ x ∈ b, ∀ y ∈ c, r x y = false := by
  induction blocks with
  | nil => exact .nil
  | cons b rest ih =>
    rw [List.flatten_cons, List.pairwise_append] at ascending
    obtain ⟨ascends, later, between⟩ := ascending
    obtain ⟨next, cut⟩ := List.isChain_cons.mp cut
    refine List.pairwise_cons.mpr ⟨fun c hc x hx y hy => ?_, ih later cut⟩
    cases rest with
    | nil => cases hc
    | cons d rest =>
      obtain ⟨hb, hd, apart⟩ := next d rfl
      have below : le x (b.getLast hb) = true := by
        rw [← List.dropLast_append_getLast hb, List.pairwise_append] at ascends
        rw [← List.dropLast_append_getLast hb, List.mem_append, List.mem_singleton] at hx
        rcases hx with hx | rfl
        · exact ascends.2.2 x hx _ (List.mem_singleton_self _)
        · exact refl _
      have above : le (d.head hd) y = true := by
        obtain ⟨first, tail, rfl⟩ := List.exists_cons_of_ne_nil hd
        have hy : y ∈ ((first :: tail) :: rest).flatten := List.mem_flatten.mpr ⟨c, hc, hy⟩
        rw [List.flatten_cons, List.cons_append] at hy later
        rcases List.mem_cons.mp hy with rfl | hy
        · exact refl _
        · exact List.rel_of_pairwise_cons later hy
      rw [← Bool.not_eq_true, same]
      rintro ⟨-, back⟩
      -- Were they equal, so would be the neighbours of the cut between them.
      have ends := between _ (List.getLast_mem hb) _
        (List.mem_flatten.mpr ⟨d, List.mem_cons_self, List.head_mem hd⟩)
      have equal := (same _ _).mpr ⟨ends, trans _ _ _ above (trans _ _ _ back below)⟩
      rw [equal] at apart
      cases apart

theorem exists_block {α : Type} {le r : α → α → Bool} (refl : ∀ x, le x x = true)
    (trans : ∀ x y z, le x y = true → le y z = true → le x z = true)
    (same : ∀ x y, r x y = true ↔ le x y = true ∧ le y x = true) {xs : List α} {x y : α}
    (ascending : xs.Pairwise fun x y => le x y = true) (hx : x ∈ xs) (hy : y ∈ xs)
    (equal : r x y = true) : ∃ block ∈ xs.splitBy r, x ∈ block ∧ y ∈ block := by
  rw [← List.flatten_splitBy r xs] at ascending hx hy
  obtain ⟨b, hb, hx⟩ := List.mem_flatten.mp hx
  obtain ⟨c, hc, hy⟩ := List.mem_flatten.mp hy
  have symm (x y : α) : r x y = r y x := by
    rw [Bool.eq_iff_iff, same, same, and_comm]
  have : Std.Symm fun b c : List α => ∀ x ∈ b, ∀ y ∈ c, r x y = false :=
    ⟨fun _ _ apart y hy x hx => (symm y x).trans (apart x hx y hy)⟩
  have apart := pairwise_blocks refl trans same ascending (List.isChain_getLast_head_splitBy r xs)
  by_cases one : b = c
  · exact ⟨b, hb, hx, one ▸ hy⟩
  · simp [apart.forall hb hc one x hx y hy] at equal

theorem mem_pairsOf_or {α : Type} {xs : List α} {x y : α} (hx : x ∈ xs) (hy : y ∈ xs)
    (different : x ≠ y) : (x, y) ∈ pairsOf xs ∨ (y, x) ∈ pairsOf xs := by
  induction xs with
  | nil => cases hx
  | cons z rest ih =>
    simp only [pairsOf, List.mem_append, List.mem_map, Prod.mk.injEq]
    rcases List.mem_cons.mp hx with rfl | inX <;> rcases List.mem_cons.mp hy with rfl | inY
    · exact absurd rfl different
    · exact .inl (.inl ⟨y, inY, rfl, rfl⟩)
    · exact .inr (.inl ⟨x, inX, rfl, rfl⟩)
    · exact (ih inX inY).imp .inr .inr

/-- Any two tiers of different structures meet in any two variables that both mention. -/
theorem mem_meetings_or {group : List Formula} {x y : Occurrence} (hx : x ∈ occurrences group)
    (hy : y ∈ occurrences group) (apart : x.spot.owner ≠ y.spot.owner) (sameV : x.v = y.v)
    (sameW : x.w = y.w) : ⟨x, y⟩ ∈ meetings group ∨ ⟨y, x⟩ ∈ meetings group := by
  have ascending : ((occurrences group).mergeSort Occurrence.le).Pairwise
      fun x y => x.le y = true := by
    apply List.pairwise_mergeSort
    · simp only [Occurrence.le, Bool.or_eq_true, Bool.and_eq_true, decide_eq_true_eq, beq_iff_eq]
      omega
    · simp only [Occurrence.le, Bool.or_eq_true, Bool.and_eq_true, decide_eq_true_eq, beq_iff_eq]
      omega
  obtain ⟨block, hblock, inX, inY⟩ := exists_block
    (r := fun x y => x.v == y.v && x.w == y.w) (by simp [Occurrence.le])
    (by
      simp only [Occurrence.le, Bool.or_eq_true, Bool.and_eq_true, decide_eq_true_eq, beq_iff_eq]
      omega)
    (by
      simp only [Occurrence.le, Bool.or_eq_true, Bool.and_eq_true, decide_eq_true_eq, beq_iff_eq]
      omega)
    ascending (List.mem_mergeSort.mpr hx) (List.mem_mergeSort.mpr hy) (by simp [sameV, sameW])
  have meets {x y : Occurrence} (pair : (x, y) ∈ pairsOf block)
      (apart : x.spot.owner ≠ y.spot.owner) : ⟨x, y⟩ ∈ meetings group :=
    List.mem_flatMap.mpr ⟨block, hblock, List.mem_filterMap.mpr ⟨_, pair, if_neg apart⟩⟩
  have different : x ≠ y := by
    rintro rfl
    exact apart rfl
  exact (mem_pairsOf_or inX inY different).imp (meets · apart) (meets · apart.symm)

/-- Each value pair that the first tier holds at two places, the other one holds at two of its own. -/
def Tier.Supports (t : Tier) (p q : Place) (u : Tier) (p' q' : Place) : Prop :=
  ∀ o ∈ t.octants, ∃ o' ∈ u.octants, o'.value p' = o.value p ∧ o'.value q' = o.value q

theorem Tier.Supports.swap {t u : Tier} {p q p' q' : Place} (h : t.Supports p q u p' q') :
    t.Supports q p u q' p' := by
  intro o ho
  obtain ⟨o', ho', hp, hq⟩ := h o ho
  exact ⟨o', ho', hq, hp⟩

theorem Meeting.supports_of_restrict_eq {group : List Formula} {m : Meeting} {f g : Formula}
    {t u : Tier} (idle : m.restrict group = group) (apart : m.left.spot.owner ≠ m.right.spot.owner)
    (hf : group[m.left.spot.owner]? = some f) (ht : f.tiers[m.left.spot.tier]? = some t)
    (hg : group[m.right.spot.owner]? = some g) (hu : g.tiers[m.right.spot.tier]? = some u) :
    t.Supports m.left.p m.left.q u m.right.p m.right.q ∧
      u.Supports m.right.p m.right.q t m.left.p m.left.q := by
  have atLeft : octantsAt? group m.left.spot = some t.octants :=
    octantsAt?_eq_some_iff.mpr ⟨f, t, hf, ht, rfl⟩
  have atRight : octantsAt? group m.right.spot = some u.octants :=
    octantsAt?_eq_some_iff.mpr ⟨g, u, hg, hu, rfl⟩
  obtain ⟨left, right⟩ :
      t.octants.agreeing m.left.p m.left.q u.octants m.right.p m.right.q = t.octants ∧
      u.octants.agreeing m.right.p m.right.q
        (t.octants.agreeing m.left.p m.left.q u.octants m.right.p m.right.q) m.left.p m.left.q =
          u.octants := by
    simp only [restrict, atLeft, atRight] at idle
    by_contra changed
    rw [if_neg changed] at idle
    -- Otherwise the group changed at one of the two spots.
    have left := atLeft
    rw [← idle] at left
    have right := atRight
    rw [← idle] at right
    simp [octantsAt?, setOctants, apart, apart.symm, hf, ht, hg, hu] at left right
    exact changed ⟨left, right⟩
  rw [left] at right
  refine ⟨fun o ho => ?_, fun o ho => ?_⟩
  · rw [← left] at ho
    exact (OctantSet.mem_agreeing.mp ho).2
  · rw [← right] at ho
    exact (OctantSet.mem_agreeing.mp ho).2

/-! ### What unification answers -/

namespace Unifies

variable {group : List Formula} {r : Unified}

theorem windowed (h : Unifies group r) (windowed : ∀ f ∈ group, f.Windowed) :
    ∀ f ∈ r.group, f.Windowed := fun f hf =>
  (h.reduces.shaped (fun g hg => .inr (windowed g hg)) f hf).windowed (h.tidy f hf).nonempty

/-- Where two tiers of the answer share two variables, they have met and left each other alone. -/
theorem supports (h : Unifies group r) {i j a b : Nat} {f g : Formula} {t u : Tier} (apart : i ≠ j)
    (hf : r.group[i]? = some f) (ht : f.tiers[a]? = some t) (hg : r.group[j]? = some g)
    (hu : g.tiers[b]? = some u) {p q p' q' : Place} (hp : t.triple.name p = u.triple.name p')
    (hq : t.triple.name q = u.triple.name q') (below : t.triple.name p < t.triple.name q) :
    t.Supports p q u p' q' ∧ u.Supports p' q' t p q := by
  have origin {i a : Nat} {f : Formula} {t : Tier} (hf : r.group[i]? = some f)
      (ht : f.tiers[a]? = some t) : ∃ f₀ t₀, group[i]? = some f₀ ∧ f₀.tiers[a]? = some t₀ ∧
        t₀.triple = t.triple := by
    obtain ⟨f₀, hf₀, -, shrunk⟩ := forall₂_getElem? h.reduces.shrinks hf
    obtain ⟨t₀, ht₀, same, -⟩ := forall₂_getElem? (shrunk.resolve_left
      (List.ne_nil_of_mem (List.mem_of_getElem? ht))) ht
    exact ⟨f₀, t₀, hf₀, ht₀, same.symm⟩
  let x : Occurrence := ⟨t.triple.name p, t.triple.name q, ⟨i, a⟩, p, q⟩
  let y : Occurrence := ⟨u.triple.name p', u.triple.name q', ⟨j, b⟩, p', q'⟩
  have hx : x ∈ occurrences group := by
    obtain ⟨f₀, t₀, hf₀, ht₀, same⟩ := origin hf ht
    exact mem_occurrences.mpr ⟨f₀, t₀, hf₀, ht₀, by rw [same], by rw [same], below⟩
  have hy : y ∈ occurrences group := by
    obtain ⟨g₀, u₀, hg₀, hu₀, same⟩ := origin hg hu
    refine mem_occurrences.mpr ⟨g₀, u₀, hg₀, hu₀, by rw [same], by rw [same], ?_⟩
    show u.triple.name p' < u.triple.name q'
    rwa [← hp, ← hq]
  rcases mem_meetings_or hx hy apart hp hq with met | met
  · exact Meeting.supports_of_restrict_eq (h.settled.met _ met) apart hf ht hg hu
  · exact (Meeting.supports_of_restrict_eq (h.settled.met _ met) apart.symm hg hu hf ht).symm

theorem agrees (h : Unifies group r) {i j : Nat} {f g : Formula} (apart : i ≠ j)
    (hf : r.group[i]? = some f) (hg : r.group[j]? = some g) : f.Agrees g := by
  intro t ht u hu p q p' q' distinct hp hq
  obtain ⟨a, ht⟩ := List.mem_iff_getElem?.mp ht
  obtain ⟨b, hu⟩ := List.mem_iff_getElem?.mp hu
  obtain ⟨there, back⟩ : t.Supports p q u p' q' ∧ u.Supports p' q' t p q := by
    have different : t.triple.name p ≠ t.triple.name q := fun same => distinct (Triple.name_inj same)
    rcases Nat.lt_or_gt_of_ne different with below | above
    · exact h.supports apart hf ht hg hu hp hq below
    · obtain ⟨there, back⟩ := h.supports apart hf ht hg hu hq hp above
      exact ⟨there.swap, back.swap⟩
  rintro x y
  constructor
  · rintro ⟨o, ho, rfl, rfl⟩
    exact there o ho
  · rintro ⟨o, ho, rfl, rfl⟩
    exact back o ho

theorem closed (h : Unifies group r) (windowed : ∀ f ∈ group, f.Windowed) : Closed r.group := by
  have windowed := h.windowed windowed
  refine ⟨windowed, fun f hf => (h.tidy f hf).solid, fun f hf => ?_, ?_, ?_⟩
  · exact ((windowed f hf).cleaned_eq_self_iff (h.tidy f hf).solid).mpr (h.tidy f hf).linked
  · apply List.pairwise_iff_getElem.mpr
    intro i j hi hj before
    exact h.agrees (Nat.ne_of_lt before) (List.getElem?_eq_getElem hi) (List.getElem?_eq_getElem hj)
  · intro f hf v b forced g hg known
    have known' := (windowed f hf).mem_names_of_value? forced
    -- Some forced value stands for the variable, and it has reached every structure.
    obtain ⟨i, hi⟩ := List.mem_iff_getElem?.mp hf
    obtain ⟨x, hx, rfl⟩ := Forcing.exists_mem_forcings hi known' forced
    have reached {f : Formula} (hf : f ∈ r.group) (known : x.v ∈ f.permutation.names) :
        f.value? x.v = some x.value :=
      ((windowed f hf).value?_eq_some_iff (h.tidy f hf) known).mpr
        (h.settled.reached x hx f hf known)
    rw [← forced, reached hf known', reached hg known]

theorem within (h : Unifies group r) : Within r.group group := by
  have full : ∀ f ∈ r.group, f.tiers ≠ [] := fun f hf =>
    Formula.tiers_ne_nil_of_not_isEmpty (h.tidy f hf).nonempty
  have shrinks := (List.forall₂_and_left _ _).mpr ⟨full, h.reduces.shrinks.flip⟩
  exact shrinks.imp fun _ _ ⟨full, same, shrunk⟩ => ⟨same, shrunk.resolve_left full⟩

end Unifies

namespace Within

variable {a b c group group' : List Formula}

theorem refl (group : List Formula) : Within group group :=
  List.forall₂_same.mpr fun _ _ => ⟨rfl, List.forall₂_same.mpr fun t _ => .refl t⟩

theorem tiered (h : Within c group) (full : ∀ f ∈ group, f.tiers ≠ []) : ∀ f ∈ c, f.tiers ≠ [] :=
  forall_mem_of_forall₂ h.flip fun f hf g within none => by
    have := within.2
    rw [none] at this
    exact full f hf (List.forall₂_nil_right_iff.mp this)

/-- A group contains the other one reordered where it is a reordering itself. -/
theorem perm (h : Within c group) (perm : group.Perm group') :
    ∃ c', c.Perm c' ∧ Within c' group' := by
  obtain ⟨c', within, reordered⟩ := List.perm_comp_forall₂ perm.symm h.flip
  exact ⟨c', reordered.symm, within.flip⟩

end Within

theorem Coherent.of_within {c group : List Formula} {S : Nat → Valuation → Prop}
    (h : Coherent c S) (within : Within c group) : Coherent group S :=
  h.of_shrinks within.shrinks

/-- A closed group with tiers that contains every closed group with tiers that `group` contains. -/
structure Greatest (group a : List Formula) : Prop where
  tiered : ∀ f ∈ a, f.tiers ≠ []
  closed : Closed a
  within : Within a group
  above : ∀ c, Closed c → Within c group → Within c a

theorem Unifies.greatest {group : List Formula} {r : Unified} (h : Unifies group r)
    (windowed : ∀ f ∈ group, f.Windowed) : Greatest group r.group := by
  have tiered : ∀ f ∈ r.group, f.tiers ≠ [] := fun f hf =>
    Formula.tiers_ne_nil_of_not_isEmpty (h.tidy f hf).nonempty
  refine ⟨tiered, h.closed windowed, h.within, fun c closed within => ?_⟩
  have full : ∀ f ∈ group, f.tiers ≠ [] :=
    forall_mem_of_forall₂ h.within fun f hf g ⟨_, shrunk⟩ none => by
      rw [none] at shrunk
      exact tiered f hf (List.forall₂_nil_left_iff.mp shrunk)
  have coherent := closed.coherent (within.tiered full)
  refine closed.within ?_ (h.windowed windowed) (h.reduces.spares _ (coherent.of_within within))
  exact forall₂_comp (R := Formula.Within) (fun _ _ _ w s => w.1.trans s.1.symm) within h.reduces.shrinks

/-- Unification answers the greatest closed group, or there is none. -/
theorem unify_greatest_attempts {group : List Formula} (two : 2 ≤ group.length)
    (windowed : ∀ f ∈ group, f.Windowed) :
    Attempts (unify group)
      (fun r => Greatest group r.group ∧ r.removed + octantCount r.group = octantCount group)
      fun _ => ∀ c, Closed c → Within c group → ∃ f ∈ c, f.tiers = [] := by
  refine (unify_unifies two fun f hf => .inr (windowed f hf)).mono
    (fun r h => ⟨h.greatest windowed, h.removed⟩) fun _ barren c closed within => ?_
  by_contra tiered
  push Not at tiered
  exact barren _ ((closed.coherent tiered).of_within within)

theorem octantCount_perm {group group' : List Formula} (h : group.Perm group') :
    octantCount group = octantCount group' := by
  induction h with
  | nil => rfl
  | cons f _ ih => rw [octantCount_cons, octantCount_cons, ih]
  | swap f g rest =>
    rw [octantCount_cons, octantCount_cons, octantCount_cons, octantCount_cons]
    omega
  | trans _ _ ih ih' => exact ih.trans ih'

namespace Greatest

variable {group group' a a' b : List Formula}

/-- The answers for two orders of the same structures are the same structures. -/
theorem eq_of_perm (ha : Greatest group a) (hb : Greatest group' b) (perm : group.Perm group')
    (perm' : a.Perm a') (within : Within a' group') : a' = b := by
  have below := hb.above a' (ha.closed.perm perm') within
  obtain ⟨c, reordered, back⟩ := hb.within.perm perm.symm
  have above := ha.above c (hb.closed.perm reordered) back
  -- Each holds no more octants than the other.
  have count := octantCount_le above.shrinks
  rw [← octantCount_perm reordered, octantCount_perm perm'] at count
  exact eq_of_octantCount_le below.shrinks (fun f hf => ha.tiered f (perm'.mem_iff.mpr hf)) count

/-- In any order of the structures unification answers what it answers in this one. -/
theorem run_unify (ha : Greatest group a) (two : 2 ≤ group'.length)
    (windowed : ∀ f ∈ group', f.Windowed) (perm : group.Perm group') (perm' : a.Perm a')
    (within : Within a' group') {removed : Nat} (count : removed + octantCount a = octantCount group) :
    (unify group').run = .ok (.ok ⟨a', removed⟩) := by
  obtain ⟨answer, run, h⟩ := unify_greatest_attempts two windowed
  cases answer with
  | error e =>
    obtain ⟨f, hf, none⟩ := h a' (ha.closed.perm perm') within
    exact absurd none (ha.tiered f (perm'.mem_iff.mpr hf))
  | ok r =>
    obtain ⟨hr, removed'⟩ := h
    obtain rfl := ha.eq_of_perm hr perm perm' within
    rw [← octantCount_perm perm, ← octantCount_perm perm'] at removed'
    obtain ⟨g, n⟩ := r
    obtain rfl : n = removed := by
      simp only at removed'
      omega
    exact run

end Greatest

/-- What the answer to a unification says about closed groups, about unifying once more and about
other orders of the structures. -/
def Unification.Canonical (group : List Formula) : Except EmptyStructure Unified → Prop
  | .ok r => Greatest group r.group ∧ (unify r.group).run = .ok (.ok ⟨r.group, 0⟩) ∧
      ∀ pairs : List (Formula × Formula), pairs.Perm (group.zip r.group) →
        (unify (pairs.map Prod.fst)).run = .ok (.ok ⟨pairs.map Prod.snd, r.removed⟩)
  | .error _ => (∀ c, Closed c → Within c group → ∃ f ∈ c, f.tiers = []) ∧
      ∀ group', group'.Perm group → ∃ e, (unify group').run = .ok (.error e)

/-- Unification answers the greatest closed group below its argument and has nothing left to do
there; the order of the structures does not matter. It fails where no closed group with tiers lies
below. -/
theorem unify_greatest {group : List Formula} (two : 2 ≤ group.length)
    (windowed : ∀ f ∈ group, f.Windowed) :
    Returns (unify group).run (Unification.Canonical group) := by
  obtain ⟨answer, run, h⟩ := unify_greatest_attempts two windowed
  refine ⟨answer, run, ?_⟩
  cases answer with
  | ok r =>
    obtain ⟨greatest, count⟩ := h
    have length := greatest.within.length_eq
    refine ⟨greatest, ?_, fun pairs perm => ?_⟩
    · have self : Greatest r.group r.group :=
        ⟨greatest.tiered, greatest.closed, .refl _, fun _ _ within => within⟩
      exact self.run_unify (length ▸ two) greatest.closed.windowed (.refl _) (.refl _) (.refl _)
        (Nat.zero_add _)
    · have first := perm.map Prod.fst
      have second := perm.map Prod.snd
      rw [List.map_fst_zip (Nat.le_of_eq length.symm)] at first
      rw [List.map_snd_zip (Nat.le_of_eq length)] at second
      refine greatest.run_unify (first.length_eq ▸ two)
        (fun f hf => windowed f (first.mem_iff.mp hf)) first.symm second.symm ?_ count
      refine List.forall₂_map_left_iff.mpr (List.forall₂_map_right_iff.mpr
        (List.forall₂_same.mpr fun x hx => ?_))
      exact List.forall₂_zip greatest.within.flip (perm.mem_iff.mp hx)
  | error e =>
    refine ⟨h, fun group' perm => ?_⟩
    obtain ⟨answer, run, h'⟩ := unify_greatest_attempts (perm.length_eq ▸ two)
      fun f hf => windowed f (perm.mem_iff.mp hf)
    cases answer with
    | error e => exact ⟨e, run⟩
    | ok r =>
      obtain ⟨greatest, -⟩ := h'
      obtain ⟨c, reordered, within⟩ := greatest.within.perm perm
      obtain ⟨f, hf, gone⟩ := h c (greatest.closed.perm reordered) within
      exact absurd gone (greatest.tiered f (reordered.mem_iff.mpr hf))

theorem unify_greatest_crossed :
    2 ≤ crossed.length ∧ (∀ f ∈ crossed, f.Windowed) ∧
      Returns (unify crossed).run (Unification.Canonical crossed) := by
  have two : 2 ≤ crossed.length := by decide
  have windowed : ∀ f ∈ crossed, f.Windowed := by simp [crossed, Formula.windowed_uniform]
  exact ⟨two, windowed, unify_greatest two windowed⟩

/-- Two orders of two variables: too few for a tier. -/
def bare : List Formula := [⟨⟨[1, 2], by decide⟩, []⟩, ⟨⟨[2, 1], by decide⟩, []⟩]

theorem closed_bare : Closed bare where
  windowed := by simp [bare, Formula.Windowed, Permutation.windows, Permutation.windowsOf]
  solid := by simp [bare, Formula.Solid]
  clean := by simp [bare]; exact ⟨rfl, rfl⟩
  agree := by simp [bare, Formula.Agrees]
  forced := by simp [bare, Formula.value?]

/-- Structures without tiers make a closed group, but nothing is read from them: unification takes
them for structures that ran empty. -/
theorem not_unify_ok_iff_exists_closed :
    ¬ ∀ group : List Formula, 2 ≤ group.length → (∀ f ∈ group, f.Windowed) →
      (∀ f ∈ group, ∀ g ∈ group, f.permutation.sameVariables g.permutation = true) →
        ((∃ r, (unify group).run = .ok (.ok r)) ↔ ∃ c, Closed c ∧ Within c group) := by
  intro claim
  have same : ∀ f ∈ bare, ∀ g ∈ bare, f.permutation.sameVariables g.permutation = true := by decide
  obtain ⟨r, run⟩ := (claim bare (by decide) closed_bare.windowed same).mpr
    ⟨bare, closed_bare, .refl bare⟩
  have failed : (unify bare).run = .ok (.error ⟨0⟩) := rfl
  rw [failed] at run
  cases run

end TripletSat
