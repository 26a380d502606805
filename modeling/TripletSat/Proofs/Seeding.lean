import Mathlib.Order.Bounds.Basic
import TripletSat.Proofs.Algebra
import TripletSat.Proofs.Closure
import TripletSat.Proofs.Ensures

/-!
Seeded cleanup. A structure that lost octants of one tier is unlinked next to that tier only, so a
cleanup that starts there and follows what it restricts ends where the cleanup of all tiers ends.
Both account for what they did: the octants they removed, and the first and the last tier that lost
some.
-/

namespace TripletSat

namespace Tier

/-- The indices of the tiers that have other octants in the second list. The tiers at the front have
the index `index`. -/
def changes (index : Nat) (tiers tiers' : List Tier) : Set Nat :=
  {k | ∃ i t u, k = index + i ∧ tiers[i]? = some t ∧ tiers'[i]? = some u ∧ u.octants ≠ t.octants}

/-- The tier at a place and the one after it, where there are both, extend each other. -/
def LinkedAt (tiers : List Tier) (i : Nat) : Prop :=
  ∀ t ∈ tiers[i]?, ∀ u ∈ tiers[i + 1]?, t.Linked u

theorem isChain_linked_iff {tiers : List Tier} :
    tiers.IsChain Linked ↔ ∀ i, LinkedAt tiers i := by
  rw [List.isChain_iff_getElem]
  constructor
  · intro chain i t ht u hu
    obtain ⟨_, rfl⟩ := List.getElem?_eq_some_iff.mp ht
    obtain ⟨bound, rfl⟩ := List.getElem?_eq_some_iff.mp hu
    exact chain i bound
  · intro linked i bound
    exact linked i _ (List.getElem?_eq_getElem _) _ (List.getElem?_eq_getElem bound)

theorem linkedAt_of_length_le {tiers : List Tier} {i : Nat} (last : tiers.length ≤ i + 1) :
    LinkedAt tiers i := by
  simp [LinkedAt, List.getElem?_eq_none last]

theorem LinkedAt.congr {ts us : List Tier} {i : Nat} (h : LinkedAt ts i) (here : us[i]? = ts[i]?)
    (next : us[i + 1]? = ts[i + 1]?) : LinkedAt us i := by
  rwa [LinkedAt, here, next]

section Changes

variable {index : Nat} {t u : Tier} {ts us ws : List Tier}

theorem changes_nil : changes index [] us = ∅ := by
  simp [changes]

theorem le_of_mem_changes {k : Nat} (h : k ∈ changes index ts us) : index ≤ k := by
  obtain ⟨i, -, -, rfl, -⟩ := h
  omega

theorem mem_changes_cons {k : Nat} :
    k ∈ changes index (t :: ts) (u :: us) ↔
      (k = index ∧ u.octants ≠ t.octants) ∨ k ∈ changes (index + 1) ts us := by
  constructor
  · rintro ⟨_ | i, t', u', rfl, ht, hu, other⟩
    · cases ht
      cases hu
      exact .inl ⟨rfl, other⟩
    · exact .inr ⟨i, t', u', by omega, ht, hu, other⟩
  · rintro (⟨rfl, other⟩ | ⟨i, t', u', rfl, ht, hu, other⟩)
    · exact ⟨0, t, u, rfl, rfl, rfl, other⟩
    · exact ⟨i + 1, t', u', by omega, ht, hu, other⟩

theorem changes_cons_self : changes index (t :: ts) (t :: us) = changes (index + 1) ts us := by
  ext k
  simp [mem_changes_cons]

theorem changes_cons_of_ne (other : u.octants ≠ t.octants) :
    changes index (t :: ts) (u :: us) = insert index (changes (index + 1) ts us) := by
  ext k
  simp [mem_changes_cons, other]

theorem getElem?_eq_of_not_mem_changes (shrinks : List.Forall₂ ShrinksTo ts us) {i : Nat}
    (same : i ∉ changes 0 ts us) : us[i]? = ts[i]? := by
  cases ht : ts[i]? with
  | none =>
    rw [List.getElem?_eq_none_iff] at ht ⊢
    rwa [← shrinks.length_eq]
  | some t =>
    obtain ⟨u, hu, triple, -⟩ := forall₂_getElem? shrinks.flip ht
    rw [hu]
    obtain ⟨_, octants⟩ := t
    obtain rfl : u.octants = octants :=
      Classical.byContradiction fun other => same ⟨i, _, u, by omega, ht, hu, other⟩
    exact congrArg _ (congrArg (Tier.mk · u.octants) triple)

/-- What shrinks twice is changed where either step changed it. -/
theorem changes_trans (first : List.Forall₂ ShrinksTo ts us) (second : List.Forall₂ ShrinksTo us ws) :
    changes index ts ws = changes index ts us ∪ changes index us ws := by
  ext k
  constructor
  · rintro ⟨i, t, w, rfl, ht, hw, other⟩
    obtain ⟨u, hu, -⟩ := forall₂_getElem? first.flip ht
    by_cases same : u.octants = t.octants
    · exact .inr ⟨i, u, w, rfl, hu, hw, fun same' => other (same'.trans same)⟩
    · exact .inl ⟨i, t, u, rfl, ht, hu, same⟩
  · rintro (⟨i, t, u, rfl, ht, hu, other⟩ | ⟨i, u, w, rfl, hu, hw, other⟩)
    · obtain ⟨w, hw, -, part⟩ := forall₂_getElem? second.flip hu
      obtain ⟨t', ht', -, part'⟩ := forall₂_getElem? first hu
      obtain rfl := Option.some.inj (ht.symm.trans ht')
      refine ⟨i, t, w, rfl, ht, hw, fun same => other ?_⟩
      exact OctantSet.ext fun o => ⟨part' o, fun ho => part o (same ▸ ho)⟩
    · obtain ⟨u', hu', -, part⟩ := forall₂_getElem? second hw
      obtain rfl := Option.some.inj (hu.symm.trans hu')
      obtain ⟨t, ht, -, part'⟩ := forall₂_getElem? first hu
      refine ⟨i, t, w, rfl, ht, hw, fun same => other ?_⟩
      exact OctantSet.ext fun o => ⟨part o, fun ho => same ▸ part' o ho⟩

end Changes

end Tier

/-! ### Exact spans -/

/-- The span runs from the least to the greatest member of the set; there is none for no members. -/
def Bounds : Option Span → Set Nat → Prop
  | none, places => places = ∅
  | some span, places => IsLeast places span.first ∧ IsGreatest places span.last

theorem Bounds.grow {span : Option Span} {more : Span} {places places' : Set Nat}
    (h : Bounds span places) (h' : Bounds (some more) places') :
    Bounds (some (grow span more)) (places ∪ places') := by
  cases span with
  | none =>
    obtain rfl : places = ∅ := h
    rwa [Set.empty_union]
  | some s => exact ⟨h.1.union h'.1, h.2.union h'.2⟩

/-- What a pass over `tiers` behind `prev` answers about single places: the span of the tiers that
it restricted, or, if there are none, that those it met in `low ..= high` are linked. -/
def Sweep.Exact (low high index : Nat) (prev : Option Tier) (tiers : List Tier) : Sweep → Prop
  | .kept tiers' span =>
    Bounds span (Tier.changes index tiers tiers') ∧
    (span = none →
      (∀ i, low ≤ index + i → index + i + 1 ≤ high → Tier.LinkedAt tiers i) ∧
      (low ≤ index → index ≤ high → ∀ p ∈ prev, ∀ t ∈ tiers.head?, ∀ v ∈ t.octants,
        ∃ o ∈ p.octants, v.a = o.b ∧ v.b = o.c))
  | .emptied _ => True

theorem Sweep.Exact.behind {low high index : Nat} {prev : Option Tier} {t : Tier} {rest : List Tier}
    {s : Sweep} (h : s.Exact low high (index + 1) (some t) rest)
    (linked : low ≤ index → index ≤ high →
      (∀ p ∈ prev, ∀ v ∈ t.octants, ∃ o ∈ p.octants, v.a = o.b ∧ v.b = o.c) ∧
      ∀ n ∈ rest.head?, ∀ o ∈ t.octants, ∃ v ∈ n.octants, v.a = o.b ∧ v.b = o.c) :
    (s.behind t).Exact low high index prev (t :: rest) := by
  cases s with
  | emptied _ => trivial
  | kept tiers span =>
    obtain ⟨bounds, idle⟩ := h
    refine ⟨by rwa [Tier.changes_cons_self], ?_⟩
    intro none
    obtain ⟨within, backed⟩ := idle none
    refine ⟨fun i above below => ?_, ?_⟩
    · cases i with
      | zero =>
        intro t' ht' n hn
        cases ht'
        have hn : n ∈ rest.head? := by
          rw [List.head?_eq_getElem?]
          exact hn
        exact ⟨(linked above (by omega)).2 n hn, backed (by omega) (by omega) t rfl n hn⟩
      | succ i => exact within i (by omega) (by omega)
    · intro above below p hp t' ht'
      cases ht'
      exact (linked above below).1 p hp

theorem Sweep.Exact.behindRestricted {low high index : Nat} {prev : Option Tier} {t u : Tier}
    {rest : List Tier} {s : Sweep} (h : s.Exact low high (index + 1) (some u) rest)
    (changed : u.octants ≠ t.octants) :
    (s.behindRestricted u index).Exact low high index prev (t :: rest) := by
  cases s with
  | emptied _ => trivial
  | kept tiers span =>
    obtain ⟨bounds, -⟩ := h
    refine ⟨?_, nofun⟩
    rw [Tier.changes_cons_of_ne changed]
    cases span with
    | none =>
      rw [show Tier.changes (index + 1) rest tiers = ∅ from bounds, insert_empty_eq]
      exact ⟨isLeast_singleton, isGreatest_singleton⟩
    | some span =>
      obtain ⟨-, last, top⟩ := bounds
      refine ⟨⟨.inl rfl, ?_⟩, .inr last, ?_⟩
      · rintro k (rfl | hk)
        · exact Nat.le_refl k
        · exact Nat.le_of_succ_le (Tier.le_of_mem_changes hk)
      · rintro k (rfl | hk)
        · exact Nat.le_of_succ_le (Tier.le_of_mem_changes last)
        · exact top hk

theorem sweep_exact {low high index : Nat} {prev : Option Tier} {tiers : List Tier}
    (chain : tiers.IsChain Tier.Precedes) (first : ∀ p ∈ prev, ∀ t ∈ tiers.head?, p.Precedes t) :
    Returns (sweep low high index prev tiers) (Sweep.Exact low high index prev tiers) := by
  induction tiers generalizing index prev with
  | nil =>
    refine Returns.pure ⟨Tier.changes_nil, fun _ => ⟨?_, by simp⟩⟩
    simp [Tier.LinkedAt]
  | cons t rest ih =>
    obtain ⟨next, tail⟩ := List.isChain_cons.mp chain
    have follow (u : Tier) (same : u.triple = t.triple) :
        ∀ p ∈ some u, ∀ n ∈ rest.head?, p.Precedes n := by
      intro p hp n hn
      cases hp
      have := next n hn
      rwa [Tier.Precedes, ← same] at this
    unfold sweep
    split
    · refine (ih tail (follow t rfl)).bind fun s hs => Returns.pure (hs.behind ?_)
      omega
    · apply (Tier.between_returns (fun p hp => first p hp t rfl) next).bind
      rintro u ⟨shrinks, -, linked⟩
      split
      · rename_i same
        exact (ih tail (follow t rfl)).bind fun s hs =>
          Returns.pure (hs.behind fun _ _ => linked same)
      · rename_i changed
        split
        · exact Returns.pure trivial
        · exact (ih tail (follow u shrinks.1)).bind fun s hs =>
            Returns.pure (hs.behindRestricted changed)

/-- What passes from the range `low ..= high` on answer: the span of all that was restricted, and
linked tiers if those outside the range were. -/
def Sweep.Reaches (low high : Nat) (tiers : List Tier) (span : Option Span) : Sweep → Prop
  | .kept tiers' span' =>
    (∀ places, Bounds span places → Bounds span' (places ∪ Tier.changes 0 tiers tiers')) ∧
    ((∀ i, i + 1 ≤ low ∨ high ≤ i → Tier.LinkedAt tiers i) → tiers'.IsChain Tier.Linked)
  | .emptied _ => True

theorem settle_reaches {count limit fuel low high : Nat} {tiers : List Tier} {span : Option Span}
    (chain : tiers.IsChain Tier.Precedes) (length : tiers.length = count)
    (enough : Tier.count tiers < fuel) :
    Ensures (settle count limit fuel low high tiers span) (Sweep.Reaches low high tiers span) := by
  induction fuel generalizing low high tiers span with
  | zero => omega
  | succ fuel ih =>
    unfold settle
    apply ((sweep_returns chain (by simp)).ensures.both
      (sweep_exact chain (by simp)).ensures).bind
    rintro s ⟨sound, exact⟩
    cases s with
    | emptied more => exact Ensures.pure trivial
    | kept tiers' span' =>
      cases span' with
      | none =>
        obtain ⟨rfl, -⟩ := sound
        obtain ⟨none, idle⟩ := exact
        refine Ensures.pure ⟨fun places bounds => ?_, fun outside => ?_⟩
        · rwa [show Tier.changes 0 tiers' tiers' = ∅ from none, Set.union_empty]
        · rw [Tier.isChain_linked_iff]
          intro i
          by_cases inside : i + 1 ≤ low ∨ high ≤ i
          · exact outside i inside
          · exact (idle rfl).1 i (by omega) (by omega)
      | some more =>
        obtain ⟨shrinks, fewer, -⟩ := sound
        obtain ⟨bounds, -⟩ := exact
        have chain' : tiers'.IsChain Tier.Precedes := by
          rw [Tier.isChain_precedes, Tier.map_triple_of_forall₂ shrinks]
          exact Tier.isChain_precedes.mp chain
        have length' : tiers'.length = count := shrinks.length_eq ▸ length
        have fewer' : Tier.count tiers' < fuel := by omega
        apply ((settle_returns chain' length' fewer').ensures.both (ih chain' length' fewer')).mono
        rintro s ⟨settled, reaches⟩
        cases s with
        | emptied _ => trivial
        | kept tiers'' span'' =>
          obtain ⟨total, linked⟩ := reaches
          refine ⟨fun places before => ?_, fun outside => linked ?_⟩
          · rw [Tier.changes_trans shrinks settled.1, ← Set.union_assoc]
            exact total _ (before.grow bounds)
          · -- A pair that is outside the grown range was outside before and is as it was.
            have same (k : Nat) (away : k < more.first ∨ more.last < k) : tiers'[k]? = tiers[k]? :=
              Tier.getElem?_eq_of_not_mem_changes shrinks fun hk => by
                have := bounds.1.2 hk
                have := bounds.2.2 hk
                omega
            intro i away
            rcases Nat.lt_or_ge (i + 1) tiers'.length with inside | last
            · exact (outside i (by omega)).congr (same i (by omega)) (same (i + 1) (by omega))
            · exact Tier.linkedAt_of_length_le last

namespace Formula

variable {f g h : Formula}

/-- The status of a cleanup that made `g` of `f` and left an octant in every tier. -/
structure Accounts (f g : Formula) (status : CleanupStatus) : Prop where
  removed : status.removed + g.clauseCount = f.clauseCount
  changed : status.changed = true ↔ 0 < status.removed
  span : status.changed = true →
    IsLeast (Tier.changes 0 f.tiers g.tiers) status.first ∧
    IsGreatest (Tier.changes 0 f.tiers g.tiers) status.last
  idle : status.changed = false → status = ⟨false, 0, 0, 0⟩

theorem Accounts.unique {s t : CleanupStatus} (hs : f.Accounts g s) (ht : f.Accounts g t) :
    s = t := by
  have removed : s.removed = t.removed := by
    have := hs.removed
    have := ht.removed
    omega
  have changed : s.changed = t.changed := by
    rw [Bool.eq_iff_iff, hs.changed, ht.changed, removed]
  cases some : s.changed with
  | false => rw [hs.idle some, ht.idle (changed ▸ some)]
  | true =>
    obtain ⟨first, last⟩ := hs.span some
    obtain ⟨first', last'⟩ := ht.span (changed ▸ some)
    obtain ⟨_, _, _, _⟩ := s
    obtain ⟨_, _, _, _⟩ := t
    exact (CleanupStatus.mk.injEq ..).mpr ⟨changed, first.unique first', last.unique last', removed⟩

/-- What its octants' assignments leave of a formula is one formula. -/
theorem Tightens.unique (hg : f.Tightens g) (hh : f.Tightens h) : g = h := by
  have same : g.permutation = h.permutation := hg.permutation.trans hh.permutation.symm
  by_cases solved : ∃ α : Assignment, f.admits α = true
  · have part {g h : Formula} (hg : f.Tightens g) (hh : f.Tightens h)
        (same : g.permutation = h.permutation) : g.ShrinksTo h := by
      refine ⟨same.symm, .inr (Tier.forall₂_shrinksTo ?_ fun t ht u hu equal o ho => ?_)⟩
      · rw [hg.windowed solved, hh.windowed solved, same]
      · rw [hg.octants t ht, ← equal]
        exact (hh.octants u hu o).mp ho
    exact (part hg hh same).antisymm (part hh hg same.symm)
  · obtain ⟨_, _⟩ := g
    obtain ⟨_, _⟩ := h
    cases hg.gone solved
    cases hh.gone solved
    exact congrArg (Formula.mk · []) same

/-- Whatever the range, if the tiers outside are linked. -/
theorem propagate_accounts {low high : Nat} (windowed : f.Windowed)
    (outside : ∀ i, i + 1 ≤ low ∨ high ≤ i → Tier.LinkedAt f.tiers i) {τ : Valuation}
    (admits : f.Admits τ) :
    Ensures (f.propagate low high) fun (g, status) =>
      g.tiers.IsChain Tier.Linked ∧ f.Accounts g status := by
  unfold propagate
  rw [if_neg (by simpa using admits.1), if_neg (by simp [windowed.tierCount_add_two admits.1])]
  have solid : f.tiers.findIdx? Tier.isEmpty = none :=
    List.findIdx?_eq_none_iff.mpr fun t ht =>
      Bool.eq_false_iff.mpr fun empty => Tier.not_admits_of_isEmpty empty τ (admits.2 t ht)
  simp only [solid]
  have enough : Tier.count f.tiers < f.clauseCount + 2 := Nat.lt_add_of_pos_right (by decide)
  apply ((settle_returns windowed.isChain rfl enough).ensures.both
    (settle_reaches windowed.isChain rfl enough)).bind
  rintro s ⟨settled, reaches⟩
  cases s with
  | emptied span => exact absurd admits.2 (settled τ)
  | kept tiers span =>
    obtain ⟨shrinks, -, -, -, idle, spans⟩ := settled
    obtain ⟨total, linked⟩ := reaches
    have bounds := total ∅ rfl
    rw [Set.empty_union] at bounds
    cases span with
    | none =>
      obtain ⟨-, rfl⟩ := idle rfl
      exact Ensures.pure ⟨linked outside, by simp, by simp, nofun, fun _ => rfl⟩
    | some span =>
      have fewer : Tier.count tiers < Tier.count f.tiers := (spans span rfl).2.1 rfl
      refine Ensures.pure ⟨linked outside, ?_, ?_, fun _ => bounds, nofun⟩
      · exact Nat.sub_add_cancel (Nat.le_of_lt fewer)
      · exact ⟨fun _ => Nat.sub_pos_of_lt fewer, fun _ => rfl⟩

/-- A structure that admits a valuation keeps it, so cleanup does not clear it. -/
theorem propagate_exact {low high : Nat} (windowed : f.Windowed)
    (outside : ∀ i, i + 1 ≤ low ∨ high ≤ i → Tier.LinkedAt f.tiers i) {τ : Valuation}
    (admits : f.Admits τ) :
    Returns (f.propagate low high) fun (g, status) =>
      g.tiers ≠ [] ∧ f.Tightens g ∧ f.Accounts g status := by
  obtain ⟨⟨g, status⟩, run, cleans, -⟩ : Returns (f.propagate low high) _ :=
    propagate_returns (.inr windowed)
  obtain ⟨linked, accounts⟩ := (propagate_accounts windowed outside admits).of_canReturn run
  exact ⟨_, run, (cleans.keeps τ admits).1, cleans.tightens windowed linked, accounts⟩

/-- A structure with an empty tier is cleared at once, whichever tiers were to be visited. -/
theorem propagate_of_isEmpty (windowed : f.Windowed) {t : Tier} (ht : t ∈ f.tiers)
    (empty : t.isEmpty = true) :
    ∃ status, ∀ low high, f.propagate low high = .ok (f.clear, status) := by
  have full := List.ne_nil_of_mem ht
  cases found : f.tiers.findIdx? Tier.isEmpty with
  | none =>
    have := List.findIdx?_eq_none_iff.mp found t ht
    simp [empty] at this
  | some index =>
    refine ⟨⟨true, index, index, f.clauseCount⟩, fun low high => ?_⟩
    rw [propagate, if_neg (by simpa using full), if_neg (by simp [windowed.tierCount_add_two full])]
    simp only [found]
    rfl

/-- Removals from one tier leave the other tiers as they were. -/
theorem removeOctants_returns {index : Nat} (inside : index < f.tierCount) (os : List Octant) :
    Returns (os.foldlM (fun f o => f.removeOctant index o) f) fun g =>
      g.Within f ∧ ∀ i ≠ index, g.tiers[i]? = f.tiers[i]? := by
  refine Returns.foldlM (fun _ (g : Formula) => g.Within f ∧ ∀ i ≠ index, g.tiers[i]? = f.tiers[i]?) ?_
    ⟨⟨rfl, List.forall₂_same.mpr fun t _ => .refl t⟩, fun _ _ => rfl⟩
  rintro o _ g ⟨⟨permutation, part⟩, same⟩
  have inside' : index < g.tiers.length := part.length_eq ▸ inside
  apply (removeOctant_returns (List.getElem?_eq_getElem inside')).mono
  rintro h ⟨⟨permutation', shrinks⟩, there, same', -⟩
  have part' := shrinks.resolve_left fun none => by simp [none] at there
  refine ⟨⟨permutation'.trans permutation, ?_⟩, fun i other => (same' i other).trans (same i other)⟩
  exact forall₂_trans (R := Tier.ShrinksTo) (fun _ _ _ => .trans) part part'

/-- An octant that is left in the one tier that lost some is on a valuation that the clean structure
admitted, and the other tiers admit it as before. -/
theorem exists_admits_of_removed {index : Nat} (windowed : f.Windowed)
    (linked : f.tiers.IsChain Tier.Linked) (part : g.Within f)
    (same : ∀ i ≠ index, g.tiers[i]? = f.tiers[i]?) {t : Tier} (ht : g.tiers[index]? = some t)
    (full : t.isEmpty = false) : ∃ τ, g.Admits τ := by
  obtain ⟨o, ho⟩ := OctantSet.isEmpty_eq_false_iff.mp full
  obtain ⟨u, hu, triple, sub⟩ := forall₂_getElem? part.2 ht
  obtain ⟨τ, octant, admits⟩ := windowed.exists_admits linked (List.mem_of_getElem? hu) (sub o ho)
  refine ⟨τ, List.ne_nil_of_mem (List.mem_of_getElem? ht), fun w hw => ?_⟩
  obtain ⟨i, hi⟩ := List.getElem?_of_mem hw
  by_cases here : i = index
  · subst here
    obtain rfl := Option.some.inj (ht.symm.trans hi)
    rwa [Tier.Admits, triple, octant]
  · rw [same i here] at hi
    exact admits.2 w (List.mem_of_getElem? hi)

/-- Octants that one tier of a clean structure lost: the cleanup around that tier leaves the same
structure as the cleanup of all tiers and says the same of what it did. It clears the structure if
that tier is empty, and else accounts for the octants and the tiers it changed. -/
theorem cleanupAround_eq_cleanup {index : Nat} (windowed : f.Windowed) (solid : f.Solid)
    (clean : f.cleaned = .ok f) (inside : index < f.tierCount) (os : List Octant) :
    Returns (os.foldlM (fun f o => f.removeOctant index o) f) fun g =>
      ∃ h status, g.cleanup = .ok (h, status) ∧ g.cleanupAround index = .ok (h, status) ∧
        (h = g.clear ↔ ∃ t, g.tiers[index]? = some t ∧ t.isEmpty = true) ∧
        (h ≠ g.clear → g.Accounts h status) := by
  apply (removeOctants_returns inside os).mono
  rintro g ⟨part, same⟩
  have linked := (windowed.cleaned_eq_self_iff solid).mp clean
  have windowed' : g.Windowed := by
    rw [Windowed, Tier.map_triple_of_forall₂ part.2, part.1]
    exact windowed
  have inside' : index < g.tiers.length := part.2.length_eq ▸ inside
  have there := List.getElem?_eq_getElem inside'
  cases empty : g.tiers[index].isEmpty with
  | true =>
    obtain ⟨status, run⟩ := propagate_of_isEmpty windowed' (List.getElem_mem inside') empty
    exact ⟨g.clear, status, run _ _, run _ _, ⟨fun _ => ⟨_, there, empty⟩, fun _ => rfl⟩, by simp⟩
  | false =>
    obtain ⟨τ, admits⟩ := exists_admits_of_removed windowed linked part same there empty
    have outside (i : Nat) (away : i + 1 ≤ index - 1 ∨ min (index + 1) (g.tierCount - 1) ≤ i) :
        Tier.LinkedAt g.tiers i := by
      rcases Nat.lt_or_ge (i + 1) g.tierCount with below | last
      · exact (Tier.isChain_linked_iff.mp linked i).congr (same i (by omega))
          (same (i + 1) (by omega))
      · exact Tier.linkedAt_of_length_le last
    have everywhere (i : Nat) (away : i + 1 ≤ 0 ∨ g.tierCount - 1 ≤ i) : Tier.LinkedAt g.tiers i :=
      Tier.linkedAt_of_length_le (show g.tierCount ≤ i + 1 by omega)
    obtain ⟨⟨h, status⟩, run, kept, tight, accounts⟩ :=
      propagate_exact windowed' everywhere admits
    obtain ⟨⟨h', status'⟩, run', -, tight', accounts'⟩ :=
      propagate_exact windowed' outside admits
    obtain rfl : h = h' := tight.unique tight'
    obtain rfl : status = status' := accounts.unique accounts'
    refine ⟨h, status, run, run', ⟨fun cleared => ?_, ?_⟩, fun _ => accounts⟩
    · exact absurd (congrArg Formula.tiers cleared) kept
    · rintro ⟨t, ht, none⟩
      obtain rfl := Option.some.inj (there.symm.trans ht)
      simp [empty] at none

/-- Three windows in a row without a restriction. -/
def unrestricted : Formula :=
  ⟨.ofNames [1, 2, 3, 4, 5], (Permutation.ofNames [1, 2, 3, 4, 5]).windows.map .complete⟩

/-- The middle window loses the octants with one value pair in front, so the first one does too. -/
theorem cleanupAround_eq_cleanup_unrestricted :
    (unrestricted.Windowed ∧ unrestricted.Solid ∧ unrestricted.cleaned = .ok unrestricted ∧
      1 < unrestricted.tierCount) ∧
    Returns ([⟨false, false, false⟩, ⟨false, false, true⟩].foldlM
      (fun f o => f.removeOctant 1 o) unrestricted) fun g =>
      ∃ h status, g.cleanup = .ok (h, status) ∧ g.cleanupAround 1 = .ok (h, status) ∧
        (h = g.clear ↔ ∃ t, g.tiers[1]? = some t ∧ t.isEmpty = true) ∧
        (h ≠ g.clear → g.Accounts h status) := by
  have windowed : unrestricted.Windowed := rfl
  have solid : unrestricted.Solid := by unfold Solid; decide
  have clean : unrestricted.cleaned = .ok unrestricted := by rfl
  have inside : 1 < unrestricted.tierCount := by decide
  exact ⟨⟨windowed, solid, clean, inside⟩, cleanupAround_eq_cleanup windowed solid clean inside _⟩

end Formula

end TripletSat
