import TripletSat.Proofs.Returns
import TripletSat.Proofs.Structure

/-!
Cleanup. A pass only takes out octants that no admitted valuation takes, so cleanup keeps every
solution; each pass but the last takes out some, so it ends; and after the last pass each octant is
extended by one of both neighbours.
-/

namespace TripletSat

namespace Tier

def Precedes (t u : Tier) : Prop := t.triple.Precedes u.triple

theorem isChain_precedes {tiers : List Tier} :
    tiers.IsChain Precedes ↔ (tiers.map triple).IsChain Triple.Precedes :=
  (List.isChain_map triple).symm

/-- Each octant of either tier is extended by some octant of the other. -/
def Linked (t u : Tier) : Prop :=
  (∀ o ∈ t.octants, ∃ v ∈ u.octants, v.a = o.b ∧ v.b = o.c) ∧
  (∀ v ∈ u.octants, ∃ o ∈ t.octants, v.a = o.b ∧ v.b = o.c)

theorem adjoinLeft_returns {t prev : Tier} (before : prev.Precedes t) :
    Returns (t.adjoinLeft prev) fun u =>
      t.ShrinksTo u ∧ (∀ τ, prev.Admits τ → t.Admits τ → u.Admits τ) ∧
        ∀ v ∈ u.octants, ∃ o ∈ prev.octants, v.a = o.b ∧ v.b = o.c := by
  rw [adjoinLeft, if_pos (show _ ∧ _ from before)]
  refine Returns.pure ⟨⟨rfl, fun o ho => (OctantSet.mem_agreeing.mp ho).1⟩, ?_, ?_⟩
  · intro τ hp ht
    exact admits_agreeing before.1.symm before.2.symm ht hp
  · intro v hv
    obtain ⟨-, o, ho, ha, hb⟩ := OctantSet.mem_agreeing.mp hv
    exact ⟨o, ho, ha.symm, hb.symm⟩

theorem adjoinRight_returns {t next : Tier} (before : t.Precedes next) :
    Returns (t.adjoinRight next) fun u =>
      t.ShrinksTo u ∧ (∀ τ, t.Admits τ → next.Admits τ → u.Admits τ) ∧
        ∀ o ∈ u.octants, ∃ v ∈ next.octants, v.a = o.b ∧ v.b = o.c := by
  rw [adjoinRight, if_pos (show _ ∧ _ from before)]
  refine Returns.pure ⟨⟨rfl, fun o ho => (OctantSet.mem_agreeing.mp ho).1⟩, ?_,
    fun o ho => (OctantSet.mem_agreeing.mp ho).2⟩
  intro τ ht hn
  exact admits_agreeing before.1 before.2 ht hn

/-- What its neighbours leave of a tier. A tier that they leave alone is linked to them. -/
structure Narrows (prev : Option Tier) (t : Tier) (next : Option Tier) (u : Tier) : Prop where
  shrinks : t.ShrinksTo u
  keeps : ∀ τ, (∀ p ∈ prev, p.Admits τ) → t.Admits τ → (∀ n ∈ next, n.Admits τ) → u.Admits τ
  linked : u.octants = t.octants →
    (∀ p ∈ prev, ∀ v ∈ t.octants, ∃ o ∈ p.octants, v.a = o.b ∧ v.b = o.c) ∧
    ∀ n ∈ next, ∀ o ∈ t.octants, ∃ v ∈ n.octants, v.a = o.b ∧ v.b = o.c

/-- The next tier restricts what the one before has left. -/
theorem narrows_next {prev next : Option Tier} {t u : Tier} (behind : ∀ n ∈ next, t.Precedes n)
    (shrinks : t.ShrinksTo u) (keeps : ∀ τ, (∀ p ∈ prev, p.Admits τ) → t.Admits τ → u.Admits τ)
    (backed : ∀ p ∈ prev, ∀ v ∈ u.octants, ∃ o ∈ p.octants, v.a = o.b ∧ v.b = o.c) :
    Returns (match next with
      | some next => u.adjoinRight next
      | none => pure u) (Narrows prev t next) := by
  cases next with
  | none =>
    refine Returns.pure ⟨shrinks, fun τ hp ht _ => keeps τ hp ht, fun same => ⟨?_, by simp⟩⟩
    rw [← same]
    exact backed
  | some n =>
    have order : u.Precedes n := by
      have := behind n rfl
      rwa [Precedes, ← shrinks.1] at this
    apply (adjoinRight_returns order).mono
    rintro w ⟨shrinks', keeps', continued⟩
    refine ⟨shrinks.trans shrinks',
      fun τ hp ht hn => keeps' τ (keeps τ hp ht) (hn n rfl), fun same => ⟨?_, ?_⟩⟩
    · intro p hp v hv
      exact backed p hp v (shrinks'.2 v (same ▸ hv))
    · intro n' hn' o ho
      cases hn'
      exact continued o (same ▸ ho)

theorem between_returns {prev next : Option Tier} {t : Tier} (before : ∀ p ∈ prev, p.Precedes t)
    (behind : ∀ n ∈ next, t.Precedes n) : Returns (t.between prev next) (Narrows prev t next) := by
  unfold between
  cases prev with
  | none => exact narrows_next behind (.refl t) (fun _ _ ht => ht) (by simp)
  | some p =>
    apply (adjoinLeft_returns (before p rfl)).bind
    rintro u ⟨shrinks, keeps, backed⟩
    refine narrows_next behind shrinks (fun τ hp ht => keeps τ (hp p rfl) ht) ?_
    intro p' hp'
    cases hp'
    exact backed

end Tier

/-- What a pass over `tiers` behind `prev` answers, the first of them having the index `index`. -/
def Sweep.Sound (low high index : Nat) (prev : Option Tier) (tiers : List Tier) : Sweep → Prop
  | .kept tiers' none =>
    tiers' = tiers ∧ (low ≤ index → index + tiers.length ≤ high + 1 → tiers.IsChain Tier.Linked ∧
      ∀ p ∈ prev, ∀ t ∈ tiers.head?, ∀ v ∈ t.octants, ∃ o ∈ p.octants, v.a = o.b ∧ v.b = o.c)
  | .kept tiers' (some span) =>
    List.Forall₂ Tier.ShrinksTo tiers tiers' ∧
    Tier.count tiers' < Tier.count tiers ∧
    index ≤ span.first ∧ (∀ i, index + i < span.first → tiers'[i]? = tiers[i]?) ∧
    ((∀ t ∈ tiers, t.isEmpty = false) → ∀ t ∈ tiers', t.isEmpty = false) ∧
    ∀ τ, (∀ p ∈ prev, p.Admits τ) → (∀ t ∈ tiers, t.Admits τ) → ∀ t ∈ tiers', t.Admits τ
  | .emptied _ => ∀ τ, (∀ p ∈ prev, p.Admits τ) → ¬ ∀ t ∈ tiers, t.Admits τ

theorem Sweep.Sound.behind {low high index : Nat} {prev : Option Tier} {t : Tier} {rest : List Tier}
    {s : Sweep} (h : s.Sound low high (index + 1) (some t) rest)
    (linked : low ≤ index → index ≤ high →
      (∀ p ∈ prev, ∀ v ∈ t.octants, ∃ o ∈ p.octants, v.a = o.b ∧ v.b = o.c) ∧
      ∀ n ∈ rest.head?, ∀ o ∈ t.octants, ∃ v ∈ n.octants, v.a = o.b ∧ v.b = o.c) :
    (s.behind t).Sound low high index prev (t :: rest) := by
  cases s with
  | kept tiers span =>
    cases span with
    | none =>
      obtain ⟨rfl, chain⟩ := h
      refine ⟨rfl, ?_⟩
      intro above below
      rw [List.length_cons] at below
      obtain ⟨tail, backed⟩ := chain (by omega) (by omega)
      obtain ⟨left, right⟩ := linked above (by omega)
      refine ⟨List.isChain_cons.mpr ⟨?_, tail⟩, ?_⟩
      · intro n hn
        exact ⟨right n hn, backed t rfl n hn⟩
      · intro p hp u hu
        cases hu
        exact left p hp
    | some span =>
      obtain ⟨shrinks, fewer, above, same, solid, keeps⟩ := h
      refine ⟨.cons (.refl t) shrinks, by simpa using fewer, by omega, ?_, ?_, ?_⟩
      · intro i hi
        cases i with
        | zero => rfl
        | succ i => exact same i (by omega)
      · intro full u hu
        rcases List.mem_cons.mp hu with rfl | hu
        · exact full _ List.mem_cons_self
        · exact solid (fun w hw => full w (List.mem_cons_of_mem _ hw)) u hu
      · intro τ _ all u hu
        rcases List.mem_cons.mp hu with rfl | hu
        · exact all _ List.mem_cons_self
        · refine keeps τ ?_ (fun w hw => all w (List.mem_cons_of_mem _ hw)) u hu
          intro p hp
          cases hp
          exact all t List.mem_cons_self
  | emptied span =>
    intro τ _ all
    refine h τ ?_ fun w hw => all w (List.mem_cons_of_mem _ hw)
    intro p hp
    cases hp
    exact all t List.mem_cons_self

theorem Sweep.Sound.behindRestricted {low high index : Nat} {prev : Option Tier} {t u : Tier}
    {rest : List Tier} {s : Sweep} (h : s.Sound low high (index + 1) (some u) rest)
    (shrinks : t.ShrinksTo u) (changed : u.octants ≠ t.octants) (full : u.isEmpty = false)
    (keeps : ∀ τ, (∀ p ∈ prev, p.Admits τ) → (∀ w ∈ t :: rest, w.Admits τ) → u.Admits τ) :
    (s.behindRestricted u index).Sound low high index prev (t :: rest) := by
  have smaller : u.size < t.size := by
    refine Nat.lt_of_not_le fun large => changed ?_
    rw [shrinks.eq_of_size_le large]
  have behind (τ) (hp : ∀ p ∈ prev, p.Admits τ) (all : ∀ w ∈ t :: rest, w.Admits τ) :
      ∀ p ∈ some u, p.Admits τ := by
    intro p hp'
    cases hp'
    exact keeps τ hp all
  cases s with
  | kept tiers span =>
    have rest' : List.Forall₂ Tier.ShrinksTo rest tiers ∧
        ((∀ w ∈ rest, w.isEmpty = false) → ∀ w ∈ tiers, w.isEmpty = false) ∧
        ∀ τ, (∀ p ∈ some u, p.Admits τ) → (∀ w ∈ rest, w.Admits τ) → ∀ w ∈ tiers, w.Admits τ := by
      cases span with
      | none =>
        obtain ⟨rfl, -⟩ := h
        exact ⟨List.forall₂_same.mpr fun w _ => .refl w, id, fun _ _ all => all⟩
      | some span =>
        obtain ⟨shrinks', -, -, -, solid, keeps'⟩ := h
        exact ⟨shrinks', solid, keeps'⟩
    obtain ⟨shrinks', solid, keeps'⟩ := rest'
    refine ⟨.cons shrinks shrinks', ?_, Nat.le_refl _, ?_, ?_, ?_⟩
    · simpa using Nat.add_lt_add_of_lt_of_le smaller (Tier.count_le shrinks')
    · intro i hi
      exact absurd hi (by simp)
    · intro full' w hw
      rcases List.mem_cons.mp hw with rfl | hw
      · exact full
      · exact solid (fun x hx => full' x (List.mem_cons_of_mem _ hx)) w hw
    · intro τ hp all w hw
      rcases List.mem_cons.mp hw with rfl | hw
      · exact keeps τ hp all
      · exact keeps' τ (behind τ hp all) (fun x hx => all x (List.mem_cons_of_mem _ hx)) w hw
  | emptied span =>
    intro τ hp all
    exact h τ (behind τ hp all) fun x hx => all x (List.mem_cons_of_mem _ hx)

/-- A pass meets neighbours that overlap, so it does not fault. -/
theorem sweep_returns {low high index : Nat} {prev : Option Tier} {tiers : List Tier}
    (chain : tiers.IsChain Tier.Precedes) (first : ∀ p ∈ prev, ∀ t ∈ tiers.head?, p.Precedes t) :
    Returns (sweep low high index prev tiers) (Sweep.Sound low high index prev tiers) := by
  induction tiers generalizing index prev with
  | nil => exact Returns.pure ⟨rfl, fun _ _ => ⟨.nil, by simp⟩⟩
  | cons t rest ih =>
    obtain ⟨next, tail⟩ := List.isChain_cons.mp chain
    have follow (u : Tier) (same : u.triple = t.triple) :
        ∀ p ∈ some u, ∀ n ∈ rest.head?, p.Precedes n := by
      intro p hp n hn
      cases hp
      have := next n hn
      rwa [Tier.Precedes, ← same] at this
    unfold sweep
    split
    · rename_i outside
      refine (ih tail (follow t rfl)).bind fun s hs => Returns.pure (hs.behind ?_)
      intro low' high'
      omega
    · apply (Tier.between_returns (fun p hp => first p hp t rfl) next).bind
      intro u ⟨shrinks, keeps, linked⟩
      have admits (τ) (hp : ∀ p ∈ prev, p.Admits τ) (all : ∀ w ∈ t :: rest, w.Admits τ) :
          u.Admits τ :=
        keeps τ hp (all t List.mem_cons_self) fun n hn =>
          all n (List.mem_cons_of_mem _ (List.mem_of_head? hn))
      split
      · rename_i same
        exact (ih tail (follow t rfl)).bind fun s hs =>
          Returns.pure (hs.behind fun _ _ => linked same)
      · rename_i changed
        split
        · rename_i empty
          exact Returns.pure fun τ hp all => Tier.not_admits_of_isEmpty empty τ (admits τ hp all)
        · rename_i full
          exact (ih tail (follow u shrinks.1)).bind fun s hs =>
            Returns.pure (hs.behindRestricted shrinks changed (eq_false_of_ne_true full) admits)

/-- What passes over `tiers` answer after those that have restricted `span` already. -/
def Sweep.Settled (low high count : Nat) (tiers : List Tier) (span : Option Span) : Sweep → Prop
  | .kept tiers' span' =>
    List.Forall₂ Tier.ShrinksTo tiers tiers' ∧
    ((∀ t ∈ tiers, t.isEmpty = false) → ∀ t ∈ tiers', t.isEmpty = false) ∧
    (∀ τ, (∀ t ∈ tiers, t.Admits τ) → ∀ t ∈ tiers', t.Admits τ) ∧
    (low = 0 → count ≤ high + 1 → tiers'.IsChain Tier.Linked) ∧
    (span' = none → span = none ∧ tiers' = tiers) ∧
    ∀ s ∈ span', (∀ i < s.first, tiers'[i]? = tiers[i]?) ∧
      (span = none → Tier.count tiers' < Tier.count tiers) ∧
      ∀ s₀ ∈ span, s.first ≤ s₀.first
  | .emptied _ => ∀ τ, ¬ ∀ t ∈ tiers, t.Admits τ

theorem first_grow_le (span : Option Span) (more : Span) :
    (grow span more).first ≤ more.first ∧ ∀ s ∈ span, (grow span more).first ≤ s.first := by
  cases span with
  | none => simp [grow]
  | some s =>
    refine ⟨Nat.min_le_right _ _, fun s₀ same => ?_⟩
    obtain rfl := Option.some.inj same
    exact Nat.min_le_left _ _

/-- Each pass but the last removes an octant, so as many passes as there are octants suffice. -/
theorem settle_returns {count limit fuel low high : Nat} {tiers : List Tier} {span : Option Span}
    (chain : tiers.IsChain Tier.Precedes) (length : tiers.length = count)
    (enough : Tier.count tiers < fuel) :
    Returns (settle count limit fuel low high tiers span)
      (Sweep.Settled low high count tiers span) := by
  induction fuel generalizing low high tiers span with
  | zero => omega
  | succ fuel ih =>
    unfold settle
    apply (sweep_returns chain (by simp)).bind
    intro s hs
    cases s with
    | emptied more => exact Returns.pure fun τ => hs τ (by simp)
    | kept tiers' span' =>
      cases span' with
      | none =>
        -- An idle pass ends the run: the neighbours that it visited are linked.
        obtain ⟨rfl, linked⟩ := hs
        refine Returns.pure ⟨List.forall₂_same.mpr fun t _ => .refl t, id, fun _ => id,
          ?_, fun none => ⟨none, rfl⟩, ?_⟩
        · intro lowest highest
          exact (linked (by omega) (by omega)).1
        · intro s hs
          exact ⟨fun _ _ => rfl, fun none => by simp [none] at hs,
            fun s₀ hs₀ => by rw [Option.mem_unique hs hs₀]⟩
      | some more =>
        obtain ⟨shrinks, fewer, -, same, solid, keeps⟩ := hs
        -- The next pass starts from fewer octants over the same triples.
        have chain' : tiers'.IsChain Tier.Precedes := by
          rw [Tier.isChain_precedes, Tier.map_triple_of_forall₂ shrinks]
          exact Tier.isChain_precedes.mp chain
        obtain ⟨below, below'⟩ := first_grow_le span more
        apply (ih chain' (shrinks.length_eq ▸ length) (by omega)).mono
        intro s hs
        cases s with
        | emptied _ => exact fun τ all => hs τ (keeps τ (by simp) all)
        | kept tiers'' span'' =>
          obtain ⟨shrinks', solid', keeps', linked, idle, spans⟩ := hs
          refine ⟨forall₂_trans (R := Tier.ShrinksTo) (fun _ _ _ => .trans) shrinks shrinks',
            fun full => solid' (solid full), fun τ all => keeps' τ (keeps τ (by simp) all),
            fun lowest highest => linked (by omega) (by omega), ?_, ?_⟩
          · intro none
            exact absurd (idle none).1 (by simp)
          · intro s hs
            obtain ⟨same', -, first⟩ := spans s hs
            have bound := first _ rfl
            refine ⟨?_, ?_, ?_⟩
            · intro i hi
              rw [same' i hi, same i (by omega)]
            · intro _
              exact Nat.lt_of_le_of_lt (Tier.count_le shrinks') fewer
            · intro s₀ hs₀
              exact Nat.le_trans bound (below' s₀ hs₀)

namespace Formula

theorem Windowed.isChain {f : Formula} (h : f.Windowed) : f.tiers.IsChain Tier.Precedes := by
  rw [Tier.isChain_precedes, h]
  exact f.permutation.isChain_windows

/-- Cleanup makes `g` of `f`: it shrinks, is solid and keeps every solution. -/
structure Cleans (f g : Formula) : Prop where
  shrinks : f.ShrinksTo g
  solid : g.Solid
  keeps : ∀ τ, f.Admits τ → g.Admits τ

/-- A status without a change is that of an idle cleanup. Otherwise octants went, but none of a tier
before the first that the status names. -/
def Reports (f g : Formula) (status : CleanupStatus) : Prop :=
  if status.changed then
    g.tiers = [] ∨ g.clauseCount < f.clauseCount ∧ ∀ i < status.first, g.tiers[i]? = f.tiers[i]?
  else g = f

theorem Cleans.clear {f : Formula} (h : ∀ τ, ¬ f.Admits τ) : f.Cleans f.clear :=
  ⟨.clear f, by simp [Solid, Formula.clear], fun τ hf => absurd hf (h τ)⟩

theorem propagate_returns {f : Formula} {low high : Nat} (shape : f.Shaped) :
    Returns (f.propagate low high) fun (g, status) => f.Cleans g ∧ f.Reports g status ∧
      (low = 0 → f.tierCount ≤ high + 1 → g.tiers.IsChain Tier.Linked) := by
  unfold propagate
  split
  · rename_i none
    have none := List.isEmpty_iff.mp none
    refine Returns.pure ⟨⟨.refl f, by simp [Solid, none], fun _ => id⟩, ?_, by simp [none]⟩
    simp [Reports]
  · rename_i full
    have full : f.tiers ≠ [] := fun none => full (by simp [none])
    have windowed := shape.resolve_left full
    rw [if_neg (by simp [windowed.tierCount_add_two full])]
    dsimp only
    split
    · rename_i index found
      obtain ⟨bound, empty, -⟩ := List.findIdx?_eq_some_iff_getElem.mp found
      refine Returns.pure ⟨.clear ?_, .inl rfl, fun _ _ => .nil⟩
      intro τ hf
      exact Tier.not_admits_of_isEmpty empty τ (hf.2 _ (List.getElem_mem bound))
    · rename_i found
      have solid : f.Solid := List.findIdx?_eq_none_iff.mp found
      apply (settle_returns windowed.isChain rfl (Nat.lt_add_of_pos_right (by decide))).bind
      intro s hs
      cases s with
      | emptied span =>
        exact Returns.pure ⟨.clear fun τ hf => hs τ hf.2, .inl rfl, fun _ _ => .nil⟩
      | kept tiers span =>
        obtain ⟨shrinks, solid', keeps, linked, idle, spans⟩ := hs
        have cleans : f.Cleans ⟨f.permutation, tiers⟩ := by
          refine ⟨⟨rfl, .inr shrinks⟩, solid' solid, fun τ hf => ⟨fun none => hf.1 ?_, keeps τ hf.2⟩⟩
          obtain rfl : tiers = [] := none
          exact List.forall₂_nil_right_iff.mp shrinks
        cases span with
        | none =>
          obtain ⟨-, rfl⟩ := idle rfl
          exact Returns.pure ⟨cleans, rfl, linked⟩
        | some span =>
          obtain ⟨same, fewer, -⟩ := spans span rfl
          exact Returns.pure ⟨cleans, .inr ⟨fewer rfl, same⟩, linked⟩

theorem cleanup_returns {f : Formula} (shape : f.Shaped) :
    Returns f.cleanup fun (g, _) => f.Cleans g ∧ g.tiers.IsChain Tier.Linked :=
  (propagate_returns shape).mono fun (_, _) ⟨cleans, _, linked⟩ =>
    ⟨cleans, linked rfl (Nat.le_add_of_sub_le (Nat.le_refl _))⟩

theorem cleanupAround_returns {f : Formula} {index : Nat} (shape : f.Shaped) :
    Returns (f.cleanupAround index) fun (g, status) => f.Cleans g ∧ f.Reports g status :=
  (propagate_returns shape).mono fun (_, _) ⟨cleans, reports, _⟩ => ⟨cleans, reports⟩

theorem cleaned_returns {f : Formula} (shape : f.Shaped) :
    Returns f.cleaned fun g => f.Cleans g ∧ g.tiers.IsChain Tier.Linked :=
  (cleanup_returns shape).bind fun _ h => Returns.pure h

end Formula

end TripletSat
