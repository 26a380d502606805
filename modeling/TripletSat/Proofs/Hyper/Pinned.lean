import TripletSat.Proofs.Ensures
import TripletSat.Proofs.Remnants
import TripletSat.Proofs.Hyper.Parts

/-!
The parts of a vertex, pinned to its octant. Whatever is moved onto a value, filtered through earlier
layers and united at an octant are remnants of the other structures, and all that they admit takes
the octant; once unified, they are firm.
-/

namespace TripletSat

/-- Structures with tiers that unification leaves alone. -/
structure Firm (group : List Formula) : Prop where
  tiered : ∀ f ∈ group, f.tiers ≠ []
  closed : Closed group

theorem Firm.lone {f : Formula} (windowed : f.Windowed) (tidy : f.Tidy) : Firm [f] where
  tiered := List.forall_mem_singleton.mpr (Formula.tiers_ne_nil_of_not_isEmpty tidy.nonempty)
  closed := by
    refine ⟨List.forall_mem_singleton.mpr windowed, List.forall_mem_singleton.mpr tidy.solid,
      List.forall_mem_singleton.mpr ?_, List.pairwise_singleton _ _, ?_⟩
    · exact (windowed.cleaned_eq_self_iff tidy.solid).mpr tidy.linked
    · intro g hg v b forced k hk _
      obtain rfl := List.mem_singleton.mp hg
      exact List.mem_singleton.mp hk ▸ forced

theorem Unifies.firm {group : List Formula} {r : Unified} (h : Unifies group r)
    (shaped : ∀ f ∈ group, f.Shaped) : Firm r.group := by
  have tiered : ∀ f ∈ r.group, f.tiers ≠ [] := fun f hf =>
    Formula.tiers_ne_nil_of_not_isEmpty (h.tidy f hf).nonempty
  refine ⟨tiered, h.closed fun f hf => (shaped f hf).resolve_left fun gone => ?_⟩
  obtain ⟨g, hg, within⟩ := exists_of_forall₂ h.within.flip hf
  have shrunk := within.2
  rw [gone] at shrunk
  exact tiered g hg (List.forall₂_nil_left_iff.mp shrunk)

theorem Firm.run_unify {group : List Formula} (h : Firm group) (two : 2 ≤ group.length) :
    (unify group).run = .ok (.ok ⟨group, 0⟩) := by
  have greatest : Greatest group group := ⟨h.tiered, h.closed, .refl _, fun _ _ within => within⟩
  exact greatest.run_unify two h.closed.windowed (.refl _) (.refl _) (.refl _) (Nat.zero_add _)

def Remnants (others parts : List Formula) : Prop := List.Forall₂ Formula.Remnant others parts

theorem unifyGroup_firm {group : List Formula} (shaped : ∀ f ∈ group, f.Shaped)
    (clean : ∀ f ∈ group, f.Solid ∧ f.tiers.IsChain Tier.Linked) :
    Ensures (unifyGroup group) fun g => Remnants group g ∧ Firm g := by
  unfold unifyGroup
  split
  · exact .pure ⟨.nil, by simp, ⟨by simp, by simp, by simp, .nil, by simp⟩⟩
  · rename_i f
    split
    · exact .throw
    · rename_i full
      obtain ⟨solid, linked⟩ := clean f List.mem_cons_self
      have tidy : f.Tidy := ⟨⟨eq_false_of_ne_true full, solid⟩, linked⟩
      have windowed := (shaped f List.mem_cons_self).windowed tidy.nonempty
      exact .pure ⟨.cons ⟨.refl f, solid, linked⟩ .nil, .lone windowed tidy⟩
  · rename_i none one
    have two : 2 ≤ group.length := by
      match group, none, one with
      | [], none, _ => exact absurd rfl none
      | [f], _, one => exact absurd rfl (one f)
      | _ :: _ :: _, _, _ => simp
    apply (unify_unifies two shaped).ensures.bind
    intro r h
    have both := ((List.forall₂_and_left _ _).mpr ⟨h.tidy, h.reduces.shrinks.flip⟩).flip
    exact .pure ⟨both.imp fun _ _ ⟨tidy, shrinks⟩ => ⟨shrinks, tidy.solid, tidy.linked⟩, h.firm shaped⟩

/-- Structures that each have a tier for every window and know the variables of a triple. -/
structure Hosts (others : List Formula) (w : Triple) : Prop where
  windowed : ∀ f ∈ others, f.Windowed
  known : ∀ f ∈ others, ∀ v ∈ w.names, v ∈ f.permutation.names

/-- A remnant of each of the other structures, all of them taking the octant. -/
def Pinned (others : List Formula) (w : Triple) (o : Octant) (parts : List Formula) : Prop :=
  List.Forall₂ (fun f g : Formula => f.Remnant g ∧ g.Takes w o) others parts

variable {others parts parts' : List Formula} {w u : Triple} {o : Octant} {layer : Layer}

theorem zip_ensures {op : Formula → Formula → Checked Formula} {R R' S : Formula → Formula → Prop}
    (spec : ∀ f ∈ others, ∀ g k, R f g → R' f k → Ensures (op g k) (S f))
    (h : List.Forall₂ R others parts) (h' : List.Forall₂ R' others parts') :
    Ensures ((parts.zip parts').mapM fun (g, k) => op g k) (List.Forall₂ S others) := by
  induction h generalizing parts' with
  | nil => exact .pure .nil
  | @cons f g others parts head tail ih =>
    cases h' with
    | @cons _ k _ parts' head' tail' =>
      rw [List.zip_cons_cons, List.mapM_cons]
      apply (spec f List.mem_cons_self g k head head').bind
      intro x hx
      apply (ih (fun f hf => spec f (List.mem_cons_of_mem _ hf)) tail').bind
      intro xs hxs
      exact .pure (.cons hx hxs)

/-- What the parts agree on with the vertices of a layer, united. -/
def agreed (parts : List Formula) (layer : Layer) : Checked (Option (List Formula)) :=
  layer.foldlM (fun agreeing v => do
    match ← (unifyGroup (← intersectParts parts v.parts)).run with
    | .error _ => return agreeing
    | .ok group =>
      match agreeing with
      | none => return some group
      | some agreeing => return some (← unionParts agreeing group)) none

theorem filterThrough_eq (parts : List Formula) (layer : Layer) :
    filterThrough parts layer = (do
      match ← (agreed parts layer : Checked _) with
      | none => throw ⟨0⟩
      | some united => unifyGroup united) := rfl

/-- What holds of all that is unified holds of what is agreed on, if unions keep it. -/
theorem agreed_ensures {P : List Formula → Prop}
    (unified : ∀ v ∈ layer, Ensures (intersectParts parts v.parts) fun met =>
      Ensures (unifyGroup met) P)
    (union : ∀ a b, P a → P b → Ensures (unionParts a b) P) :
    Ensures (agreed parts layer) fun united => ∀ a ∈ united, P a := by
  refine (Ensures.foldlM (fun rest agreeing => (∀ v ∈ rest, v ∈ layer) ∧ ∀ a ∈ agreeing, P a) ?_
    ⟨fun _ => id, by simp⟩).mono fun _ h => h.2
  rintro v rest agreeing ⟨part, agreed⟩
  obtain ⟨hv, part⟩ := List.forall_mem_cons.mp part
  apply (unified v hv).bind
  intro met hmet
  apply hmet.look.bind
  intro r hr
  cases r with
  | error e => exact .pure ⟨part, agreed⟩
  | ok group =>
    cases agreeing with
    | none => exact .pure ⟨part, by simpa using hr group rfl⟩
    | some a =>
      apply (union a group (agreed a rfl) (hr group rfl)).bind
      intro united hunited
      exact .pure ⟨part, by simpa using hunited⟩

namespace Pinned

theorem remnants (h : Pinned others w o parts) : Remnants others parts :=
  h.imp fun _ _ => And.left

theorem takes (h : Pinned others w o parts) : ∀ p ∈ parts, p.Takes w o :=
  forall_mem_of_forall₂ h fun _ _ _ held => held.2

theorem trans (h : Pinned others w o parts) (h' : Remnants parts parts') : Pinned others w o parts' := by
  refine forall₂_comp ?_ h h'
  rintro f g k ⟨remnant, takes⟩ remnant'
  exact ⟨remnant.trans remnant', Formula.ShrinksTo.takes remnant'.shrinks takes⟩

theorem clear (h : Pinned others w o parts) : Pinned others w o (parts.map Formula.clear) := by
  refine h.trans (List.forall₂_map_right_iff.mpr (List.forall₂_same.mpr fun f _ => ?_))
  exact .of_nil (.clear f) rfl

theorem permutations (h : Pinned others w o parts) (h' : Pinned others w o parts') :
    List.Forall₂ (fun f g : Formula => f.permutation = g.permutation) parts parts' :=
  forall₂_comp (fun _ _ _ ⟨remnant, _⟩ ⟨remnant', _⟩ =>
    remnant.shrinks.1.trans remnant'.shrinks.1.symm) h.flip h'

theorem shaped (h : Pinned others w o parts) (windowed : ∀ f ∈ others, f.Windowed) :
    ∀ g ∈ parts, g.Shaped ∧ g.Solid ∧ g.tiers.IsChain Tier.Linked :=
  forall_mem_of_forall₂ h fun f hf _ ⟨remnant, _⟩ =>
    ⟨remnant.shaped (windowed f hf), remnant.solid, remnant.linked⟩

theorem unifyGroup (h : Pinned others w o parts) (windowed : ∀ f ∈ others, f.Windowed) :
    Ensures (unifyGroup parts) fun group => Pinned others w o group ∧ Firm group := by
  have each := h.shaped windowed
  exact (unifyGroup_firm (fun g hg => (each g hg).1) fun g hg => (each g hg).2).mono
    fun group ⟨remnants, firm⟩ => ⟨h.trans remnants, firm⟩

theorem union (h : Pinned others w o parts) (h' : Pinned others w o parts') (hosts : Hosts others w) :
    Ensures (unionParts parts parts') (Pinned others w o) := by
  refine zip_ensures (fun f hf g k ⟨hg, takes⟩ ⟨hk, takes'⟩ => ?_) h h'
  refine (hg.union hk (hosts.windowed f hf)).ensures.mono fun united ⟨remnant, fixes⟩ =>
    ⟨remnant, Formula.takes_iff.mpr fun p => ?_⟩
  exact fixes _ (hosts.known f hf _ (Triple.name_mem_names w p)) _ (Formula.takes_iff.mp takes p)
    (Formula.takes_iff.mp takes' p)

theorem intersect (h : Pinned others w o parts) (h' : Remnants others parts') (hosts : Hosts others w) :
    Ensures (intersectParts parts parts') (Pinned others w o) := by
  refine zip_ensures (fun f hf g k ⟨hg, takes⟩ hk => ?_) h h'
  exact (hg.intersect hk (hosts.windowed f hf)).ensures.mono fun met ⟨remnant, admits⟩ =>
    ⟨remnant, fun τ hτ => takes τ ((admits τ).mp hτ).1⟩

theorem filterThrough (h : Pinned others w o parts) (hosts : Hosts others w)
    (remnants : ∀ v ∈ layer, Remnants others v.parts) :
    Ensures (filterThrough parts layer) fun kept => Pinned others w o kept ∧ Firm kept := by
  rw [filterThrough_eq]
  have united := agreed_ensures (P := Pinned others w o) (fun v hv =>
    (h.intersect (remnants v hv) hosts).mono fun met hmet =>
      (hmet.unifyGroup hosts.windowed).mono fun _ => And.left) fun _ _ h h' => h.union h' hosts
  apply Ensures.bind (.lift united)
  intro agreeing agreed
  cases agreeing with
  | none => exact .throw
  | some a => exact (agreed a rfl).unifyGroup hosts.windowed

end Pinned

/-! ### Moving a vertex -/

variable {v : Vertex} {earlier : List Layer} {next : Tier}

/-- Restricted to a value of the new variable, parts are pinned to the octant with that value. -/
theorem Pinned.concretize (h : Pinned others w o parts) (precedes : w.Precedes u)
    (hosts : Hosts others u) (value : Bool) :
    Ensures (parts.mapM (·.concretize u.c value)) (Pinned others u (o.shift value)) := by
  have known : ∀ g ∈ parts, u.c ∈ g.permutation.names :=
    forall_mem_of_forall₂ h fun f hf g ⟨remnant, _⟩ =>
      remnant.shrinks.1 ▸ hosts.known f hf _ (Triple.name_mem_names u .c)
  have each := h.shaped hosts.windowed
  refine (Ensures.mapM fun g hg => (Formula.concretize_remnant (b := value) (each g hg).1
    (each g hg).2.1 (known g hg)).ensures).mono fun moved moves => ?_
  refine forall₂_comp ?_ h moves
  rintro f g k ⟨remnant, takes⟩ ⟨remnant', admits⟩
  refine ⟨remnant.trans remnant', fun τ hτ => ?_⟩
  obtain ⟨hg, same⟩ := (admits τ).mp hτ
  rw [← takes τ hg, ← same, τ.octant_shift precedes]

namespace Vertex

theorem shift_pinned (h : Pinned others w v.octant v.parts) (precedes : w.Precedes u)
    (hosts : Hosts others u) (remnants : ∀ layer ∈ earlier, ∀ v ∈ layer, Remnants others v.parts)
    (value : Bool) :
    Ensures (v.shift earlier u.c value)
      fun parts => Pinned others u (v.octant.shift value) parts ∧ Firm parts := by
  unfold Vertex.shift
  apply Ensures.bind (.lift (h.concretize precedes hosts value))
  intro moved hmoved
  apply (hmoved.unifyGroup hosts.windowed).bind
  rintro group hgroup
  refine (Ensures.foldlM (fun rest parts => (∀ layer ∈ rest, layer ∈ earlier) ∧
    Pinned others u (v.octant.shift value) parts ∧ Firm parts) ?_ ⟨fun _ => id, hgroup⟩).mono
      fun _ h => h.2
  rintro layer rest parts ⟨part, hparts, -⟩
  obtain ⟨hlayer, part⟩ := List.forall_mem_cons.mp part
  exact (hparts.filterThrough hosts (remnants layer hlayer)).mono fun kept h => ⟨part, h⟩

theorem shiftEdge_pinned (h : Pinned others w v.octant v.parts) (precedes : w.Precedes next.triple)
    (hosts : Hosts others next.triple)
    (remnants : ∀ layer ∈ earlier, ∀ v ∈ layer, Remnants others v.parts) (value : Bool) :
    Ensures (v.shiftEdge earlier next value)
      fun r => ∀ a ∈ r.2, Pinned others next.triple a.1 a.2 ∧ Firm a.2 := by
  unfold Vertex.shiftEdge
  dsimp only
  split
  · apply (shift_pinned h precedes hosts remnants value).look.bind
    intro r hr
    cases r with
    | ok parts => exact .pure (List.forall_mem_singleton.mpr (hr parts rfl))
    | error e => exact .pure (by simp)
  · exact .pure (by simp)

theorem shiftEdges_pinned (h : Pinned others w v.octant v.parts) (precedes : w.Precedes next.triple)
    (hosts : Hosts others next.triple)
    (remnants : ∀ layer ∈ earlier, ∀ v ∈ layer, Remnants others v.parts) :
    Ensures (v.shiftEdges earlier next) fun r =>
      (r.1.octant = v.octant ∧ r.1.parts = v.parts ∧ r.1.dirty = v.dirty) ∧
        ∀ a ∈ r.2, Pinned others next.triple a.1 a.2 ∧ Firm a.2 := by
  unfold Vertex.shiftEdges
  apply (shiftEdge_pinned h precedes hosts remnants false).bind
  intro low hlow
  apply (shiftEdge_pinned h precedes hosts remnants true).bind
  intro high hhigh
  refine .pure ⟨⟨rfl, rfl, rfl⟩, fun a ha => ?_⟩
  exact (List.mem_append.mp ha).elim (hlow a) (hhigh a)

end Vertex

/-- What holds of the parts at an octant holds of what arrives there, if unions keep it. -/
theorem Layer.arrive_ensures {P : Octant → List Formula → Prop} {arrival : Octant × List Formula}
    (union : ∀ o parts parts', P o parts → P o parts' → Ensures (unionParts parts parts') (P o))
    (fresh : layer.Fresh) (h : ∀ v ∈ layer, P v.octant v.parts) (ha : P arrival.1 arrival.2) :
    Ensures (layer.arrive arrival)
      fun layer => layer.Fresh ∧ ∀ v ∈ layer, P v.octant v.parts := by
  induction layer with
  | nil => exact .pure ⟨List.forall_mem_singleton.mpr rfl, List.forall_mem_singleton.mpr ha⟩
  | cons v rest ih =>
    obtain ⟨hv, hrest⟩ := List.forall_mem_cons.mp h
    obtain ⟨vFresh, restFresh⟩ := List.forall_mem_cons.mp fresh
    unfold arrive
    split
    · exact .pure ⟨List.forall_mem_cons.mpr ⟨rfl, fresh⟩, List.forall_mem_cons.mpr ⟨ha, h⟩⟩
    · split
      · rename_i same
        apply (union _ _ _ hv (same ▸ ha)).bind
        intro united hunited
        exact .pure ⟨List.forall_mem_cons.mpr ⟨vFresh, restFresh⟩,
          List.forall_mem_cons.mpr ⟨hunited, hrest⟩⟩
      · apply (ih restFresh hrest).bind
        rintro rest' ⟨restFresh', hrest'⟩
        exact .pure ⟨List.forall_mem_cons.mpr ⟨vFresh, restFresh'⟩,
          List.forall_mem_cons.mpr ⟨hv, hrest'⟩⟩

end TripletSat
