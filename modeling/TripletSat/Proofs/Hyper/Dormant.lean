import Mathlib
import TripletSat.Proofs.Hyper.Holding

/-!
Unifications that find nothing to do. What vertices agree on is united from unified groups, and so is
what arrives at an octant; unions of unified groups are unified. So in no pass of a construction does
the unification of what was agreed on change anything, nor the unification of the new layer.
-/

namespace TripletSat

variable {ε σ α : Type} {others parts group : List Formula} {layer : Layer}

theorem Firm.run_unifyGroup (h : Firm group) : (unifyGroup group).run = .ok (.ok group) := by
  unfold unifyGroup
  split
  · rfl
  · rename_i f
    have tidy := h.closed.tidy List.mem_cons_self (h.tiered f List.mem_cons_self)
    rw [if_neg (by simp [tidy.nonempty])]
    rfl
  · rename_i none one
    have two : 2 ≤ group.length := by
      match group, none, one with
      | [], none, _ => exact absurd rfl none
      | [f], _, one => exact absurd rfl (one f)
      | _ :: _ :: _, _, _ => simp
    rw [ExceptT.run_bind, h.run_unify two]
    rfl

theorem run_lift_bind {β : Type} {x : Checked α} {a : α} {f : α → Attempt ε β} (run : x = .ok a) :
    (liftM x >>= f).run = (f a).run := by
  subst run
  rfl

theorem run_foldlM_eq_self {f : σ → α → Attempt ε σ} {xs : List α} {s : σ}
    (idle : ∀ x ∈ xs, (f s x).run = .ok (.ok s)) : (xs.foldlM f s).run = .ok (.ok s) := by
  induction xs with
  | nil => rfl
  | cons x rest ih =>
    rw [List.foldlM_cons, ExceptT.run_bind, idle x List.mem_cons_self]
    exact ih fun y hy => idle y (List.mem_cons_of_mem _ hy)

theorem Layer.Formed.update_self (h : layer.Formed others) {v : Vertex} (hv : v ∈ layer) :
    Layer.update layer v = layer := by
  refine (List.map_congr_left fun u hu => ?_).trans (List.map_id layer)
  split
  · rename_i same
    exact (h.vertex_eq hu hv same).symm
  · rfl

/-- What parts agree on with a layer is found, and it is unified. -/
theorem agreed_firm {w : Triple} {o : Octant} (hosts : Hosts others w) (formed : layer.Formed others)
    (remnants : ∀ v ∈ layer, Remnants others v.parts) (partsOf : PartsOf others parts)
    (h : Pinned others w o parts) :
    Returns (agreed parts layer) fun united => ∀ group ∈ united, Firm group := by
  have ensures := agreed_ensures (P := fun group => Pinned others w o group ∧ Firm group)
    (fun v hv => (h.intersect (remnants v hv) hosts).mono fun met hmet =>
      hmet.unifyGroup hosts.windowed) fun _ _ => Pinned.union_firm hosts
  obtain ⟨r, run, -⟩ := filterThrough_attempts partsOf formed
  cases found : agreed parts layer with
  | ok united => exact ⟨united, rfl, fun group member => (ensures.of_canReturn found group member).2⟩
  | error e =>
    rw [filterThrough_eq, found] at run
    cases run

namespace HyperSystem

variable {check : Bool} {start s : HyperSystem} {index tier : Nat} {o : Octant}
  {window : Nat → Option Triple}

theorem layer_eq (hl : s.layers[tier]? = some layer) : s.layer tier = .ok layer := by
  rw [HyperSystem.layer, hl]
  rfl

theorem run_unifyVertex (clean : s.Clean) (hl : s.layers[tier]? = some layer)
    (firm : ∀ v ∈ layer, Firm v.parts) (ho : o ∈ Layer.keys layer) :
    (unifyVertex tier s o).run = .ok (.ok s) := by
  have formed := clean.formed.layers layer (List.mem_of_getElem? hl)
  obtain ⟨v, hv, rfl⟩ := Layer.mem_keys.mp ho
  have stands : { s with layers := s.layers.set tier (Layer.update layer v) } = s := by
    obtain ⟨_, rfl⟩ := List.getElem?_eq_some_iff.mp hl
    rw [formed.update_self hv, List.set_getElem_self]
  unfold unifyVertex
  rw [if_neg (by simp [clean.dirtyCount]), run_lift_bind (layer_eq hl),
    show Layer.vertex? layer v.octant = some v from formed.vertex?_eq hv]
  dsimp only
  rw [run_lift_bind (firm v hv).run_unifyGroup]
  exact congrArg (fun s => Except.ok (Except.ok s)) stands

theorem run_unifyLayer (clean : s.Clean) (hl : s.layers[tier]? = some layer)
    (firm : ∀ v ∈ layer, Firm v.parts) : (s.unifyLayer tier).run = .ok (.ok s) := by
  unfold unifyLayer
  rw [run_lift_bind (layer_eq hl)]
  exact run_foldlM_eq_self fun o => run_unifyVertex clean hl firm

/-- In the pass that adds the layer at `index` nothing is left to unify: not for what the vertices of
the layer before, moved and filtered so far, agree on with an earlier layer, and not for the vertices
of the new layer when the pass comes to unify them. -/
structure Dormant (s : HyperSystem) (index : Nat) : Prop where
  filtering : ∀ source next, s.layers[index - 1]? = some source → s.basic.tiers[index]? = some next →
    ∀ v ∈ source, ∀ value passed layer left, s.layers.take (index - 1) = passed ++ layer :: left →
      Attempts (v.shift passed next.triple.c value)
        (fun parts => Returns (agreed parts layer) fun united =>
          ∀ group ∈ united, (unifyGroup group).run = .ok (.ok group))
        fun _ => True
  unifying : Attempts (s.trimmed index)
    (fun s' => s'.dirtyCount = 0 → ∃ layer, s'.layers[index]? = some layer ∧
      (∀ v ∈ layer, (unifyGroup v.parts).run = .ok (.ok v.parts)) ∧
      (s'.unifyLayer index).run = .ok (.ok s'))
    fun _ => True

theorem Settled.dormant (h : Settled others window s) (above : Over others window s) (clean : s.Clean)
    {k : Nat} (length : s.layers.length = k + 1) (more : k + 1 < s.tierCount) :
    s.Dormant (k + 1) where
  filtering source next hl hnext v hv value passed layer left split := by
    obtain ⟨t, ht, -⟩ := clean.formed.exists_tier (show k < s.tierCount by omega)
    have hosts := above.hosts clean.formed hnext
    have precedes : t.triple.Precedes next.triple := Permutation.precedes_of_windows
      (clean.formed.window?_eq ht) (clean.formed.window?_eq hnext)
    have pinned := h.pinned k source _ hl (above.window_eq clean.formed ht) v hv
    have known : ∀ f ∈ others, next.triple.c ∈ f.permutation.names :=
      fun f hf => hosts.known f hf _ (Triple.name_mem_names next.triple .c)
    have earlier : ∀ l ∈ passed ++ layer :: left, l ∈ s.layers := by
      rw [← split]
      exact fun l => List.mem_of_mem_take
    have formed (l : Layer) (hl : l ∈ passed ++ layer :: left) : l.Formed others :=
      above.same ▸ clean.formed.layers l (earlier l hl)
    have remnants (l : Layer) (hl : l ∈ passed ++ layer :: left) :=
      h.remnants above clean.formed l (earlier l hl)
    have front (l : Layer) (hl : l ∈ passed) := List.mem_append_left (layer :: left) hl
    have here : layer ∈ passed ++ layer :: left := by simp
    have partsOf : PartsOf others v.parts :=
      above.same ▸ (clean.formed.layers source (List.mem_of_getElem? hl)).parts v hv
    have moves : Attempts (v.shift passed next.triple.c value) _ _ :=
      Vertex.shift_attempts partsOf (fun l hl => formed l (front l hl)) known
    refine (moves.and_ensures (Vertex.shift_pinned pinned precedes hosts
      (fun l hl => remnants l (front l hl)) value)).mono ?_ fun _ _ => trivial
    rintro parts ⟨⟨partsOf, -⟩, reached, -⟩
    exact (agreed_firm hosts (formed layer here) (remnants layer here) partsOf reached).mono
      fun united firm group member => (firm group member).run_unifyGroup
  unifying := by
    refine Attempts.mono ((trimmed_attempts clean length more).and_ensures
      (trimmed_tended above clean length more h)) ?_ fun _ _ => trivial
    rintro s' ⟨⟨shifted, advances, basic, -, longer, progress⟩, h'⟩ idle
    have clean' : s'.Clean := progress.settles.resolve_right fun ⟨_, stale, _⟩ =>
      Nat.ne_of_gt stale.dirtyCount_pos idle
    have bound : k + 1 < s'.layers.length := by
      have := progress.length
      omega
    have hl := List.getElem?_eq_getElem bound
    have firm (v : Vertex) (hv : v ∈ s'.layers[k + 1]) : Firm v.parts :=
      (h'.firm (k + 1) _ hl v hv (clean'.fresh _ (List.getElem_mem bound) v hv)).resolve_right
        And.right
    exact ⟨_, hl, fun v hv => (firm v hv).run_unifyGroup, run_unifyLayer clean' hl firm⟩

theorem Underway.dormant {structures : List Formula} {i : Nat} {basic : Formula}
    (hbasic : structures[i]? = some basic) (windowed : ∀ f ∈ structures, f.Windowed)
    (solid : ∀ f ∈ structures, f.Solid)
    (same : ∀ f ∈ structures, ∀ g ∈ structures, f.permutation.sameVariables g.permutation = true)
    (underway : Underway check (started structures i basic) index s) (more : index < basic.tierCount) :
    s.Dormant index := by
  have member := List.mem_of_getElem? hbasic
  have formed : (started structures i basic).Formed := formed_started hbasic windowed
    ⟨(solid basic member).not_isEmpty underway.tiers, solid basic member⟩ same
  have above := over_started i basic windowed solid
  obtain ⟨advances, clean, rfl, some⟩ := underway.ready formed
  have room : s.layers.length < s.tierCount := advances.tierCount_eq clean.formed ▸ more
  obtain ⟨k, length⟩ : ∃ k, s.layers.length = k + 1 := ⟨s.layers.length - 1, by omega⟩
  rw [length] at room ⊢
  exact (underway.settled above formed).dormant (above.advances advances) clean length room

/-- The unions of two unified lists of structures are unified. So in every pass of a construction
the unification of what was agreed on and that of the new layer succeed and change nothing. -/
theorem unify_unions_dormant :
    (∀ as bs a b : List Formula, 2 ≤ as.length → (∀ f ∈ as, f.Windowed) → (∀ f ∈ bs, f.Windowed) →
      List.Forall₂ (fun f g : Formula => f.permutation = g.permutation) as bs →
      (unify as).run = .ok (.ok ⟨a, 0⟩) → (unify bs).run = .ok (.ok ⟨b, 0⟩) →
        Returns (unionParts as bs) fun united => (unify united).run = .ok (.ok ⟨united, 0⟩)) ∧
    ∀ (structures : List Formula) (check : Bool), 2 ≤ structures.length →
      (∀ f ∈ structures, f.Windowed) → (∀ f ∈ structures, f.Solid) →
      (∀ f ∈ structures, ∀ g ∈ structures, f.permutation.sameVariables g.permutation = true) →
        ∃ i basic r events, basicIndex? structures = some i ∧ structures[i]? = some basic ∧
          (ofStructures structures check).outcome = .ok (r, events) ∧
          (∀ s, r = .ok s →
            ∃ index ≥ basic.tierCount, Underway check (started structures i basic) index s) ∧
          ∀ index s, Underway check (started structures i basic) index s → index < basic.tierCount →
            s.Dormant index := by
  constructor
  · intro as bs a b two windowed windowed' same run run'
    exact run_unify_unions two windowed windowed' same run run'
  · intro structures check two windowed solid same
    obtain ⟨i, basic, chosen, hbasic⟩ :=
      basicIndex?_some (List.ne_nil_of_length_pos (show 0 < structures.length by omega))
    obtain ⟨⟨r, events⟩, run, -⟩ :=
      (@ofStructures_concludes structures check two windowed solid same).outcome
    refine ⟨i, basic, r, events, chosen, hbasic, run, ?_, fun index s underway more =>
      underway.dormant hbasic windowed solid same more⟩
    rintro s rfl
    exact (ofStructures_ensures chosen hbasic build_underway).of_canReturn ⟨[], events, run⟩

/-- Two orders of four variables that both give the first variable the value true and the second the
given one. -/
def leaning (x : Bool) : List Formula :=
  [.along (.ofNames [1, 2, 3, 4]) [.inter (.half .a true) (.half .b x), .half .a x],
    .along (.ofNames [4, 1, 3, 2]) [.half .b true, .inter (.half .a true) (.half .c x)]]

/-- Three orders of five variables, each with a value pattern that no window takes. -/
def plaited : List Formula :=
  [.uniform (.ofNames [1, 2, 3, 4, 5]) (.erase .full ⟨true, true, true⟩),
    .uniform (.ofNames [5, 2, 4, 1, 3]) (.erase .full ⟨false, false, false⟩),
    .uniform (.ofNames [3, 5, 1, 4, 2]) (.erase .full ⟨true, false, true⟩)]

theorem unify_unions_dormant_plaited :
    ((unify (leaning true)).run = .ok (.ok ⟨leaning true, 0⟩) ∧
      (unify (leaning false)).run = .ok (.ok ⟨leaning false, 0⟩) ∧
      Returns (unionParts (leaning true) (leaning false)) fun united =>
        (unify united).run = .ok (.ok ⟨united, 0⟩)) ∧
    2 ≤ plaited.length ∧ (∀ f ∈ plaited, f.Windowed) ∧ (∀ f ∈ plaited, f.Solid) ∧
      (∀ f ∈ plaited, ∀ g ∈ plaited, f.permutation.sameVariables g.permutation = true) ∧
        ∃ i basic r events, basicIndex? plaited = some i ∧ plaited[i]? = some basic ∧
          (ofStructures plaited true).outcome = .ok (r, events) ∧
          (∀ s, r = .ok s →
            ∃ index ≥ basic.tierCount, Underway true (started plaited i basic) index s) ∧
          ∀ index s, Underway true (started plaited i basic) index s → index < basic.tierCount →
            s.Dormant index := by
  have windowed (x : Bool) : ∀ f ∈ leaning x, f.Windowed :=
    List.forall_mem_cons.mpr ⟨Formula.windowed_along (Nat.le_refl 2),
      List.forall_mem_singleton.mpr (Formula.windowed_along (Nat.le_refl 2))⟩
  have same : List.Forall₂ (fun f g : Formula => f.permutation = g.permutation)
      (leaning true) (leaning false) := .cons rfl (.cons rfl .nil)
  have run : (unify (leaning true)).run = .ok (.ok ⟨leaning true, 0⟩) := by cbv
  have run' : (unify (leaning false)).run = .ok (.ok ⟨leaning false, 0⟩) := by cbv
  have two : 2 ≤ plaited.length := by decide
  have windows : ∀ f ∈ plaited, f.Windowed := by simp [plaited, Formula.windowed_uniform]
  have solid : ∀ f ∈ plaited, f.Solid := by unfold Formula.Solid; decide
  have shared : ∀ f ∈ plaited, ∀ g ∈ plaited, f.permutation.sameVariables g.permutation = true := by
    decide
  refine ⟨⟨run, run', ?_⟩, two, windows, solid, shared, ?_⟩
  · exact unify_unions_dormant.1 _ _ _ _ (by decide) (windowed true) (windowed false) same run run'
  · exact unify_unions_dormant.2 plaited true two windows solid shared

end HyperSystem

end TripletSat
