import TripletSat.Hyper.Construction
import TripletSat.Proofs.Unification

/-!
Vertices on the way into a layer. The parts of a vertex are structures over the permutations of the
other structures, one each; moving them onto a new value and filtering them through earlier layers
keeps every valuation that the value and some vertex of each of these layers allow.
-/

namespace TripletSat

/-- A structure over the permutation of another. -/
def Formula.Resembles (f g : Formula) : Prop := g.permutation = f.permutation ∧ g.Shaped

/-- One part for each of the other structures. -/
def PartsOf (others parts : List Formula) : Prop := List.Forall₂ Formula.Resembles others parts

variable {others parts parts' : List Formula} {layer : Layer}

namespace PartsOf

theorem of_shaped (shaped : ∀ f ∈ others, f.Shaped) : PartsOf others others :=
  List.forall₂_same.mpr fun f hf => ⟨rfl, shaped f hf⟩

theorem shaped (h : PartsOf others parts) : ∀ f ∈ parts, f.Shaped :=
  forall_mem_of_forall₂ h fun _ _ _ resembles => resembles.2

theorem shrinks (h : PartsOf others parts) (h' : List.Forall₂ Formula.ShrinksTo parts parts') :
    PartsOf others parts' := by
  refine forall₂_comp ?_ h h'
  intro f g k resembles shrinks
  exact ⟨shrinks.1.trans resembles.1, shrinks.shaped resembles.2⟩

/-- Combining two lists of parts member by member. -/
theorem zip_returns {op : Formula → Formula → Checked Formula}
    {Keeps : Formula → Formula → Valuation → Prop}
    (spec : ∀ f g, f.Shaped → g.Shaped → f.permutation = g.permutation → Returns (op f g) fun h =>
      h.permutation = f.permutation ∧ h.Shaped ∧ ∀ τ, Keeps f g τ → h.Admits τ)
    (h : PartsOf others parts) (h' : PartsOf others parts') :
    Returns ((parts.zip parts').mapM fun (f, g) => op f g) fun combined =>
      PartsOf others combined ∧
        ∀ τ, (∀ x ∈ parts.zip parts', Keeps x.1 x.2 τ) → AllAdmit combined τ := by
  induction h generalizing parts' with
  | nil => exact Returns.pure ⟨.nil, fun τ _ f hf => absurd hf List.not_mem_nil⟩
  | @cons other f others parts head tail ih =>
    cases h' with
    | @cons _ g _ parts' head' tail' =>
      rw [List.zip_cons_cons, List.mapM_cons]
      apply (spec f g head.2 head'.2 (head.1.trans head'.1.symm)).bind
      intro k ⟨permutation, shape, keeps⟩
      refine (ih tail').bind fun ks ⟨hks, keepsAll⟩ => Returns.pure ⟨?_, ?_⟩
      · exact .cons ⟨permutation.trans head.1, shape⟩ hks
      · intro τ all
        obtain ⟨first, rest⟩ := List.forall_mem_cons.mp all
        exact List.forall_mem_cons.mpr ⟨keeps τ first, keepsAll τ rest⟩

theorem union_returns (h : PartsOf others parts) (h' : PartsOf others parts') :
    Returns (unionParts parts parts') fun united =>
      PartsOf others united ∧ ∀ τ, AllAdmit parts τ ∨ AllAdmit parts' τ → AllAdmit united τ := by
  have spec (f g : Formula) (hf : f.Shaped) (hg : g.Shaped) (same : f.permutation = g.permutation) :
      Returns (f.union g) fun k =>
        k.permutation = f.permutation ∧ k.Shaped ∧ ∀ τ, f.Admits τ ∨ g.Admits τ → k.Admits τ :=
    (Formula.union_returns hf hg same).mono fun k unites =>
      ⟨unites.permutation, unites.shaped, unites.keeps⟩
  refine (zip_returns spec h h').mono
    fun united ⟨hunited, keeps⟩ => ⟨hunited, fun τ either => keeps τ ?_⟩
  intro x hx
  obtain ⟨left, right⟩ := List.of_mem_zip hx
  exact either.imp (fun all => all x.1 left) fun all => all x.2 right

theorem intersect_returns (h : PartsOf others parts) (h' : PartsOf others parts') :
    Returns (intersectParts parts parts') fun met =>
      PartsOf others met ∧ ∀ τ, AllAdmit parts τ → AllAdmit parts' τ → AllAdmit met τ := by
  have spec (f g : Formula) (hf : f.Shaped) (_ : g.Shaped) (same : f.permutation = g.permutation) :
      Returns (f.intersect g) fun k =>
        k.permutation = f.permutation ∧ k.Shaped ∧ ∀ τ, f.Admits τ ∧ g.Admits τ → k.Admits τ :=
    (Formula.intersect_returns hf same).mono fun k intersects =>
      ⟨intersects.shrinks.1, intersects.shrinks.shaped hf,
        fun τ both => intersects.keeps τ both.1 both.2⟩
  refine (zip_returns spec h h').mono
    fun met ⟨hmet, keeps⟩ => ⟨hmet, fun τ all all' => keeps τ ?_⟩
  intro x hx
  obtain ⟨left, right⟩ := List.of_mem_zip hx
  exact ⟨all x.1 left, all' x.2 right⟩

theorem unifyGroup_attempts (h : PartsOf others parts) :
    Attempts (unifyGroup parts)
      (fun group => PartsOf others group ∧ ∀ τ, AllAdmit parts τ → AllAdmit group τ)
      fun _ => Disjoint parts :=
  Attempts.mono (TripletSat.unifyGroup_attempts h.shaped)
    (fun _ ⟨reduces, _⟩ => ⟨h.shrinks reduces.shrinks, reduces.keeps⟩) fun _ => id

end PartsOf

/-- An octant with an edge for each of its successors. A live edge leads to its own successor. -/
structure Branch where
  octant : Octant
  low : Edge
  high : Edge

namespace Branch

def Directed (b : Branch) : Prop :=
  (∀ o, b.low = .target o → o = b.octant.shift false) ∧
    ∀ o, b.high = .target o → o = b.octant.shift true

def Bare (b : Branch) : Prop := b.low = .absent ∧ b.high = .absent

theorem Bare.directed {b : Branch} (h : b.Bare) : b.Directed :=
  ⟨fun o live => by simp [h.1] at live, fun o live => by simp [h.2] at live⟩

end Branch

def Vertex.branch (v : Vertex) : Branch := ⟨v.octant, v.low, v.high⟩

namespace Layer

def branches (layer : Layer) : List Branch := layer.map Vertex.branch

theorem map_branches (layer : Layer) : layer.branches.map Branch.octant = keys layer := by
  simp [branches, keys, Vertex.branch, Function.comp_def]

theorem keys_eq_of_branches {layer' : Layer} (h : layer'.branches = layer.branches) :
    keys layer' = keys layer := by
  rw [← map_branches, h, map_branches]

/-- No edge has been looked at. -/
def Bare (layer : Layer) : Prop := ∀ v ∈ layer, v.branch.Bare

theorem forall_branch_iff {P : Branch → Prop} :
    (∀ v ∈ layer, P v.branch) ↔ ∀ b ∈ layer.branches, P b :=
  List.forall_mem_map.symm

theorem Bare.of_branches {layer' : Layer} (h : layer.Bare) (same : layer'.branches = layer.branches) :
    layer'.Bare := by
  rw [Bare, forall_branch_iff, same, ← forall_branch_iff]
  exact h

/-- The vertex of an octant has parts that all admit the valuation. -/
def Holds (layer : Layer) (o : Octant) (τ : Valuation) : Prop :=
  ∃ v ∈ layer, v.octant = o ∧ AllAdmit v.parts τ

/-- Ascending octants, parts of the other structures, and edges to the successors. -/
structure Formed (others : List Formula) (layer : Layer) : Prop where
  ascending : (keys layer).Pairwise fun o u => o.key < u.key
  parts : ∀ v ∈ layer, PartsOf others v.parts
  directed : ∀ v ∈ layer, v.branch.Directed

/-- Other parts on the same branches. -/
theorem Formed.of_branches {layer' : Layer} (h : layer.Formed others)
    (same : layer'.branches = layer.branches) (parts : ∀ v ∈ layer', PartsOf others v.parts) :
    layer'.Formed others := by
  refine ⟨keys_eq_of_branches same ▸ h.ascending, parts, ?_⟩
  rw [forall_branch_iff, same, ← forall_branch_iff]
  exact h.directed

/-- No vertex is dirty. -/
def Fresh (layer : Layer) : Prop := ∀ v ∈ layer, v.dirty = false

theorem mem_keys {o : Octant} : o ∈ keys layer ↔ ∃ v ∈ layer, v.octant = o := List.mem_map

theorem Holds.mem_keys {o : Octant} {τ : Valuation} (h : layer.Holds o τ) : o ∈ keys layer := by
  obtain ⟨v, hv, same, -⟩ := h
  exact List.mem_map.mpr ⟨v, hv, same⟩

theorem Formed.nil : Formed others [] := ⟨.nil, by simp, by simp⟩

theorem Formed.nodup (h : layer.Formed others) : (keys layer).Nodup :=
  OctantSet.nodup_of_ascending h.ascending

theorem Formed.vertex_eq (h : layer.Formed others) {u v : Vertex} (hu : u ∈ layer) (hv : v ∈ layer)
    (same : u.octant = v.octant) : u = v :=
  List.inj_on_of_nodup_map h.nodup hu hv same

theorem vertex?_some {o : Octant} {v : Vertex} (h : vertex? layer o = some v) :
    v ∈ layer ∧ v.octant = o := by
  unfold vertex? at h
  exact ⟨List.mem_of_find?_eq_some h, by simpa using List.find?_some h⟩

theorem vertex?_none {o : Octant} (h : vertex? layer o = none) : o ∉ keys layer := by
  unfold vertex? at h
  rw [List.find?_eq_none] at h
  intro member
  obtain ⟨v, hv, same⟩ := mem_keys.mp member
  exact h v hv (beq_iff_eq.mpr same)

theorem vertex?_eq_of_nodup (nodup : (keys layer).Nodup) {v : Vertex} (hv : v ∈ layer) :
    vertex? layer v.octant = some v := by
  cases found : vertex? layer v.octant with
  | none => exact absurd (mem_keys.mpr ⟨v, hv, rfl⟩) (vertex?_none found)
  | some u =>
    obtain ⟨hu, same⟩ := vertex?_some found
    rw [List.inj_on_of_nodup_map nodup hu hv same]

theorem Formed.vertex?_eq (h : layer.Formed others) {v : Vertex} (hv : v ∈ layer) :
    vertex? layer v.octant = some v :=
  vertex?_eq_of_nodup h.nodup hv

/-- What has arrived at a layer: a vertex for the octant, and nothing lost. -/
structure Arrived (others : List Formula) (arrival : Octant × List Formula)
    (layer layer' : Layer) : Prop where
  formed : layer'.Formed others
  fresh : layer'.Fresh
  bare : layer'.Bare
  keys : ∀ o, o ∈ keys layer' ↔ o = arrival.1 ∨ o ∈ keys layer
  keeps : ∀ o τ, layer.Holds o τ → layer'.Holds o τ
  holds : ∀ τ, AllAdmit arrival.2 τ → layer'.Holds arrival.1 τ

namespace Arrived

variable {arrival : Octant × List Formula} {rest rest' : Layer} {v : Vertex}

theorem insert (h : layer.Formed others) (fresh : layer.Fresh) (bare : layer.Bare)
    (hp : PartsOf others arrival.2) (above : ∀ o ∈ Layer.keys layer, arrival.1.key < o.key) :
    Arrived others arrival layer (.ofParts arrival.1 arrival.2 :: layer) where
  formed := ⟨List.pairwise_cons.mpr ⟨above, h.ascending⟩, List.forall_mem_cons.mpr ⟨hp, h.parts⟩,
    List.forall_mem_cons.mpr ⟨Branch.Bare.directed ⟨rfl, rfl⟩, h.directed⟩⟩
  fresh := List.forall_mem_cons.mpr ⟨rfl, fresh⟩
  bare := List.forall_mem_cons.mpr ⟨⟨rfl, rfl⟩, bare⟩
  keys _ := List.mem_cons
  keeps := by
    rintro o τ ⟨u, hu, same, all⟩
    exact ⟨u, List.mem_cons_of_mem _ hu, same, all⟩
  holds τ all := ⟨_, List.mem_cons_self, rfl, all⟩

theorem unite {united : List Formula} (h : Formed others (v :: rest)) (fresh : Fresh (v :: rest))
    (bare : Bare (v :: rest)) (same : arrival.1 = v.octant) (hunited : PartsOf others united)
    (keeps : ∀ τ, AllAdmit v.parts τ ∨ AllAdmit arrival.2 τ → AllAdmit united τ) :
    Arrived others arrival (v :: rest) ({ v with parts := united } :: rest) where
  formed := h.of_branches rfl
    (List.forall_mem_cons.mpr ⟨hunited, (List.forall_mem_cons.mp h.parts).2⟩)
  fresh := List.forall_mem_cons.mpr (List.forall_mem_cons.mp fresh)
  bare := bare.of_branches rfl
  keys o := by
    rw [same]
    exact ⟨.inr, fun either => either.elim (fun eq => eq ▸ List.mem_cons_self) id⟩
  keeps := by
    rintro o τ ⟨u, hu, eq, all⟩
    rcases List.mem_cons.mp hu with rfl | hu
    · exact ⟨_, List.mem_cons_self, eq, keeps τ (.inl all)⟩
    · exact ⟨u, List.mem_cons_of_mem _ hu, eq, all⟩
  holds τ all := ⟨_, List.mem_cons_self, same.symm, keeps τ (.inr all)⟩

theorem behind (arrived : Arrived others arrival rest rest') (h : Formed others (v :: rest))
    (fresh : Fresh (v :: rest)) (bare : Bare (v :: rest)) (below : v.octant.key < arrival.1.key) :
    Arrived others arrival (v :: rest) (v :: rest') where
  formed := by
    obtain ⟨above, -⟩ := List.pairwise_cons.mp h.ascending
    refine ⟨List.pairwise_cons.mpr ⟨?_, arrived.formed.ascending⟩,
      List.forall_mem_cons.mpr ⟨(List.forall_mem_cons.mp h.parts).1, arrived.formed.parts⟩,
      List.forall_mem_cons.mpr ⟨(List.forall_mem_cons.mp h.directed).1, arrived.formed.directed⟩⟩
    intro o ho
    rcases (arrived.keys o).mp ho with rfl | ho
    · exact below
    · exact above o ho
  fresh := List.forall_mem_cons.mpr ⟨(List.forall_mem_cons.mp fresh).1, arrived.fresh⟩
  bare := List.forall_mem_cons.mpr ⟨(List.forall_mem_cons.mp bare).1, arrived.bare⟩
  keys o := by
    simp only [Layer.keys, List.map_cons, List.mem_cons]
    rw [show o ∈ rest'.map Vertex.octant ↔ _ from arrived.keys o]
    exact or_left_comm
  keeps := by
    rintro o τ ⟨u, hu, eq, all⟩
    rcases List.mem_cons.mp hu with rfl | hu
    · exact ⟨u, List.mem_cons_self, eq, all⟩
    · obtain ⟨w, hw, eq, all⟩ := arrived.keeps o τ ⟨u, hu, eq, all⟩
      exact ⟨w, List.mem_cons_of_mem _ hw, eq, all⟩
  holds τ all := by
    obtain ⟨w, hw, eq, all⟩ := arrived.holds τ all
    exact ⟨w, List.mem_cons_of_mem _ hw, eq, all⟩

end Arrived

theorem arrive_returns {arrival : Octant × List Formula} (h : layer.Formed others)
    (fresh : layer.Fresh) (bare : layer.Bare) (hp : PartsOf others arrival.2) :
    Returns (layer.arrive arrival) (Arrived others arrival layer) := by
  induction layer with
  | nil => exact Returns.pure (.insert h fresh bare hp (by simp [Layer.keys]))
  | cons v rest ih =>
    obtain ⟨above, tail⟩ := List.pairwise_cons.mp h.ascending
    obtain ⟨hv, hrest⟩ := List.forall_mem_cons.mp h.parts
    have hdirected := (List.forall_mem_cons.mp h.directed).2
    unfold arrive
    split
    · rename_i below
      refine Returns.pure (.insert h fresh bare hp (List.forall_mem_cons.mpr ⟨below, ?_⟩))
      intro o ho
      exact Nat.lt_trans below (above o ho)
    · rename_i notBelow
      split
      · rename_i same
        exact (hv.union_returns hp).bind fun united ⟨hunited, keeps⟩ =>
          Returns.pure (.unite h fresh bare same hunited keeps)
      · rename_i other
        refine (ih ⟨tail, hrest, hdirected⟩ (List.forall_mem_cons.mp fresh).2
          (List.forall_mem_cons.mp bare).2).bind fun rest' arrived =>
            Returns.pure (arrived.behind h fresh bare ?_)
        have := mt Octant.key_inj other
        omega

/-- Some vertex has parts that all admit the valuation. -/
def Allows (layer : Layer) (τ : Valuation) : Prop := ∃ v ∈ layer, AllAdmit v.parts τ

theorem Holds.allows {o : Octant} {τ : Valuation} (h : layer.Holds o τ) : layer.Allows τ := by
  obtain ⟨v, hv, -, all⟩ := h
  exact ⟨v, hv, all⟩

end Layer

/-- What agrees with the vertices of a layer so far, those of `rest` still to come. -/
structure Agreeing (others parts : List Formula) (layer rest : Layer)
    (agreeing : Option (List Formula)) : Prop where
  part : ∀ v ∈ rest, v ∈ layer
  agreed : ∀ a ∈ agreeing, PartsOf others a
  keeps : ∀ τ, AllAdmit parts τ → layer.Allows τ →
    (∃ a ∈ agreeing, AllAdmit a τ) ∨ rest.Allows τ

/-- The next vertex is dealt with once what it agrees on is among what is kept. -/
theorem Agreeing.next {v : Vertex} {rest : Layer} {agreeing agreeing' : Option (List Formula)}
    (h : Agreeing others parts layer (v :: rest) agreeing)
    (agreed : ∀ a ∈ agreeing', PartsOf others a)
    (old : ∀ τ, (∃ a ∈ agreeing, AllAdmit a τ) → ∃ a ∈ agreeing', AllAdmit a τ)
    (new : ∀ τ, AllAdmit parts τ → AllAdmit v.parts τ → ∃ a ∈ agreeing', AllAdmit a τ) :
    Agreeing others parts layer rest agreeing' := by
  refine ⟨(List.forall_mem_cons.mp h.part).2, agreed, ?_⟩
  intro τ all allows
  rcases h.keeps τ all allows with found | ⟨u, hu, hall⟩
  · exact .inl (old τ found)
  · rcases List.mem_cons.mp hu with rfl | hu
    · exact .inl (new τ all hall)
    · exact .inr ⟨u, hu, hall⟩

theorem filterThrough_attempts (hp : PartsOf others parts) (formed : layer.Formed others) :
    Attempts (filterThrough parts layer)
      (fun kept => PartsOf others kept ∧
        ∀ τ, AllAdmit parts τ → layer.Allows τ → AllAdmit kept τ)
      fun _ => ∀ τ, AllAdmit parts τ → ¬ layer.Allows τ := by
  unfold filterThrough
  refine Attempts.bind (P := Agreeing others parts layer []) (Attempts.lift ?_) ?_
  · refine Returns.foldlM (Agreeing others parts layer) ?_
      ⟨fun _ => id, by simp, fun τ _ allows => .inr allows⟩
    -- A vertex that contradicts the parts is passed over: no valuation goes through both.
    intro v rest agreeing h
    have hv := formed.parts v (h.part v List.mem_cons_self)
    apply (hp.intersect_returns hv).bind
    intro met ⟨hmet, meets⟩
    apply Returns.bind hmet.unifyGroup_attempts
    intro r hr
    cases r with
    | error e =>
      refine Returns.pure (h.next h.agreed (fun _ => id) ?_)
      intro τ all hall
      exact absurd (meets τ all hall) (hr τ)
    | ok group =>
      obtain ⟨hgroup, keepsGroup⟩ := hr
      have agrees (τ) (all : AllAdmit parts τ) (hall : AllAdmit v.parts τ) : AllAdmit group τ :=
        keepsGroup τ (meets τ all hall)
      cases agreeing with
      | none =>
        refine Returns.pure (h.next (by simpa using hgroup) (by simp) ?_)
        intro τ all hall
        exact ⟨group, rfl, agrees τ all hall⟩
      | some agreed =>
        apply ((h.agreed agreed rfl).union_returns hgroup).bind
        intro united ⟨hunited, keepsUnited⟩
        refine Returns.pure (h.next (by simpa using hunited) ?_ ?_)
        · rintro τ ⟨a, ha, hall⟩
          cases ha
          exact ⟨united, rfl, keepsUnited τ (.inl hall)⟩
        · intro τ all hall
          exact ⟨united, rfl, keepsUnited τ (.inr (agrees τ all hall))⟩
  · intro agreeing h
    have keeps (τ) (all : AllAdmit parts τ) (allows : layer.Allows τ) :
        ∃ a ∈ agreeing, AllAdmit a τ :=
      (h.keeps τ all allows).resolve_right (by simp [Layer.Allows])
    cases agreeing with
    | none =>
      apply Attempts.throw
      intro τ all allows
      obtain ⟨a, ha, -⟩ := keeps τ all allows
      cases ha
    | some agreed =>
      have kept (τ) (all : AllAdmit parts τ) (allows : layer.Allows τ) : AllAdmit agreed τ := by
        obtain ⟨a, ha, hall⟩ := keeps τ all allows
        exact Option.some.inj ha ▸ hall
      refine Attempts.mono (h.agreed agreed rfl).unifyGroup_attempts
        (fun group ⟨hgroup, keepsGroup⟩ => ⟨hgroup, ?_⟩) ?_
      · intro τ all allows
        exact keepsGroup τ (kept τ all allows)
      · intro e disjoint τ all allows
        exact disjoint τ (kept τ all allows)

/-- Valuations that a vertex can keep when it is moved onto a value of a new variable. -/
structure Vertex.Moves (v : Vertex) (earlier : List Layer) (fresh : Nat) (value : Bool)
    (τ : Valuation) : Prop where
  parts : AllAdmit v.parts τ
  value : τ fresh = value
  earlier : ∀ layer ∈ earlier, layer.Allows τ

theorem Vertex.shift_attempts {v : Vertex} {earlier : List Layer} {fresh : Nat} {value : Bool}
    (hv : PartsOf others v.parts) (formed : ∀ layer ∈ earlier, layer.Formed others)
    (known : ∀ f ∈ others, fresh ∈ f.permutation.names) :
    Attempts (v.shift earlier fresh value)
      (fun parts => PartsOf others parts ∧
        ∀ τ, v.Moves earlier fresh value τ → AllAdmit parts τ)
      fun _ => ∀ τ, ¬ v.Moves earlier fresh value τ := by
  have knownParts : ∀ f ∈ v.parts, fresh ∈ f.permutation.names :=
    forall_mem_of_forall₂ hv fun f hf g resembles => resembles.1 ▸ known f hf
  unfold Vertex.shift
  refine Attempts.bind (P := List.Forall₂ (Formula.Restricts · fresh value) v.parts)
    (Attempts.lift ?_) fun moved h => ?_
  · apply Returns.mapM
    intro f hf
    exact Formula.concretize_returns (hv.shaped f hf) (knownParts f hf)
  have hmoved : PartsOf others moved := hv.shrinks (h.imp fun _ _ => Formula.Restricts.shrinks)
  have keepsMoved (τ) (moves : v.Moves earlier fresh value τ) : AllAdmit moved τ :=
    forall_mem_of_forall₂ h fun f hf g restricts =>
      (restricts.admits τ).mpr ⟨moves.parts f hf, moves.value⟩
  apply Attempts.bind (P := fun parts => PartsOf others parts ∧
    ∀ τ, v.Moves earlier fresh value τ → AllAdmit parts τ)
    (Attempts.mono hmoved.unifyGroup_attempts
      (fun group ⟨hgroup, keeps⟩ => ⟨hgroup, fun τ moves => keeps τ (keepsMoved τ moves)⟩)
      fun e disjoint τ moves => disjoint τ (keepsMoved τ moves))
  intro group hgroup
  refine Attempts.mono (Attempts.foldlM (fun rest parts => (∀ layer ∈ rest, layer ∈ earlier) ∧
    PartsOf others parts ∧ ∀ τ, v.Moves earlier fresh value τ → AllAdmit parts τ)
    ?_ ⟨fun _ => id, hgroup⟩)
    (fun parts h => h.2) fun _ => id
  -- An earlier layer allows all valuations that move, so filtering through it spares them.
  intro layer rest parts ⟨part, hparts, keeps⟩
  obtain ⟨hlayer, part⟩ := List.forall_mem_cons.mp part
  refine Attempts.mono (filterThrough_attempts hparts (formed layer hlayer))
    (fun kept ⟨hkept, keepsKept⟩ => ⟨part, hkept, ?_⟩) ?_
  · intro τ moves
    exact keepsKept τ (keeps τ moves) (moves.earlier layer hlayer)
  · intro e none τ moves
    exact none τ (keeps τ moves) (moves.earlier layer hlayer)

/-! ### Edges -/

theorem Valuation.octant_shift {t u : Triple} (τ : Valuation) (h : t.Precedes u) :
    (τ.octant t).shift (τ u.c) = τ.octant u := by
  simp only [octant, Octant.shift, h.1, h.2]

variable {earlier : List Layer} {next : Tier}

/-- Arrivals at octants of the next tier, with parts of the other structures. -/
def Arriving (others : List Formula) (next : Tier) (arrivals : List (Octant × List Formula)) : Prop :=
  ∀ a ∈ arrivals, a.1 ∈ next.octants ∧ PartsOf others a.2

theorem Vertex.shiftEdge_returns {v : Vertex} {value : Bool} (hv : PartsOf others v.parts)
    (formed : ∀ layer ∈ earlier, layer.Formed others)
    (known : ∀ f ∈ others, next.triple.c ∈ f.permutation.names) :
    Returns (v.shiftEdge earlier next value) fun (edge, arrivals) =>
      (∀ o, edge = .target o → o = v.octant.shift value) ∧
      Arriving others next arrivals ∧ ∀ τ, v.Moves earlier next.triple.c value τ →
        v.octant.shift value ∈ next.octants → edge = .target (v.octant.shift value) ∧
          ∃ a ∈ arrivals, a.1 = v.octant.shift value ∧ AllAdmit a.2 τ := by
  unfold Vertex.shiftEdge
  dsimp only
  split
  · rename_i allowed
    apply Returns.bind (Vertex.shift_attempts hv formed known)
    intro r hr
    cases r with
    | ok parts =>
      obtain ⟨hparts, keeps⟩ := hr
      refine Returns.pure ⟨fun o same => (Edge.target.inj same).symm, ?_, fun τ moves _ => ⟨rfl, ?_⟩⟩
      · intro a ha
        obtain rfl := List.mem_singleton.mp ha
        exact ⟨allowed, hparts⟩
      · exact ⟨_, List.mem_singleton_self _, rfl, keeps τ moves⟩
    | error e =>
      exact Returns.pure ⟨by simp, by simp [Arriving], fun τ moves _ => absurd moves (hr τ)⟩
  · rename_i forbidden
    exact Returns.pure ⟨by simp, by simp [Arriving], fun τ _ allowed => absurd allowed forbidden⟩

/-- A vertex with its edges, and what arrives at their ends. -/
structure Vertex.ShiftsTo (others : List Formula) (earlier : List Layer) (next : Tier) (v : Vertex)
    (shifted : Vertex × List (Octant × List Formula)) : Prop where
  octant : shifted.1.octant = v.octant
  parts : shifted.1.parts = v.parts
  dirty : shifted.1.dirty = v.dirty
  directed : shifted.1.branch.Directed
  arriving : Arriving others next shifted.2
  keeps : ∀ τ, AllAdmit v.parts τ → (∀ layer ∈ earlier, layer.Allows τ) →
    v.octant.shift (τ next.triple.c) ∈ next.octants →
    v.octant.shift (τ next.triple.c) ∈ shifted.1.targets ∧
      ∃ a ∈ shifted.2, a.1 = v.octant.shift (τ next.triple.c) ∧ AllAdmit a.2 τ

theorem Vertex.shiftEdges_returns {v : Vertex} (hv : PartsOf others v.parts)
    (formed : ∀ layer ∈ earlier, layer.Formed others)
    (known : ∀ f ∈ others, next.triple.c ∈ f.permutation.names) :
    Returns (v.shiftEdges earlier next) (v.ShiftsTo others earlier next) := by
  unfold Vertex.shiftEdges
  apply (Vertex.shiftEdge_returns hv formed known).bind
  intro (low, lowArrivals) ⟨lowDirected, hlow, lows⟩
  apply (Vertex.shiftEdge_returns hv formed known).bind
  intro (high, highArrivals) ⟨highDirected, hhigh, highs⟩
  refine Returns.pure ⟨rfl, rfl, rfl, ⟨lowDirected, highDirected⟩, ?_, ?_⟩
  · intro a ha
    exact (List.mem_append.mp ha).elim (hlow a) (hhigh a)
  · intro τ all allows allowed
    cases value : τ next.triple.c with
    | false =>
      rw [value] at allowed
      obtain ⟨rfl, a, ha, arrives⟩ := lows τ ⟨all, value, allows⟩ allowed
      exact ⟨by simp [Vertex.targets, Edge.target?], a, List.mem_append_left _ ha, arrives⟩
    | true =>
      rw [value] at allowed
      obtain ⟨rfl, a, ha, arrives⟩ := highs τ ⟨all, value, allows⟩ allowed
      refine ⟨?_, a, List.mem_append_right _ ha, arrives⟩
      cases low <;> simp [Vertex.targets, Edge.target?]

/-- What arrives makes a layer over octants of the next tier. -/
theorem Layer.foldlM_arrive_returns {arrivals : List (Octant × List Formula)}
    (h : Arriving others next arrivals) :
    Returns (arrivals.foldlM Layer.arrive []) fun layer =>
      layer.Formed others ∧ layer.Fresh ∧ layer.Bare ∧ (∀ o ∈ layer.keys, o ∈ next.octants) ∧
        ∀ a ∈ arrivals, ∀ τ, AllAdmit a.2 τ → layer.Holds a.1 τ := by
  refine Returns.mono (Returns.foldlM (fun rest layer => Arriving others next rest ∧
    layer.Formed others ∧ layer.Fresh ∧ layer.Bare ∧ (∀ o ∈ layer.keys, o ∈ next.octants) ∧
      ∀ a ∈ arrivals, a ∈ rest ∨ ∀ τ, AllAdmit a.2 τ → layer.Holds a.1 τ) ?_
    ⟨h, .nil, by simp [Layer.Fresh], by simp [Layer.Bare], by simp [Layer.keys],
      fun a ha => .inl ha⟩) ?_
  · intro arrival rest layer ⟨arriving, formed, fresh, bare, keys, holds⟩
    obtain ⟨⟨allowed, hparts⟩, arriving⟩ := List.forall_mem_cons.mp arriving
    apply (Layer.arrive_returns formed fresh bare hparts).mono
    intro layer' arrived
    refine ⟨arriving, arrived.formed, arrived.fresh, arrived.bare, ?_, ?_⟩
    · intro o ho
      rcases (arrived.keys o).mp ho with rfl | ho
      · exact allowed
      · exact keys o ho
    · intro a ha
      rcases holds a ha with coming | held
      · rcases List.mem_cons.mp coming with rfl | coming
        · exact .inr arrived.holds
        · exact .inl coming
      · exact .inr fun τ all => arrived.keeps _ τ (held τ all)
  · intro layer ⟨_, formed, fresh, bare, keys, holds⟩
    exact ⟨formed, fresh, bare, keys, fun a ha => (holds a ha).resolve_left List.not_mem_nil⟩

end TripletSat
