import TripletSat.Proofs.Ensures
import TripletSat.Proofs.Hyper.Maps.Images

/-!
Removals in step. Wherever a system of shared vertices does not fault, the system with tiers of its own for every
hyper-structure removes and unifies the same, fails the same, and ends in what the other one then stands for.
-/

namespace TripletSat

/-! ### As many structures as before -/

theorem Meeting.length_restrict (group : List Formula) (m : Meeting) :
    (m.restrict group).length = group.length := by
  unfold Meeting.restrict
  dsimp only
  split
  · split
    · rfl
    · simp only [setOctants, List.length_modify]
  · rfl

theorem length_restrictAll (meetings : List Meeting) (group : List Formula) :
    (meetings.foldl Meeting.restrict group).length = group.length := by
  induction meetings generalizing group with
  | nil => rfl
  | cons m rest ih => exact (ih _).trans (m.length_restrict group)

theorem length_of_mapM_zipIdx {ε : Type} {f : Formula × Nat → Attempt ε Formula} (group : List Formula) :
    Ensures (group.zipIdx.mapM f) fun changed => changed.length = group.length :=
  (Ensures.mapM_length f _).mono fun _ same => same.trans List.length_zipIdx

theorem unifyRound_length (meetings : List Meeting) (group : List Formula) :
    Ensures (unifyRound meetings group) fun next => next.length = group.length := by
  refine (length_of_mapM_zipIdx _).bind fun cleaned length => ?_
  refine Ensures.foldlM (fun _ (next : List Formula) => next.length = group.length)
    (fun _ _ next h => ?_)
    (length.trans (length_restrictAll meetings group))
  exact (length_of_mapM_zipIdx next).mono fun _ same => same.trans h

theorem unifyRounds_length (meetings : List Meeting) (limit fuel : Nat) (group : List Formula) :
    Ensures (unifyRounds meetings limit fuel group) fun unified => unified.length = group.length := by
  induction fuel generalizing group with
  | zero => exact .lift .fault
  | succ fuel ih =>
    refine (unifyRound_length meetings group).bind fun next length => ?_
    split
    · exact .pure length
    · exact (ih next).mono fun _ same => same.trans length

theorem unifyGroup_length (group : List Formula) :
    Ensures (unifyGroup group) fun unified => unified.length = group.length := by
  unfold unifyGroup
  split
  · exact .pure rfl
  · split
    · exact .throw
    · exact .pure rfl
  · rename_i some several
    have two : ¬ group.length < 2 := by
      match group with
      | [] => exact absurd rfl some
      | [f] => exact absurd rfl (several f)
      | _ :: _ :: _ => simp
    refine Ensures.bind (P := fun unified => unified.group.length = group.length) ?_ fun _ h => .pure h
    unfold unify
    dsimp only
    rw [if_neg two]
    split
    · exact .throw
    · exact (unifyRounds_length _ _ _ _).bind fun _ h => .pure h

/-! ### Leaves of a layer -/

namespace Layer

variable {layer next : Layer} {count index : Nat}

/-- Whether an edge of a vertex leads to a vertex of the layer. -/
def reaches (next : Layer) (v : Vertex) : Bool := v.targets.any fun o => (vertex? next o).isSome

def clearLeaves (layer next : Layer) : Layer :=
  layer.map fun v => if next.reaches v then v else { v with parts := v.parts.map Formula.clear }

theorem Even.reaches_mapped (even : next.Even count) (bound : index < count) {v : Vertex} {w : HyperVertex}
    (own : v.own? index = some w) : (next.mapped index).reaches w = next.reaches v := by
  obtain ⟨f, -, rfl⟩ := Option.map_eq_some_iff.mp own
  exact congrArg (List.any _) (funext (even.isSome_mapped bound))

theorem Even.clearLeaves_mapped (even : layer.Even count) (even' : next.Even count) (bound : index < count) :
    (layer.clearLeaves next).mapped index = (layer.mapped index).clearLeaves (next.mapped index) := by
  refine mapped_map (fun v _ => ?_) fun v hv => ?_
  · split
    · rfl
    · rfl
  · obtain ⟨f, part⟩ := even.exists_part bound hv
    have own := Vertex.own?_eq part
    rw [own, Option.map_some, even'.reaches_mapped bound own]
    split
    · exact own
    · rw [Vertex.own?, List.getElem?_map, part]
      rfl

end Layer

namespace HyperSystem

variable {s : HyperSystem} {tier : Nat} {layer : Layer} {o : Octant}

/-- An even system, and what it stands for. -/
def Underlies (s : HyperSystem) (m : MappedSystem) : Prop := s.Even ∧ m = s.mapped

theorem Even.underlies (h : s.Even) : s.Underlies s.mapped := ⟨h, rfl⟩

/-! ### Removing vertices -/

theorem set_erase (hl : s.layers[tier]? = some layer) :
    s.layers.set tier (layer.erase o) = s.layers.modify tier (Layer.erase · o) := by
  rw [List.modify_eq_set_getElem?, hl]
  rfl

theorem removeVertex_mapped (h : s.Even) (hl : s.layers[tier]? = some layer) :
    Shadows Underlies Eq (s.removeVertex tier o) (s.mapped.removeVertex tier o) := by
  have erased : s.mapped.structures.mapM (·.changeTier tier (·.remove o)) =
      .ok (mapped { s with layers := s.layers.set tier (layer.erase o) }).structures :=
    changeTiers_mapped hl fun _ _ => (Layer.mapped_erase o).symm
  have even : Even { s with layers := s.layers.set tier (layer.erase o) } := h.set ((h.of_getElem? hl).erase o)
  rw [set_erase hl] at erased even
  refine .second erased (.both fun reduced _ => .both fun (basic, status) _ => ?_)
  have left : Even { s with basic, layers := s.layers.modify tier (Layer.erase · o) } :=
    ⟨even.nonempty, even.layers⟩
  refine .ite Iff.rfl (fun _ => .throw rfl) fun _ => .ite Iff.rfl (fun _ => .pure ?_) fun _ => .pure ?_
  · exact ⟨left.markDirty _, (mapped_markDirty (s := { s with basic, layers := _ }) _).symm⟩
  · exact left.underlies

/-! ### Unifying the vertices of a tier -/

theorem Even.parts_mapped (h : s.Even) (hl : s.layers[tier]? = some layer) {v : Vertex}
    (found : Layer.vertex? layer o = some v) :
    s.mapped.structures.mapM (·.part tier o) = .ok v.parts := by
  have length := (h.of_getElem? hl).parts v (Layer.vertex?_some found).1
  exact mapM_mapIdx_eq_ok length fun _ _ _ _ held => part_mapped hl found held

theorem changeParts_mapped (hl : s.layers[tier]? = some layer) {v : Vertex}
    (found : Layer.vertex? layer o = some v) {parts : List Formula} (length : parts.length = s.others.length)
    (before : v.parts.length = s.others.length) :
    eachWith (fun hs part => hs.changeTier tier (·.change o ({ · with part }))) s.mapped.structures parts =
      .ok (mapped { s with layers := s.layers.set tier (layer.update { v with parts }) }).structures := by
  refine eachWith_mapIdx_eq_ok length fun index other part here held => ?_
  obtain ⟨bound, -⟩ := List.getElem?_eq_some_iff.mp here
  refine changeTier_mapped hl (Layer.mapped_update (f := fun v => { v with parts }) found rfl ?_).symm
  rw [Vertex.own?, Vertex.own?, held, List.getElem?_eq_getElem (before ▸ bound)]
  rfl

theorem unifyVertex_mapped (h : s.Even) :
    Shadows Underlies Eq (unifyVertex tier s o) (MappedSystem.unifyVertex tier s.mapped o) := by
  refine .second h.dirtyCount_mapped (.ite Iff.rfl (fun _ => .pure h.underlies) fun _ => ?_)
  refine .first fun layer run => ?_
  have hl := layer_eq_ok_iff.mp run
  cases found : Layer.vertex? layer o with
  | none => exact .fault
  | some v =>
    have length := (h.of_getElem? hl).parts v (Layer.vertex?_some found).1
    refine .second (h.parts_mapped hl found) (.both fun r unified => ?_)
    cases r with
    | error _ => exact removeVertex_mapped h hl
    | ok parts =>
      have same := ((unifyGroup_length v.parts).of_canReturn unified).trans length
      refine .second (changeParts_mapped hl found same length) (.pure ⟨?_, rfl⟩)
      refine h.set ((h.of_getElem? hl).map fun u hu => ?_)
      split
      · exact ⟨Eq.symm ‹_›, same.trans ((h.of_getElem? hl).parts u hu).symm⟩
      · exact ⟨rfl, rfl⟩

theorem unifyLayer_mapped (h : s.Even) :
    Shadows Underlies Eq (s.unifyLayer tier) (s.mapped.unifyTier tier) := by
  refine .first fun layer run => .second (h.keys_mapped (layer_eq_ok_iff.mp run)) ?_
  refine .foldlM_same (fun o _ s m underlies => ?_) h.underlies
  obtain ⟨even, rfl⟩ := underlies
  exact unifyVertex_mapped even

/-! ### Pruning -/

theorem Even.set_clearLeaves (h : s.Even) (hl : s.layers[tier]? = some layer) (next : Layer) :
    Even { s with layers := s.layers.set tier (layer.clearLeaves next) } := by
  refine h.set ((h.of_getElem? hl).map fun v _ => ?_)
  split
  · exact ⟨rfl, rfl⟩
  · exact ⟨rfl, List.length_map _⟩

/-- Each hyper-structure clears the same vertices. -/
theorem Even.clearLeaves_structures (h : s.Even) {next : Layer} (hl : s.layers[tier]? = some layer)
    (hn : s.layers[tier + 1]? = some next) :
    s.mapped.structures.mapM (·.clearLeaves tier) =
      .ok ((mapped { s with layers := s.layers.set tier (layer.clearLeaves next) }).structures.map
        (·, !layer.all next.reaches)) := by
  refine mapM_mapIdx_eq_ok ?_ fun index other answer here there => ?_
  · rw [List.length_map]
    exact List.length_mapIdx
  · rw [List.getElem?_map, getElem?_structures, here] at there
    obtain rfl := Option.some.inj there
    obtain ⟨bound, -⟩ := List.getElem?_eq_some_iff.mp here
    have even := h.of_getElem? hl
    have even' := h.of_getElem? hn
    unfold MappedStructure.clearLeaves
    rw [bind_of_ok (tier_mapped hl), bind_of_ok (tier_mapped hn), List.map_set,
      even.clearLeaves_mapped even' bound, even.all_values bound fun _ _ => even'.reaches_mapped bound]
    rfl

theorem clearLeaves_mapped (h : s.Even) :
    Shadows Underlies Eq (s.clearLeaves tier) (s.mapped.clearLeaves tier) := by
  refine .first fun layer run => .first fun next run' => ?_
  have hl := layer_eq_ok_iff.mp run
  let cleared : HyperSystem := { s with layers := s.layers.set tier (layer.clearLeaves next) }
  have even : cleared.Even := h.set_clearLeaves hl next
  refine .second (h.clearLeaves_structures hl (layer_eq_ok_iff.mp run')) ?_
  rw [List.map_map, any_map_pair even.structures_ne_nil]
  have changed : (Prod.fst ∘ fun hs : MappedStructure => (hs, !layer.all next.reaches)) = id := rfl
  rw [changed, List.map_id]
  show Shadows Underlies Eq (if layer.all next.reaches then pure s else cleared.unifyLayer tier)
    (if !layer.all next.reaches then cleared.mapped.unifyTier tier else pure cleared.mapped)
  cases alive : layer.all next.reaches with
  | true =>
    have same : layer.clearLeaves next = layer :=
      (List.map_congr_left fun v hv => if_pos (List.all_eq_true.mp alive v hv)).trans (List.map_id _)
    have unchanged : s.layers.set tier layer = s.layers := by
      obtain ⟨bound, rfl⟩ := List.getElem?_eq_some_iff.mp hl
      exact List.set_getElem_self bound
    have all : cleared = s := by
      show ({ s with layers := s.layers.set tier (layer.clearLeaves next) } : HyperSystem) = s
      rw [same, unchanged]
    rw [all]
    exact .pure h.underlies
  | false => exact unifyLayer_mapped even

end HyperSystem

end TripletSat
