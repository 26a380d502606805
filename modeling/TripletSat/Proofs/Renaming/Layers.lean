import TripletSat.Hyper.Construction
import TripletSat.Proofs.Renaming.Unification

/-!
Renaming through the layers of a hyper-structure system. The parts of the vertices stay structures,
and that is all that unification needs of them.
-/

namespace TripletSat

variable (π : Equiv.Perm Nat)

/-! ### Parts -/

theorem mapM_zip_tracks (op : Formula → Formula → Checked Formula)
    (step : ∀ f g, f.Shaped → g.Shaped →
      Tracks (Formula.Renames π) (op f g) (op (f.rename π) (g.rename π)))
    {parts others : List Formula} (hp : ∀ f ∈ parts, f.Shaped) (ho : ∀ f ∈ others, f.Shaped) :
    Tracks (RenamesAll π) ((parts.zip others).mapM fun (f, g) => op f g)
      (((parts.map (Formula.rename π)).zip (others.map (Formula.rename π))).mapM
        fun (f, g) => op f g) := by
  rw [List.zip_map]
  refine Tracks.mono (Tracks.mapM (S := Formula.Renames π) fun x hx => ?_)
    fun _ _ => forall₂_and_eq_map.mp
  obtain ⟨left, right⟩ := List.of_mem_zip hx
  exact step x.1 x.2 (hp x.1 left) (ho x.2 right)

variable {parts others : List Formula}

theorem unionParts_tracks (hp : ∀ f ∈ parts, f.Shaped) (ho : ∀ f ∈ others, f.Shaped) :
    Tracks (RenamesAll π) (unionParts parts others)
      (unionParts (parts.map (Formula.rename π)) (others.map (Formula.rename π))) :=
  mapM_zip_tracks π Formula.union (fun _ _ => Formula.union_renames π) hp ho

theorem intersectParts_tracks (hp : ∀ f ∈ parts, f.Shaped) (ho : ∀ f ∈ others, f.Shaped) :
    Tracks (RenamesAll π) (intersectParts parts others)
      (intersectParts (parts.map (Formula.rename π)) (others.map (Formula.rename π))) :=
  mapM_zip_tracks π Formula.intersect (fun _ _ hf _ => Formula.intersect_renames π hf) hp ho

/-! ### Vertices and layers -/

namespace Vertex

def rename (v : Vertex) : Vertex := { v with parts := v.parts.map (Formula.rename π) }

/-- Every part is a structure. -/
def Shaped (v : Vertex) : Prop := ∀ f ∈ v.parts, f.Shaped

variable {v : Vertex}

theorem parts_rename : (v.rename π).parts = v.parts.map (Formula.rename π) := rfl

@[simp] theorem targets_rename : (v.rename π).targets = v.targets := rfl

end Vertex

namespace Layer

def rename (layer : Layer) : Layer := layer.map (Vertex.rename π)

def Shaped (layer : Layer) : Prop := ∀ v ∈ layer, v.Shaped

/-- A layer and the same one renamed. -/
def Renames (layer layer' : Layer) : Prop := layer.Shaped ∧ layer' = layer.rename π

variable {layer : Layer} {o : Octant}

@[simp] theorem keys_rename : (layer.rename π).keys = layer.keys := by
  simp [keys, rename, Vertex.rename, Function.comp_def]

theorem vertex?_rename :
    (layer.rename π).vertex? o = (layer.vertex? o).map (Vertex.rename π) := by
  simp [vertex?, rename, Vertex.rename, Function.comp_def]

theorem erase_rename : (layer.rename π).erase o = (layer.erase o).rename π := by
  simp [erase, rename, Vertex.rename, List.filter_map, Function.comp_def]

@[simp] theorem isDirty_rename : (layer.rename π).isDirty = layer.isDirty := by
  simp [isDirty, rename, Vertex.rename, Function.comp_def]

theorem all_rename {test test' : Vertex → Bool} (same : ∀ v, test' (v.rename π) = test v) :
    (layer.rename π).all test' = layer.all test := by
  rw [rename, List.all_map]
  exact congrArg (List.all layer) (funext same)

theorem update_rename {v : Vertex} :
    (layer.rename π).update (v.rename π) = (layer.update v).rename π := by
  simp only [update, rename, List.map_map]
  refine List.map_congr_left fun u _ => ?_
  by_cases same : u.octant = v.octant
  · simp [same, Vertex.rename]
  · simp [same, Vertex.rename]

theorem Shaped.of_vertex? (h : layer.Shaped) {v : Vertex} (found : layer.vertex? o = some v) :
    v.Shaped :=
  h v (List.mem_of_find?_eq_some found)

theorem Shaped.update (h : layer.Shaped) {v : Vertex} (hv : v.Shaped) :
    (layer.update v).Shaped := by
  refine List.forall_mem_map.mpr fun u hu => ?_
  split
  · exact hv
  · exact h u hu

end Layer

/-- What arrives at an octant, renamed. -/
def renameArrival (arrival : Octant × List Formula) : Octant × List Formula :=
  (arrival.1, arrival.2.map (Formula.rename π))

/-- Only structures arrive. -/
def ArriveShaped (arrivals : List (Octant × List Formula)) : Prop :=
  ∀ a ∈ arrivals, ∀ f ∈ a.2, f.Shaped

theorem Layer.arrive_tracks {layer : Layer} {arrival : Octant × List Formula} (h : layer.Shaped)
    (shaped : ∀ f ∈ arrival.2, f.Shaped) :
    Tracks (Layer.Renames π) (layer.arrive arrival)
      ((layer.rename π).arrive (renameArrival π arrival)) := by
  induction layer with
  | nil => exact .pure ⟨List.forall_mem_singleton.mpr shaped, rfl⟩
  | cons v rest ih =>
    obtain ⟨hv, hrest⟩ := List.forall_mem_cons.mp h
    show Tracks _ (arrive (v :: rest) arrival)
      (arrive (v.rename π :: Layer.rename π rest) (renameArrival π arrival))
    unfold arrive
    refine .ite .rfl (fun _ => ?_) fun _ => .ite .rfl (fun _ => ?_) fun _ => ?_
    · exact .pure ⟨List.forall_mem_cons.mpr ⟨shaped, h⟩, rfl⟩
    · refine (unionParts_tracks π hv shaped).bind_and_eq fun united hunited => ?_
      exact .pure ⟨List.forall_mem_cons.mpr ⟨hunited, hrest⟩, rfl⟩
    · refine (ih hrest).bind_and_eq fun rest' hrest' => ?_
      exact .pure ⟨List.forall_mem_cons.mpr ⟨hv, hrest'⟩, rfl⟩

theorem filterThrough_shadows {layer : Layer} (hp : ∀ f ∈ parts, f.Shaped) (hl : layer.Shaped) :
    Shadows (RenamesAll π) anyErrors (filterThrough parts layer)
      (filterThrough (parts.map (Formula.rename π)) (layer.rename π)) := by
  unfold filterThrough
  refine Shadows.bind (R := Option.Rel (RenamesAll π)) (.lift ?_) fun a a' related => ?_
  · refine Tracks.foldlM (fun v hv a a' related => ?_) .none
    refine (intersectParts_tracks π hp (hl v hv)).bind_and_eq fun met hmet => ?_
    refine Tracks.bind (unifyGroup_shadows π hmet) fun r r' matched => ?_
    match r, r', matched with
    | .error _, .error _, _ => exact .pure related
    | .ok group, .ok _, ⟨hgroup, same⟩ =>
      subst same
      cases related with
      | none => exact .pure (.some ⟨hgroup, rfl⟩)
      | some both =>
        obtain ⟨hagreed, rfl⟩ := both
        exact (unionParts_tracks π hagreed hgroup).bind fun _ _ united => .pure (.some united)
  · cases related with
    | none => exact .throw trivial
    | some both =>
      obtain ⟨hagreed, rfl⟩ := both
      exact unifyGroup_shadows π hagreed

namespace Vertex

variable {v : Vertex} {earlier : List Layer}

theorem shift_shadows (hv : v.Shaped) (he : ∀ layer ∈ earlier, layer.Shaped) (fresh : Nat)
    (value : Bool) :
    Shadows (RenamesAll π) anyErrors (v.shift earlier fresh value)
      ((v.rename π).shift (earlier.map (Layer.rename π)) (π fresh) value) := by
  unfold shift
  refine Shadows.bind (R := RenamesAll π) (.lift ?_) fun moved _ ⟨hmoved, same⟩ => ?_
  · refine Tracks.mono (Tracks.mapM (S := Formula.Renames π) fun f hf => ?_)
      fun _ _ => forall₂_and_eq_map.mp
    exact Formula.concretize_renames π (hv f hf) fresh value
  · subst same
    refine (unifyGroup_shadows π hmoved).bind fun group _ both => ?_
    refine Shadows.foldlM (fun layer hlayer parts _ ⟨hparts, same⟩ => ?_) both
    subst same
    exact filterThrough_shadows π hparts (he layer hlayer)

theorem shiftEdge_tracks (hv : v.Shaped) (he : ∀ layer ∈ earlier, layer.Shaped) (next : Tier)
    (value : Bool) :
    Tracks (fun r r' => ArriveShaped r.2 ∧ r' = (r.1, r.2.map (renameArrival π)))
      (v.shiftEdge earlier next value)
      ((v.rename π).shiftEdge (earlier.map (Layer.rename π)) (next.rename π) value) := by
  unfold shiftEdge
  refine .ite .rfl (fun _ => ?_) fun _ => ?_
  · refine Tracks.bind (shift_shadows π hv he next.triple.c value) fun r r' matched => ?_
    match r, r', matched with
    | .ok parts, .ok _, ⟨hparts, same⟩ =>
      subst same
      exact .pure ⟨List.forall_mem_singleton.mpr hparts, rfl⟩
    | .error _, .error _, _ => exact .pure ⟨by simp [ArriveShaped], rfl⟩
  · exact .pure ⟨by simp [ArriveShaped], rfl⟩

theorem shiftEdges_tracks (hv : v.Shaped) (he : ∀ layer ∈ earlier, layer.Shaped) (next : Tier) :
    Tracks (fun r r' => (r.1.Shaped ∧ ArriveShaped r.2) ∧
        r' = (r.1.rename π, r.2.map (renameArrival π)))
      (v.shiftEdges earlier next)
      ((v.rename π).shiftEdges (earlier.map (Layer.rename π)) (next.rename π)) := by
  unfold shiftEdges
  refine (shiftEdge_tracks π hv he next false).bind_and_eq fun (low, lows) hlow => ?_
  refine (shiftEdge_tracks π hv he next true).bind_and_eq fun (high, highs) hhigh => ?_
  exact .pure ⟨⟨hv, List.forall_mem_append.mpr ⟨hlow, hhigh⟩⟩,
    congrArg (Prod.mk _) List.map_append.symm⟩

end Vertex

end TripletSat
