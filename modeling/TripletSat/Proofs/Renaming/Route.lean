import TripletSat.Hyper.Route
import TripletSat.Proofs.Assignments
import TripletSat.Proofs.Renaming.Construction

/-!
Renaming through assignments and the search for a route. An assignment keeps its entries in the order
of the names; renamed, it has the same values in another order.
-/

namespace TripletSat

/-! ### Assignments -/

namespace Assignment

/-- The same values under other names. -/
def rename (ρ : Nat → Nat) (α : Assignment) : Assignment :=
  ofList (α.entries.map (Prod.map ρ id))

/-- Only the names of the assignment matter. -/
theorem rename_congr {ρ ρ' : Nat → Nat} {α : Assignment}
    (same : ∀ v, (α.get? v).isSome = true → ρ v = ρ' v) : α.rename ρ = α.rename ρ' := by
  unfold rename
  refine congrArg ofList (List.map_congr_left fun (v, b) member => ?_)
  have value : α.get? v = some b := get?_eq_some_iff.mpr member
  exact Prod.ext (same v (by simp [value])) rfl

variable (π : Equiv.Perm Nat) {α : Assignment}

@[simp] theorem get?_rename (v : Nat) : (α.rename π).get? (π v) = α.get? v := by
  have nodup : ((α.entries.map (Prod.map π id)).map Prod.fst).Nodup := by
    have names : (α.entries.map (Prod.map π id)).map Prod.fst = (α.entries.map Prod.fst).map π := by
      simp
    exact names ▸ α.nodup_names.map π.injective
  refine Option.ext fun b => ?_
  rw [rename, get?_ofList nodup, get?_eq_some_iff]
  simp

theorem assign_rename (v : Nat) (b : Bool) :
    (α.rename π).assign (π v) b = (α.assign v b).rename π := by
  refine ext fun w => ?_
  obtain ⟨w, rfl⟩ := π.surjective w
  simp only [get?_assign, get?_rename, π.apply_eq_iff_eq]

theorem assignOctant_rename (t : Triple) (o : Octant) :
    (α.rename π).assignOctant (t.rename π) o = (α.assignOctant t o).rename π := by
  unfold assignOctant
  rw [Triple.rename_a, Triple.rename_b, Triple.rename_c, assign_rename, assign_rename,
    assign_rename]

@[simp] theorem octant?_rename (t : Triple) : (α.rename π).octant? (t.rename π) = α.octant? t := by
  simp [octant?]

end Assignment

variable (π : Equiv.Perm Nat)

namespace Formula

@[simp] theorem admits_rename (f : Formula) (α : Assignment) :
    (f.rename π).admits (α.rename π) = f.admits α := by
  simp [admits, Function.comp_def]

theorem walk_rename (o : Octant) (α : Assignment) (tiers : List Tier) :
    walk o (α.rename π) (tiers.map (Tier.rename π)) =
      (walk o α tiers).map (Assignment.rename π) := by
  induction tiers generalizing o α with
  | nil => rfl
  | cons t rest ih =>
    rw [List.map_cons, walk, walk]
    simp only [Tier.octants_rename, Tier.triple_rename, Triple.rename_c]
    cases o.successors.find? t.octants.contains with
    | none => rfl
    | some next =>
      dsimp only
      rw [Assignment.assign_rename, ih]

theorem anyAssignment?_rename (f : Formula) :
    (f.rename π).anyAssignment? = f.anyAssignment?.map (Assignment.rename π) := by
  unfold anyAssignment?
  rw [tiers_rename]
  match f.tiers with
  | [] => rfl
  | t :: rest =>
    dsimp only [List.map, Tier.octants_rename]
    match t.octants.toList with
    | [] => rfl
    | o :: _ =>
      have start : Assignment.empty.assignOctant (t.rename π).triple o =
          (Assignment.empty.assignOctant t.triple o).rename π :=
        Assignment.assignOctant_rename π (α := .empty) t.triple o
      dsimp only
      rw [start, walk_rename]

end Formula

/-! ### Tests one after another -/

section Checked

variable {α β γ δ : Type} {h : α → β} {xs : List α}

theorem allChecked_tracks {test : α → Checked Bool} {test' : β → Checked Bool}
    (step : ∀ x ∈ xs, Tracks (fun b b' => b' = b) (test x) (test' (h x))) :
    Tracks (fun b b' => b' = b) (allChecked test xs) (allChecked test' (xs.map h)) := by
  induction xs with
  | nil => exact .pure rfl
  | cons x rest ih =>
    obtain ⟨first, others⟩ := List.forall_mem_cons.mp step
    refine first.bind_eq fun b => ?_
    exact .ite .rfl (fun _ => ih others) fun _ => .pure rfl

theorem anyChecked_tracks {test : α → Checked Bool} {test' : β → Checked Bool}
    (step : ∀ x ∈ xs, Tracks (fun b b' => b' = b) (test x) (test' (h x))) :
    Tracks (fun b b' => b' = b) (anyChecked test xs) (anyChecked test' (xs.map h)) := by
  induction xs with
  | nil => exact .pure rfl
  | cons x rest ih =>
    obtain ⟨first, others⟩ := List.forall_mem_cons.mp step
    refine first.bind_eq fun b => ?_
    exact .ite .rfl (fun _ => .pure rfl) fun _ => ih others

theorem findChecked?_tracks {k : γ → δ} {test : α → Checked (Option γ)}
    {test' : α → Checked (Option δ)}
    (step : ∀ x ∈ xs, Tracks (fun r r' => r' = r.map k) (test x) (test' x)) :
    Tracks (fun r r' => r' = r.map k) (findChecked? test xs) (findChecked? test' xs) := by
  induction xs with
  | nil => exact .pure rfl
  | cons x rest ih =>
    obtain ⟨first, others⟩ := List.forall_mem_cons.mp step
    refine first.bind_eq fun r => ?_
    cases r with
    | none => exact ih others
    | some found => exact .pure rfl

end Checked

/-! ### Steps -/

theorem meets?_tracks (pairs : List (Formula × Formula)) :
    Tracks (fun r r' => r' = r.map (List.map (Formula.rename π))) (meets? pairs)
      (meets? (pairs.map (Prod.map (Formula.rename π) (Formula.rename π)))) := by
  induction pairs with
  | nil => exact .pure rfl
  | cons pair rest ih =>
    obtain ⟨f, g⟩ := pair
    refine (Formula.intersect_tracks π f g).bind_eq fun met => ?_
    refine .ite (by rw [Formula.isEmpty_rename]) (fun _ => .pure rfl) fun _ => ?_
    refine ih.bind_eq fun r => ?_
    cases r <;> exact .pure rfl

theorem reaches_tracks (witness : List Formula) (layers : List Layer) :
    Tracks (fun b b' => b' = b) (reaches witness layers)
      (reaches (witness.map (Formula.rename π)) (layers.map (Layer.rename π))) := by
  have members : (witness.map (Formula.rename π)).zipIdx =
      witness.zipIdx.map (Prod.map (Formula.rename π) id) := List.zipIdx_map
  unfold reaches
  rw [members]
  refine allChecked_tracks fun layer _ => allChecked_tracks fun (w, index) _ =>
    anyChecked_tracks (h := Vertex.rename π) fun v _ => ?_
  dsimp only [Prod.map, id]
  rw [Vertex.parts_rename, List.getElem?_map]
  cases v.parts[index]? with
  | none => exact .pure rfl
  | some part =>
    refine (Formula.intersect_tracks π w part).bind_eq fun met => ?_
    exact .pure (by rw [Formula.isEmpty_rename])

/-- A vertex stepped onto and what remains there, renamed. -/
def renameStand (stand : Vertex × List Formula) : Vertex × List Formula :=
  (stand.1.rename π, stand.2.map (Formula.rename π))

theorem step?_tracks (witness : List Formula) (layer : Layer) (later : List Layer) (o : Octant) :
    Tracks (fun r r' => r' = r.map (renameStand π)) (step? witness layer later o)
      (step? (witness.map (Formula.rename π)) (layer.rename π) (later.map (Layer.rename π)) o) := by
  unfold step?
  rw [Layer.vertex?_rename]
  cases layer.vertex? o with
  | none => exact .pure rfl
  | some v =>
    have pairs : (witness.map (Formula.rename π)).zip (v.rename π).parts =
        (witness.zip v.parts).map (Prod.map (Formula.rename π) (Formula.rename π)) := List.zip_map
    dsimp only [Option.map]
    rw [pairs]
    refine (meets?_tracks π _).bind_eq fun r => ?_
    cases r with
    | none => exact .pure rfl
    | some remaining =>
      refine (reaches_tracks π remaining later).bind_eq fun b => ?_
      exact .ite .rfl (fun _ => .pure rfl) fun _ => .pure rfl

/-- A chosen octant over the renamed triple. -/
def renameStep (step : Triple × Octant) : Triple × Octant := (step.1.rename π, step.2)

theorem walkDown_tracks (last : Octant) (tier : Nat) (v : Vertex) (witness : List Formula)
    (ahead : List (Tier × Layer)) :
    Tracks (fun r r' => r' = r.map (List.map (renameStep π))) (walkDown last tier v witness ahead)
      (walkDown last tier (v.rename π) (witness.map (Formula.rename π))
        (ahead.map (Prod.map (Tier.rename π) (Layer.rename π)))) := by
  induction ahead generalizing tier v witness with
  | nil => exact .pure rfl
  | cons end' rest ih =>
    obtain ⟨t, layer⟩ := end'
    match rest, ih with
    | [], _ =>
      refine .pure ?_
      rw [Vertex.targets_rename]
      split <;> rfl
    | next :: rest, ih =>
      have find : Tracks (fun r r' => r' = r.map (renameStand π))
          (findChecked? (step? witness layer ((next :: rest).map Prod.snd)) v.targets)
          (findChecked? (step? (witness.map (Formula.rename π)) (layer.rename π)
            (((next :: rest).map (Prod.map (Tier.rename π) (Layer.rename π))).map Prod.snd))
            (v.rename π).targets) := by
        refine findChecked?_tracks fun o _ => ?_
        have later := step?_tracks π witness layer ((next :: rest).map Prod.snd) o
        rwa [List.map_map] at later ⊢
      refine find.bind_eq fun r => ?_
      cases r with
      | none => exact .pure rfl
      | some stand =>
        refine (ih (tier + 1) stand.1 stand.2).bind_eq fun r => ?_
        cases r <;> exact .pure rfl

def Route.rename (route : Route) : Route := ⟨route.steps.map (renameStep π)⟩

theorem Route.assignment_rename (route : Route) :
    (route.rename π).assignment = route.assignment.rename π := by
  have walked (steps : List (Triple × Octant)) (α : Assignment) :
      (steps.map (renameStep π)).foldl (fun α step => α.assignOctant step.1 step.2) (α.rename π) =
        (steps.foldl (fun α step => α.assignOctant step.1 step.2) α).rename π := by
    induction steps generalizing α with
    | nil => rfl
    | cons step rest ih =>
      rw [List.map_cons, List.foldl_cons, List.foldl_cons, ← ih]
      exact congrArg (List.foldl _ · _) (Assignment.assignOctant_rename π step.1 step.2)
  exact walked route.steps .empty

/-! ### The search for a route -/

namespace HyperSystem

variable (s : HyperSystem)

theorem admits_rename (route : Route) :
    (s.rename π).admits (route.rename π) = s.admits route := by
  unfold admits
  rw [Route.assignment_rename]
  simp [rename, Function.comp_def]

theorem accept_rename (route : Route) :
    (s.rename π).accept (route.rename π) = (s.accept route).map (Route.rename π) := by
  unfold accept
  rw [admits_rename]
  split <;> rfl

theorem routeBetween_tracks (first last : Vertex) :
    Tracks (fun r r' => r' = r.map (Route.rename π)) (s.routeBetween first last)
      ((s.rename π).routeBetween (first.rename π) (last.rename π)) := by
  have tiers : (s.rename π).basic.tiers.zip (s.rename π).layers =
      (s.basic.tiers.zip s.layers).map (Prod.map (Tier.rename π) (Layer.rename π)) := List.zip_map
  have parts : (last.rename π).parts.zip (first.rename π).parts =
      (last.parts.zip first.parts).map (Prod.map (Formula.rename π) (Formula.rename π)) :=
    List.zip_map
  unfold routeBetween
  rw [tiers, parts]
  match s.basic.tiers.zip s.layers with
  | [] => exact .pure rfl
  | (t, _) :: ahead =>
    refine (meets?_tracks π _).bind_eq fun r => ?_
    cases r with
    | none => exact .pure rfl
    | some witness =>
      refine (walkDown_tracks π last.octant 1 first witness ahead).bind_eq fun r => ?_
      cases r with
      | error tier => exact .pure rfl
      | ok steps => exact .pure (accept_rename π s ⟨(t.triple, first.octant) :: steps⟩)

/-- A search that ends where the other one does, on the renamed route. -/
def SearchesAlike (search search' : Unit → Checked (Except Nat Route)) : Prop :=
  Tracks (fun r r' => r' = r.map (Route.rename π)) (search ()) (search' ())

theorem firstRoute_tracks {searches searches' : List (Unit → Checked (Except Nat Route))}
    (alike : List.Forall₂ (SearchesAlike π) searches searches') (deepest : Nat) :
    Tracks (fun r r' => r' = r.map (Route.rename π)) (firstRoute deepest searches)
      (firstRoute deepest searches') := by
  induction alike generalizing deepest with
  | nil => exact .pure rfl
  | cons first _ ih =>
    refine Tracks.bind_eq first fun r => ?_
    cases r with
    | ok route => exact .pure rfl
    | error tier => exact ih (max deepest tier)

theorem searches_rename :
    List.Forall₂ (SearchesAlike π) s.searches (s.rename π).searches := by
  have pairs (layers : List Layer) : List.Forall₂ (SearchesAlike π)
      ((layers.getLastD []).flatMap fun last => (layers.headD []).map fun first (_ : Unit) =>
        s.routeBetween first last)
      (((layers.map (Layer.rename π)).getLastD []).flatMap fun last =>
        ((layers.map (Layer.rename π)).headD []).map fun first (_ : Unit) =>
          (s.rename π).routeBetween first last) := by
    have last : (layers.map (Layer.rename π)).getLastD [] =
        (layers.getLastD []).map (Vertex.rename π) := by
      rw [List.getLastD_eq_getLast?, List.getLastD_eq_getLast?, List.getLast?_map]
      cases layers.getLast? <;> rfl
    have head : (layers.map (Layer.rename π)).headD [] =
        (layers.headD []).map (Vertex.rename π) := by
      cases layers <;> rfl
    rw [last, head]
    induction layers.getLastD [] with
    | nil => exact .nil
    | cons last rest ih =>
      rw [List.map_cons, List.flatMap_cons, List.flatMap_cons]
      refine List.rel_append ?_ ih
      refine List.forall₂_map_left_iff.mpr (List.forall₂_map_right_iff.mpr
        (List.forall₂_map_right_iff.mpr (List.forall₂_same.mpr fun first _ => ?_)))
      exact routeBetween_tracks π s first last
  unfold searches
  rw [layers_rename, show (s.rename π).basic.tiers = s.basic.tiers.map (Tier.rename π) from rfl]
  obtain - | ⟨t, - | ⟨u, rest⟩⟩ := s.basic.tiers
  · exact pairs s.layers
  · obtain - | ⟨layer, - | ⟨next, rest⟩⟩ := s.layers
    · exact pairs []
    · refine List.forall₂_map_left_iff.mpr (List.forall₂_map_right_iff.mpr
        (List.forall₂_map_right_iff.mpr (List.forall₂_same.mpr fun v _ => ?_)))
      exact .pure (accept_rename π s ⟨[(t.triple, v.octant)]⟩)
    · exact pairs (layer :: next :: rest)
  · exact pairs s.layers

theorem findRoute_echoes :
    Echoes (fun route route' => route' = route.rename π) (· = ·) s.findRoute
      (s.rename π).findRoute := by
  have layers : (s.rename π).layers.length = s.layers.length := List.length_map _
  unfold findRoute
  rw [tierCount_rename, layers]
  refine .ite (by simp [rename]) (fun _ => ?_) fun _ => ?_
  · exact .throw_bind rfl
  · refine .ite .rfl (fun _ => ?_) fun _ => ?_
    · exact .fault_bind
    · refine Echoes.bind_eq (.lift (firstRoute_tracks π (searches_rename π s) 0)) fun r => ?_
      cases r with
      | ok route => exact .pure rfl
      | error deepest => exact .report (.throw rfl)

end HyperSystem

end TripletSat
