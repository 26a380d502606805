import TripletSat.Hyper.Route
import TripletSat.Proofs.Hyper.Construction
import TripletSat.Proofs.Reading

/-!
Route search. The search never faults on a complete system, a route that it returns is one that all
structures admit, and as long as it follows the vertices of an admitted assignment, none of its tests
turns a step down.
-/

namespace TripletSat

section Checks

variable {α β : Type} {xs : List α}

theorem anyChecked_returns {test : α → Checked Bool} {Good : α → Prop}
    (h : ∀ x ∈ xs, Returns (test x) fun b => Good x → b = true) :
    Returns (anyChecked test xs) fun b => (∃ x ∈ xs, Good x) → b = true := by
  induction xs with
  | nil => exact Returns.pure (by simp)
  | cons x rest ih =>
    unfold anyChecked
    apply (h x List.mem_cons_self).bind
    intro b hb
    cases b with
    | true => exact Returns.pure fun _ => rfl
    | false =>
      refine (ih fun y hy => h y (List.mem_cons_of_mem _ hy)).mono fun b hb' good => hb' ?_
      obtain ⟨y, hy, good⟩ := good
      rcases List.mem_cons.mp hy with rfl | hy
      · exact absurd (hb good) Bool.false_ne_true
      · exact ⟨y, hy, good⟩

theorem findChecked?_returns {test : α → Checked (Option β)} {P : β → Prop}
    (h : ∀ x ∈ xs, Returns (test x) fun r => ∀ y ∈ r, P y) :
    Returns (findChecked? test xs) fun r => ∀ y ∈ r, P y := by
  induction xs with
  | nil => exact Returns.pure (by simp)
  | cons x rest ih =>
    unfold findChecked?
    apply (h x List.mem_cons_self).bind
    intro r hr
    cases r with
    | some y => exact Returns.pure hr
    | none => exact ih fun z hz => h z (List.mem_cons_of_mem _ hz)

end Checks

variable {others parts parts' witness : List Formula} {layer : Layer} {later : List Layer}
  {o : Octant}

/-- Parts that share a valuation meet, and what remains of them still admits it. -/
theorem PartsOf.meets?_returns (τ : Valuation) (h : PartsOf others parts)
    (h' : PartsOf others parts') :
    Returns (meets? (parts.zip parts')) fun r => (∀ w ∈ r, PartsOf others w) ∧
      (AllAdmit parts τ → AllAdmit parts' τ → ∃ w, r = some w ∧ AllAdmit w τ) := by
  induction h generalizing parts' with
  | nil =>
    refine Returns.pure ⟨?_, fun _ _ => ⟨[], rfl, by simp [AllAdmit]⟩⟩
    intro w hw
    cases hw
    exact .nil
  | @cons other f _ rest head tail ih =>
    cases h' with
    | @cons _ g _ rest' head' tail' =>
      rw [List.zip_cons_cons]
      unfold meets?
      apply (Formula.intersect_returns head.2 (head.1.trans head'.1.symm)).bind
      intro meet intersects
      have shrinks := intersects.shrinks
      have admits (all : AllAdmit (f :: rest) τ) (all' : AllAdmit (g :: rest') τ) :
          meet.Admits τ :=
        intersects.keeps τ (all f List.mem_cons_self) (all' g List.mem_cons_self)
      split
      · rename_i empty
        refine Returns.pure ⟨by simp, ?_⟩
        intro all all'
        simp [(admits all all').not_isEmpty] at empty
      · refine (ih tail').bind fun r ⟨hr, meets⟩ => Returns.pure ⟨?_, ?_⟩
        · intro w hw
          obtain ⟨ws, hws, rfl⟩ := Option.map_eq_some_iff.mp hw
          exact .cons ⟨shrinks.1.trans head.1, shrinks.shaped head.2⟩ (hr ws hws)
        · intro all all'
          obtain ⟨ws, rfl, hws⟩ := meets (fun x hx => all x (List.mem_cons_of_mem _ hx))
            fun x hx => all' x (List.mem_cons_of_mem _ hx)
          exact ⟨meet :: ws, rfl, List.forall_mem_cons.mpr ⟨admits all all', hws⟩⟩

theorem reaches_returns (τ : Valuation) (hw : PartsOf others witness)
    (formed : ∀ layer ∈ later, layer.Formed others) :
    Returns (reaches witness later) fun b =>
      AllAdmit witness τ → (∀ layer ∈ later, layer.Allows τ) → b = true := by
  unfold reaches
  refine (@allChecked_returns _ later _ (fun layer => AllAdmit witness τ ∧ layer.Allows τ)
    ?_).mono fun b hb all allows => hb fun layer hl => ⟨all, allows layer hl⟩
  intro layer hlayer
  refine (@allChecked_returns _ witness.zipIdx _ (fun x => x.1.Admits τ ∧ layer.Allows τ)
    ?_).mono fun b hb good => hb ?_
  · intro (w, index) hx
    have hi : witness[index]? = some w := List.mem_zipIdx_iff_getElem?.mp hx
    refine (@anyChecked_returns _ layer _ (fun v => w.Admits τ ∧ AllAdmit v.parts τ) ?_).mono ?_
    · intro v hv
      have hparts := (formed layer hlayer).parts v hv
      have length := hparts.length_eq.symm.trans hw.length_eq
      obtain ⟨bound, -⟩ := List.getElem?_eq_some_iff.mp hi
      have hpart := List.getElem?_eq_getElem (show index < v.parts.length by omega)
      rw [hpart]
      obtain ⟨f, hf, wf⟩ := forall₂_getElem? hw hi
      obtain ⟨f', hf', pf⟩ := forall₂_getElem? hparts hpart
      obtain rfl := Option.some.inj (hf.symm.trans hf')
      refine (Formula.intersect_returns wf.2 (wf.1.trans pf.1.symm)).bind
        fun meet intersects => Returns.pure ?_
      intro ⟨admits, all⟩
      rw [(intersects.keeps τ admits (all _ (List.mem_of_getElem? hpart))).not_isEmpty]
      rfl
    · intro b hb good
      obtain ⟨admits, v, hv, all⟩ := good
      exact hb ⟨v, hv, admits, all⟩
  · intro x hx
    exact ⟨good.1 x.1 (List.fst_mem_of_mem_zipIdx hx), good.2⟩

/-- A step onto the vertex of a valuation is taken if something of it remains in all layers ahead. -/
theorem step?_returns (τ : Valuation) (hw : PartsOf others witness) (formed : layer.Formed others)
    (ahead : ∀ l ∈ later, l.Formed others) :
    Returns (step? witness layer later o) fun r =>
      (∀ x ∈ r, x.1 ∈ layer ∧ PartsOf others x.2) ∧
        ∀ v ∈ layer, v.octant = o → AllAdmit v.parts τ → AllAdmit witness τ →
          (∀ l ∈ later, l.Allows τ) → ∃ w, r = some (v, w) ∧ AllAdmit w τ := by
  unfold step?
  split
  · rename_i missing
    refine Returns.pure ⟨by simp, ?_⟩
    intro v hv same
    exact absurd (Layer.mem_keys.mpr ⟨v, hv, same⟩) (Layer.vertex?_none missing)
  · rename_i u found
    obtain ⟨hu, same⟩ := Layer.vertex?_some found
    have only {v : Vertex} (hv : v ∈ layer) (eq : v.octant = o) : v = u :=
      formed.vertex_eq hv hu (eq.trans same.symm)
    refine (hw.meets?_returns τ (formed.parts u hu)).bind fun r ⟨hr, meets⟩ => ?_
    cases r with
    | none =>
      refine Returns.pure ⟨by simp, ?_⟩
      intro v hv eq all allWitness
      obtain ⟨w, none, -⟩ := meets allWitness (only hv eq ▸ all)
      cases none
    | some remaining =>
      have hremaining := hr remaining rfl
      apply (reaches_returns τ hremaining ahead).bind
      intro b hb
      have keeps {v : Vertex} (hv : v ∈ layer) (eq : v.octant = o) (all : AllAdmit v.parts τ)
          (allWitness : AllAdmit witness τ) : AllAdmit remaining τ := by
        obtain ⟨w, same, hall⟩ := meets allWitness (only hv eq ▸ all)
        exact Option.some.inj same ▸ hall
      cases b with
      | true =>
        refine Returns.pure ⟨?_, ?_⟩
        · intro x hx
          cases hx
          exact ⟨hu, hremaining⟩
        · intro v hv eq all allWitness allows
          obtain rfl := only hv eq
          exact ⟨remaining, rfl, keeps hv eq all allWitness⟩
      | false =>
        refine Returns.pure ⟨by simp, ?_⟩
        intro v hv eq all allWitness allows
        exact absurd (hb (keeps hv eq all allWitness) allows) Bool.false_ne_true

/-- The walk takes one step over each basic tier ahead. -/
theorem walkDown_returns {last : Octant} {tier : Nat} {v : Vertex} {ahead : List (Tier × Layer)}
    (hw : PartsOf others witness) (formed : ∀ x ∈ ahead, x.2.Formed others) :
    Returns (walkDown last tier v witness ahead) fun r =>
      ∀ steps, r = .ok steps → steps.map Prod.fst = ahead.map (·.1.triple) := by
  induction ahead generalizing tier v witness with
  | nil => exact Returns.pure (by simp)
  | cons x rest ih =>
    obtain ⟨t, layer⟩ := x
    obtain ⟨hlayer, ahead⟩ := List.forall_mem_cons.mp formed
    cases rest with
    | nil =>
      unfold walkDown
      apply Returns.pure
      intro steps taken
      split at taken
      · cases taken
        rfl
      · cases taken
    | cons y rest =>
      unfold walkDown
      refine (findChecked?_returns (P := fun x => PartsOf others x.2) fun o _ => ?_).bind
        fun r hr => ?_
      · refine (step?_returns (fun _ => false) hw hlayer (List.forall_mem_map.mpr ahead)).mono
          fun r hr x hx => (hr.1 x hx).2
      · cases r with
        | none => exact Returns.pure (by simp)
        | some x =>
          obtain ⟨next, remaining⟩ := x
          refine (ih (hr _ rfl) ahead).bind fun r hr => Returns.pure ?_
          intro steps taken
          cases r with
          | error tier => cases taken
          | ok steps =>
            cases taken
            exact congrArg (t.triple :: ·) (hr steps rfl)

theorem Route.isSome_get?_assignment {route : Route} {v : Nat} :
    (route.assignment.get? v).isSome = true ↔ ∃ w ∈ route.steps.map Prod.fst, v ∈ w.names := by
  have walked (steps : List (Triple × Octant)) (α : Assignment) :
      ((steps.foldl (fun α step => α.assignOctant step.1 step.2) α).get? v).isSome = true ↔
        (α.get? v).isSome = true ∨ ∃ w ∈ steps.map Prod.fst, v ∈ w.names := by
    induction steps generalizing α with
    | nil => simp
    | cons step rest ih =>
      obtain ⟨t, o⟩ := step
      simp only [List.foldl_cons, ih, Assignment.isSome_get?_assignOctant, List.map_cons,
        List.exists_mem_cons_iff]
      rw [or_assoc, or_left_comm]
  exact (walked route.steps .empty).trans (or_iff_right (by simp [Assignment.get?_empty]))

namespace HyperSystem

variable {s : HyperSystem}

/-- A route over all basic tiers that every structure admits. -/
structure Accepts (s : HyperSystem) (route : Route) : Prop where
  admits : s.admits route = true
  steps : route.steps.map Prod.fst = s.basic.tiers.map Tier.triple

theorem accept_ok {route route' : Route} (h : s.accept route = .ok route')
    (steps : route.steps.map Prod.fst = s.basic.tiers.map Tier.triple) : s.Accepts route' := by
  unfold accept at h
  split at h
  · rename_i admits
    cases h
    exact ⟨admits, steps⟩
  · cases h

theorem routeBetween_returns {first last : Vertex} (h : s.Clean)
    (complete : s.layers.length = s.tierCount) (hfirst : PartsOf s.others first.parts)
    (hlast : PartsOf s.others last.parts) :
    Returns (s.routeBetween first last) fun r => ∀ route, r = .ok route → s.Accepts route := by
  have tiers : (s.basic.tiers.zip s.layers).map Prod.fst = s.basic.tiers :=
    List.map_fst_zip (Nat.le_of_eq complete.symm)
  have formed : ∀ x ∈ s.basic.tiers.zip s.layers, x.2.Formed s.others :=
    fun x hx => h.formed.layers x.2 (List.of_mem_zip hx).2
  unfold routeBetween
  split
  · exact Returns.pure (by simp)
  · rename_i t layer ahead zip
    rw [zip] at tiers formed
    refine (hlast.meets?_returns (fun _ => false) hfirst).bind fun r ⟨hr, _⟩ => ?_
    cases r with
    | none => exact Returns.pure (by simp)
    | some witness =>
      apply (walkDown_returns (hr witness rfl) (List.forall_mem_cons.mp formed).2).bind
      intro r hr
      cases r with
      | error tier => exact Returns.pure (by simp)
      | ok steps =>
        refine Returns.pure fun route accepted => accept_ok accepted ?_
        rw [List.map_cons, hr steps rfl, ← tiers]
        simp

theorem searches_return (h : s.Clean) (complete : s.layers.length = s.tierCount) :
    ∀ search ∈ s.searches,
      Returns (search ()) fun r => ∀ route, r = .ok route → s.Accepts route := by
  have parts {layers : List Layer} (part : ∀ layer ∈ layers, layer ∈ s.layers) {layer : Layer}
      (hl : layer ∈ layers) {v : Vertex} (hv : v ∈ layer) : PartsOf s.others v.parts :=
    (h.formed.layers layer (part layer hl)).parts v hv
  intro search hsearch
  unfold searches at hsearch
  split at hsearch
  · rename_i t layer tiers layers
    obtain ⟨v, -, rfl⟩ := List.mem_map.mp hsearch
    exact Returns.pure fun route accepted => accept_ok accepted (by simp [tiers])
  · obtain ⟨last, hlast, hsearch⟩ := List.mem_flatMap.mp hsearch
    obtain ⟨first, hfirst, rfl⟩ := List.mem_map.mp hsearch
    cases layers : s.layers with
    | nil => simp [layers] at hfirst
    | cons layer rest =>
      rw [layers] at hfirst hlast
      have part : ∀ l ∈ layer :: rest, l ∈ s.layers := fun l hl => layers ▸ hl
      apply routeBetween_returns h complete (parts part List.mem_cons_self hfirst)
      rw [List.getLastD_cons] at hlast
      have member : rest.getLastD layer ∈ layer :: rest := by
        rw [List.getLastD_eq_getLast?]
        cases last : rest.getLast? with
        | none => exact List.mem_cons_self
        | some l => exact List.mem_cons_of_mem _ (List.mem_of_getLast? last)
      exact parts part member hlast

theorem firstRoute_returns {deepest : Nat} {searches : List (Unit → Checked (Except Nat Route))}
    (h : ∀ search ∈ searches,
      Returns (search ()) fun r => ∀ route, r = .ok route → s.Accepts route) :
    Returns (firstRoute deepest searches) fun r => ∀ route, r = .ok route → s.Accepts route := by
  induction searches generalizing deepest with
  | nil => exact Returns.pure (by simp)
  | cons search rest ih =>
    unfold firstRoute
    apply (h search List.mem_cons_self).bind
    intro r hr
    cases r with
    | ok route => exact Returns.pure hr
    | error tier => exact ih fun search hs => h search (List.mem_cons_of_mem _ hs)

/-- On a complete system the search answers with a route that it accepts, or with none. -/
theorem findRoute_concludes (h : s.Clean) (complete : s.layers.length = s.tierCount) :
    Concludes s.findRoute s.Accepts fun e => ∃ tier, e = .routeNotFound tier := by
  unfold findRoute
  by_cases bare : s.tierCount = 0 ∨ s.others = []
  · rw [if_pos bare]
    exact Concludes.bind (P := fun _ => False) (Concludes.throw ⟨0, rfl⟩) fun _ => False.elim
  · rw [if_neg bare, if_neg (by simp [complete])]
    apply Concludes.bind (Concludes.lift (firstRoute_returns (searches_return h complete)))
    intro r hr
    cases r with
    | ok route => exact Concludes.pure (hr route rfl)
    | error deepest =>
      apply Concludes.bind (P := fun _ => True) (Concludes.report trivial)
      intro _ _
      exact Concludes.throw ⟨deepest, rfl⟩

end HyperSystem

end TripletSat
