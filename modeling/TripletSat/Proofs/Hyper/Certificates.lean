import TripletSat.Proofs.Hyper.Holding
import TripletSat.Proofs.Hyper.Route
import TripletSat.Proofs.Solutions

/-!
Routes as certificates. Whatever remains of a part admits a valuation that takes the octants of the
whole walk, and the octants fix its values; so all structures admit the one assignment that a walk
gives, although the walk has looked at each hyper-structure on its own.
-/

namespace TripletSat

/-- Whatever the second structure admits, the first one does. -/
def Formula.Includes (f g : Formula) : Prop := ∀ τ, g.Admits τ → f.Admits τ

variable {others parts parts' witness : List Formula} {layer : Layer} {later : List Layer}
  {o last : Octant} {v : Vertex} {tier : Nat} {ahead : List (Tier × Layer)}

/-! ### Intersections with something in them -/

/-- Remnants of the other structures, none of them empty, inside two lists of parts. -/
structure Meets (others parts parts' met : List Formula) : Prop where
  remnants : Remnants others met
  full : ∀ m ∈ met, m.isEmpty = false
  left : List.Forall₂ Formula.Includes parts met
  right : List.Forall₂ Formula.Includes parts' met

theorem meets?_ensures (windowed : ∀ f ∈ others, f.Windowed) (h : Remnants others parts)
    (h' : Remnants others parts') :
    Ensures (meets? (parts.zip parts')) fun r => ∀ met ∈ r, Meets others parts parts' met := by
  induction h generalizing parts' with
  | nil =>
    cases h'
    refine .pure fun met same => ?_
    obtain rfl := Option.some.inj same
    exact ⟨.nil, by simp, .nil, .nil⟩
  | @cons f g others parts head tail ih =>
    obtain ⟨hf, windowed⟩ := List.forall_mem_cons.mp windowed
    cases h' with
    | @cons _ g' _ parts' head' tail' =>
      rw [List.zip_cons_cons]
      unfold meets?
      apply (head.intersect head' hf).ensures.bind
      rintro m ⟨remnant, both⟩
      split
      · exact .pure fun met same => absurd same (Option.not_mem_none met)
      · rename_i full
        apply (ih windowed tail').bind
        intro r hr
        refine .pure fun met same => ?_
        obtain ⟨rest, hrest, rfl⟩ := Option.map_eq_some_iff.mp same
        obtain ⟨remnants, fulls, left, right⟩ := hr rest hrest
        exact ⟨.cons remnant remnants, List.forall_mem_cons.mpr ⟨eq_false_of_ne_true full, fulls⟩,
          .cons (fun τ admits => ((both τ).mp admits).1) left,
          .cons (fun τ admits => ((both τ).mp admits).2) right⟩

theorem takes_of_includes {met : List Formula} {w : Triple}
    (h : List.Forall₂ Formula.Includes parts met) (takes : ∀ p ∈ parts, p.Takes w o) :
    ∀ m ∈ met, m.Takes w o :=
  forall_mem_of_forall₂ h fun p hp _ includes τ admits => takes p hp τ (includes τ admits)

/-! ### The walk -/

/-- A basic tier with the vertices of its layer, as the search meets them. -/
structure Stage (others : List Formula) (stage : Tier × Layer) : Prop where
  pinned : ∀ v ∈ stage.2, Pinned others stage.1.triple v.octant v.parts
  allowed : ∀ v ∈ stage.2, v.octant ∈ stage.1.octants
  directed : ∀ v ∈ stage.2, ∀ o ∈ v.targets, o ∈ v.octant.successors

theorem findChecked?_ensures {α β : Type} {xs : List α} {test : α → Checked (Option β)}
    {P : α → β → Prop} (h : ∀ x ∈ xs, Ensures (test x) fun r => ∀ y ∈ r, P x y) :
    Ensures (findChecked? test xs) fun r => ∀ y ∈ r, ∃ x ∈ xs, P x y := by
  induction xs with
  | nil => exact .pure nofun
  | cons x rest ih =>
    unfold findChecked?
    apply (h x List.mem_cons_self).bind
    intro r hr
    cases r with
    | some y => exact .pure fun y same => ⟨x, List.mem_cons_self, hr y same⟩
    | none =>
      refine (ih fun z hz => h z (List.mem_cons_of_mem _ hz)).mono fun r hr y found => ?_
      obtain ⟨x, hx, hy⟩ := hr y found
      exact ⟨x, List.mem_cons_of_mem _ hx, hy⟩

theorem step?_ensures {t : Tier} (windowed : ∀ f ∈ others, f.Windowed)
    (stage : Stage others (t, layer)) (hw : Remnants others witness) :
    Ensures (step? witness layer later o) fun r => ∀ x ∈ r,
      x.1 ∈ layer ∧ x.1.octant = o ∧ Meets others witness x.1.parts x.2 := by
  unfold step?
  split
  · exact .pure (by simp)
  · rename_i u found
    obtain ⟨hu, same⟩ := Layer.vertex?_some found
    apply (meets?_ensures windowed hw (stage.pinned u hu).remnants).bind
    intro r hr
    cases r with
    | none => exact .pure (by simp)
    | some remaining =>
      apply Ensures.any.bind
      intro b _
      split
      · refine .pure fun x found => ?_
        obtain rfl := Option.some.inj found
        exact ⟨hu, same, hr remaining rfl⟩
      · exact .pure (by simp)

/-- Steps over the tiers ahead, from a vertex on. Each witness admits a valuation that takes them. -/
structure Walks (v : Vertex) (witness : List Formula) (ahead : List (Tier × Layer))
    (steps : List (Triple × Octant)) : Prop where
  traced : ∀ w ∈ witness, ∃ τ : Valuation, w.Admits τ ∧
    steps = ahead.map fun stage => (stage.1.triple, τ.octant stage.1.triple)
  along : List.Forall₂ (fun step (stage : Tier × Layer) =>
    step.1 = stage.1.triple ∧ step.2 ∈ stage.1.octants) steps ahead
  directed : (v.octant :: steps.map Prod.snd).IsChain fun o next => next ∈ o.successors

theorem walkDown_ensures (windowed : ∀ f ∈ others, f.Windowed)
    (stages : ∀ stage ∈ ahead, Stage others stage)
    (directed : ∀ o ∈ v.targets, o ∈ v.octant.successors) (hw : Remnants others witness)
    (full : ∀ w ∈ witness, w.isEmpty = false)
    (ends : ∀ stage ∈ ahead.getLast?, last ∈ stage.1.octants ∧ ∀ w ∈ witness, w.Takes stage.1.triple last) :
    Ensures (walkDown last tier v witness ahead) fun r =>
      ∀ steps, r = .ok steps → Walks v witness ahead steps := by
  induction ahead generalizing tier v witness with
  | nil => exact .pure nofun
  | cons stage rest ih =>
    obtain ⟨t, layer⟩ := stage
    obtain ⟨here, ahead⟩ := List.forall_mem_cons.mp stages
    cases rest with
    | nil =>
      obtain ⟨allowed, takes⟩ := ends (t, layer) rfl
      unfold walkDown
      refine .pure fun steps taken => ?_
      split at taken
      · rename_i reached
        obtain rfl := Except.ok.inj taken
        refine ⟨fun w hw' => ?_, .cons ⟨rfl, allowed⟩ .nil, ?_⟩
        · obtain ⟨f, hf, remnant⟩ := exists_of_forall₂ hw.flip hw'
          obtain ⟨τ, admits⟩ := remnant.exists_admits_of_full (windowed f hf) (full w hw')
          exact ⟨τ, admits, by rw [List.map_singleton, takes w hw' τ admits]⟩
        · exact .cons_cons (directed last (List.contains_iff_mem.mp reached)) (.singleton _)
      · cases taken
    | cons next rest =>
      unfold walkDown
      apply (findChecked?_ensures fun o _ => step?_ensures windowed here hw).bind
      intro r hr
      cases r with
      | none => exact .pure nofun
      | some found =>
        obtain ⟨u, remaining⟩ := found
        obtain ⟨o, ho, hu, rfl, meets⟩ := hr _ rfl
        -- The last octant was in the first witness already, so it stays wherever the walk ends.
        have narrowed : ∀ stage ∈ (next :: rest).getLast?,
            last ∈ stage.1.octants ∧ ∀ w ∈ remaining, w.Takes stage.1.triple last := by
          intro stage hstage
          obtain ⟨allowed, takes⟩ := ends stage hstage
          exact ⟨allowed, takes_of_includes meets.left takes⟩
        apply (ih ahead (here.directed u hu) meets.remnants meets.full narrowed).bind
        intro r hr
        refine .pure fun steps taken => ?_
        cases r with
        | error tier => cases taken
        | ok steps =>
          obtain rfl := Except.ok.inj taken
          obtain ⟨traced, along, chain⟩ := hr steps rfl
          refine ⟨fun w hw' => ?_, .cons ⟨rfl, here.allowed u hu⟩ along,
            .cons_cons (directed _ ho) chain⟩
          obtain ⟨m, hm, includes⟩ := exists_of_forall₂ meets.left hw'
          obtain ⟨τ, admits, rfl⟩ := traced m hm
          refine ⟨τ, includes τ admits, ?_⟩
          rw [List.map_cons (l := next :: rest), takes_of_includes meets.right (here.pinned u hu).takes m hm τ admits]

/-! ### The assignment of a route -/

/-- An assignment has no values but those of the valuation. -/
def Assignment.Agrees (α : Assignment) (τ : Valuation) : Prop := ∀ v b, α.get? v = some b → b = τ v

namespace Assignment.Agrees

variable {α : Assignment} {τ : Valuation}

theorem assignOctant (h : α.Agrees τ) (w : Triple) : (α.assignOctant w (τ.octant w)).Agrees τ := by
  intro v b value
  simp only [Assignment.assignOctant, get?_assign] at value
  split at value
  · rename_i same
    exact same ▸ (Option.some.inj value).symm
  · split at value
    · rename_i same
      exact same ▸ (Option.some.inj value).symm
    · split at value
      · rename_i same
        exact same ▸ (Option.some.inj value).symm
      · exact h v b value

theorem octant_eq {w : Triple} (h : α.Agrees τ) (total : ∀ v ∈ w.names, (α.get? v).isSome = true) :
    α.value.octant w = τ.octant w := by
  have each (p : Place) : α.value (w.name p) = τ (w.name p) :=
    h _ _ (get?_eq_value (total _ (Triple.name_mem_names w p)))
  simp only [Valuation.octant, Octant.mk.injEq]
  exact ⟨each .a, each .b, each .c⟩

theorem admits {f : Formula} (h : α.Agrees τ)
    (total : ∀ t ∈ f.tiers, ∀ v ∈ t.triple.names, (α.get? v).isSome = true) (admits : f.Admits τ) :
    f.admits α = true := by
  refine Formula.admits_iff.mpr ⟨⟨admits.1, fun t ht => ?_⟩, total⟩
  rw [Tier.Admits, h.octant_eq (total t ht)]
  exact admits.2 t ht

end Assignment.Agrees

/-- Where all octants are those of one valuation, later steps change no value of earlier ones. -/
theorem Route.agrees {route : Route} {τ : Valuation} {tiers : List Tier}
    (h : route.steps = tiers.map fun t => (t.triple, τ.octant t.triple)) :
    route.assignment.Agrees τ := by
  have walked (tiers : List Tier) (α : Assignment) (agrees : α.Agrees τ) :
      (tiers.foldl (fun α t => α.assignOctant t.triple (τ.octant t.triple)) α).Agrees τ := by
    induction tiers generalizing α with
    | nil => exact agrees
    | cons t rest ih => exact ih _ (agrees.assignOctant t.triple)
  rw [assignment, h, List.foldl_map]
  exact walked tiers .empty nofun

/-! ### The routes of a system -/

theorem Vertex.mem_successors_of_mem_targets (directed : v.branch.Directed) (live : o ∈ v.targets) :
    o ∈ v.octant.successors := by
  obtain ⟨e, he, target⟩ := List.mem_filterMap.mp live
  obtain rfl : e = .target o := by
    cases e with
    | target u => exact congrArg Edge.target (Option.some.inj target)
    | absent | empty => cases target
  obtain ⟨low, high⟩ := directed
  rcases List.mem_pair.mp he with lowEdge | highEdge
  · exact List.mem_pair.mpr (.inl (low o lowEdge.symm))
  · exact List.mem_pair.mpr (.inr (high o highEdge.symm))

namespace HyperSystem

variable {s : HyperSystem} {window : Nat → Option Triple} {route : Route}

/-- A route as the search builds it, before it looks whether all structures admit it. -/
inductive Builds (s : HyperSystem) : Route → Prop
  | lone {t : Tier} {layer : Layer} {v : Vertex} (tiers : s.basic.tiers = [t])
      (layers : s.layers = [layer]) (hv : v ∈ layer) : Builds s ⟨[(t.triple, v.octant)]⟩
  | walked {t : Tier} {layer : Layer} {ahead : List (Tier × Layer)} {first last : Vertex}
      {witness : List Formula} {steps : List (Triple × Octant)}
      (stages : s.basic.tiers.zip s.layers = (t, layer) :: ahead)
      (hfirst : first ∈ s.layers.headD []) (hlast : last ∈ s.layers.getLastD [])
      (meets : meets? (last.parts.zip first.parts) = .ok (some witness))
      (walks : walkDown last.octant 1 first witness ahead = .ok (.ok steps)) :
      Builds s ⟨(t.triple, first.octant) :: steps⟩

theorem accept_builds (builds : s.Builds route) :
    ∀ route', s.accept route = .ok route' → s.Builds route' := by
  intro route' accepted
  unfold accept at accepted
  split at accepted
  · exact Except.ok.inj accepted ▸ builds
  · cases accepted

theorem routeBetween_ensures {first last : Vertex} (hfirst : first ∈ s.layers.headD [])
    (hlast : last ∈ s.layers.getLastD []) :
    Ensures (s.routeBetween first last) fun r => ∀ route, r = .ok route → s.Builds route := by
  unfold routeBetween
  split
  · exact .pure nofun
  · rename_i t layer ahead stages
    apply Ensures.bind (P := (meets? (last.parts.zip first.parts) = .ok ·)) ⟨id⟩
    intro r meets
    cases r with
    | none => exact .pure nofun
    | some witness =>
      apply Ensures.bind (P := (walkDown last.octant 1 first witness ahead = .ok ·)) ⟨id⟩
      intro r walks
      cases r with
      | error tier => exact .pure nofun
      | ok steps => exact .pure (accept_builds (.walked stages hfirst hlast meets walks))

theorem searches_ensure : ∀ search ∈ s.searches,
    Ensures (search ()) fun r => ∀ route, r = .ok route → s.Builds route := by
  intro search hsearch
  unfold searches at hsearch
  split at hsearch
  · rename_i t layer tiers layers
    obtain ⟨v, hv, rfl⟩ := List.mem_map.mp hsearch
    exact .pure (accept_builds (.lone tiers layers hv))
  · obtain ⟨last, hlast, hsearch⟩ := List.mem_flatMap.mp hsearch
    obtain ⟨first, hfirst, rfl⟩ := List.mem_map.mp hsearch
    exact routeBetween_ensures hfirst hlast

theorem firstRoute_ensures {deepest : Nat} {searches : List (Unit → Checked (Except Nat Route))}
    (h : ∀ search ∈ searches,
      Ensures (search ()) fun r => ∀ route, r = .ok route → s.Builds route) :
    Ensures (firstRoute deepest searches) fun r => ∀ route, r = .ok route → s.Builds route := by
  induction searches generalizing deepest with
  | nil => exact .pure nofun
  | cons search rest ih =>
    unfold firstRoute
    apply (h search List.mem_cons_self).bind
    intro r hr
    cases r with
    | ok route => exact .pure hr
    | error tier => exact ih fun search hs => h search (List.mem_cons_of_mem _ hs)

theorem findRoute_ensures : Ensures s.findRoute s.Builds := by
  unfold findRoute
  dsimp only
  split
  · exact .throw_bind
  · split
    · exact .fault_bind
    · apply (Ensures.liftLogged (firstRoute_ensures searches_ensure)).bind
      intro r hr
      cases r with
      | ok route => exact .pure (hr route rfl)
      | error deepest => exact Ensures.report.bind fun _ _ => .throwLogged

/-- A route over the basic tiers. Each other structure admits a valuation that takes its octants. -/
structure Traced (s : HyperSystem) (route : Route) : Prop where
  traced : ∀ f ∈ s.others, ∃ τ : Valuation, f.Admits τ ∧
    route.steps = s.basic.tiers.map fun t => (t.triple, τ.octant t.triple)
  along : List.Forall₂ (fun step (t : Tier) => step.1 = t.triple ∧ step.2 ∈ t.octants)
    route.steps s.basic.tiers
  directed : (route.steps.map Prod.snd).IsChain fun o next => next ∈ o.successors

theorem Settled.stage (h : Settled others window s) (above : Over others window s) (clean : s.Clean) :
    ∀ stage ∈ s.basic.tiers.zip s.layers, Stage others stage := by
  intro (t, layer) member
  obtain ⟨i, found⟩ := List.mem_iff_getElem?.mp member
  obtain ⟨ht, hl⟩ := List.getElem?_zip_eq_some.mp found
  have formed := clean.formed.layers layer (List.mem_of_getElem? hl)
  refine ⟨fun v hv => (h.parts above clean hl ht hv).1, fun v hv => ?_, fun v hv o => ?_⟩
  · exact (clean.mirrors i layer t hl ht v.octant).mp (List.mem_map_of_mem hv)
  · exact Vertex.mem_successors_of_mem_targets (formed.directed v hv)

theorem Builds.traced (builds : s.Builds route) (h : Settled others window s)
    (above : Over others window s) (clean : s.Clean) (complete : s.layers.length = s.tierCount) :
    s.Traced route := by
  have stages := h.stage above clean
  have tiers : (s.basic.tiers.zip s.layers).map Prod.fst = s.basic.tiers :=
    List.map_fst_zip (Nat.le_of_eq complete.symm)
  have layers : (s.basic.tiers.zip s.layers).map Prod.snd = s.layers :=
    List.map_snd_zip (Nat.le_of_eq complete)
  cases builds with
  | @lone t layer v one lone hv =>
    have ht : s.basic.tiers[0]? = some t := by rw [one]; rfl
    have hl : s.layers[0]? = some layer := by rw [lone]; rfl
    obtain ⟨pinned, firm⟩ := h.parts above clean hl ht hv
    have allowed := (clean.mirrors 0 layer t hl ht v.octant).mp (List.mem_map_of_mem hv)
    refine ⟨fun f hf => ?_, one ▸ .cons ⟨rfl, allowed⟩ .nil, .singleton _⟩
    have hf' : f ∈ others := above.same ▸ hf
    obtain ⟨g, hg, remnant, takes⟩ := exists_of_forall₂ pinned hf'
    have full := (firm.closed.tidy hg (firm.tiered g hg)).nonempty
    obtain ⟨τ, admits⟩ := remnant.exists_admits_of_full (above.windowed f hf') full
    exact ⟨τ, remnant.shrinks.admits admits, by rw [one, List.map_singleton, takes τ admits]⟩
  | @walked t layer ahead first last witness steps zip hfirst hlast meets walks =>
    rw [zip] at stages tiers layers
    obtain ⟨here, onward⟩ := List.forall_mem_cons.mp stages
    obtain ⟨final, hfinal⟩ : ∃ final, ahead.getLast? = some final := by
      cases ahead with
      | nil => cases walks
      | cons stage rest => exact ⟨_, List.getLast?_cons⟩
    have hfirst : first ∈ layer := by rwa [← layers] at hfirst
    have hlast : last ∈ final.2 := by
      rw [← layers, List.map_cons, List.getLastD_cons, List.getLastD_eq_getLast?, List.getLast?_map,
        hfinal] at hlast
      exact hlast
    have there := onward final (List.mem_of_getLast? hfinal)
    have met := (meets?_ensures above.windowed (there.pinned last hlast).remnants
      (here.pinned first hfirst).remnants).of_canReturn meets witness rfl
    have ends : ∀ stage ∈ ahead.getLast?,
        last.octant ∈ stage.1.octants ∧ ∀ w ∈ witness, w.Takes stage.1.triple last.octant := by
      intro stage hstage
      obtain rfl := Option.some.inj (hfinal.symm.trans hstage)
      exact ⟨there.allowed last hlast, takes_of_includes met.left (there.pinned last hlast).takes⟩
    obtain ⟨traced, along, directed⟩ := (walkDown_ensures above.windowed onward
      (here.directed first hfirst) met.remnants met.full ends).of_canReturn walks steps rfl
    refine ⟨fun f hf => ?_, ?_, directed⟩
    · obtain ⟨w, hw, remnant⟩ := exists_of_forall₂ met.remnants (above.same ▸ hf)
      obtain ⟨τ, admits, rfl⟩ := traced w hw
      refine ⟨τ, remnant.shrinks.admits admits, ?_⟩
      rw [← tiers, List.map_cons, List.map_cons, List.map_map,
        takes_of_includes met.right (here.pinned first hfirst).takes w hw τ admits]
      rfl
    · rw [← tiers]
      exact .cons ⟨rfl, here.allowed first hfirst⟩ (List.forall₂_map_right_iff.mpr along)

/-- A route that proves its structures to be satisfiable together. -/
structure Certifies (s : HyperSystem) (structures : List Formula) (route : Route) : Prop where
  steps : List.Forall₂ (fun step (t : Tier) => step.1 = t.triple ∧ step.2 ∈ t.octants)
    route.steps s.basic.tiers
  directed : (route.steps.map Prod.snd).IsChain fun o next => next ∈ o.successors
  total : ∀ f ∈ structures, ∀ v,
    (route.assignment.get? v).isSome = true ↔ v ∈ f.permutation.names
  admitted : ∀ f ∈ structures, f.admits route.assignment = true
  accepted : s.accept route = .ok route
  satisfies : ∀ fs more, (∀ f ∈ fs, f.Distinct) →
    (∀ f ∈ fs, ∀ t ∈ f.tiers, ∀ v ∈ t.triple.names, 0 < v) →
      completeAll fs more = .ok ⟨structures, none⟩ → route.evaluate fs = .ok true

/-- Formulas of clauses are true under what their completions admit. -/
theorem evaluate_of_completeAll {fs structures : List Formula} {more : Permutation}
    (distinct : ∀ f ∈ fs, f.Distinct) (positive : ∀ f ∈ fs, ∀ t ∈ f.tiers, ∀ v ∈ t.triple.names, 0 < v)
    (completed : completeAll fs more = .ok ⟨structures, none⟩)
    (total : ∀ f ∈ structures, ∀ v ∈ f.permutation.names, (route.assignment.get? v).isSome = true)
    (admitted : ∀ f ∈ structures, f.admits route.assignment = true) :
    route.evaluate fs = .ok true := by
  have completions := completeAllFrom_ensures.of_canReturn completed rfl
  have each : ∀ f ∈ fs, Returns (f.evaluate route.assignment) (· = true) := by
    intro f hf
    obtain ⟨g, hg, status, complete⟩ := exists_of_forall₂ completions hf
    obtain ⟨windows, completes⟩ := (Formula.complete_ensures (distinct f hf)).of_canReturn complete
    have admits := (Formula.admits_iff.mp (admitted g hg)).1
    -- A completion that admits something has windows, so it judges as the clauses do.
    have windowed := completes.shaped.resolve_left admits.1
    have size := windowed.known.three_le_size admits.1
    rw [completes.evaluate_eq size windows (positive f hf) (total g hg), admitted g hg]
    exact Returns.pure rfl
  obtain ⟨b, run, decides⟩ := @allChecked_decides _ fs _ (fun _ => True) fun f hf =>
    (each f hf).mono fun b hb => iff_of_true hb trivial
  rw [Route.evaluate, run, decides.mpr fun _ _ => trivial]

/-- A traced route gives a value to the variables of the basic structure, and to no others. -/
theorem Traced.isSome_get?_iff (traced : s.Traced route) (formed : s.Formed) {v : Nat} :
    (route.assignment.get? v).isSome = true ↔ v ∈ s.basic.permutation.names := by
  have triples : route.steps.map Prod.fst = s.basic.tiers.map Tier.triple :=
    List.forall₂_eq_eq_eq ▸ List.forall₂_map_left_iff.mpr (List.forall₂_map_right_iff.mpr
      (traced.along.imp fun _ _ => And.left))
  rw [Route.isSome_get?_assignment, triples, formed.windowed.mem_names_iff formed.tiers_ne_nil]

/-- A structure admits the assignment of a route along a valuation that it admits. -/
theorem Traced.admits (traced : s.Traced route) (formed : s.Formed) {τ : Valuation}
    (steps : route.steps = s.basic.tiers.map fun t => (t.triple, τ.octant t.triple)) {f : Formula}
    (windowed : f.Windowed) (names : ∀ v ∈ f.permutation.names, v ∈ s.basic.permutation.names)
    (admits : f.Admits τ) : f.admits route.assignment = true := by
  refine (Route.agrees steps).admits (fun t ht v hv => ?_) admits
  exact (traced.isSome_get?_iff formed).mpr (names v (windowed.known t ht v hv))

theorem Founded.mem_names_iff {structures : List Formula} (founded : s.Founded structures)
    (same : ∀ f ∈ structures, ∀ g ∈ structures, f.permutation.sameVariables g.permutation = true)
    {f : Formula} (hf : f ∈ structures) (v : Nat) :
    v ∈ s.basic.permutation.names ↔ v ∈ f.permutation.names := by
  obtain ⟨origin, horigin, shrinks⟩ := founded.origin
  rw [shrinks.1]
  exact ⟨Permutation.mem_of_sameVariables (same f hf origin horigin),
    Permutation.mem_of_sameVariables (same origin horigin f hf)⟩

theorem Traced.certifies {structures : List Formula} (traced : s.Traced route)
    (founded : s.Founded structures) (two : 2 ≤ structures.length)
    (windowed : ∀ f ∈ structures, f.Windowed)
    (same : ∀ f ∈ structures, ∀ g ∈ structures, f.permutation.sameVariables g.permutation = true) :
    s.Certifies structures route := by
  have formed := founded.clean.formed
  have names {f : Formula} (hf : f ∈ structures) := founded.mem_names_iff same hf
  have total (f) (hf : f ∈ structures) (v : Nat) :
      (route.assignment.get? v).isSome = true ↔ v ∈ f.permutation.names :=
    (traced.isSome_get?_iff formed).trans (names hf v)
  obtain ⟨other, hother⟩ : ∃ f, f ∈ s.others := List.exists_mem_of_length_pos (by
    have := founded.shared
    omega)
  have basic : s.basic.admits route.assignment = true := by
    obtain ⟨σ, -, steps⟩ := traced.traced other hother
    have along := traced.along
    rw [steps, List.forall₂_map_left_iff, List.forall₂_same] at along
    exact traced.admits formed steps formed.windowed (fun _ => id)
      ⟨formed.tiers_ne_nil, fun t ht => (along t ht).2⟩
  have others : ∀ f ∈ s.others, f.admits route.assignment = true := by
    intro f hf
    obtain ⟨τ, admits, steps⟩ := traced.traced f hf
    have member := founded.others f hf
    exact traced.admits formed steps (windowed f member) (fun v => (names member v).mpr) admits
  have admitted : ∀ f ∈ structures, f.admits route.assignment = true := by
    intro f hf
    rcases founded.covers f hf with other | shrinks
    · exact others f other
    · exact Formula.admits_iff.mpr ⟨shrinks.admits (Formula.admits_iff.mp basic).1,
        fun t ht v hv => (total f hf v).mpr ((windowed f hf).known t ht v hv)⟩
  refine ⟨traced.along, traced.directed, total, admitted, ?_, ?_⟩
  · rw [accept, HyperSystem.admits, basic, List.all_eq_true.mpr others]
    rfl
  · intro fs more distinct positive completed
    exact evaluate_of_completeAll distinct positive completed
      (fun f hf v hv => (total f hf v).mpr hv) admitted

/-- Route search meets no fault and answers only with a route that it has built. Every route that it
builds is a certificate: it passes the last test of the search, and makes the clauses true that the
structures were completed from. -/
theorem findRoute_certifies {structures : List Formula} {check : Bool}
    (two : 2 ≤ structures.length) (windowed : ∀ f ∈ structures, f.Windowed)
    (solid : ∀ f ∈ structures, f.Solid)
    (same : ∀ f ∈ structures, ∀ g ∈ structures, f.permutation.sameVariables g.permutation = true) :
    ∃ r events, (ofStructures structures check).outcome = .ok (r, events) ∧ ∀ s, r = .ok s →
      (∃ answer log, s.findRoute.outcome = .ok (answer, log) ∧
        ∀ route, answer = .ok route → s.Builds route) ∧
      ∀ route, s.Builds route → s.Certifies structures route := by
  obtain ⟨i, basic, chosen, hbasic⟩ :=
    basicIndex?_some (List.ne_nil_of_length_pos (show 0 < structures.length by omega))
  obtain ⟨⟨r, events⟩, run, result⟩ :=
    (@ofStructures_concludes structures check two windowed solid same).outcome
  refine ⟨r, events, run, ?_⟩
  rintro s rfl
  have founded : s.Founded structures := result
  obtain ⟨window, above, settled⟩ :=
    (ofStructures_settled chosen hbasic windowed solid same).of_canReturn ⟨[], events, run⟩
  refine ⟨?_, fun route builds => ?_⟩
  · obtain ⟨⟨answer, log⟩, found, -⟩ :=
      (findRoute_concludes founded.clean founded.complete).outcome
    refine ⟨answer, log, found, ?_⟩
    rintro route rfl
    exact findRoute_ensures.of_canReturn ⟨[], log, found⟩
  · exact (builds.traced settled above founded.clean founded.complete).certifies founded two windowed same

theorem findRoute_certifies_woven :
    2 ≤ woven.length ∧ (∀ f ∈ woven, f.Windowed) ∧ (∀ f ∈ woven, f.Solid) ∧
      (∀ f ∈ woven, ∀ g ∈ woven, f.permutation.sameVariables g.permutation = true) ∧
      ∃ r events, (ofStructures woven true).outcome = .ok (r, events) ∧ ∀ s, r = .ok s →
        (∃ answer log, s.findRoute.outcome = .ok (answer, log) ∧
          ∀ route, answer = .ok route → s.Builds route) ∧
        ∀ route, s.Builds route → s.Certifies woven route := by
  have two : 2 ≤ woven.length := by decide
  exact ⟨two, windowed_woven, solid_woven, sameVariables_woven,
    findRoute_certifies two windowed_woven solid_woven sameVariables_woven⟩

end HyperSystem

end TripletSat
