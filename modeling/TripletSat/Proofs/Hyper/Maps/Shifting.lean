import TripletSat.Proofs.Hyper.Construction
import TripletSat.Proofs.Hyper.Maps.Filtering

/-!
Shifts in step. A layer is shifted as a whole, first all edges and then all arrivals, while hyper-structures take
one edge after the other and write what arrives at its end at once. Nothing that is written is read before
the next tier, so both end alike.
-/

namespace TripletSat

namespace Layer

variable {layer layer' rest : Layer} {count index : Nat} {v w : Vertex} {o : Octant}
  {arrival : Octant × List Formula}

theorem vertex?_cons (v : Vertex) (rest : Layer) (o : Octant) :
    vertex? (v :: rest) o = if v.octant = o then some v else vertex? rest o := by
  rw [vertex?, List.find?_cons]
  by_cases same : v.octant = o
  · rw [if_pos same, beq_iff_eq.mpr same]
  · rw [if_neg same, beq_eq_false_iff_ne.mpr same]
    rfl

theorem even_cons : Even count (v :: rest) ↔
    (∀ o ∈ keys rest, v.octant.key < o.key) ∧ v.parts.length = count ∧ rest.Even count := by
  constructor
  · rintro ⟨ascending, parts⟩
    obtain ⟨above, tail⟩ := List.pairwise_cons.mp ascending
    obtain ⟨head, others⟩ := List.forall_mem_cons.mp parts
    exact ⟨above, head, tail, others⟩
  · rintro ⟨above, head, tail, others⟩
    exact ⟨List.pairwise_cons.mpr ⟨above, tail⟩, List.forall_mem_cons.mpr ⟨head, others⟩⟩

theorem vertex?_of_below (above : ∀ u ∈ keys layer, o.key < u.key) : vertex? layer o = none := by
  cases found : vertex? layer o with
  | none => rfl
  | some v =>
    obtain ⟨hv, rfl⟩ := vertex?_some found
    exact absurd (above _ (mem_keys.mpr ⟨v, hv, rfl⟩)) (Nat.lt_irrefl _)

/-! ### Arrivals -/

/-- What an arrival makes of a layer. Only the vertex of its octant is new, or another. -/
structure Receives (count : Nat) (arrival : Octant × List Formula) (layer : Layer) (w : Vertex)
    (layer' : Layer) : Prop where
  even : layer'.Even count
  found : ∀ o, vertex? layer' o = if o = arrival.1 then some w else vertex? layer o
  vertex : vertex? layer arrival.1 = none ∧ w = .ofParts arrival.1 arrival.2 ∨
    ∃ v united, vertex? layer arrival.1 = some v ∧ unionParts v.parts arrival.2 = .ok united ∧
      w = { v with parts := united }

theorem Receives.mem_keys (h : Receives count arrival layer w layer') (ho : o ∈ keys layer') :
    o = arrival.1 ∨ o ∈ keys layer := by
  have found := isSome_vertex?_iff.mpr ho
  rw [h.found] at found
  split at found
  · exact .inl ‹_›
  · exact .inr (isSome_vertex?_iff.mp found)

theorem Receives.insert (even : layer.Even count) (size : arrival.2.length = count)
    (below : ∀ o ∈ keys layer, arrival.1.key < o.key) :
    Receives count arrival layer (.ofParts arrival.1 arrival.2) (.ofParts arrival.1 arrival.2 :: layer) where
  even := even_cons.mpr ⟨below, size, even⟩
  found o := by
    rw [vertex?_cons]
    exact if_congr eq_comm rfl rfl
  vertex := .inl ⟨vertex?_of_below below, rfl⟩

theorem Receives.unite {united : List Formula} (even : Even count (v :: rest)) (here : arrival.1 = v.octant)
    (size : arrival.2.length = count) (unites : unionParts v.parts arrival.2 = .ok united) :
    Receives count arrival (v :: rest) { v with parts := united } ({ v with parts := united } :: rest) where
  even := by
    obtain ⟨above, head, tail⟩ := even_cons.mp even
    have same := (zip_mapM_length (size.trans head.symm)).of_canReturn unites
    exact even_cons.mpr ⟨above, same.trans head, tail⟩
  found o := by
    rw [vertex?_cons, vertex?_cons, here]
    by_cases same : v.octant = o
    · rw [if_pos same, if_pos same.symm]
    · rw [if_neg same, if_neg (Ne.symm same), if_neg same]
  vertex := by
    refine .inr ⟨v, united, ?_, unites, rfl⟩
    rw [vertex?_cons, if_pos here.symm]

theorem Receives.behind {rest' : Layer} (h : Receives count arrival rest w rest') (even : Even count (v :: rest))
    (below : v.octant.key < arrival.1.key) : Receives count arrival (v :: rest) w (v :: rest') where
  even := by
    obtain ⟨above, head, -⟩ := even_cons.mp even
    refine even_cons.mpr ⟨fun o ho => ?_, head, h.even⟩
    rcases h.mem_keys ho with rfl | ho
    · exact below
    · exact above o ho
  found o := by
    rw [vertex?_cons, vertex?_cons, h.found]
    by_cases same : v.octant = o
    · rw [if_pos same, if_pos same, if_neg]
      intro here
      rw [same, here] at below
      exact Nat.lt_irrefl _ below
    · rw [if_neg same, if_neg same]
  vertex := by
    have apart : v.octant ≠ arrival.1 := fun same => Nat.ne_of_lt below (congrArg _ same)
    rw [vertex?_cons, if_neg apart]
    exact h.vertex

theorem Even.arrive (even : layer.Even count) (size : arrival.2.length = count)
    (run : layer.arrive arrival = .ok layer') : ∃ w, Receives count arrival layer w layer' := by
  induction layer generalizing layer' with
  | nil =>
    obtain rfl := Except.ok.inj run
    exact ⟨_, .insert even size nofun⟩
  | cons v rest ih =>
    obtain ⟨above, -, tail⟩ := even_cons.mp even
    unfold Layer.arrive at run
    split at run
    · rename_i below
      obtain rfl := Except.ok.inj run
      exact ⟨_, .insert even size
        (List.forall_mem_cons.mpr ⟨below, fun o ho => Nat.lt_trans below (above o ho)⟩)⟩
    · split at run
      · rename_i here
        obtain ⟨united, unites, run⟩ := ok_of_bind run
        obtain rfl := Except.ok.inj run
        exact ⟨_, .unite even here size unites⟩
      · rename_i notBelow other
        obtain ⟨rest', arrives, run⟩ := ok_of_bind run
        obtain rfl := Except.ok.inj run
        obtain ⟨w, received⟩ := ih tail arrives
        have := mt Octant.key_inj other
        exact ⟨w, received.behind even (by omega)⟩

end Layer

namespace Layer

theorem update_of_not_mem {layer : Layer} {v : Vertex} (away : v.octant ∉ keys layer) :
    update layer v = layer := by
  refine (List.map_congr_left fun u hu => if_neg ?_).trans (List.map_id layer)
  exact fun same => away (mem_keys.mpr ⟨u, hu, same⟩)

theorem Even.update_middle {done rest : Layer} {count : Nat} {v v' : Vertex} (even : Even count (done ++ v :: rest))
    (same : v'.octant = v.octant) : update (done ++ v :: rest) v' = done ++ v' :: rest := by
  have keys : keys (done ++ v :: rest) = keys done ++ v.octant :: keys rest := by
    rw [Layer.keys, List.map_append, List.map_cons]
    rfl
  obtain ⟨-, apart, before⟩ := List.nodup_append.mp (keys ▸ even.nodup)
  have behind := (List.nodup_cons.mp apart).1
  have front : v.octant ∉ Layer.keys done := fun ho => before _ ho _ List.mem_cons_self rfl
  have done_eq := update_of_not_mem (same ▸ front)
  have rest_eq := update_of_not_mem (same ▸ behind)
  unfold update at done_eq rest_eq ⊢
  rw [List.map_append, List.map_cons, done_eq, rest_eq, if_pos same.symm]

theorem Even.middle {done rest : Layer} {count : Nat} {v v' : Vertex} (even : Even count (done ++ v :: rest))
    (same : v'.octant = v.octant) (length : v'.parts.length = v.parts.length) :
    Even count (done ++ v' :: rest) := by
  rw [← even.update_middle same]
  refine even.map fun u hu => ?_
  split
  · rename_i here
    refine ⟨here.symm, length.trans ?_⟩
    rw [even.parts u hu, even.parts v (List.mem_append_right _ List.mem_cons_self)]
  · exact ⟨rfl, rfl⟩

end Layer

/-- The vertex with an edge to the successor whose new variable has the value. -/
def Vertex.withEdge (v : Vertex) (value : Bool) (edge : Edge) : Vertex :=
  if value then { v with high := edge } else { v with low := edge }

namespace HyperSystem

variable {s : HyperSystem} {k : Nat} {source layer layer' done rest : Layer} {v : Vertex} {value : Bool}

theorem source_shifted (bound : k ≤ s.layers.length) (source layer : Layer) :
    (s.shifted k source layer).layers[k]? = some source := by
  rw [getElem?_shifted bound, if_neg (Nat.lt_irrefl k), if_pos rfl]

theorem set_source_shifted (bound : k ≤ s.layers.length) (source layer layer' : Layer) :
    { s.shifted k source layer with layers := (s.shifted k source layer).layers.set k layer' } =
      s.shifted k layer' layer := by
  have length : (s.layers.take k).length = k := List.length_take_of_le bound
  unfold shifted
  rw [List.set_append_right _ _ (Nat.le_of_eq length), length, Nat.sub_self]
  rfl

theorem octant_withEdge (edge : Edge) : (v.withEdge value edge).octant = v.octant := by
  cases value with
  | false => rfl
  | true => rfl

theorem parts_withEdge (edge : Edge) : (v.withEdge value edge).parts = v.parts := by
  cases value with
  | false => rfl
  | true => rfl

theorem Even.withEdge (bound : k ≤ s.layers.length) (h : (s.shifted k (done ++ v :: rest) layer).Even)
    (edge : Edge) :
    (s.shifted k (done ++ v.withEdge value edge :: rest) layer).Even := by
  have even := h.of_getElem? (source_shifted bound _ _)
  rw [← set_source_shifted bound (done ++ v :: rest)]
  exact h.set (even.middle (octant_withEdge edge) (congrArg _ (parts_withEdge edge)))

end HyperSystem

end TripletSat
