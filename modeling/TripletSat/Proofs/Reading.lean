import TripletSat.Proofs.Propagation

/-!
Reading assignments. The checks that evaluation consists of return, and the walk through a clean
structure finds an assignment of all variables that the structure admits.
-/

namespace TripletSat

/-! ### Checks -/

theorem allChecked_returns {α : Type} {xs : List α} {test : α → Checked Bool} {Good : α → Prop}
    (h : ∀ x ∈ xs, Returns (test x) fun b => Good x → b = true) :
    Returns (allChecked test xs) fun b => (∀ x ∈ xs, Good x) → b = true := by
  induction xs with
  | nil => exact Returns.pure fun _ => rfl
  | cons x rest ih =>
    unfold allChecked
    apply (h x List.mem_cons_self).bind
    intro b hb
    cases b with
    | true =>
      exact (ih fun y hy => h y (List.mem_cons_of_mem _ hy)).mono fun b hb all =>
        hb fun y hy => all y (List.mem_cons_of_mem _ hy)
    | false => exact Returns.pure fun all => hb (all x List.mem_cons_self)

theorem Clause.ofOctant_returns {t : Triple} {o : Octant} (positive : ∀ v ∈ t.names, 0 < v) :
    Returns (Clause.ofOctant t o) fun clause => clause.triple = t ∧ clause.octant = o := by
  unfold ofOctant
  rw [dif_pos ⟨positive _ (Triple.name_mem_names t .a), positive _ (Triple.name_mem_names t .b),
    positive _ (Triple.name_mem_names t .c)⟩]
  exact Returns.pure ⟨rfl, rfl⟩

/-! ### The walk -/

theorem Octant.mem_successors {o u : Octant} : u ∈ o.successors ↔ u.a = o.b ∧ u.b = o.c := by
  obtain ⟨x, y, z⟩ := o
  obtain ⟨x', y', z'⟩ := u
  cases z' <;> simp [successors, shift]

theorem Tier.Linked.find?_successor {t u : Tier} {o : Octant} (h : t.Linked u)
    (ho : o ∈ t.octants) : ∃ next, o.successors.find? u.octants.contains = some next ∧
      next ∈ u.octants ∧ next.a = o.b ∧ next.b = o.c := by
  obtain ⟨v, hv, follows⟩ := h.1 o ho
  have found : (o.successors.find? u.octants.contains).isSome = true :=
    List.find?_isSome.mpr ⟨v, Octant.mem_successors.mpr follows, hv⟩
  obtain ⟨next, same⟩ := Option.isSome_iff_exists.mp found
  exact ⟨next, same, List.find?_some same,
    Octant.mem_successors.mp (List.mem_of_find?_eq_some same)⟩

namespace Assignment

theorem octant?_congr {α β : Assignment} {t : Triple}
    (same : ∀ v ∈ t.names, β.get? v = α.get? v) : β.octant? t = α.octant? t := by
  have ha := same t.a (Triple.name_mem_names t .a)
  have hb := same t.b (Triple.name_mem_names t .b)
  have hc := same t.c (Triple.name_mem_names t .c)
  rw [octant?, ha, hb, hc]
  rfl

theorem octant?_eq_some {α : Assignment} {t : Triple} {o : Octant} (h : α.octant? t = some o) :
    α.get? t.a = some o.a ∧ α.get? t.b = some o.b ∧ α.get? t.c = some o.c := by
  obtain ⟨total, rfl⟩ := octant?_eq_some_iff.mp h
  exact ⟨get?_eq_value (total _ (Triple.name_mem_names t .a)),
    get?_eq_value (total _ (Triple.name_mem_names t .b)),
    get?_eq_value (total _ (Triple.name_mem_names t .c))⟩

/-- A value for the third variable completes the values that the tier before has for the others. -/
theorem octant?_assign {α : Assignment} {t u : Triple} {o next : Octant}
    (h : α.octant? t = some o) (before : t.Precedes u) (follows : next.a = o.b ∧ next.b = o.c) :
    (α.assign u.c next.c).octant? u = some next := by
  obtain ⟨-, hb, hc⟩ := octant?_eq_some h
  rw [before.1] at hb
  rw [before.2] at hc
  simp [octant?, get?_assign, u.a_ne_c, u.b_ne_c, hb, hc, ← follows.1, ← follows.2]

theorem isSome_get?_assignOctant {α : Assignment} {t : Triple} {o : Octant} {v : Nat} :
    ((α.assignOctant t o).get? v).isSome = true ↔ v ∈ t.names ∨ (α.get? v).isSome = true := by
  simp only [assignOctant, get?_assign, Triple.mem_names]
  split
  · simp_all
  · split
    · simp_all
    · split <;> simp_all

theorem octant?_assignOctant (α : Assignment) (t : Triple) (o : Octant) :
    (α.assignOctant t o).octant? t = some o := by
  simp [octant?, assignOctant, get?_assign, t.a_ne_b, t.a_ne_c, t.b_ne_c]

end Assignment

namespace Formula

variable {f : Formula} {t : Tier} {rest : List Tier} {o : Octant} {α β : Assignment} {v : Nat}

/-- The walk leaves alone what is no third variable ahead. -/
theorem get?_walk (walked : walk o α rest = some β) (away : v ∉ rest.map (·.triple.c)) :
    β.get? v = α.get? v := by
  induction rest generalizing o α with
  | nil =>
    cases walked
    rfl
  | cons t rest ih =>
    rw [List.map_cons, List.mem_cons, not_or] at away
    rw [walk] at walked
    split at walked
    · rw [ih walked away.2, Assignment.get?_assign, if_neg away.1]
    · cases walked

theorem octant?_walk {w : Triple} (walked : walk o α rest = some β)
    (apart : ∀ v ∈ w.names, v ∉ rest.map (·.triple.c)) : β.octant? w = α.octant? w :=
  Assignment.octant?_congr fun v hv => get?_walk walked (apart v hv)

/-- The walk goes on through linked tiers to their end, and gives each third variable ahead a value. -/
theorem walk_some (chain : (t :: rest).IsChain Tier.Precedes)
    (distinct : (t.triple.names ++ rest.map (·.triple.c)).Nodup)
    (linked : (t :: rest).IsChain Tier.Linked) (ho : o ∈ t.octants)
    (values : α.octant? t.triple = some o) :
    ∃ β, walk o α rest = some β ∧ (∀ v ∈ rest.map (·.triple.c), (β.get? v).isSome = true) ∧
      ∀ u ∈ t :: rest, u.Admits β.value := by
  have stands {t : Tier} {o : Octant} {β : Assignment} (ho : o ∈ t.octants)
      (values : β.octant? t.triple = some o) : t.Admits β.value := by
    obtain ⟨-, rfl⟩ := Assignment.octant?_eq_some_iff.mp values
    exact ho
  induction rest generalizing t o α with
  | nil => exact ⟨α, rfl, by simp, by simpa using stands ho values⟩
  | cons u rest ih =>
    obtain ⟨before, chain⟩ := List.isChain_cons_cons.mp chain
    obtain ⟨link, linked⟩ := List.isChain_cons_cons.mp linked
    obtain ⟨-, -, apart⟩ := List.nodup_append.mp distinct
    have distinct : (u.triple.names ++ rest.map (·.triple.c)).Nodup := by
      rw [Triple.names, ← before.1, ← before.2]
      exact (List.nodup_cons.mp distinct).2
    have last : u.triple.c ∉ rest.map (·.triple.c) := by
      rw [Triple.names] at distinct
      simp only [List.cons_append, List.nil_append, List.nodup_cons] at distinct
      exact distinct.2.2.1
    -- The link extends the octant into the next tier, which leaves only the new variable open.
    obtain ⟨next, found, hnext, follows⟩ := link.find?_successor ho
    obtain ⟨β, walked, given, admits⟩ := ih chain distinct linked hnext
      (Assignment.octant?_assign values before follows)
    have whole : walk o α (u :: rest) = some β := by
      rw [walk, found]
      exact walked
    refine ⟨β, whole, List.forall_mem_cons.mpr ⟨?_, given⟩, List.forall_mem_cons.mpr ⟨?_, admits⟩⟩
    · show (β.get? u.triple.c).isSome = true
      rw [get?_walk walked last, Assignment.get?_assign, if_pos rfl]
      rfl
    · apply stands ho
      rw [octant?_walk whole fun v hv ahead => apart v hv v ahead rfl]
      exact values

theorem Windowed.names_eq (windowed : f.Windowed) (tiers : f.tiers = t :: rest) :
    f.permutation.names = t.triple.names ++ rest.map (·.triple.c) := by
  rw [Windowed, tiers] at windowed
  rw [Permutation.names_of_windows windowed.symm, List.map_map]
  rfl

/-- A clean structure has an assignment of exactly its variables that it admits. -/
theorem anyAssignment?_some (windowed : f.Windowed) (full : f.Full)
    (linked : f.tiers.IsChain Tier.Linked) :
    ∃ α, f.anyAssignment? = some α ∧ f.Admits α.value ∧
      ∀ v, (α.get? v).isSome = true ↔ v ∈ f.permutation.names := by
  have some := tiers_ne_nil_of_not_isEmpty full.nonempty
  obtain ⟨t, rest, tiers⟩ := List.exists_cons_of_ne_nil some
  have names := windowed.names_eq tiers
  have chain := windowed.isChain
  rw [tiers] at linked chain
  obtain ⟨o, octants, same⟩ : ∃ o octants, t.octants.toList = o :: octants := by
    apply List.exists_cons_of_ne_nil
    intro none
    obtain ⟨o, ho⟩ := OctantSet.isEmpty_eq_false_iff.mp
      (full.solid t (tiers ▸ List.mem_cons_self))
    rw [← OctantSet.mem_toList, none] at ho
    cases ho
  have ho : o ∈ t.octants := by simp [← OctantSet.mem_toList, same]
  obtain ⟨β, walked, given, admits⟩ := walk_some chain (names ▸ f.permutation.nodup) linked ho
    (Assignment.octant?_assignOctant .empty t.triple o)
  refine ⟨β, ?_, ⟨some, tiers ▸ admits⟩, fun v => ?_⟩
  · simp only [anyAssignment?, tiers, same]
    exact walked
  · rw [names, List.mem_append]
    by_cases ahead : v ∈ rest.map (·.triple.c)
    · exact iff_of_true (given v ahead) (.inr ahead)
    · rw [get?_walk walked ahead, Assignment.isSome_get?_assignOctant, or_iff_left ahead]
      simp [Assignment.get?_empty]

end Formula

end TripletSat
