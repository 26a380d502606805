import Mathlib.Data.List.Chain
import Mathlib.Data.List.Perm.Subperm
import TripletSat.Permutation
import TripletSat.Proofs.Valuation

/-!
The windows of a permutation. `getElem?_windows` gives each by its position; since the names are
distinct, a window is known by its variables alone, and each overlaps the next in two of them.
-/

namespace TripletSat

/-- A member stands at one place only. -/
theorem idxOf?_eq_some_iff {α : Type} [BEq α] [LawfulBEq α] {xs : List α} {x : α} {i : Nat}
    (nodup : xs.Nodup) : xs.idxOf? x = some i ↔ xs[i]? = some x := by
  rw [List.idxOf?_eq_some_iff]
  constructor
  · rintro ⟨bound, same, -⟩
    exact List.getElem?_eq_some_iff.mpr ⟨bound, same⟩
  · intro h
    obtain ⟨bound, same⟩ := List.getElem?_eq_some_iff.mp h
    refine ⟨bound, same, fun j earlier same' => ?_⟩
    have there := List.getElem?_eq_some_iff.mpr ⟨Nat.lt_trans earlier bound, same'⟩
    exact Nat.ne_of_gt earlier ((List.getElem?_inj bound nodup).mp (h.trans there.symm))

theorem nodup_eraseDups {α : Type} [BEq α] [LawfulBEq α] (xs : List α) : xs.eraseDups.Nodup := by
  match xs with
  | [] => exact .nil
  | x :: rest =>
    rw [List.eraseDups_cons, List.nodup_cons]
    refine ⟨?_, nodup_eraseDups _⟩
    rw [List.mem_eraseDups]
    simp
termination_by xs.length
decreasing_by exact Nat.lt_succ_of_le (List.length_filter_le _ _)

theorem eraseDups_of_nodup {α : Type} [BEq α] [LawfulBEq α] {xs : List α} (nodup : xs.Nodup) :
    xs.eraseDups = xs := by
  induction xs with
  | nil => rfl
  | cons x rest ih =>
    obtain ⟨away, nodup⟩ := List.nodup_cons.mp nodup
    have kept : rest.filter (fun y => !y == x) = rest := by
      refine List.filter_eq_self.mpr fun y hy => ?_
      rw [Bool.not_eq_true', beq_eq_false_iff_ne]
      rintro rfl
      exact away hy
    rw [List.eraseDups_cons, kept, ih nodup]

/-- The second triple starts with the two variables that the first one ends with. -/
def Triple.Precedes (t u : Triple) : Prop := t.b = u.a ∧ t.c = u.b

namespace Permutation

theorem isChain_windowsOf : (names : List Nat) → (nodup : names.Nodup) →
    (windowsOf names nodup).IsChain Triple.Precedes
  | [], _ | [_], _ | [_, _], _ => .nil
  | [_, _, _], _ => .singleton _
  | _ :: b :: c :: d :: rest, nodup =>
    .cons_cons ⟨rfl, rfl⟩ (isChain_windowsOf (b :: c :: d :: rest) (List.nodup_cons.mp nodup).2)

theorem map_c_windowsOf : (names : List Nat) → (nodup : names.Nodup) →
    (windowsOf names nodup).map Triple.c = names.drop 2
  | [], _ | [_], _ | [_, _], _ => rfl
  | _ :: b :: c :: rest, nodup => by
    rw [windowsOf, List.map_cons, map_c_windowsOf (b :: c :: rest)]
    rfl

/-- The first window and the last variables of the others make up the names. -/
theorem names_of_windows {p : Permutation} {w : Triple} {ws : List Triple}
    (windows : p.windows = w :: ws) : p.names = w.names ++ ws.map Triple.c := by
  obtain ⟨names, nodup⟩ := p
  match names, nodup, windows with
  | a :: b :: c :: more, nodup, windows =>
    obtain ⟨rfl, rfl⟩ := List.cons.inj windows
    rw [map_c_windowsOf]
    rfl

theorem getElem?_windowsOf {names : List Nat} {nodup : names.Nodup} {i : Nat} {w : Triple} :
    (windowsOf names nodup)[i]? = some w ↔
      names[i]? = some w.a ∧ names[i + 1]? = some w.b ∧ names[i + 2]? = some w.c := by
  induction names generalizing i with
  | nil => simp [windowsOf]
  | cons a rest ih =>
    obtain - | ⟨b, - | ⟨c, rest⟩⟩ := rest
    · simp [windowsOf]
    · simp [windowsOf]
    · cases i with
      | zero =>
        simp only [windowsOf, List.getElem?_cons_zero, List.getElem?_cons_succ, Nat.zero_add,
          Option.some.injEq]
        constructor
        · rintro rfl
          exact ⟨rfl, rfl, rfl⟩
        · rintro ⟨rfl, rfl, rfl⟩
          rfl
      | succ i =>
        rw [windowsOf, List.getElem?_cons_succ, ih]
        rfl

theorem getElem?_windows {p : Permutation} {i : Nat} {w : Triple} :
    p.windows[i]? = some w ↔
      p.names[i]? = some w.a ∧ p.names[i + 1]? = some w.b ∧ p.names[i + 2]? = some w.c :=
  getElem?_windowsOf

theorem isChain_windows (p : Permutation) : p.windows.IsChain Triple.Precedes :=
  isChain_windowsOf _ _

theorem length_windows (p : Permutation) : p.windows.length = p.size - 2 :=
  length_windowsOf _ _

theorem precedes_of_windows {p : Permutation} {i : Nat} {t u : Triple}
    (ht : p.windows[i]? = some t) (hu : p.windows[i + 1]? = some u) : t.Precedes u := by
  obtain ⟨-, tb, tc⟩ := getElem?_windows.mp ht
  obtain ⟨ua, ub, -⟩ := getElem?_windows.mp hu
  exact ⟨Option.some.inj (tb.symm.trans ua), Option.some.inj (tc.symm.trans ub)⟩

/-- A name stands at one position only. -/
theorem getElem?_names_inj {p : Permutation} {i j v : Nat} (hi : p.names[i]? = some v)
    (hj : p.names[j]? = some v) : i = j := by
  obtain ⟨bound, _⟩ := List.getElem?_eq_some_iff.mp hi
  exact (List.getElem?_inj bound p.nodup).mp (hi.trans hj.symm)

theorem index_eq {p : Permutation} {i v : Nat} (h : p.names[i]? = some v) : p.index v = i := by
  have member := List.mem_of_getElem? h
  exact getElem?_names_inj (List.getElem?_idxOf member) h

theorem index?_eq_some_iff {p : Permutation} {i v : Nat} :
    p.index? v = some i ↔ p.names[i]? = some v :=
  idxOf?_eq_some_iff p.nodup

/-- The position of a window's first variable. -/
theorem exists_getElem?_of_mem_windows {p : Permutation} {w : Triple} (h : w ∈ p.windows) :
    ∃ i, p.names[i]? = some w.a ∧ p.names[i + 1]? = some w.b ∧ p.names[i + 2]? = some w.c := by
  obtain ⟨i, hi⟩ := List.mem_iff_getElem?.mp h
  exact ⟨i, getElem?_windows.mp hi⟩

theorem isWindow_iff {p : Permutation} {t : Triple} : p.isWindow t = true ↔ t ∈ p.windows := by
  constructor
  · intro h
    unfold isWindow at h
    split at h
    · rename_i a b c ha hb hc
      simp only [Bool.and_eq_true, beq_iff_eq] at h
      obtain ⟨rfl, rfl⟩ := h
      exact List.mem_iff_getElem?.mpr ⟨a, getElem?_windows.mpr ⟨index?_eq_some_iff.mp ha,
        index?_eq_some_iff.mp hb, index?_eq_some_iff.mp hc⟩⟩
    · cases h
  · intro h
    obtain ⟨i, ha, hb, hc⟩ := exists_getElem?_of_mem_windows h
    simp [isWindow, index?_eq_some_iff.mpr ha, index?_eq_some_iff.mpr hb, index?_eq_some_iff.mpr hc]

theorem mem_names_of_mem_windows {p : Permutation} {w : Triple} {v : Nat} (h : w ∈ p.windows)
    (hv : v ∈ w.names) : v ∈ p.names := by
  obtain ⟨i, ha, hb, hc⟩ := exists_getElem?_of_mem_windows h
  rcases Triple.mem_names.mp hv with rfl | rfl | rfl
  · exact List.mem_of_getElem? ha
  · exact List.mem_of_getElem? hb
  · exact List.mem_of_getElem? hc

/-- The variables of a window in a permutation ascend. -/
theorem index_lt_of_mem_windows {p : Permutation} {w : Triple} (h : w ∈ p.windows) :
    p.index w.a < p.index w.b ∧ p.index w.b < p.index w.c := by
  obtain ⟨i, ha, hb, hc⟩ := exists_getElem?_of_mem_windows h
  rw [index_eq ha, index_eq hb, index_eq hc]
  omega

theorem exists_window {p : Permutation} {v : Nat} (size : 3 ≤ p.size) (h : v ∈ p.names) :
    ∃ w ∈ p.windows, v ∈ w.names := by
  obtain ⟨i, hi⟩ := List.mem_iff_getElem?.mp h
  obtain ⟨bound, -⟩ := List.getElem?_eq_some_iff.mp hi
  have count : p.size = p.names.length := rfl
  -- The window that starts at the variable, or the last one.
  have short : min i (p.size - 3) < p.windows.length := by
    rw [length_windows]
    omega
  obtain ⟨w, hw⟩ : ∃ w, p.windows[min i (p.size - 3)]? = some w :=
    ⟨_, List.getElem?_eq_getElem short⟩
  refine ⟨w, List.mem_of_getElem? hw, ?_⟩
  obtain ⟨ha, hb, hc⟩ := getElem?_windows.mp hw
  obtain same | same | same : i = min i (p.size - 3) ∨ i = min i (p.size - 3) + 1 ∨
    i = min i (p.size - 3) + 2 := by omega
  · rw [same, ha] at hi
    exact Triple.mem_names.mpr (.inl (Option.some.inj hi).symm)
  · rw [same, hb] at hi
    exact Triple.mem_names.mpr (.inr (.inl (Option.some.inj hi).symm))
  · rw [same, hc] at hi
    exact Triple.mem_names.mpr (.inr (.inr (Option.some.inj hi).symm))

/-- A window is known by its variables. -/
theorem eq_of_sameVariables {p : Permutation} {w u : Triple} (hw : w ∈ p.windows)
    (hu : u ∈ p.windows) (same : w.sameVariables u = true) : w = u := by
  obtain ⟨i, hi⟩ := List.mem_iff_getElem?.mp hw
  obtain ⟨j, hj⟩ := List.mem_iff_getElem?.mp hu
  obtain ⟨wa, wb, wc⟩ := getElem?_windows.mp hi
  obtain ⟨ua, ub, uc⟩ := getElem?_windows.mp hj
  have near {k v : Nat} (hk : p.names[k]? = some v) (hv : v ∈ w.names) : j ≤ k ∧ k ≤ j + 2 := by
    rcases Triple.mem_names.mp ((Triple.sameVariables_iff.mp same v).mp hv) with rfl | rfl | rfl
    · have := getElem?_names_inj hk ua
      omega
    · have := getElem?_names_inj hk ub
      omega
    · have := getElem?_names_inj hk uc
      omega
  have low := near wa (Triple.name_mem_names w .a)
  have high := near wc (Triple.name_mem_names w .c)
  obtain rfl : i = j := by omega
  exact Option.some.inj (hi.symm.trans hj)

theorem pairwise_windows (p : Permutation) :
    p.windows.Pairwise fun w u => p.index w.a < p.index u.a := by
  apply List.pairwise_iff_getElem.mpr
  intro i j hi hj before
  have wi := getElem?_windows.mp (List.getElem?_eq_getElem hi)
  have wj := getElem?_windows.mp (List.getElem?_eq_getElem hj)
  rw [index_eq wi.1, index_eq wj.1]
  exact before

theorem nodup_windows (p : Permutation) : p.windows.Nodup := by
  refine List.Pairwise.imp (fun {w u} below => ?_) p.pairwise_windows
  rintro rfl
  exact Nat.lt_irrefl _ below

/-- A window is known by the position of its first variable. -/
theorem eq_of_index_eq {p : Permutation} {w u : Triple} (hw : w ∈ p.windows) (hu : u ∈ p.windows)
    (same : p.index w.a = p.index u.a) : w = u := by
  obtain ⟨i, wi⟩ := exists_getElem?_of_mem_windows hw
  obtain ⟨j, uj⟩ := exists_getElem?_of_mem_windows hu
  rw [index_eq wi.1, index_eq uj.1] at same
  subst same
  exact Option.some.inj ((getElem?_windows.mpr wi).symm.trans (getElem?_windows.mpr uj))

/-- A triple at each position that starts a window: these are the windows. -/
theorem eq_windows {p : Permutation} {ws : List Triple} (count : ws.length = p.size - 2)
    (each : ∀ i w, ws[i]? = some w →
      p.names[i]? = some w.a ∧ p.names[i + 1]? = some w.b ∧ p.names[i + 2]? = some w.c) :
    ws = p.windows := by
  apply List.ext_getElem?
  intro i
  cases at' : ws[i]? with
  | some w => exact (getElem?_windows.mpr (each i w at')).symm
  | none =>
    rw [List.getElem?_eq_none_iff] at at'
    refine (List.getElem?_eq_none ?_).symm
    rwa [length_windows, ← count]

/-! ### More variables -/

theorem names_add {p : Permutation} {v : Nat} (fresh : v ∉ p.names) :
    (p.add v).names = p.names ++ [v] := by
  unfold add
  rw [dif_neg fresh]

theorem names_prefix_addAll (p : Permutation) (names : List Nat) :
    p.names <+: (p.addAll names).names := by
  unfold addAll
  induction names generalizing p with
  | nil => exact List.prefix_rfl
  | cons v rest ih =>
    refine List.IsPrefix.trans ?_ (ih (p.add v))
    unfold add
    split
    · exact List.prefix_rfl
    · exact List.prefix_append _ _

theorem addAll_eq_self {p : Permutation} {names : List Nat} (known : ∀ v ∈ names, v ∈ p.names) :
    p.addAll names = p := by
  unfold addAll
  induction names with
  | nil => rfl
  | cons v rest ih =>
    have held : p.add v = p := dif_pos (known v List.mem_cons_self)
    rw [List.foldl_cons, held]
    exact ih fun w hw => known w (List.mem_cons_of_mem _ hw)

theorem mem_windows_addAll {p : Permutation} {names : List Nat} {w : Triple}
    (h : w ∈ p.windows) : w ∈ (p.addAll names).windows := by
  obtain ⟨i, ha, hb, hc⟩ := exists_getElem?_of_mem_windows h
  obtain ⟨more, same⟩ := p.names_prefix_addAll names
  have kept {j v : Nat} (hj : p.names[j]? = some v) : (p.addAll names).names[j]? = some v := by
    obtain ⟨bound, -⟩ := List.getElem?_eq_some_iff.mp hj
    rw [← same, List.getElem?_append_left bound, hj]
  exact List.mem_of_getElem? (getElem?_windows.mpr ⟨kept ha, kept hb, kept hc⟩)

theorem names_addAll (p : Permutation) (names : List Nat) :
    (p.addAll names).names = p.names ++ (names.filter (· ∉ p.names)).eraseDups := by
  rw [addAll]
  induction names generalizing p with
  | nil => simp
  | cons v rest ih =>
    rw [List.foldl_cons, ih]
    by_cases present : v ∈ p.names
    · simp [add, present]
    · have names : (p.add v).names = p.names ++ [v] := by simp [add, present]
      have later : rest.filter (· ∉ p.names ++ [v]) =
          (rest.filter (· ∉ p.names)).filter (fun w => !w == v) := by
        rw [List.filter_filter]
        refine List.filter_congr fun w _ => ?_
        by_cases here : w = v <;> simp [here, present]
      rw [names, later, List.filter_cons_of_pos (by simpa using present), List.eraseDups_cons,
        List.append_assoc]
      rfl

theorem names_ofNames (names : List Nat) : (ofNames names).names = names.eraseDups := by
  rw [ofNames, names_addAll]
  simp [empty]

/-- The names of another permutation come to the end, but for those that are there already. -/
theorem names_addAll_names (p q : Permutation) :
    (p.addAll q.names).names = p.names ++ q.names.filter (· ∉ p.names) := by
  rw [names_addAll, eraseDups_of_nodup (q.nodup.filter _)]

/-- A variable more at the end gives one window more, over the last two variables and it. -/
theorem exists_windows_add {p : Permutation} {v : Nat} (fresh : v ∉ p.names) (size : 2 ≤ p.size) :
    ∃ w, (p.add v).windows = p.windows ++ [w] ∧
      p.names[p.size - 2]? = some w.a ∧ p.names[p.size - 1]? = some w.b ∧ w.c = v := by
  have names := names_add fresh
  have size' : (p.add v).size = p.size + 1 := by simp [Permutation.size, names]
  have count : (p.add v).windows.length = p.size - 1 := by
    rw [length_windows, size']
    omega
  obtain ⟨w, hw⟩ : ∃ w, (p.add v).windows[p.size - 2]? = some w :=
    ⟨_, List.getElem?_eq_getElem (by omega)⟩
  have kept {i : Nat} (before : i < p.size) : (p.add v).names[i]? = p.names[i]? := by
    rw [names]
    exact List.getElem?_append_left before
  obtain ⟨ha, hb, hc⟩ := getElem?_windows.mp hw
  rw [kept (by omega)] at ha
  refine ⟨w, (eq_windows ?_ ?_).symm, ha, ?_, ?_⟩
  · rw [List.length_append, length_windows, size', List.length_singleton]
    omega
  · intro i u hu
    rcases Nat.lt_or_ge i p.windows.length with old | last
    · rw [List.getElem?_append_left old] at hu
      rw [length_windows] at old
      rw [kept (by omega), kept (by omega), kept (by omega)]
      exact getElem?_windows.mp hu
    · rw [List.getElem?_append_right last, List.getElem?_singleton] at hu
      split at hu
      · obtain rfl : i = p.size - 2 := by
          rw [length_windows] at *
          omega
        cases hu
        exact getElem?_windows.mp hw
      · cases hu
  · rw [show p.size - 2 + 1 = p.size - 1 by omega, kept (by omega)] at hb
    exact hb
  · rw [show p.size - 2 + 2 = p.names.length by
      show _ = p.size
      omega, names, List.getElem?_concat_length] at hc
    exact (Option.some.inj hc).symm

/-- A variable more at the front gives one window more, over it and the first two variables. -/
theorem exists_windows_cons {p q : Permutation} {v : Nat} (names : q.names = v :: p.names)
    (size : 2 ≤ p.size) :
    ∃ w, q.windows = w :: p.windows ∧
      w.a = v ∧ p.names[0]? = some w.b ∧ p.names[1]? = some w.c := by
  have size' : q.size = p.size + 1 := by simp [Permutation.size, names]
  obtain ⟨w, hw⟩ : ∃ w, q.windows[0]? = some w := by
    refine ⟨_, List.getElem?_eq_getElem ?_⟩
    rw [length_windows]
    omega
  obtain ⟨ha, hb, hc⟩ := getElem?_windows.mp hw
  refine ⟨w, (eq_windows ?_ ?_).symm, ?_, ?_, ?_⟩
  · rw [List.length_cons, length_windows]
    omega
  · intro i u hu
    cases i with
    | zero =>
      cases hu
      exact getElem?_windows.mp hw
    | succ i =>
      simp only [names, List.getElem?_cons_succ]
      exact getElem?_windows.mp hu
  · rw [names] at ha
    exact (Option.some.inj ha).symm
  · rwa [names] at hb
  · rwa [names] at hc

/-! ### The same variables -/

theorem sameVariables_of_mem_iff {p q : Permutation} (same : ∀ v, v ∈ p.names ↔ v ∈ q.names) :
    p.sameVariables q = true := by
  have perm : p.names.Perm q.names := (List.perm_ext_iff_of_nodup p.nodup q.nodup).mpr same
  simp only [sameVariables, Bool.and_eq_true, beq_iff_eq, List.all_eq_true]
  exact ⟨perm.length_eq, fun v hv => List.contains_iff_mem.mpr ((same v).mp hv)⟩

/-- As many variables, all of them known to the other: then the other has no more. -/
theorem mem_of_sameVariables {p q : Permutation} {v : Nat} (h : p.sameVariables q = true)
    (hv : v ∈ q.names) : v ∈ p.names := by
  simp only [sameVariables, Bool.and_eq_true, beq_iff_eq, List.all_eq_true] at h
  obtain ⟨size, known⟩ := h
  have subset : p.names ⊆ q.names := fun w hw => List.contains_iff_mem.mp (known w hw)
  have perm := (List.subperm_of_subset p.nodup subset).perm_of_length_le (Nat.le_of_eq size.symm)
  exact perm.mem_iff.mpr hv

end Permutation

end TripletSat
