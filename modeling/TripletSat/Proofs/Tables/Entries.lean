import TripletSat.Proofs.Tables.Basic

/-!
What is in the tables. A table of a list stays the table of the list when a key comes at its end, when
one is inserted, and when all are entered anew; a search by sorted variables and a look-up in such a
table find the same tier.
-/

namespace TripletSat

/-! ### Tables of lists -/

namespace Table

variable {κ : Type} [DecidableEq κ] {keys : List κ} {key : κ}

theorem ofList_eq_none_iff : ofList keys key = none ↔ key ∉ keys := List.idxOf?_eq_none_iff

theorem ofList_append (front back : List κ) :
    ofList (front ++ back) key =
      (ofList front key).or ((ofList back key).map (· + front.length)) :=
  List.findIdx?_append

theorem ofList_eq_some_iff (nodup : keys.Nodup) {i : Nat} :
    ofList keys key = some i ↔ keys[i]? = some key :=
  idxOf?_eq_some_iff nodup

theorem insert_ofList (fresh : key ∉ keys) :
    (ofList keys).insert key keys.length = ofList (keys ++ [key]) := by
  funext other
  rw [ofList_append, insert]
  by_cases same : other = key
  · subst same
    rw [Function.update_self, ofList_eq_none_iff.mpr fresh]
    simp [ofList, List.idxOf?_cons]
  · rw [Function.update_of_ne same]
    simp [ofList, List.idxOf?_cons, Ne.symm same]

/-- Keys that differ are found where they stand, other keys where they were before. -/
theorem enter_apply (nodup : keys.Nodup) (table : Table κ) (start : Nat) :
    table.enter start keys key = ((ofList keys key).map (· + start)).or (table key) := by
  induction keys generalizing table start with
  | nil => rfl
  | cons first rest ih =>
    obtain ⟨away, nodup⟩ := List.nodup_cons.mp nodup
    show (table.insert first start).enter (start + 1) rest key = _
    rw [ih nodup, insert]
    by_cases same : first = key
    · subst same
      rw [Function.update_self, ofList_eq_none_iff.mpr away]
      simp [ofList, List.idxOf?_cons]
    · rw [Function.update_of_ne (Ne.symm same)]
      have later : (· + (start + 1)) = ((· + start) ∘ (· + 1) : Nat → Nat) := by
        funext i
        show i + (start + 1) = i + 1 + start
        omega
      simp [ofList, List.idxOf?_cons, same, later]

/-- To insert a key it is enough to enter it and the keys behind it. -/
theorem enter_ofList {front back : List κ} (nodup : (front ++ key :: back).Nodup) :
    (ofList (front ++ back)).enter front.length (key :: back) = ofList (front ++ key :: back) := by
  funext other
  obtain ⟨-, later, apart⟩ := List.nodup_append.mp nodup
  rw [enter_apply later, ofList_append, ofList_append]
  by_cases here : other ∈ key :: back
  · have before : other ∉ front := fun there => apart other there other here rfl
    obtain ⟨i, found⟩ := List.mem_iff_getElem?.mp here
    rw [ofList_eq_none_iff.mpr before, (ofList_eq_some_iff later).mpr found]
    rfl
  · have behind : other ∉ back := fun there => here (List.mem_cons_of_mem _ there)
    rw [ofList_eq_none_iff.mpr here, ofList_eq_none_iff.mpr behind]
    rfl

end Table

/-! ### Tiers in order -/

namespace Tier

variable {t u : Tier} {rank rank' : Nat → Nat}

/-- Only how the ranks of its variables compare orders a tier. -/
theorem orderedBy_congr
    (same : ∀ v ∈ t.triple.names, ∀ w ∈ t.triple.names, rank v < rank w ↔ rank' v < rank' w) :
    t.orderedBy rank = t.orderedBy rank' := by
  grind [orderedBy, swap, Triple.swap, Triple.names]

/-- Tiers are united whatever the order in which the second one is stored. -/
theorem merge_orderedBy (same : t.triple.sameVariables u.triple = true) :
    u.merge (t.orderedBy rank) = u.merge t := by
  have octants : (t.orderedBy rank).octantsAlong u.triple = t.octantsAlong u.triple := by
    refine OctantSet.ext fun o => ?_
    obtain ⟨τ, rfl⟩ := Valuation.exists_octant u.triple o
    rw [mem_octantsAlong same, mem_octantsAlong, admits_orderedBy]
    exact Triple.sameVariables_iff.mpr fun v =>
      mem_names_orderedBy.trans (Triple.sameVariables_iff.mp same v)
  rw [merge, merge, octants]

end Tier

/-! ### Rosters -/

namespace Permutation

variable {p : Permutation}

/-- The names with their table. -/
def roster (p : Permutation) : Roster := ⟨p.names, .ofList p.names⟩

theorem roster_add (v : Nat) : p.roster.add v = (p.add v).roster := by
  unfold Roster.add Roster.index? roster
  dsimp only
  by_cases known : v ∈ p.names
  · have held : p.add v = p := dif_pos known
    obtain ⟨i, hi⟩ := List.mem_iff_getElem?.mp known
    rw [(Table.ofList_eq_some_iff p.nodup).mpr hi, held]
  · rw [Table.ofList_eq_none_iff.mpr known, names_add known]
    dsimp only
    rw [Table.insert_ofList known]

theorem roster_addAll (names : List Nat) : p.roster.addAll names = (p.addAll names).roster := by
  unfold Roster.addAll addAll
  induction names generalizing p with
  | nil => rfl
  | cons v rest ih => rw [List.foldl_cons, List.foldl_cons, roster_add, ih]

theorem roster_ofNames (names : List Nat) : Roster.ofNames names = (ofNames names).roster :=
  roster_addAll (p := empty) names

theorem contains_roster (v : Nat) : p.roster.contains v = p.contains v := by
  apply Bool.eq_iff_iff.mpr
  rw [contains, List.contains_iff_mem]
  exact List.isSome_idxOf?

theorem roster_insert (index v : Nat) : p.roster.insert index v = roster <$> p.insert index v := by
  unfold Roster.insert insert
  rw [contains_roster]
  by_cases known : v ∈ p.names
  · have held : p.contains v = true := List.contains_iff_mem.mpr known
    rw [if_pos held, dif_pos known]
    rfl
  · have absent : ¬ p.contains v = true := mt List.contains_iff_mem.mp known
    rw [if_neg absent, dif_neg known]
    by_cases bound : index ≤ p.names.length
    · have parts := List.take_append_drop index p.names
      have length : (p.names.take index).length = index := List.length_take_of_le bound
      have behind : (p.names.take index ++ v :: p.names.drop index).drop index =
          v :: p.names.drop index := List.drop_left' length
      have nodup : (p.names.take index ++ v :: p.names.drop index).Nodup := by
        rw [List.perm_middle.nodup_iff, parts]
        exact List.nodup_cons.mpr ⟨known, p.nodup⟩
      have entered := Table.enter_ofList nodup
      rw [parts, length] at entered
      rw [if_pos (show index ≤ p.roster.names.length from bound),
        if_pos (show index ≤ p.size from bound)]
      refine congrArg (fun table => Except.ok (Roster.mk _ table)) (Eq.trans ?_ entered)
      exact congrArg (Table.enter _ index) behind
    · rw [if_neg (show ¬ index ≤ p.roster.names.length from bound),
        if_neg (show ¬ index ≤ p.size from bound)]
      rfl

theorem rank_roster {v : Nat} (known : v ∈ p.names) : p.roster.rank v = p.index v + 1 := by
  have found := List.getElem?_idxOf known
  have place : p.roster.index? v = some (p.names.idxOf v) := (Table.ofList_eq_some_iff p.nodup).mpr found
  rw [Roster.rank, place]
  rfl

/-- Sorting by the table is sorting by position. -/
theorem orderedBy_rank_roster {t : Tier} (known : ∀ v ∈ t.triple.names, v ∈ p.names) :
    t.orderedBy p.roster.rank = t.orderedBy p.index := by
  apply Tier.orderedBy_congr
  intro v hv w hw
  rw [rank_roster (known v hv), rank_roster (known w hw), Nat.add_lt_add_iff_right]

end Permutation

/-! ### Keys of tiers -/

namespace Triple

variable {t u : Triple}

theorem perm_sortedNames (t : Triple) : t.sortedNames.Perm t.names := List.mergeSort_perm _ _

theorem pairwise_sortedNames (t : Triple) : t.sortedNames.Pairwise (· ≤ ·) :=
  pairwise_mergeSort_by id t.names

theorem ofNames_names (t : Triple) : ofNames t.a t.b t.c = .ok t := by
  have distinct : t.a ≠ t.b ∧ t.a ≠ t.c ∧ t.b ≠ t.c := ⟨t.a_ne_b, t.a_ne_c, t.b_ne_c⟩
  rw [ofNames, ofNames?, dif_pos distinct]
  rfl

/-- The variables have one sorted list. -/
theorem sortedNames_eq {key : List Nat} (sorted : key.Pairwise (· ≤ ·)) (perm : t.names.Perm key) :
    t.sortedNames = key :=
  (t.perm_sortedNames.trans perm).eq_of_pairwise (fun _ _ _ _ => Nat.le_antisymm)
    t.pairwise_sortedNames sorted

theorem sortedNames_eq_iff : t.sortedNames = u.sortedNames ↔ t.sameVariables u = true := by
  constructor
  · intro same
    refine sameVariables_iff.mpr fun v => ?_
    rw [← t.perm_sortedNames.mem_iff, same, u.perm_sortedNames.mem_iff]
  · intro same
    have perm : t.names.Perm u.names :=
      (List.perm_ext_iff_of_nodup t.nodup_names u.nodup_names).mpr (sameVariables_iff.mp same)
    exact sortedNames_eq u.pairwise_sortedNames (perm.trans u.perm_sortedNames.symm)

/-- A key in ascending order stands for the set of its variables. -/
theorem sortedNames_eq_key_iff {a b c : Nat} (ab : a ≤ b) (bc : b ≤ c) :
    t.sortedNames = [a, b, c] ↔ ∀ v, v ∈ t.names ↔ v ∈ [a, b, c] := by
  constructor
  · intro same v
    rw [← same, t.perm_sortedNames.mem_iff]
  · intro same
    have sorted : [a, b, c].Pairwise (· ≤ ·) := by simp [ab, bc, Nat.le_trans ab bc]
    refine sortedNames_eq sorted ?_
    exact (List.subperm_of_subset t.nodup_names fun v => (same v).mp).perm_of_length_le (Nat.le_refl 3)

end Triple

theorem Tier.sortedNames_orderedBy {t : Tier} {rank : Nat → Nat} :
    (t.orderedBy rank).triple.sortedNames = t.triple.sortedNames :=
  Triple.sortedNames_eq_iff.mpr (Triple.sameVariables_iff.mpr fun _ => mem_names_orderedBy)

namespace Formula

variable {f : Formula}

theorem tierWithKey?_eq_some_iff (h : f.Distinct) {key : List Nat} {t : Tier} :
    f.tierWithKey? key = some t ↔ t ∈ f.tiers ∧ t.triple.sortedNames = key := by
  constructor
  · intro found
    exact ⟨List.mem_of_find?_eq_some found, beq_iff_eq.mp (List.find?_some found :)⟩
  · rintro ⟨ht, rfl⟩
    cases found : f.tierWithKey? t.triple.sortedNames with
    | none => exact absurd (beq_self_eq_true _) (List.find?_eq_none.mp found t ht)
    | some u =>
      have same : u.triple.sortedNames = t.triple.sortedNames :=
        beq_iff_eq.mp (List.find?_some found :)
      rw [h.eq_of_sameVariables (List.mem_of_find?_eq_some found) ht
        (Triple.sortedNames_eq_iff.mp same)]

theorem tierWithKey?_eq_none_iff {key : List Nat} :
    f.tierWithKey? key = none ↔ ∀ t ∈ f.tiers, t.triple.sortedNames ≠ key := by
  unfold tierWithKey?
  simp only [List.find?_eq_none, beq_iff_eq, ne_eq]

/-- The variables of each tier, sorted. -/
def keys (f : Formula) : List (List Nat) := f.tiers.map (·.triple.sortedNames)

/-- The formula with the tables that its names and tiers give. -/
def indexed (f : Formula) : Indexed := ⟨f.permutation.roster, f.tiers, .ofList f.keys⟩

theorem keys_eq_map (f : Formula) : f.keys = (f.tiers.map Tier.triple).map Triple.sortedNames := by
  rw [keys, List.map_map]
  rfl

theorem Distinct.nodup_keys (h : f.Distinct) : f.keys.Nodup := by
  rw [keys_eq_map]
  refine List.pairwise_map.mpr (h.imp fun apart same => ?_)
  exact Bool.false_ne_true (apart.symm.trans (Triple.sortedNames_eq_iff.mp same))

theorem tierOver?_eq (w : Triple) : f.tierOver? w = f.tierWithKey? w.sortedNames := by
  unfold tierOver? tierWithKey?
  refine congrArg (List.find? · f.tiers) (funext fun t => Bool.eq_iff_iff.mpr ?_)
  rw [beq_iff_eq, Triple.sortedNames_eq_iff]

theorem tierWithKey?_indexed (key : List Nat) :
    f.indexed.tierWithKey? key = .ok (f.tierWithKey? key) := by
  have place : f.indexed.places key = f.tiers.findIdx? (·.triple.sortedNames == key) := by
    show Table.ofList f.keys key = _
    simp only [Table.ofList, List.idxOf?, keys, List.findIdx?_map]
    refine congrArg (List.findIdx? · f.tiers) (funext fun t => Bool.eq_iff_iff.mpr ?_)
    simp
  unfold Indexed.tierWithKey? tierWithKey?
  rw [List.find?_eq_bind_findIdx?_getElem?, place]
  cases found : f.tiers.findIdx? (·.triple.sortedNames == key) with
  | none => rfl
  | some i =>
    obtain ⟨bound, -⟩ := List.findIdx?_eq_some_iff_getElem.mp found
    have at' : f.indexed.tiers[i]? = some f.tiers[i] := List.getElem?_eq_getElem bound
    simp only [Indexed.tier, at', Option.bind_some, List.getElem?_eq_getElem bound]
    rfl

/-- Tiers over the same triples have the same table. -/
theorem indexed_of_triples {tiers : List Tier}
    (same : tiers.map Tier.triple = f.tiers.map Tier.triple) :
    { f.indexed with tiers } = ({ f with tiers } : Formula).indexed := by
  have keys : ({ f with tiers } : Formula).keys = f.keys := by
    rw [keys_eq_map, keys_eq_map]
    exact congrArg _ same
  rw [indexed, indexed, keys]

end Formula
end TripletSat
