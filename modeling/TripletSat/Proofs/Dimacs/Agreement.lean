import TripletSat.Proofs.CommandLine.Certificates
import TripletSat.Proofs.Dimacs.Grammar
import TripletSat.Proofs.Growth
import TripletSat.Proofs.Renaming.Solver

/-!
The two readers on one text. What the strict reader accepts the generic one accepts too, and it finds the
same formula, each variable named by its place in the permutation.
-/

namespace TripletSat.Dimacs

/-! ### Accepting -/

variable {text : String} {lines : List (Nat × Line)} {words : List (List Char)} {numbers : List Int}

namespace SourceClause

theorem exists_ofWords (line : Nat) (pending : List Int)
    (spelled : words.mapM number? = some numbers) : ∃ r, ofWords line pending words = .ok r := by
  induction words generalizing pending numbers with
  | nil => exact ⟨_, rfl⟩
  | cons word rest ih =>
    rw [List.mapM_cons] at spelled
    obtain ⟨n, first, spelled⟩ := Option.bind_eq_some_iff.mp spelled
    obtain ⟨others, later, -⟩ := Option.bind_eq_some_iff.mp spelled
    unfold ofWords
    rw [literal_eq_ok_iff.mpr first]
    show ∃ r, (if n = 0 then _ else _) = Except.ok r
    split
    · obtain ⟨r, read⟩ := ih [] later
      rw [read]
      exact ⟨_, rfl⟩
    · exact ih _ later

theorem exists_ofLines (last : Nat) (pending : List Int)
    (spelled : (clauseWords (lines.map Prod.snd)).mapM number? = some numbers) :
    ∃ sources, ofLines last pending lines = .ok sources := by
  induction lines generalizing last pending numbers with
  | nil => exact ⟨_, rfl⟩
  | cons head rest ih =>
    obtain ⟨line, what⟩ := head
    cases what with
    | skipped => exact ih line pending spelled
    | header _ => exact ih line pending spelled
    | stop => exact ⟨_, rfl⟩
    | literals words =>
      rw [List.map_cons, clauseWords, List.mapM_append] at spelled
      obtain ⟨numbers, first, spelled⟩ := Option.bind_eq_some_iff.mp spelled
      obtain ⟨others, later, -⟩ := Option.bind_eq_some_iff.mp spelled
      obtain ⟨⟨clauses, pending⟩, read⟩ := exists_ofWords line pending first
      obtain ⟨sources, readRest⟩ := ih line pending later
      unfold ofLines
      rw [read]
      show ∃ sources, (do return clauses ++ (← ofLines line pending rest)) = Except.ok sources
      rw [readRest]
      exact ⟨_, rfl⟩

/-- A text whose words are numbers is read clause by clause. -/
theorem exists_ofText {clauses : List (List Int)} (said : clauses? text = some clauses) :
    ∃ sources, ofText text = .ok sources ∧ sources.map literals = clauses := by
  obtain ⟨numbers, spelled, -⟩ := Option.map_eq_some_iff.mp said
  obtain ⟨sources, read⟩ := exists_ofLines 0 [] spelled
  exact ⟨sources, read, Option.some.inj ((clauses?_of_ofText read).symm.trans said)⟩

end SourceClause

/-! ### Reducing clauses of three literals -/

section Reduction

variable {c c' : Clause} {names : Permutation}

theorem isTautology_lits (c : Clause) : isTautology c.lits = false := by
  refine List.any_eq_false.mpr fun l hl opposite => ?_
  have same : l.negate = l := Clause.lit_inj (List.contains_iff_mem.mp opposite) hl rfl
  exact Bool.not_ne_self l.negated (congrArg Lit.negated same)

theorem reduce_lits (used : Nat) (c : Clause) : reduce used c.lits = .ok ⟨[c], used⟩ :=
  bind_of_ok c.ofLits_lits

/-- Clauses of three literals over distinct variables stay as they are. -/
theorem reduceAll_lits (used : Nat) (clauses : List Clause) :
    reduceAll used (clauses.map Clause.lits) = .ok clauses := by
  induction clauses with
  | nil => rfl
  | cons c rest ih =>
    rw [List.map_cons, reduceAll, isTautology_lits]
    exact (bind_of_ok (reduce_lits used c)).trans (bind_of_ok ih)

/-- The name of a variable in the generic reading: its place, from one on. -/
def place (names : Permutation) (v : Nat) : Nat := names.index v + 1

theorem place_injOn (names : Permutation) : Set.InjOn (place names) {v | v ∈ names.names} :=
  fun _ hv _ _ same => Permutation.index_inj hv (Nat.succ.inj same)

theorem rename_signed (l : Lit) :
    rename names l.signed = ⟨place names l.name, l.negated, Nat.succ_pos _⟩ := by
  have negative : decide (l.signed < 0) = l.negated := by
    have positive := l.name_pos
    unfold Lit.signed
    cases l.negated with
    | true => simpa using positive
    | false => simp
  unfold rename
  simp only [Lit.natAbs_signed, negative]
  rfl

theorem exists_renamed (known : ∀ v ∈ c.triple.names, v ∈ names.names) :
    ∃ c' : Clause, c'.lits = c.signed.map (rename names) ∧ c.RenamesTo (place names) c' := by
  have apart {v w : Nat} (hv : v ∈ c.triple.names) (hw : w ∈ c.triple.names) (other : v ≠ w) :
      place names v ≠ place names w :=
    fun same => other (place_injOn names (known v hv) (known w hw) same)
  have a := c.triple.name_mem_names .a
  have b := c.triple.name_mem_names .b
  have c₃ := c.triple.name_mem_names .c
  refine ⟨⟨⟨place names c.a.name, c.a.negated, Nat.succ_pos _⟩,
    ⟨place names c.b.name, c.b.negated, Nat.succ_pos _⟩,
    ⟨place names c.c.name, c.c.negated, Nat.succ_pos _⟩, apart a b c.a_ne_b, apart a c₃ c.a_ne_c,
    apart b c₃ c.b_ne_c⟩, ?_, rfl⟩
  simp [Clause.signed, Clause.lits, rename_signed]

theorem exists_renamed_all (names : Permutation) {clauses : List Clause}
    (known : ∀ c ∈ clauses, ∀ v ∈ c.triple.names, v ∈ names.names) :
    ∃ renamed, (clauses.map Clause.signed).map (fun clause => (clause.map (rename names)).eraseDups) =
        renamed.map Clause.lits ∧
      List.Forall₂ (Clause.RenamesTo (place names)) clauses renamed := by
  induction clauses with
  | nil => exact ⟨[], rfl, .nil⟩
  | cons c rest ih =>
    obtain ⟨first, later⟩ := List.forall_mem_cons.mp known
    obtain ⟨c', lits, renames⟩ := exists_renamed first
    obtain ⟨renamed, all, rest⟩ := ih later
    refine ⟨c' :: renamed, ?_, .cons renames rest⟩
    rw [List.map_cons, List.map_cons, List.map_cons, all, ← lits, eraseDups_of_nodup c'.nodup_lits]

end Reduction

/-! ### The same formula -/

/-- The formula of the generic reading: each variable named by its place, the tiers in their order. -/
structure Corresponds (f : Formula) (found : Instance) : Prop where
  permutation : found.formula.permutation.names = f.permutation.names.map (place f.permutation)
  tiers : List.Forall₂
    (fun t u => u.triple.names = t.triple.names.map (place f.permutation) ∧ u.octants = t.octants)
    f.tiers found.formula.tiers
  size : found.names.size = f.varCount
  names : ∀ p, sourceName? found.names (p + 1) = f.permutation.get? p

theorem corresponds_of_renamed {clauses renamed : List Clause} {names : Permutation}
    (same : names = (Formula.ofClauses clauses).permutation)
    (renames : List.Forall₂ (Clause.RenamesTo (place names)) clauses renamed) :
    Corresponds (.ofClauses clauses) ⟨.ofClauses renamed, names⟩ := by
  subst same
  let f := Formula.ofClauses clauses
  have known (c : Clause) (hc : c ∈ clauses) : ∀ v ∈ c.triple.names, v ∈ f.permutation.names :=
    fun v hv => ((Formula.encodes_ofClauses clauses).names v).mpr ⟨c, hc, hv⟩
  obtain ⟨π, agrees⟩ := exists_perm (List.finite_toSet f.permutation.names) (place_injOn f.permutation)
  have found : Formula.ofClauses renamed = f.rename π :=
    Formula.ofClauses_rename π renames fun c hc v hv => agrees v (known c hc v hv)
  refine ⟨?_, ?_, rfl, fun p => rfl⟩
  · rw [found]
    exact List.map_congr_left agrees
  · rw [found]
    show List.Forall₂ _ f.tiers (f.tiers.map (Tier.rename π))
    refine List.forall₂_map_right_iff.mpr (List.forall₂_same.mpr fun t ht => ⟨?_, rfl⟩)
    exact List.map_congr_left fun v hv =>
      agrees v ((Formula.encodes_ofClauses clauses).known t ht v hv)

/-- What the strict reader accepts the generic one accepts, with the same formula. -/
theorem read_corresponds {text : String} {d : Document} (read : Document.read text = .ok d) :
    ∃ found, (Instance.read text).run = .ok (.ok found) ∧ Corresponds d.formula found := by
  obtain ⟨sources, readSources, literals⟩ :=
    SourceClause.exists_ofText (Document.clauses?_of_read read)
  have names : sourceNames sources = d.formula.permutation := by
    rw [sourceNames_eq, literals, Document.formula, Formula.permutation_ofClauses, List.map_flatten,
      List.map_map, List.flatMap_def]
    congr 2
    exact List.map_congr_left fun c _ => c.natAbs_signed
  have noneEmpty : sources.find? (·.literals.isEmpty) = none := by
    refine List.find?_eq_none.mpr fun source hs empty => ?_
    have some : source.literals ∈ d.clauses.map Clause.signed := literals ▸ List.mem_map_of_mem hs
    obtain ⟨c, -, same⟩ := List.mem_map.mp some
    rw [← same] at empty
    cases empty
  obtain ⟨renamed, lits, renames⟩ := exists_renamed_all d.formula.permutation
    fun c hc v hv => ((Formula.encodes_ofClauses d.clauses).names v).mpr ⟨c, hc, hv⟩
  have same : sources.map (fun clause =>
      (clause.literals.map (rename d.formula.permutation)).eraseDups) = renamed.map Clause.lits := by
    rw [← lits, ← literals, List.map_map]
    rfl
  refine ⟨⟨.ofClauses renamed, d.formula.permutation⟩, ?_, corresponds_of_renamed rfl renames⟩
  unfold Instance.read Instance.read.liftExcept
  simp only [readSources, ExceptT.run_bind, ExceptT.run_mk, pure_bind, noneEmpty, names, same,
    reduceAll_lits]
  rfl

theorem read_corresponds_scattered : ∃ d, Document.read "p cnf 9 2\n9 -7 4 0 -4\n2 9 0" = .ok d ∧
    ∃ found, (Instance.read "p cnf 9 2\n9 -7 4 0 -4\n2 9 0").run = .ok (.ok found) ∧
      Corresponds d.formula found :=
  ⟨_, rfl, read_corresponds rfl⟩

end TripletSat.Dimacs
