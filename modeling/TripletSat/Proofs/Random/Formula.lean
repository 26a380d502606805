import TripletSat.Proofs.Random.Source

/-!
Random formulas from any generator. The loop adds clauses of the range until there are as many as asked for;
each adds at most one to the number. While the number is below the bound a clause of the range is missing, and
some words give it.
-/

namespace TripletSat

/-- The variables of the permutation and of the tiers are among `1` to `n`. -/
structure Formula.Over (n : Nat) (f : Formula) : Prop where
  names : ∀ v ∈ f.permutation.names, v ∈ Finset.Icc 1 n
  tiers : ∀ t ∈ f.tiers, ∀ v ∈ t.triple.names, v ∈ Finset.Icc 1 n

namespace Formula

variable {n : Nat} {clauses : List Clause}

theorem over_ofClauses (ranged : ∀ c ∈ clauses, c.Over n) : (ofClauses clauses).Over n := by
  have encodes := encodes_ofClauses clauses
  have names : ∀ v ∈ (ofClauses clauses).permutation.names, v ∈ Finset.Icc 1 n := fun v hv => by
    obtain ⟨c, member, known⟩ := (encodes.names v).mp hv
    exact ranged c member v known
  exact ⟨names, fun t ht v hv => names v (encodes.known t ht v hv)⟩

/-- Where the clauses are fewer than those of the range, one is missing. -/
theorem exists_not_holds {max : Nat} (number : (Clause.litSets n).encard = max)
    (fewer : (ofClauses clauses).clauseCount < max) :
    ∃ c : Clause, c.Over n ∧ ¬ (ofClauses clauses).Holds c := by
  by_contra complete
  have within : Clause.litSets n ⊆ ((clauses.map Clause.litSet).toFinset : Set (Finset Lit)) := by
    rintro _ ⟨c, ranged, rfl⟩
    have holds : (ofClauses clauses).Holds c := by
      by_contra missing
      exact complete ⟨c, ranged, missing⟩
    exact List.mem_toFinset.mpr (holds_ofClauses_iff_litSet.mp holds)
  have most := Set.encard_le_encard within
  rw [number, Set.encard_coe_eq_coe_finsetCard, ← clauseCount_ofClauses, Nat.cast_le] at most
  omega

end Formula

namespace Random

variable {n count drawn : Nat} {f : Formula} {c : Clause} {σ : Type} [Generator σ] {s s' : σ}

/-! ### The loop -/

/-- The formula and the generator before an iteration of the loop, or at its end, after so many drawings. -/
inductive LoopState (n count : Nat) (s : σ) : (drawn : Nat) → Formula → σ → Prop
  | start : LoopState n count s 0 .empty s
  | next {drawn f s' c s''} : LoopState n count s drawn f s' → f.clauseCount < count →
    drawClause n s' = .ok (c, s'') → LoopState n count s (drawn + 1) (f.add c) s''

namespace LoopState

/-- What holds before each iteration. -/
structure Invariant (n count : Nat) (f : Formula) : Prop where
  clauses : ∃ clauses, f = .ofClauses clauses ∧ ∀ c ∈ clauses, c.Over n
  atMost : f.clauseCount ≤ count

theorem invariant (samples : Generator.Samples σ) (h : LoopState n count s drawn f s') :
    Invariant n count f := by
  induction h with
  | start => exact ⟨⟨[], rfl, nofun⟩, Nat.zero_le _⟩
  | next before fewer run ih =>
    obtain ⟨⟨clauses, rfl, ranged⟩, -⟩ := ih
    have last := drawClause_over samples run
    refine ⟨⟨clauses ++ [_], (Formula.ofClauses_append_singleton _ _).symm, ?_⟩, ?_⟩
    · exact List.forall_mem_append.mpr ⟨ranged, List.forall_mem_singleton.mpr last⟩
    · exact ((Formula.encodes_ofClauses clauses).distinct.clauseCount_add_le _).trans fewer

/-- What the loop does from the start is what it does from here. -/
theorem fill_eq (h : LoopState n count s drawn f s') (fuel : Nat) :
    fill n count (drawn + fuel) .empty s = fill n count fuel f s' := by
  induction h generalizing fuel with
  | start => rw [Nat.zero_add]
  | @next drawn f s' c s'' before fewer run ih =>
    rw [Nat.add_assoc, Nat.add_comm 1, ih, fill, if_neg (Nat.not_le.mpr fewer), bind_of_ok run]

end LoopState

theorem fill_ok {fuel : Nat} {g : Formula} {s'' : σ} (h : LoopState n count s drawn f s')
    (run : fill n count fuel f s' = .ok (g, s'')) :
    ∃ drawn', LoopState n count s drawn' g s'' ∧ count ≤ g.clauseCount := by
  induction fuel generalizing drawn f s' with
  | zero => cases run
  | succ fuel ih =>
    rw [fill] at run
    split at run
    · rename_i enough
      cases run
      exact ⟨drawn, h, enough⟩
    · rename_i fewer
      obtain ⟨⟨c, s₁⟩, draw, run⟩ := ok_of_bind run
      exact ih (h.next (Nat.lt_of_not_le fewer) draw) run

theorem fill_error {fuel : Nat} {e : Fault} (samples : Generator.Samples σ) (three : 0 < count → 3 ≤ n)
    (run : fill n count fuel f s = .error e) : e = .exhaustedSource := by
  induction fuel generalizing f s with
  | zero =>
    cases run
    rfl
  | succ fuel ih =>
    rw [fill] at run
    split at run
    · cases run
    · rename_i fewer
      have draws := drawClause_draws samples (three (by omega)) s
      unfold Draws at draws
      cases draw : drawClause n s with
      | error e' =>
        rw [draw] at run draws
        cases run
        exact draws
      | ok r =>
        rw [bind_of_ok draw] at run
        exact ih run

/-- More drawings than there are words change nothing. -/
theorem fill_eq_of_left_lt {fuel fuel' : Nat} {s : Source} (enough : s.left < fuel)
    (enough' : s.left < fuel') : fill n count fuel f s = fill n count fuel' f s := by
  induction fuel generalizing fuel' f s with
  | zero => exact absurd enough (Nat.not_lt_zero _)
  | succ fuel ih =>
    obtain ⟨fuel', rfl⟩ := Nat.exists_eq_succ_of_ne_zero (Nat.ne_of_gt (Nat.zero_lt_of_lt enough'))
    rw [fill, fill]
    split
    · rfl
    · cases draw : drawClause n s with
      | error e => rfl
      | ok r =>
        have fewer : r.2.left < s.left := left_of_drawClause draw
        exact ih (by omega) (by omega)

/-! ### Whole runs -/

variable {max fuel : Nat}

theorem formulaWithin_refused (bound : maxClauseCount n = .ok max) (many : max < count) :
    (formulaWithin fuel n count s).run = .ok (.error (.tooManyClauses n count max)) := by
  unfold formulaWithin
  rw [bound]
  show ExceptT.run (if max < count then _ else _) = _
  rw [if_pos many]
  rfl

theorem formulaWithin_run (bound : maxClauseCount n = .ok max) (enough : count ≤ max) :
    (formulaWithin fuel n count s).run = Except.ok <$> fill n count fuel .empty s := by
  unfold formulaWithin
  rw [bound]
  show ExceptT.run (if max < count then _ else _) = _
  rw [if_neg (Nat.not_lt.mpr enough)]
  rfl

/-- The limit of the source is no limit of its own for the drawings. -/
theorem formulaWithin_eq_formula {s : Source} (enough : s.limit < fuel) :
    formulaWithin fuel n count s = formula n count s := by
  have left : s.left ≤ s.limit := Nat.sub_le _ _
  unfold formula formulaWithin
  rw [fill_eq_of_left_lt (Nat.lt_of_le_of_lt left enough) (Nat.lt_succ_of_le left)]

/-- Requests over the variables `1` to `n`, where there are `max` clauses, in any number of drawings. -/
structure Fulfils (n max count : Nat) (s : σ) : Prop where
  refused : ∀ fuel,
    (formulaWithin fuel n count s).run = .ok (.error (.tooManyClauses n count max)) ↔ max < count
  error : ∀ fuel e, (formulaWithin fuel n count s).run = .ok (.error e) → e = .tooManyClauses n count max
  fault : ∀ fuel e, (formulaWithin fuel n count s).run = .error e → e = .exhaustedSource
  result : ∀ fuel f s', (formulaWithin fuel n count s).run = .ok (.ok (f, s')) →
    f.clauseCount = count ∧ f.Over n
  /-- Each state of the loop is one of the run. -/
  loop : count ≤ max → ∀ drawn f s', LoopState n count s drawn f s' → ∀ fuel,
    (formulaWithin (drawn + fuel) n count s).run = Except.ok <$> fill n count fuel f s'
  /-- Where the loop goes on, a clause is missing. -/
  missing : count ≤ max → ∀ drawn f s', LoopState n count s drawn f s' → f.clauseCount < count →
    ∃ c : Clause, c.Over n ∧ ¬ f.Holds c ∧ (f.add c).clauseCount = f.clauseCount + 1

/-- A clause that is missing, in the order of its literals that some words give. -/
theorem LoopState.exists_missing (samples : Generator.Samples σ) (h : LoopState n count s drawn f s')
    (number : (Clause.litSets n).encard = max) (fewer : f.clauseCount < max) :
    ∃ c : Clause, c.Over n ∧ (c.a.name < c.b.name ∧ c.b.name < c.c.name) ∧ ¬ f.Holds c ∧
      (f.add c).clauseCount = f.clauseCount + 1 := by
  obtain ⟨⟨clauses, rfl, -⟩, -⟩ := h.invariant samples
  obtain ⟨c, ranged, missing⟩ := Formula.exists_not_holds number fewer
  obtain ⟨d, perm, ascending⟩ := c.exists_ascending
  rw [Formula.holds_ofClauses_iff_litSet, ← Clause.litSet_eq_iff.mpr perm,
    ← Formula.holds_ofClauses_iff_litSet] at missing
  have ranged' : d.Over n := Clause.over_iff.mpr fun l hl =>
    Clause.over_iff.mp ranged l (perm.mem_iff.mp hl)
  exact ⟨d, ranged', ascending, missing,
    ((Formula.encodes_ofClauses clauses).distinct.clauseCount_add d).2 missing⟩

theorem fulfils_of_lt (bound : maxClauseCount n = .ok max) (many : max < count) :
    Fulfils n max count s := by
  have run (fuel : Nat) : (formulaWithin fuel n count s).run = .ok (.error _) :=
    formulaWithin_refused bound many
  refine ⟨fun fuel => ⟨fun _ => many, fun _ => run fuel⟩, fun fuel e h => ?_, fun fuel e h => ?_,
    fun fuel f s' h => ?_, fun enough => absurd enough (Nat.not_le.mpr many),
    fun enough => absurd enough (Nat.not_le.mpr many)⟩
  all_goals
    rw [run] at h
    cases h
  rfl

theorem fulfils_of_le (samples : Generator.Samples σ) (bound : maxClauseCount n = .ok max)
    (number : (Clause.litSets n).encard = max) (three : 0 < max → 3 ≤ n) (enough : count ≤ max) :
    Fulfils n max count s := by
  have run (fuel : Nat) : (formulaWithin fuel n count s).run = _ := formulaWithin_run bound enough
  have accepted (fuel : Nat) (e : Error) : (formulaWithin fuel n count s).run ≠ .ok (.error e) := by
    intro refused
    obtain ⟨r, -, same⟩ := map_eq_ok_iff.mp (run fuel ▸ refused)
    cases same
  refine ⟨fun fuel => ⟨fun h => absurd h (accepted _ _), fun many => absurd enough (Nat.not_le.mpr many)⟩,
    fun fuel e h => absurd h (accepted _ e), fun fuel e h => ?fault, fun fuel f s' h => ?result,
    fun _ drawn f s' h fuel => ?loop, fun _ drawn f s' h fewer => ?missing⟩
  case fault =>
    exact fill_error samples (fun positive => three (by omega)) (map_eq_error_iff.mp (run fuel ▸ h))
  case result =>
    obtain ⟨r, loop, same⟩ := map_eq_ok_iff.mp (run fuel ▸ h)
    cases same
    obtain ⟨drawn, last, reached⟩ := fill_ok .start loop
    obtain ⟨⟨clauses, rfl, ranged⟩, atMost⟩ := last.invariant samples
    exact ⟨Nat.le_antisymm atMost reached, Formula.over_ofClauses ranged⟩
  case loop => rw [run, h.fill_eq]
  case missing =>
    obtain ⟨c, ranged, -, missing, more⟩ := h.exists_missing samples number (by omega)
    exact ⟨c, ranged, missing, more⟩

/-- The range of a bound that fits in 64 bits is one of 32. -/
theorem le_of_small (small : 3 ≤ n → 8 * n * (n - 1) * (n - 2) < 2 ^ 64) : n ≤ 2 ^ 32 := by
  by_contra large
  have factors : 8 * 2 ^ 32 * 2 ^ 32 * 1 ≤ 8 * n * (n - 1) * (n - 2) :=
    Nat.mul_le_mul (Nat.mul_le_mul (by omega) (by omega)) (by omega)
  have := small (by omega)
  omega

/-! ### Counts within the bound -/

/-- Words that take the loop through as many states as it has clauses, whatever comes after them. -/
theorem exists_states (number : (Clause.litSets n).encard = max) (fits : n ≤ 2 ^ 32)
    (enough : count ≤ max) {reached : Nat} (target : reached ≤ count) :
    ∃ words f, f.clauseCount = reached ∧ ∀ after,
      LoopState n count (sourceFrom (words ++ after) 0) reached f
        (sourceFrom (words ++ after) words.length) := by
  induction reached with
  | zero => exact ⟨[], .empty, rfl, fun after => .start⟩
  | succ reached ih =>
    obtain ⟨words, f, size, states⟩ := ih (Nat.le_of_lt target)
    obtain ⟨c, ranged, ⟨ab, bc⟩, -, more⟩ := (states []).exists_missing samples_source number (by omega)
    refine ⟨words ++ wordsFor n c, f.add c, by rw [more, size], fun after => ?_⟩
    have before := states (wordsFor n c ++ after)
    rw [← List.append_assoc] at before
    exact before.next (by omega) (drawClause_wordsFor fits ranged ab bc words after)

/-- Every count within the bound is returned from some source. -/
theorem exists_formula_eq_ok (bound : maxClauseCount n = .ok max)
    (number : (Clause.litSets n).encard = max) (fits : n ≤ 2 ^ 32) (enough : count ≤ max) :
    ∃ s r, (formula n count s).run = .ok (.ok r) := by
  obtain ⟨words, f, size, states⟩ := exists_states number fits enough (Nat.le_refl count)
  refine ⟨sourceFrom (words ++ []) 0, (f, sourceFrom (words ++ []) words.length), ?_⟩
  have last := states []
  generalize sourceFrom (words ++ []) 0 = s at last
  have many : s.limit < count + (s.limit + 1) := by omega
  rw [← formulaWithin_eq_formula many, formulaWithin_run bound enough, last.fill_eq, fill,
    if_pos (Nat.le_of_eq size.symm)]
  rfl

/-- The bound is the number of clauses over the range, whatever the generator that keeps what its samples
promise. No request beyond the bound is met, and each within it by as many clauses as it asks for, as some
generator shows. -/
theorem formula_fulfils (samples : Generator.Samples σ) (n : Nat)
    (small : 3 ≤ n → 8 * n * (n - 1) * (n - 2) < 2 ^ 64) :
    ∃ max : Nat, maxClauseCount n = .ok max ∧ (Clause.litSets n).encard = max ∧
      (∀ count (s : σ), Fulfils n max count s) ∧
      ∀ count ≤ max, ∃ (τ : Type) (_ : Generator τ) (fuel : Nat) (s : τ) (r : Formula × τ),
        Generator.Samples τ ∧ (formulaWithin fuel n count s).run = .ok (.ok r) := by
  have bound := maxClauseCount_eq_choose small
  have number := Clause.encard_litSets n
  have three (positive : 0 < 8 * n.choose 3) : 3 ≤ n := by
    by_contra few
    rw [Nat.choose_eq_zero_of_lt (Nat.not_le.mp few)] at positive
    exact Nat.lt_irrefl 0 positive
  refine ⟨8 * n.choose 3, bound, number, fun count s => ?_, fun count enough => ?_⟩
  · rcases Nat.lt_or_ge (8 * n.choose 3) count with many | enough
    · exact fulfils_of_lt bound many
    · exact fulfils_of_le samples bound number three enough
  · obtain ⟨s, r, run⟩ := exists_formula_eq_ok bound number (le_of_small small) enough
    exact ⟨Source, inferInstance, s.limit + 1, s, r, samples_source, run⟩

/-- The generator of words over the largest range whose bound is computed in 64 bits. -/
theorem formula_fulfils_largest :
    Generator.Samples Source ∧ (3 ≤ 1321123 → 8 * 1321123 * (1321123 - 1) * (1321123 - 2) < 2 ^ 64) ∧
      (Clause.litSets 1321123).encard = (3074450539989048968 : Nat) ∧
      (∀ count (s : Source), Fulfils 1321123 3074450539989048968 count s) ∧
      ∃ s r, (formula 1321123 3074450539989048968 s).run = .ok (.ok r) := by
  have bound : maxClauseCount 1321123 = .ok 3074450539989048968 := rfl
  obtain ⟨max, computed, number, fulfils, -⟩ := formula_fulfils samples_source 1321123 (by decide)
  obtain rfl : max = 3074450539989048968 := Except.ok.inj (computed.symm.trans bound)
  exact ⟨samples_source, by decide, number, fulfils,
    exists_formula_eq_ok bound number (by decide) (Nat.le_refl _)⟩

end Random

end TripletSat
