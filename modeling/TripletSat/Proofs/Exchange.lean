import TripletSat.Exchange
import TripletSat.Proofs.Growth

/-!
The exchange format restores its formulas. A record of zeros ends each formula, no clause is written as
one, and the clauses of a formula alone, octant by octant, give it back.
-/

namespace TripletSat.Exchange

/-! ### Words -/

variable {n : Int}

/-- A literal that fits in 32 bits with its negation. -/
def Fits (n : Int) : Prop := n.natAbs < 2 ^ 31

theorem fits_iff : Fits n ↔ n.natAbs ≤ Int32.maxValue.toInt := by
  have : Int32.maxValue.toInt = 2147483647 := by decide
  unfold Fits
  omega

theorem word_of_wordBytes (fits : Fits n) :
    ∃ b₀ b₁ b₂ b₃, wordBytes n = [b₀, b₁, b₂, b₃] ∧ word b₀ b₁ b₂ b₃ = n := by
  refine ⟨_, _, _, _, rfl, ?_⟩
  have greatest : Int32.maxValue.toInt = 2147483647 := by decide
  have size : UInt32.size = 4294967296 := rfl
  unfold Fits at fits
  unfold word
  simp only [UInt8.toNat_ofNat', Nat.shiftRight_eq_div_pow, Nat.shiftLeft_eq, greatest, size]
  split <;> omega

/-! ### Writing -/

variable {α : Type} {x : Checked Written} {bytes : List UInt8} {fits : Prop}

/-- The bytes are written, unless a literal does not fit. -/
def Writes (x : Checked Written) (bytes : List UInt8) (fits : Prop) : Prop :=
  Returns x fun w => (fits → w = ⟨bytes, none⟩) ∧
    (¬ fits → ∃ n, ¬ Fits n ∧ w.problem? = some (.literalOutOfRange n))

theorem Writes.congr {fits' : Prop} (h : Writes x bytes fits) (same : fits ↔ fits') :
    Writes x bytes fits' :=
  propext same ▸ h

/-- Bytes behind the others. -/
theorem Writes.append (h : Writes x bytes fits) (last : List UInt8) :
    Writes (do
      let w ← x
      if w.problem?.isSome then return w else return { w with bytes := w.bytes ++ last })
      (bytes ++ last) fits := by
  refine Returns.bind h fun w ⟨whole, broken⟩ => ?_
  by_cases fit : fits
  · obtain rfl := whole fit
    exact .pure ⟨fun _ => rfl, absurd fit⟩
  · obtain ⟨n, large, problem⟩ := broken fit
    rw [problem]
    exact .pure ⟨fun fit' => absurd fit' fit, fun _ => ⟨n, large, problem⟩⟩

theorem writeLiteral_writes (n : Int) : Writes (writeLiteral n) (wordBytes n) (Fits n) := by
  unfold writeLiteral
  split
  · rename_i small
    have small := fits_iff.mpr small
    exact .pure ⟨fun _ => rfl, fun large => absurd small large⟩
  · rename_i large
    have large := mt fits_iff.mp large
    exact .pure ⟨fun small => absurd small large, fun _ => ⟨n, large, rfl⟩⟩

/-- One after the other is written, where what is to be written can be found. -/
theorem Writes.each {β : Type} {find : α → Checked β} {write : α → Checked Written}
    {bytes : β → List UInt8} {fits : β → Prop} {xs : List α} {ys : List β}
    (found : xs.mapM find = .ok ys)
    (h : ∀ x y, find x = .ok y → Writes (write x) (bytes y) (fits y)) :
    Writes (writeEach write xs) (ys.flatMap bytes) (∀ y ∈ ys, fits y) := by
  induction xs generalizing ys with
  | nil =>
    cases found
    exact .pure ⟨fun _ => rfl, fun none => absurd (List.forall_mem_nil _) none⟩
  | cons x rest ih =>
    rw [List.mapM_cons] at found
    obtain ⟨y, first, found⟩ := ok_of_bind found
    obtain ⟨ys, later, found⟩ := ok_of_bind found
    cases found
    unfold writeEach
    refine Returns.bind (h x y first) fun w ⟨whole, broken⟩ => ?_
    by_cases fit : fits y
    · obtain rfl := whole fit
      refine Returns.bind (ih later) fun w ⟨whole', broken'⟩ => .pure ⟨fun all => ?_, fun all => ?_⟩
      · rw [whole' fun z hz => all z (List.mem_cons_of_mem _ hz)]
        rfl
      · exact broken' fun later => all (List.forall_mem_cons.mpr ⟨fit, later⟩)
    · obtain ⟨n, large, problem⟩ := broken fit
      rw [problem]
      exact .pure ⟨fun all => absurd (all y List.mem_cons_self) fit, fun _ => ⟨n, large, problem⟩⟩

/-- The bytes of a clause. -/
def clauseBytes (c : Clause) : List UInt8 := c.signed.flatMap wordBytes

/-- The bytes of a formula with these clauses. -/
def formulaBytes (cs : List Clause) : List UInt8 := cs.flatMap clauseBytes ++ List.replicate 12 0

theorem fits_signed_iff {c : Clause} : (∀ n ∈ c.signed, Fits n) ↔ ∀ v ∈ c.triple.names, v < 2 ^ 31 := by
  rw [← c.natAbs_signed, List.forall_mem_map]
  rfl

theorem writeClause_writes (c : Clause) :
    Writes (writeEach writeLiteral c.signed) (clauseBytes c) (∀ v ∈ c.triple.names, v < 2 ^ 31) := by
  have found : c.signed.mapM (fun n => (.ok n : Checked Int)) = .ok c.signed := rfl
  refine (Writes.each found fun n m same => ?_).congr fits_signed_iff
  cases same
  exact writeLiteral_writes n

theorem writeTier_writes {t : Tier} {cs : List Clause} (listed : t.clauses = .ok cs) :
    Writes (writeTier t) (cs.flatMap clauseBytes) (∀ c ∈ cs, ∀ v ∈ c.triple.names, v < 2 ^ 31) :=
  .each listed fun o c found => by
    rw [found]
    exact writeClause_writes c

theorem writeFormula_writes {f : Formula} {cs : List Clause} (listed : f.clauses = .ok cs) :
    Writes (writeFormula f) (formulaBytes cs) (∀ c ∈ cs, ∀ v ∈ c.triple.names, v < 2 ^ 31) := by
  obtain ⟨css, found, same⟩ := ok_of_bind listed
  cases same
  have joined : css.flatten.flatMap clauseBytes = css.flatMap (·.flatMap clauseBytes) := by
    rw [List.flatten_eq_flatMap, List.flatMap_assoc]
    rfl
  unfold formulaBytes
  rw [joined]
  refine ((Writes.each found fun _ _ => writeTier_writes).append _).congr ?_
  simp only [List.mem_flatten]
  exact ⟨fun all c ⟨cs, hcs, hc⟩ => all cs hcs c hc, fun all cs hcs c hc => all c ⟨cs, hcs, hc⟩⟩

/-! ### Reading -/

/-- The record of a clause. -/
def recordOf (c : Clause) : Record := ⟨c.a.signed, c.b.signed, c.c.signed⟩

theorem records_zero (rest : List UInt8) :
    records (List.replicate 12 0 ++ rest) = ⟨0, 0, 0⟩ :: records rest := rfl

variable {c : Clause} {cs : List Clause}

theorem records_clauseBytes (small : ∀ v ∈ c.triple.names, v < 2 ^ 31) (rest : List UInt8) :
    records (clauseBytes c ++ rest) = recordOf c :: records rest := by
  obtain ⟨a, b, c, -⟩ : Fits c.a.signed ∧ Fits c.b.signed ∧ Fits c.c.signed ∧ True := by
    simpa [Clause.signed, Clause.lits] using fits_signed_iff.mpr small
  obtain ⟨a₀, a₁, a₂, a₃, bytesA, wordA⟩ := word_of_wordBytes a
  obtain ⟨b₀, b₁, b₂, b₃, bytesB, wordB⟩ := word_of_wordBytes b
  obtain ⟨c₀, c₁, c₂, c₃, bytesC, wordC⟩ := word_of_wordBytes c
  unfold clauseBytes Clause.signed Clause.lits
  simp only [List.map_cons, List.map_nil, List.flatMap_cons, List.flatMap_nil, bytesA, bytesB, bytesC]
  show Record.mk _ _ _ :: _ = _
  rw [wordA, wordB, wordC]
  rfl

theorem records_flatMap (small : ∀ c ∈ cs, ∀ v ∈ c.triple.names, v < 2 ^ 31) (rest : List UInt8) :
    records (cs.flatMap clauseBytes ++ rest) = cs.map recordOf ++ records rest := by
  induction cs with
  | nil => rfl
  | cons c cs ih =>
    obtain ⟨first, later⟩ := List.forall_mem_cons.mp small
    rw [List.flatMap_cons, List.append_assoc, records_clauseBytes first, ih later]
    rfl

theorem recordOf_ne_zero (c : Clause) : recordOf c ≠ ⟨0, 0, 0⟩ := fun zero =>
  c.a.signed_ne_zero (congrArg Record.a zero)

theorem clause?_recordOf (small : ∀ v ∈ c.triple.names, v < 2 ^ 31) :
    (recordOf c).clause? = some c := by
  have some : Int32.minValue.toInt ∉ c.signed := by
    intro least
    have fits := fits_signed_iff.mpr small _ least
    unfold Fits at fits
    revert fits
    decide
  unfold Record.clause?
  rw [if_neg]
  · exact c.ofSigned?_signed
  · exact fun held => some (List.contains_iff_mem.mp held)

theorem readRecords_map (small : ∀ c ∈ cs, ∀ v ∈ c.triple.names, v < 2 ^ 31) (count : Nat)
    (pending : List Clause) (rest : List Record) :
    readRecords count pending (cs.map recordOf ++ rest) =
      readRecords (count + cs.length) (cs.reverse ++ pending) rest := by
  induction cs generalizing count pending with
  | nil => rfl
  | cons c cs ih =>
    obtain ⟨first, later⟩ := List.forall_mem_cons.mp small
    rw [List.map_cons, List.cons_append, readRecords, if_neg (recordOf_ne_zero c),
      clause?_recordOf first]
    show readRecords (count + 1) (c :: pending) _ = _
    rw [ih later, List.length_cons, List.reverse_cons, List.append_assoc]
    congr 1
    omega

/-- Formulas are read one after the other. -/
theorem readRecords_formulas {css : List (List Clause)}
    (small : ∀ cs ∈ css, ∀ c ∈ cs, ∀ v ∈ c.triple.names, v < 2 ^ 31) (count : Nat) :
    readRecords count [] (records (css.flatMap formulaBytes)) = .ok (css.map Formula.ofClauses) := by
  induction css generalizing count with
  | nil => rfl
  | cons cs css ih =>
    obtain ⟨first, later⟩ := List.forall_mem_cons.mp small
    rw [List.flatMap_cons, formulaBytes, List.append_assoc, records_flatMap first, records_zero,
      readRecords_map first, readRecords, if_pos rfl, ih later, List.append_nil, List.reverse_reverse]
    rfl

theorem dvd_length_flatMap {α : Type} {f : α → List UInt8} {k : Nat} (h : ∀ x, k ∣ (f x).length)
    (xs : List α) : k ∣ (xs.flatMap f).length := by
  induction xs with
  | nil => exact Nat.dvd_zero k
  | cons x rest ih =>
    rw [List.flatMap_cons, List.length_append]
    exact Nat.dvd_add (h x) ih

theorem dvd_length_formulaBytes (cs : List Clause) : 12 ∣ (formulaBytes cs).length := by
  unfold formulaBytes
  rw [List.length_append]
  exact Nat.dvd_add (dvd_length_flatMap (fun _ => Nat.dvd_refl 12) cs) (Nat.dvd_refl 12)

theorem read_flatMap {css : List (List Clause)}
    (small : ∀ cs ∈ css, ∀ c ∈ cs, ∀ v ∈ c.triple.names, v < 2 ^ 31) :
    read (css.flatMap formulaBytes) = .ok (css.map Formula.ofClauses) := by
  have whole : (css.flatMap formulaBytes).length % 12 = 0 :=
    Nat.mod_eq_zero_of_dvd (dvd_length_flatMap dvd_length_formulaBytes css)
  unfold read
  rw [if_pos whole, readRecords_formulas small]

/-! ### Restoring formulas -/

/-- Some tier mentions a variable that has no 32-bit literals. -/
def Oversized (formulas : List Formula) : Prop :=
  ∃ f ∈ formulas, ∃ t ∈ f.tiers, ∃ v ∈ t.triple.names, 2 ^ 31 ≤ v

theorem not_oversized_cons {f : Formula} {rest : List Formula} :
    ¬ Oversized (f :: rest) ↔
      (∀ t ∈ f.tiers, ∀ v ∈ t.triple.names, v < 2 ^ 31) ∧ ¬ Oversized rest := by
  simp [Oversized]

/-- The clauses of each formula, which give it back. -/
theorem exists_clauses {formulas : List Formula}
    (grown : ∀ f ∈ formulas, f.Grown ∧ ∀ v ∈ f.permutation.names, 0 < v) :
    ∃ css, formulas.mapM Formula.clauses = .ok css ∧ css.map Formula.ofClauses = formulas ∧
      ((∀ cs ∈ css, ∀ c ∈ cs, ∀ v ∈ c.triple.names, v < 2 ^ 31) ↔ ¬ Oversized formulas) := by
  induction formulas with
  | nil => exact ⟨[], rfl, rfl, by simp [Oversized]⟩
  | cons f rest ih =>
    obtain ⟨⟨grows, positive⟩, others⟩ := List.forall_mem_cons.mp grown
    obtain ⟨cs, run, back, -, triples⟩ := grows.clauses_returns positive
    obtain ⟨css, runs, backs, small⟩ := ih others
    refine ⟨cs :: css, ?_, by rw [List.map_cons, back, backs], ?_⟩
    · rw [List.mapM_cons, run, runs]
      rfl
    · rw [List.forall_mem_cons, small, not_oversized_cons]
      refine and_congr_left fun _ => ⟨fun all t ht => ?_, fun all c hc => ?_⟩
      · obtain ⟨c, hc, same⟩ := (triples t.triple).mpr ⟨t, ht, rfl⟩
        exact same ▸ all c hc
      · obtain ⟨t, ht, same⟩ := (triples c.triple).mp ⟨c, hc, rfl⟩
        exact same ▸ all t ht

/-- The bytes of any formulas of clauses, and of any structures over positive names without empty tiers,
are read as these formulas, if all literals fit. If one does not, the writer says so. -/
theorem write_read_restores (formulas : List Formula)
    (arise : ∀ f ∈ formulas, (∃ clauses, f = .ofClauses clauses) ∨
      (f.Compact ∧ f.Solid ∧ ∀ v ∈ f.permutation.names, 0 < v)) :
    ∃ w, write formulas = .ok w ∧
      ((∃ n, w.problem? = some (.literalOutOfRange n)) ↔ Oversized formulas) ∧
      (¬ Oversized formulas → w.problem? = none ∧ read w.bytes = .ok formulas) := by
  have grown (f : Formula) (hf : f ∈ formulas) : f.Grown ∧ ∀ v ∈ f.permutation.names, 0 < v := by
    rcases arise f hf with ⟨clauses, rfl⟩ | ⟨compact, solid, positive⟩
    · exact ⟨Formula.grown_ofClauses clauses,
        fun v hv => (Formula.encodes_ofClauses clauses).name_pos hv⟩
    · exact ⟨compact.grown solid, positive⟩
  obtain ⟨css, listed, back, small⟩ := exists_clauses grown
  have writes : Writes (write formulas) (css.flatMap formulaBytes) (¬ Oversized formulas) :=
    (Writes.each listed fun _ _ => writeFormula_writes).congr small
  obtain ⟨w, run, whole, broken⟩ := writes
  refine ⟨w, run, ⟨?_, fun large => ?_⟩, fun fit => ?_⟩
  · rintro ⟨n, problem⟩
    by_contra fit
    rw [whole fit] at problem
    cases problem
  · obtain ⟨n, -, problem⟩ := broken (not_not_intro large)
    exact ⟨n, problem⟩
  · rw [whole fit]
    refine ⟨rfl, ?_⟩
    rw [read_flatMap (small.mpr fit), back]

/-- A formula without clauses and a structure; one name more and the last literal does not fit. -/
theorem write_read_restores_widest :
    (∃ w, write [.ofClauses [], ⟨⟨[7, 2147483647, 5], by decide⟩, [⟨⟨7, 2147483647, 5, by decide,
        by decide, by decide⟩, OctantSet.empty.insert ⟨true, true, false⟩⟩]⟩] = .ok w ∧
      w.problem? = none ∧ read w.bytes = .ok [.ofClauses [], ⟨⟨[7, 2147483647, 5], by decide⟩,
        [⟨⟨7, 2147483647, 5, by decide, by decide, by decide⟩,
          OctantSet.empty.insert ⟨true, true, false⟩⟩]⟩]) ∧
    ∃ w n, write [.ofClauses [⟨⟨7, false, by decide⟩, ⟨5, false, by decide⟩,
        ⟨2147483648, true, by decide⟩, by decide, by decide, by decide⟩]] = .ok w ∧
      w.problem? = some (.literalOutOfRange n) := by
  constructor
  · obtain ⟨w, run, -, fit⟩ := write_read_restores [.ofClauses [], ⟨⟨[7, 2147483647, 5], by decide⟩,
      [⟨⟨7, 2147483647, 5, by decide, by decide, by decide⟩,
        OctantSet.empty.insert ⟨true, true, false⟩⟩]⟩]
      (List.forall_mem_cons.mpr ⟨.inl ⟨[], rfl⟩, List.forall_mem_singleton.mpr (.inr
        ⟨Formula.Windowed.compact rfl (List.cons_ne_nil _ _),
          List.forall_mem_singleton.mpr (by decide), by decide⟩)⟩)
    exact ⟨w, run, fit (by simp [Oversized, Formula.ofClauses, Formula.empty, Triple.names])⟩
  · obtain ⟨w, run, large, -⟩ := write_read_restores [.ofClauses [⟨⟨7, false, by decide⟩,
      ⟨5, false, by decide⟩, ⟨2147483648, true, by decide⟩, by decide, by decide, by decide⟩]]
      (List.forall_mem_singleton.mpr (.inl ⟨_, rfl⟩))
    obtain ⟨n, problem⟩ := large.mpr ⟨_, List.mem_singleton_self _, _, List.mem_singleton_self _,
      2147483648, by decide, by decide⟩
    exact ⟨w, n, run, problem⟩

end TripletSat.Exchange
