import Mathlib.Data.Nat.Digits.Defs
import TripletSat.Exchange
import TripletSat.Proofs.Checks
import TripletSat.Proofs.Dimacs.Grammar

/-!
The form of an exchange: whole records, each of zeros or of a clause, the last one of zeros. The reader
accepts exactly the bytes of this form and returns the formulas of the runs of clauses between the zeros.
-/

namespace TripletSat.Exchange

/-! ### Records by their position -/

/-- The signed number of the four bytes behind `start`, the lowest one first. -/
def wordAt (bytes : List UInt8) (start : Nat) : Int :=
  ((Nat.ofDigits 256 (((bytes.drop start).take 4).map UInt8.toNat) : Nat) : Int).bmod (2 ^ 32)

def recordAt (bytes : List UInt8) (i : Nat) : Record :=
  ⟨wordAt bytes (12 * i), wordAt bytes (12 * i + 4), wordAt bytes (12 * i + 8)⟩

/-- The whole records, each as three numbers. -/
def recordsOf (bytes : List UInt8) : List Record :=
  (List.range (bytes.length / 12)).map (recordAt bytes)

theorem word_eq_wordAt (b₀ b₁ b₂ b₃ : UInt8) (rest : List UInt8) :
    word b₀ b₁ b₂ b₃ = wordAt (b₀ :: b₁ :: b₂ :: b₃ :: rest) 0 := by
  have greatest : Int32.maxValue.toInt = 2147483647 := by decide
  have size : UInt32.size = 4294967296 := rfl
  have := b₀.toNat_lt
  have := b₁.toNat_lt
  have := b₂.toNat_lt
  have := b₃.toNat_lt
  unfold word wordAt
  simp only [List.drop_zero, List.take_succ_cons, List.take_zero, List.map_cons, List.map_nil,
    Nat.ofDigits_cons, Nat.ofDigits_nil, Nat.shiftLeft_eq, greatest, size, Int.bmod]
  split <;> split <;> omega

theorem recordsOf_append (front bytes : List UInt8) (length : front.length = 12) :
    recordsOf (front ++ bytes) = recordAt (front ++ bytes) 0 :: recordsOf bytes := by
  have behind (i k : Nat) :
      wordAt (front ++ bytes) (12 * (i + 1) + k) = wordAt bytes (12 * i + k) := by
    unfold wordAt
    rw [show 12 * (i + 1) + k = front.length + (12 * i + k) by omega, List.drop_length_add_append]
  have later (i : Nat) : recordAt (front ++ bytes) (i + 1) = recordAt bytes i :=
    (Record.mk.injEq ..).mpr ⟨behind i 0, behind i 4, behind i 8⟩
  have count : (front ++ bytes).length / 12 = bytes.length / 12 + 1 := by
    rw [List.length_append]
    omega
  unfold recordsOf
  rw [count, List.range_succ_eq_map, List.map_cons, List.map_map]
  exact congrArg _ (List.map_congr_left fun i _ => later i)

theorem records_eq_recordsOf (bytes : List UInt8) : records bytes = recordsOf bytes := by
  fun_induction records bytes with
  | case1 a₀ a₁ a₂ a₃ b₀ b₁ b₂ b₃ c₀ c₁ c₂ c₃ rest ih =>
    have parts := recordsOf_append [a₀, a₁, a₂, a₃, b₀, b₁, b₂, b₃, c₀, c₁, c₂, c₃] rest rfl
    rw [ih, word_eq_wordAt a₀ a₁ a₂ a₃ _, word_eq_wordAt b₀ b₁ b₂ b₃ _, word_eq_wordAt c₀ c₁ c₂ c₃ rest]
    exact parts.symm
  | case2 bytes short =>
    have few : bytes.length < 12 := by
      by_contra many
      match bytes, Nat.not_lt.mp many with
      | _ :: _ :: _ :: _ :: _ :: _ :: _ :: _ :: _ :: _ :: _ :: _ :: _, _ =>
        exact short _ _ _ _ _ _ _ _ _ _ _ _ _ rfl
    unfold recordsOf
    rw [Nat.div_eq_of_lt few]
    rfl

/-! ### Records of clauses -/

namespace Record

variable {r : Record} {c : Clause}

abbrev zero : Record := ⟨0, 0, 0⟩

def numbers (r : Record) : List Int := [r.a, r.b, r.c]

/-- Three literals that have negations in 32 bits, over different variables. -/
structure IsClause (r : Record) : Prop where
  nonzero : 0 ∉ r.numbers
  negatable : -2 ^ 31 ∉ r.numbers
  distinct : (r.numbers.map Int.natAbs).Nodup

/-- The clause of a record, where a zero and a repeated variable are faults. -/
def clause (r : Record) : Checked Clause := Clause.ofSigned r.a r.b r.c

theorem IsClause.exists_clause (h : r.IsClause) : ∃ c, r.clause? = some c ∧ r.clause = .ok c := by
  obtain ⟨a, b, c⟩ := r
  obtain ⟨nonzero, negatable, distinct⟩ := h
  simp only [numbers, List.mem_cons, List.not_mem_nil, or_false, not_or] at nonzero
  obtain ⟨ha, hb, hc⟩ := nonzero
  obtain ⟨⟨ab, ac⟩, bc⟩ : (a.natAbs ≠ b.natAbs ∧ a.natAbs ≠ c.natAbs) ∧ b.natAbs ≠ c.natAbs := by
    simpa [numbers] using distinct
  let row : Dimacs.Row := ⟨a, b, c, Ne.symm ha, Ne.symm hb, Ne.symm hc, ab, ac, bc⟩
  refine ⟨row.clause, ?_, row.ofSigned_clause⟩
  unfold clause?
  rw [if_neg]
  · exact row.ofSigned?_clause
  · exact fun least => negatable (List.contains_iff_mem.mp least)

theorem isClause_of_clause? (h : r.clause? = some c) : r.IsClause := by
  unfold clause? at h
  split at h
  · cases h
  · rename_i negatable
    have signed : c.signed = r.numbers := Clause.signed_of_ofSigned? h
    refine ⟨fun zero => ?_, fun least => negatable (List.contains_iff_mem.mpr least), ?_⟩
    · rw [← signed] at zero
      obtain ⟨l, -, none⟩ := List.mem_map.mp zero
      exact l.signed_ne_zero none
    · rw [← signed, c.natAbs_signed]
      exact c.nodup_names

end Record

/-! ### Runs of records -/

/-- Behind the clauses of an open formula: records of zeros and of clauses, closed by zeros. -/
structure Closes (pending : List Clause) (rs : List Record) : Prop where
  records : ∀ r ∈ rs, r = .zero ∨ r.IsClause
  last : ∀ r ∈ rs.getLast?, r = .zero
  closed : rs = [] → pending = []

variable {pending : List Clause} {rs rest : List Record} {r : Record} {c : Clause}

theorem closes_nil : Closes pending [] ↔ pending = [] :=
  ⟨fun h => h.closed rfl, fun none => ⟨by simp, by simp, fun _ => none⟩⟩

theorem closes_zero : Closes pending (.zero :: rest) ↔ Closes [] rest := by
  constructor
  · rintro ⟨records, last, -⟩
    refine ⟨fun r hr => records r (List.mem_cons_of_mem _ hr), fun r hr => ?_, fun _ => rfl⟩
    exact last r (List.mem_getLast?_cons hr)
  · rintro ⟨records, last, -⟩
    refine ⟨List.forall_mem_cons.mpr ⟨.inl rfl, records⟩, fun r hr => ?_, nofun⟩
    rw [List.getLast?_cons] at hr
    obtain rfl := Option.some.inj hr
    cases there : rest.getLast? with
    | none => rfl
    | some r => exact last r there

theorem closes_clause (clause : r.clause? = some c) (other : r ≠ .zero) :
    Closes pending (r :: rest) ↔ Closes (c :: pending) rest := by
  constructor
  · rintro ⟨records, last, -⟩
    refine ⟨fun r hr => records r (List.mem_cons_of_mem _ hr), fun r hr => ?_, ?_⟩
    · exact last r (List.mem_getLast?_cons hr)
    · rintro rfl
      exact absurd (last r rfl) other
  · rintro ⟨records, last, closed⟩
    refine ⟨List.forall_mem_cons.mpr ⟨.inr (Record.isClause_of_clause? clause), records⟩,
      fun r' hr => ?_, nofun⟩
    rw [List.getLast?_cons] at hr
    obtain rfl := Option.some.inj hr
    cases there : rest.getLast? with
    | none => exact nomatch closed (List.getLast?_eq_none_iff.mp there)
    | some r' => exact last r' there

/-- The clauses between the zeros, behind those of an open formula. -/
def clauseRuns (pending : List Clause) (rs : List Record) : List (List Clause) :=
  (((rs.splitOn .zero).map (List.filterMap Record.clause?)).modifyHead (pending.reverse ++ ·)).dropLast

theorem clauseRuns_zero (pending : List Clause) (rest : List Record) :
    clauseRuns pending (.zero :: rest) = pending.reverse :: clauseRuns [] rest := by
  unfold clauseRuns
  rw [List.splitOn_cons_eq_if_modifyHead, if_pos (beq_self_eq_true _)]
  obtain ⟨run, runs, split⟩ := List.exists_cons_of_ne_nil (List.splitOn_ne_nil Record.zero rest)
  rw [split]
  simp

theorem clauseRuns_clause (clause : r.clause? = some c) (other : r ≠ .zero) :
    clauseRuns pending (r :: rest) = clauseRuns (c :: pending) rest := by
  unfold clauseRuns
  rw [List.splitOn_cons_eq_if_modifyHead, if_neg (by simpa using other)]
  obtain ⟨run, runs, split⟩ := List.exists_cons_of_ne_nil (List.splitOn_ne_nil Record.zero rest)
  rw [split]
  simp [clause]

theorem readRecords_eq_ok_iff {count : Nat} {fs : List Formula} :
    readRecords count pending rs = .ok fs ↔
      Closes pending rs ∧ fs = (clauseRuns pending rs).map Formula.ofClauses := by
  induction rs generalizing count pending fs with
  | nil =>
    rw [closes_nil, readRecords]
    cases pending with
    | nil => exact ⟨fun h => ⟨rfl, (Except.ok.inj h).symm⟩, fun h => congrArg Except.ok h.2.symm⟩
    | cons c pending => exact ⟨nofun, fun h => nomatch h.1⟩
  | cons r rest ih =>
    rw [readRecords]
    by_cases zeros : r = .zero
    · subst zeros
      rw [closes_zero, clauseRuns_zero, if_pos rfl]
      constructor
      · intro h
        obtain ⟨later, run, h⟩ := ok_of_bind h
        cases h
        obtain ⟨closes, rfl⟩ := ih.mp run
        exact ⟨closes, rfl⟩
      · rintro ⟨closes, rfl⟩
        rw [ih.mpr ⟨closes, rfl⟩]
        rfl
    · rw [if_neg zeros]
      cases clause : r.clause? with
      | some c =>
        rw [closes_clause clause zeros, clauseRuns_clause clause zeros]
        exact ih
      | none =>
        refine ⟨nofun, fun ⟨closes, _⟩ => ?_⟩
        obtain ⟨c, found, -⟩ :=
          ((closes.records r List.mem_cons_self).resolve_left zeros).exists_clause
        rw [clause] at found
        cases found

/-! ### The checks of the constructors -/

/-- Reads records as `readRecords` does, each clause into the open formula by operations that fault on
zeros, on repeated variables and on tiers over different variables. -/
def readRecordsChecked : (read : Nat) → (opened : Bool) → Formula → List Record →
    Attempt Error (List Formula)
  | read, opened, _, [] => if opened then throw (.parse read .missingTerminatorRecord) else return []
  | read, _, f, r :: rest =>
    if r = .zero then do
      return f :: (← readRecordsChecked (read + 1) false .empty rest)
    else if 0 ∈ r.numbers ∨ -2 ^ 31 ∈ r.numbers ∨ ¬ (r.numbers.map Int.natAbs).Nodup then
      throw (.parse (read + 1) (.invalidRecord r.a r.b r.c))
    else do
      let clause ← r.clause
      let f ← f.addTierChecked (.ofClause clause)
      readRecordsChecked (read + 1) true f rest

def readChecked (bytes : List UInt8) : Attempt Error (List Formula) :=
  if bytes.length % 12 = 0 then readRecordsChecked 0 false .empty (records bytes)
  else throw (.parse (bytes.length / 12 + 1) .truncatedRecord)

theorem readRecordsChecked_follows (count : Nat) (pending : List Clause) (rs : List Record) :
    Follows (readRecordsChecked count (!pending.isEmpty) (.ofClauses pending.reverse) rs)
      (readRecords count pending rs) id := by
  induction rs generalizing count pending with
  | nil => cases pending <;> rfl
  | cons r rest ih =>
    rw [readRecordsChecked, readRecords]
    by_cases zeros : r = .zero
    · rw [if_pos zeros, if_pos zeros]
      exact (ih (count + 1) []).bind fun later _ => .pure (g := id) _
    · rw [if_neg zeros, if_neg zeros]
      cases clause : r.clause? with
      | some c =>
        obtain ⟨nonzero, negatable, distinct⟩ := Record.isClause_of_clause? clause
        obtain ⟨c', same, checked⟩ := (Record.isClause_of_clause? clause).exists_clause
        obtain rfl : c = c' := Option.some.inj (clause.symm.trans same)
        have legal : ¬ (0 ∈ r.numbers ∨ -2 ^ 31 ∈ r.numbers ∨ ¬ (r.numbers.map Int.natAbs).Nodup) :=
          not_or.mpr ⟨nonzero, not_or.mpr ⟨negatable, not_not.mpr distinct⟩⟩
        rw [if_neg legal, checked]
        show (liftM (Formula.addTierChecked _ _) >>= _ : Attempt Error _).run = _
        rw [Formula.addTierChecked_ofClauses]
        exact ih (count + 1) (c :: pending)
      | none =>
        rw [if_pos]
        · rfl
        · by_contra legal
          simp only [not_or, not_not] at legal
          obtain ⟨nonzero, negatable, distinct⟩ := legal
          obtain ⟨c, found, -⟩ := (Record.IsClause.mk nonzero negatable distinct).exists_clause
          rw [clause] at found
          cases found

theorem readChecked_follows (bytes : List UInt8) : Follows (readChecked bytes) (read bytes) id := by
  unfold readChecked read
  show Follows (if _ then _ else _) _ _
  split
  · exact readRecordsChecked_follows 0 [] _
  · exact .throw _

/-! ### The form of an exchange -/

/-- The runs of records between those of zeros. -/
def runs (bytes : List UInt8) : List (List Record) := ((recordsOf bytes).splitOn .zero).dropLast

/-- Whole records, each of zeros or of a clause, the last one of zeros. -/
structure IsExchange (bytes : List UInt8) : Prop where
  whole : 12 ∣ bytes.length
  records : ∀ r ∈ recordsOf bytes, r = .zero ∨ r.IsClause
  last : ∀ r ∈ (recordsOf bytes).getLast?, r = .zero

/-- The formula of a run of records, none of which faults. -/
def IsFormulaOf (run : List Record) (f : Formula) : Prop :=
  ∃ cs, run.mapM Record.clause = .ok cs ∧ f = .ofClauses cs

theorem length_splitOn (sep : Record) (rs : List Record) :
    (rs.splitOn sep).length = rs.count sep + 1 := by
  induction rs with
  | nil => rfl
  | cons x rest ih =>
    rw [List.splitOn_cons_eq_if_modifyHead, List.count_cons]
    split <;> simp [ih]

theorem mapM_clause {run : List Record} (clauses : ∀ r ∈ run, r.IsClause) :
    run.mapM Record.clause = .ok (run.filterMap Record.clause?) := by
  induction run with
  | nil => rfl
  | cons r rest ih =>
    obtain ⟨first, later⟩ := List.forall_mem_cons.mp clauses
    obtain ⟨c, plain, checked⟩ := first.exists_clause
    rw [List.mapM_cons, checked, ih later, List.filterMap_cons_some plain]
    rfl

theorem closes_recordsOf_iff {bytes : List UInt8} (whole : 12 ∣ bytes.length) :
    Closes [] (recordsOf bytes) ↔ IsExchange bytes :=
  ⟨fun ⟨records, last, _⟩ => ⟨whole, records, last⟩,
    fun ⟨_, records, last⟩ => ⟨records, last, fun _ => rfl⟩⟩

theorem clauseRuns_recordsOf (bytes : List UInt8) :
    clauseRuns [] (recordsOf bytes) = (runs bytes).map (List.filterMap Record.clause?) := by
  obtain ⟨run, more, split⟩ :=
    List.exists_cons_of_ne_nil (List.splitOn_ne_nil Record.zero (recordsOf bytes))
  rw [clauseRuns, runs, split, List.map_cons, List.modifyHead_cons, List.map_dropLast, List.map_cons]
  rfl

theorem read_eq_ok_iff {bytes : List UInt8} {fs : List Formula} :
    read bytes = .ok fs ↔ IsExchange bytes ∧
      fs = (runs bytes).map fun run => .ofClauses (run.filterMap Record.clause?) := by
  unfold read
  rw [records_eq_recordsOf]
  split
  · rename_i whole
    rw [readRecords_eq_ok_iff, closes_recordsOf_iff (Nat.dvd_of_mod_eq_zero whole), clauseRuns_recordsOf,
      List.map_map]
    rfl
  · rename_i cut
    exact ⟨nofun, fun ⟨form, _⟩ => absurd (Nat.mod_eq_zero_of_dvd form.whole) cut⟩

theorem IsExchange.isFormulaOf {bytes : List UInt8} (form : IsExchange bytes) {run : List Record}
    (h : run ∈ runs bytes) : IsFormulaOf run (.ofClauses (run.filterMap Record.clause?)) := by
  refine ⟨_, mapM_clause fun r hr => ?_, rfl⟩
  obtain ⟨member, other⟩ := mem_of_mem_splitOn ((List.dropLast_sublist _).subset h) hr
  exact (form.records r member).resolve_left other

/-- The reader accepts the exchanges and no other bytes, with a formula for each record of zeros. On no
bytes does a check of the constructors fail. -/
theorem read_iff_isExchange (bytes : List UInt8) :
    ((∃ fs, read bytes = .ok fs) ↔ IsExchange bytes) ∧
      (∀ fs, read bytes = .ok fs → fs.length = (recordsOf bytes).count .zero ∧
        List.Forall₂ IsFormulaOf (runs bytes) fs) ∧
      (readChecked bytes).run = .ok (read bytes) := by
  refine ⟨⟨fun ⟨_, h⟩ => (read_eq_ok_iff.mp h).1, fun form => ⟨_, read_eq_ok_iff.mpr ⟨form, rfl⟩⟩⟩,
    fun fs h => ?_, ?_⟩
  · obtain ⟨form, rfl⟩ := read_eq_ok_iff.mp h
    constructor
    · rw [List.length_map, runs, List.length_dropLast, length_splitOn, Nat.add_sub_cancel]
    · rw [List.forall₂_map_right_iff, List.forall₂_same]
      exact fun run member => form.isFormulaOf member
  · rw [readChecked_follows bytes]
    cases read bytes <;> rfl

/-- A formula of the clause `1 -2 3`, and an empty one. -/
def twoFormulas : List UInt8 := [1, 0, 0, 0, 254, 255, 255, 255, 3, 0, 0, 0] ++ List.replicate 24 0

theorem read_iff_isExchange_two :
    IsExchange twoFormulas ∧ ∃ fs, read twoFormulas = .ok fs ∧ fs.length = 2 ∧
      List.Forall₂ IsFormulaOf (runs twoFormulas) fs ∧ (readChecked twoFormulas).run = .ok (.ok fs) := by
  obtain ⟨accepted, formulas, checked⟩ := read_iff_isExchange twoFormulas
  have run : ∃ fs, read twoFormulas = .ok fs ∧ fs.length = 2 := ⟨_, rfl, rfl⟩
  obtain ⟨fs, run, two⟩ := run
  exact ⟨accepted.mp ⟨fs, run⟩, fs, run, two, (formulas fs run).2, run ▸ checked⟩

end TripletSat.Exchange
