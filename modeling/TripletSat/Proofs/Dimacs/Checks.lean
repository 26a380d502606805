import TripletSat.Proofs.Checks
import TripletSat.Proofs.Dimacs.Grammar

/-!
The strict reader with the checks of the constructors. Each clause goes into the formula as soon as its
zero is read, by operations that fault on a literal that is zero, on repeated variables and on tiers over
different variables. No text makes them fault, and the outcome is that of the reader.
-/

namespace TripletSat

namespace Dimacs

namespace Progress

/-- Reads a word as `readWord` does, with the formula of the clauses so far. -/
def readWordChecked (line : Nat) : Progress × Formula → List Char → Attempt Error (Progress × Formula)
  | (s, f), word => do
    let n ← ExceptT.mk (pure (literal line word))
    if n ≠ 0 then
      return ({ s with pending := n :: s.pending }, f)
    else
      match s.pending with
      | [c, b, a] =>
        if ([a, b, c].map Int.natAbs).Nodup then
          let clause ← Clause.ofSigned a b c
          let f ← f.addTierChecked (.ofClause clause)
          return ({ s with clauses := clause :: s.clauses, pending := [] }, f)
        else throw (.parse line .repeatedVariable)
      | pending => throw (.parse line (.literalCount pending.length))

def readWordsChecked (line : Nat) (sf : Progress × Formula) (words : List (List Char)) :
    Attempt Error (Progress × Formula) :=
  if sf.1.header?.isNone then throw (.parse line .clauseBeforeHeader)
  else words.foldlM (readWordChecked line) sf

def readLinesChecked : (last : Nat) → Progress × Formula → List (Nat × Line) →
    Attempt Error ((Progress × Formula) × Nat)
  | last, sf, [] => return (sf, last)
  | _, sf, (line, .skipped) :: rest => readLinesChecked line sf rest
  | _, sf, (line, .stop) :: _ => return (sf, line)
  | _, (s, f), (line, .header words) :: rest => do
    let s ← ExceptT.mk (pure (s.readHeader line words))
    readLinesChecked line (s, f) rest
  | _, sf, (line, .literals words) :: rest => do
    readLinesChecked line (← readWordsChecked line sf words) rest

end Progress

/-- Reads a formula, each of its clauses with the checks of the constructors. -/
def readChecked (text : String) : Attempt Error Formula := do
  let ((s, f), last) ← Progress.readLinesChecked 0 (.start, .empty) (numberedLines text)
  if s.header?.isNone then throw (.parse last .missingHeader)
  else if s.pending.isEmpty then return f
  else throw (.parse last .missingTerminator)

namespace Progress

variable {s s' : Progress} {line last : Nat} {word : List Char} {words : List (List Char)}

/-- The progress and the formula of its clauses. -/
def built (s : Progress) : Progress × Formula := (s, .ofClauses s.clauses.reverse)

theorem zero_not_mem_pending (nonzero : 0 ∉ s.pending) (h : s.readWord line word = .ok s') :
    0 ∉ s'.pending := by
  obtain ⟨n, -, taken⟩ := readWord_eq_ok_iff.mp h
  unfold take? at taken
  split at taken
  · rename_i other
    cases taken
    exact List.not_mem_cons_of_ne_of_not_mem other.symm nonzero
  · split at taken
    · obtain ⟨clause, -, rfl⟩ := Option.map_eq_some_iff.mp taken
      exact List.not_mem_nil
    · cases taken

theorem readWordChecked_follows (nonzero : 0 ∉ s.pending) :
    Follows (readWordChecked line s.built word) (s.readWord line word) built := by
  refine (Follows.lift (literal line word)).bind fun n _ => ?_
  dsimp only [id]
  split
  · exact Follows.pure (g := built) _
  · obtain ⟨header?, clauses, pending⟩ := s
    match pending, nonzero with
    | [c, b, a], nonzero =>
      simp only [List.mem_cons, List.not_mem_nil, or_false, not_or] at nonzero
      obtain ⟨hc, hb, ha⟩ := nonzero
      dsimp only
      split
      · rename_i distinct
        obtain ⟨⟨ab, ac⟩, bc⟩ : (a.natAbs ≠ b.natAbs ∧ a.natAbs ≠ c.natAbs) ∧ b.natAbs ≠ c.natAbs := by
          simpa using distinct
        let r : Row := ⟨a, b, c, Ne.symm ha, Ne.symm hb, Ne.symm hc, ab, ac, bc⟩
        have checked : Clause.ofSigned a b c = .ok r.clause := r.ofSigned_clause
        have plain : Clause.ofSigned? a b c = some r.clause := r.ofSigned?_clause
        rw [checked, plain]
        show (liftM (Formula.addTierChecked _ _) >>= _ : Attempt Error _).run = _
        unfold built
        rw [Formula.addTierChecked_ofClauses]
        rfl
      · rename_i repeated
        have none : Clause.ofSigned? a b c = none := by
          rw [Option.eq_none_iff_forall_ne_some]
          intro found h
          have distinct : (found.signed.map Int.natAbs).Nodup :=
            found.natAbs_signed ▸ found.nodup_names
          rw [Clause.signed_of_ofSigned? h] at distinct
          exact repeated distinct
        rw [none]
        rfl
    | [], _ => rfl
    | [_], _ => rfl
    | [_, _], _ => rfl
    | _ :: _ :: _ :: _ :: _, _ => rfl

theorem foldlM_readWordChecked_follows (nonzero : 0 ∉ s.pending) :
    Follows (words.foldlM (readWordChecked line) s.built) (words.foldlM (readWord line) s) built := by
  induction words generalizing s with
  | nil => exact Follows.pure (g := built) s
  | cons word rest ih =>
    rw [List.foldlM_cons, List.foldlM_cons]
    exact (readWordChecked_follows nonzero).bind fun s' h => ih (zero_not_mem_pending nonzero h)

theorem readWordsChecked_follows (nonzero : 0 ∉ s.pending) :
    Follows (readWordsChecked line s.built words) (s.readWords line words) built := by
  unfold readWordsChecked readWords
  show Follows (if s.header?.isNone then _ else _) _ _
  split
  · exact .throw _
  · exact foldlM_readWordChecked_follows nonzero

theorem zero_not_mem_pending_foldlM (nonzero : 0 ∉ s.pending)
    (h : words.foldlM (readWord line) s = .ok s') : 0 ∉ s'.pending := by
  induction words generalizing s with
  | nil =>
    cases h
    exact nonzero
  | cons word rest ih =>
    rw [List.foldlM_cons] at h
    obtain ⟨next, first, later⟩ := ok_of_bind h
    exact ih (zero_not_mem_pending nonzero first) later

theorem zero_not_mem_pending_of_readWords (nonzero : 0 ∉ s.pending)
    (h : s.readWords line words = .ok s') : 0 ∉ s'.pending := by
  unfold readWords at h
  split at h
  · cases h
  · exact zero_not_mem_pending_foldlM nonzero h

theorem eq_of_readHeader (h : s.readHeader line words = .ok s') :
    ∃ header?, s' = { s with header? } := by
  unfold readHeader at h
  split at h
  · cases h
  · obtain ⟨header, -, h⟩ := ok_of_bind h
    cases h
    exact ⟨_, rfl⟩

theorem readLinesChecked_follows {lines : List (Nat × Line)} (nonzero : 0 ∉ s.pending) :
    Follows (readLinesChecked last s.built lines) (readLines last s lines)
      fun r => (r.1.built, r.2) := by
  induction lines generalizing last s with
  | nil => exact Follows.pure (g := fun r : Progress × Nat => (r.1.built, r.2)) (s, last)
  | cons head rest ih =>
    obtain ⟨line, what⟩ := head
    cases what with
    | skipped => exact ih nonzero
    | stop => exact Follows.pure (g := fun r : Progress × Nat => (r.1.built, r.2)) (s, line)
    | header words =>
      refine (Follows.lift (s.readHeader line words)).bind fun s' h => ?_
      obtain ⟨header?, rfl⟩ := eq_of_readHeader h
      exact ih (s := { s with header? }) nonzero
    | literals words =>
      rw [readLinesChecked, readLines]
      exact (readWordsChecked_follows nonzero).bind fun s' h =>
        ih (zero_not_mem_pending_of_readWords nonzero h)

end Progress

theorem readChecked_follows (text : String) :
    Follows (readChecked text) (Document.read text) Document.formula := by
  unfold readChecked Document.read
  refine (Progress.readLinesChecked_follows (s := .start) List.not_mem_nil).bind fun r _ => ?_
  obtain ⟨⟨header?, clauses, pending⟩, last⟩ := r
  cases header? with
  | none => rfl
  | some header => cases pending <;> rfl

/-- The strict reader accepts the texts that spell rows of literals under a header, and no others. What
it returns is the formula of the rows. On no text does a check of the constructors fail. -/
theorem read_iff_spells (text : String) :
    ((∃ d, Document.read text = .ok d) ↔ ∃ header rows, Spells text header rows) ∧
      (∀ header rows, Spells text header rows → ∃ d, Document.read text = .ok d ∧
        d.header = header ∧ d.formula = .ofClauses (rows.map Row.clause)) ∧
      (readChecked text).run = .ok ((Document.read text).map Document.formula) := by
  refine ⟨⟨?_, ?_⟩, ?_, readChecked_follows text⟩
  · rintro ⟨d, read⟩
    obtain ⟨rows, spells, -⟩ := Document.read_eq_ok_iff.mp read
    exact ⟨d.header, rows, spells⟩
  · rintro ⟨header, rows, spells⟩
    exact ⟨⟨header, rows.map Row.clause⟩, Document.read_eq_ok_iff.mpr ⟨rows, spells, rfl⟩⟩
  · intro header rows spells
    exact ⟨⟨header, rows.map Row.clause⟩, Document.read_eq_ok_iff.mpr ⟨rows, spells, rfl⟩, rfl, rfl⟩

example : ∃ d, Document.read "c a clause over two lines\n p cnf 4 1\n1 -2\n+4 -0\n%\nend" = .ok d ∧
    d.clauses.map Clause.signed = [[1, -2, 4]] :=
  ⟨_, rfl, rfl⟩

end Dimacs

end TripletSat
