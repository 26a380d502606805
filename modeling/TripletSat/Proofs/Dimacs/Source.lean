import TripletSat.Dimacs.Generic
import TripletSat.Proofs.Returns

/-!
What a DIMACS text says. Read as numbers, the words of its clauses are cut at the zeros, whatever the
line breaks between them. The generic reader finds the clauses that the text says.
-/

namespace TripletSat

theorem Lit.signed_of_ofSigned? {n : Int} {l : Lit} (h : ofSigned? n = some l) : l.signed = n := by
  unfold ofSigned? at h
  split at h
  · cases h
  · cases h
    by_cases negative : n < 0
    · simp only [signed, negative, decide_true, if_true]
      omega
    · simp only [signed, negative, decide_false, Bool.false_eq_true, if_false]
      omega

theorem Clause.signed_of_ofSigned? {a b c : Int} {clause : Clause}
    (h : ofSigned? a b c = some clause) : clause.signed = [a, b, c] := by
  unfold ofSigned? at h
  obtain ⟨x, hx, h⟩ := Option.bind_eq_some_iff.mp h
  obtain ⟨y, hy, h⟩ := Option.bind_eq_some_iff.mp h
  obtain ⟨z, hz, h⟩ := Option.bind_eq_some_iff.mp h
  unfold ofLits? at h
  split at h
  · cases h
    simp [signed, lits, Lit.signed_of_ofSigned? hx, Lit.signed_of_ofSigned? hy,
      Lit.signed_of_ofSigned? hz]
  · cases h

/-- The pieces consist of what was cut, without the mark. -/
theorem mem_of_mem_splitOn {α : Type} [DecidableEq α] {mark x : α} {xs piece : List α}
    (h : piece ∈ xs.splitOn mark) (hx : x ∈ piece) : x ∈ xs ∧ x ≠ mark := by
  induction xs generalizing piece with
  | nil => simp_all
  | cons y rest ih =>
    rw [List.splitOn_cons_eq_if_modifyHead] at h
    obtain ⟨first, more, split⟩ := List.exists_cons_of_ne_nil (List.splitOn_ne_nil mark rest)
    rw [split] at h ih
    by_cases here : y = mark
    · rw [if_pos (beq_iff_eq.mpr here)] at h
      obtain ⟨member, other⟩ := ih ((List.mem_cons.mp h).resolve_left (List.ne_nil_of_mem hx)) hx
      exact ⟨List.mem_cons_of_mem _ member, other⟩
    · rw [if_neg (by simpa using here), List.modifyHead_cons] at h
      obtain rfl | later := List.mem_cons.mp h
      · obtain rfl | behind := List.mem_cons.mp hx
        · exact ⟨List.mem_cons_self, here⟩
        · obtain ⟨member, other⟩ := ih List.mem_cons_self behind
          exact ⟨List.mem_cons_of_mem _ member, other⟩
      · obtain ⟨member, other⟩ := ih (List.mem_cons_of_mem _ later) hx
        exact ⟨List.mem_cons_of_mem _ member, other⟩

namespace Dimacs

/-- The words of the clauses, up to the end of the text. -/
def clauseWords : List Line → List (List Char)
  | [] | .stop :: _ => []
  | .literals words :: rest => words ++ clauseWords rest
  | .skipped :: rest | .header _ :: rest => clauseWords rest

def number? (word : List Char) : Option Int :=
  (Text.integer? word).filter (· ≠ Int32.minValue.toInt)

/-- The clauses that a row of numbers gives. The last one may lack its zero. -/
def clausesOf (numbers : List Int) : List (List Int) :=
  let groups := numbers.splitOn 0
  if groups.getLast? = some [] then groups.dropLast else groups

/-- The clauses that a text says, if its words are numbers. -/
def clauses? (text : String) : Option (List (List Int)) :=
  ((clauseWords ((numberedLines text).map Prod.snd)).mapM number?).map clausesOf

example : clauses? "c two clauses over three lines\n1 -2\n3 0 4" = some [[1, -2, 3], [4]] := by
  decide

/-! ### Cutting at the zeros -/

variable {numbers : List Int}

theorem clausesOf_open (nonzero : 0 ∉ numbers) :
    clausesOf numbers = if numbers.isEmpty then [] else [numbers] := by
  unfold clausesOf
  rw [List.splitOn_eq_singleton nonzero]
  cases numbers <;> simp

theorem clausesOf_zero (nonzero : 0 ∉ numbers) (later : List Int) :
    clausesOf (numbers ++ 0 :: later) = numbers :: clausesOf later := by
  unfold clausesOf
  rw [List.splitOn_append_cons_self_of_not_mem nonzero]
  have some : later.splitOn 0 ≠ [] := List.splitOn_ne_nil 0 later
  have last : (numbers :: later.splitOn 0).getLast? = (later.splitOn 0).getLast? := by
    rw [List.getLast?_cons_of_ne_nil some]
  dsimp only
  rw [last]
  split
  · exact List.dropLast_cons_of_ne_nil some
  · rfl

theorem zero_not_mem_of_mem_clausesOf {clause : List Int} (h : clause ∈ clausesOf numbers) :
    0 ∉ clause := by
  unfold clausesOf at h
  dsimp only at h
  split at h
  · exact fun zero => (mem_of_mem_splitOn ((List.dropLast_sublist _).subset h) zero).2 rfl
  · exact fun zero => (mem_of_mem_splitOn h zero).2 rfl

theorem zero_not_mem_of_clauses? {text : String} {clauses : List (List Int)}
    (h : clauses? text = some clauses) : ∀ clause ∈ clauses, 0 ∉ clause := by
  obtain ⟨numbers, -, rfl⟩ := Option.map_eq_some_iff.mp h
  exact fun clause => zero_not_mem_of_mem_clausesOf

theorem literal_eq_ok_iff {line : Nat} {word : List Char} {n : Int} :
    literal line word = .ok n ↔ number? word = some n := by
  unfold literal number?
  generalize Int32.minValue.toInt = least
  cases Text.integer? word with
  | none => simp
  | some m =>
    by_cases same : m = least
    · subst same
      simp
      omega
    · simp [same]
      omega

/-! ### Reading number by number -/

/-- The clauses closed so far, and the literals of an open one, the latest first. -/
structure Scan where
  closed : List (List Int)
  pending : List Int

namespace Scan

def take (s : Scan) (n : Int) : Scan :=
  if n = 0 then ⟨s.closed ++ [s.pending.reverse], []⟩ else { s with pending := n :: s.pending }

/-- The clauses when no more numbers come. -/
def result (s : Scan) : List (List Int) :=
  s.closed ++ if s.pending.isEmpty then [] else [s.pending.reverse]

theorem result_foldl_take {s : Scan} (nonzero : 0 ∉ s.pending) (numbers : List Int) :
    (numbers.foldl take s).result = s.closed ++ clausesOf (s.pending.reverse ++ numbers) := by
  induction numbers generalizing s with
  | nil =>
    have nonzero : 0 ∉ s.pending.reverse := by simpa using nonzero
    rw [List.append_nil, clausesOf_open nonzero, List.isEmpty_reverse]
    rfl
  | cons n rest ih =>
    rw [List.foldl_cons]
    by_cases zero : n = 0
    · subst zero
      have nonzero : 0 ∉ s.pending.reverse := by simpa using nonzero
      rw [clausesOf_zero nonzero, take, if_pos rfl, ih List.not_mem_nil]
      simp
    · have nonzero : 0 ∉ n :: s.pending := by
        rw [List.mem_cons, not_or]
        exact ⟨fun same => zero same.symm, nonzero⟩
      rw [take, if_neg zero, ih nonzero]
      simp

/-- The words lead from one state to another. -/
def Leads (words : List (List Char)) (s s' : Scan) : Prop :=
  ∃ numbers, words.mapM number? = some numbers ∧ numbers.foldl take s = s'

variable {s s' s'' : Scan} {words more : List (List Char)}

theorem leads_nil (s : Scan) : Leads [] s s := ⟨[], rfl, rfl⟩

theorem Leads.cons {word : List Char} {n : Int} (reads : number? word = some n)
    (h : Leads words (s.take n) s') : Leads (word :: words) s s' := by
  obtain ⟨numbers, spelled, same⟩ := h
  refine ⟨n :: numbers, ?_, same⟩
  simp [List.mapM_cons, reads, spelled]

theorem Leads.append (h : Leads words s s') (h' : Leads more s' s'') :
    Leads (words ++ more) s s'' := by
  obtain ⟨numbers, spelled, rfl⟩ := h
  obtain ⟨others, spelled', rfl⟩ := h'
  refine ⟨numbers ++ others, ?_, List.foldl_append⟩
  simp [List.mapM_append, spelled, spelled']

theorem Leads.clauses? {text : String} {s : Scan}
    (h : Leads (clauseWords ((numberedLines text).map Prod.snd)) ⟨[], []⟩ s) :
    clauses? text = some s.result := by
  obtain ⟨numbers, spelled, rfl⟩ := h
  rw [result_foldl_take List.not_mem_nil, Dimacs.clauses?, spelled]
  rfl

end Scan

open Scan (Leads)

/-! ### The generic reader -/

namespace SourceClause

theorem ofWords_leads {line : Nat} {words : List (List Char)} {pending later : List Int}
    {clauses : List SourceClause} (h : ofWords line pending words = .ok (clauses, later))
    (closed : List (List Int)) :
    Leads words ⟨closed, pending⟩ ⟨closed ++ clauses.map literals, later⟩ := by
  induction words generalizing pending clauses closed with
  | nil =>
    cases h
    rw [List.map_nil, List.append_nil]
    exact Scan.leads_nil _
  | cons word rest ih =>
    unfold ofWords at h
    obtain ⟨n, reads, h⟩ := ok_of_bind h
    refine .cons (literal_eq_ok_iff.mp reads) ?_
    unfold Scan.take
    split at h
    · rename_i zero
      obtain ⟨⟨found, open'⟩, next, h⟩ := ok_of_bind h
      cases h
      rw [if_pos zero]
      simpa using ih next (closed ++ [pending.reverse])
    · rename_i nonzero
      rw [if_neg nonzero]
      exact ih h closed

/-- Where the text ends, an open clause is the last one. -/
theorem result_of_ending {line : Nat} {pending : List Int} {clauses : List SourceClause}
    (h : (Except.ok (if pending.isEmpty then [] else [⟨line, pending.reverse⟩]) :
      Except Error (List SourceClause)) = .ok clauses) (closed : List (List Int)) :
    (Scan.mk closed pending).result = closed ++ clauses.map literals := by
  cases h
  unfold Scan.result
  split <;> rfl

theorem ofLines_leads {lines : List (Nat × Line)} {last : Nat} {pending : List Int}
    {clauses : List SourceClause} (h : ofLines last pending lines = .ok clauses)
    (closed : List (List Int)) :
    ∃ s, Leads (clauseWords (lines.map Prod.snd)) ⟨closed, pending⟩ s ∧
      s.result = closed ++ clauses.map literals := by
  induction lines generalizing last pending clauses closed with
  | nil => exact ⟨_, Scan.leads_nil _, result_of_ending h closed⟩
  | cons head rest ih =>
    obtain ⟨line, what⟩ := head
    cases what with
    | skipped => exact ih h closed
    | header _ => exact ih h closed
    | stop => exact ⟨_, Scan.leads_nil _, result_of_ending h closed⟩
    | literals words =>
      obtain ⟨⟨first, later⟩, read, h⟩ := ok_of_bind h
      obtain ⟨others, readRest, h⟩ := ok_of_bind h
      cases h
      obtain ⟨s, leads, result⟩ := ih readRest (closed ++ first.map literals)
      refine ⟨s, (ofWords_leads read closed).append leads, ?_⟩
      rw [result, List.append_assoc, List.map_append]

theorem clauses?_of_ofText {text : String} {clauses : List SourceClause}
    (h : ofText text = .ok clauses) : clauses? text = some (clauses.map literals) := by
  obtain ⟨s, leads, result⟩ := ofLines_leads h []
  rw [leads.clauses?, result, List.nil_append]

end SourceClause

end Dimacs

end TripletSat
