import TripletSat.Dimacs.Line
import TripletSat.Event
/-!
Strict DIMACS: a `p cnf` header, then clauses of exactly three literals over distinct variables,
each ended by a zero. Clauses may be laid out over lines in any way.
-/
namespace TripletSat.Dimacs

structure Header where
  vars : Nat
  clauses : Nat
deriving DecidableEq

/-- What has been read so far; the latest clause and the latest literal come first. -/
structure Progress where
  header? : Option Header
  clauses : List Clause
  pending : List Int

def count (line : Nat) (word : List Char) : Except Error Nat :=
  match Text.count? word with
  | some n => .ok n
  | none => .error (.parse line (.notCount (String.ofList word)))

def Header.ofWords (line : Nat) : List (List Char) → Except Error Header
  | [['p'], ['c', 'n', 'f'], vars, clauses] => return ⟨← count line vars, ← count line clauses⟩
  | _ => .error (.parse line .malformedHeader)

namespace Progress

def start : Progress := ⟨none, [], []⟩

/-- Reads a word of a clause; a zero ends the clause. -/
def readWord (line : Nat) (s : Progress) (word : List Char) : Except Error Progress := do
  let n ← literal line word
  if n ≠ 0 then
    return { s with pending := n :: s.pending }
  else
    match s.pending with
    | [c, b, a] =>
      match Clause.ofSigned? a b c with
      | some clause => return { s with clauses := clause :: s.clauses, pending := [] }
      | none => throw (.parse line .repeatedVariable)
    | pending => throw (.parse line (.literalCount pending.length))

def readHeader (line : Nat) (s : Progress) (words : List (List Char)) : Except Error Progress := do
  if s.header?.isSome then throw (.parse line .duplicateHeader)
  else return { s with header? := some (← Header.ofWords line words) }

def readWords (line : Nat) (s : Progress) (words : List (List Char)) : Except Error Progress :=
  if s.header?.isNone then throw (.parse line .clauseBeforeHeader)
  else words.foldlM (readWord line) s

/-- Reads lines up to the end of the text, and tells the number of the last one. -/
def readLines : (last : Nat) → Progress → List (Nat × Line) → Except Error (Progress × Nat)
  | last, s, [] => return (s, last)
  | _, s, (line, .skipped) :: rest => readLines line s rest
  | _, s, (line, .stop) :: _ => return (s, line)
  | _, s, (line, .header words) :: rest => do readLines line (← s.readHeader line words) rest
  | _, s, (line, .literals words) :: rest => do readLines line (← s.readWords line words) rest

end Progress

structure Document where
  header : Header
  clauses : List Clause

namespace Document

def read (text : String) : Except Error Document := do
  let (s, last) ← Progress.readLines 0 .start (numberedLines text)
  match s.header? with
  | none => throw (.parse last .missingHeader)
  | some header =>
    if s.pending.isEmpty then return ⟨header, s.clauses.reverse⟩
    else throw (.parse last .missingTerminator)

def formula (d : Document) : Formula := .ofClauses d.clauses

def maxVar (d : Document) : Nat := (d.clauses.flatMap (·.triple.names)).foldl max 0

def warnings (d : Document) : List Event :=
  (if d.header.clauses = d.clauses.length then []
    else [.clauseCountDiffers d.header.clauses d.clauses.length]) ++
  (if d.maxVar ≤ d.header.vars then [] else [.variableBeyondHeader d.header.vars d.maxVar])

end Document
end TripletSat.Dimacs
