import TripletSat.Dimacs.Line
import TripletSat.Formula.Basic
/-!
Generic DIMACS: clauses of any width over any variables, the header being optional.

Variables are renamed to `1, 2, …` in order of first appearance. Clauses that are not three literals
wide are replaced by clauses with fresh variables, numbered after the renamed ones, such that every
assignment that satisfies the text extends to the fresh variables and nothing else does.
-/
namespace TripletSat.Dimacs

/-- A clause as it stands in a text, with the line where it ends. -/
structure SourceClause where
  line : Nat
  literals : List Int
deriving DecidableEq

namespace SourceClause

/-- Splits the words of a line at the zeros; `pending` holds the literals of an open clause. -/
def ofWords (line : Nat) : (pending : List Int) → List (List Char) →
    Except Error (List SourceClause × List Int)
  | pending, [] => return ([], pending)
  | pending, word :: rest => do
    let n ← literal line word
    if n = 0 then
      let (clauses, open') ← ofWords line [] rest
      return (⟨line, pending.reverse⟩ :: clauses, open')
    else
      ofWords line (n :: pending) rest

/-- The clauses of the lines. The text may end inside the last one. -/
def ofLines : (last : Nat) → (pending : List Int) → List (Nat × Line) →
    Except Error (List SourceClause)
  | last, pending, [] => return if pending.isEmpty then [] else [⟨last, pending.reverse⟩]
  | _, pending, (line, .stop) :: _ =>
    return if pending.isEmpty then [] else [⟨line, pending.reverse⟩]
  | _, pending, (line, .skipped) :: rest => ofLines line pending rest
  | _, pending, (line, .header _) :: rest => ofLines line pending rest
  | _, pending, (line, .literals words) :: rest => do
    let (clauses, pending) ← ofWords line pending words
    return clauses ++ (← ofLines line pending rest)

def ofText (text : String) : Except Error (List SourceClause) := ofLines 0 [] (numberedLines text)

end SourceClause

def sourceNames (clauses : List SourceClause) : Permutation :=
  .ofNames (clauses.flatMap fun clause => clause.literals.map Int.natAbs)

def rename (names : Permutation) (n : Int) : Lit :=
  ⟨names.index n.natAbs + 1, n < 0, Nat.succ_pos _⟩

/-- The variable of the text that a variable stands for; fresh variables stand for none. -/
def sourceName? (names : Permutation) : Nat → Option Nat
  | 0 => none
  | index + 1 => names.get? index

def isTautology (lits : List Lit) : Bool := lits.any fun l => lits.contains l.negate

def fresh (used : Nat) : Lit := ⟨used + 1, false, Nat.succ_pos _⟩

/-- Clauses, and the number of variables in use once they are written. -/
structure Reduced where
  clauses : List Clause
  used : Nat

/-- The clauses `¬link ∨ l₁ ∨ y₁`, `¬y₁ ∨ l₂ ∨ y₂`, … up to the last two literals. -/
def chain (used : Nat) (link : Lit) : List Lit → Checked Reduced
  | [] | [_] => return ⟨[], used⟩
  | [l, m] => return ⟨[← Clause.ofLits link.negate l m], used⟩
  | l :: rest => do
    let next := fresh used
    let clause ← Clause.ofLits link.negate l next
    let later ← chain (used + 1) next rest
    return { later with clauses := clause :: later.clauses }

def reduce (used : Nat) : List Lit → Checked Reduced
  | [] => return ⟨[], used⟩
  | [l] => do
    let y := fresh used
    let z := fresh (used + 1)
    let clauses ← [(y, z), (y, z.negate), (y.negate, z), (y.negate, z.negate)].mapM fun (m, n) =>
      Clause.ofLits l m n
    return ⟨clauses, used + 2⟩
  | [l, m] => do
    let y := fresh used
    return ⟨[← Clause.ofLits l m y, ← Clause.ofLits l m y.negate], used + 1⟩
  | [l, m, n] => return ⟨[← Clause.ofLits l m n], used⟩
  | l :: m :: rest => do
    let link := fresh used
    let clause ← Clause.ofLits l m link
    let later ← chain (used + 1) link rest
    return { later with clauses := clause :: later.clauses }

/-- The reduced clauses of several, tautologies left out. -/
def reduceAll : (used : Nat) → List (List Lit) → Checked (List Clause)
  | _, [] => return []
  | used, lits :: rest => do
    if isTautology lits then reduceAll used rest
    else
      let reduced ← reduce used lits
      return reduced.clauses ++ (← reduceAll reduced.used rest)

/-- A text reduced to clauses of three literals, and the names that its variables had. -/
structure Instance where
  formula : Formula
  names : Permutation

def Instance.read (text : String) : Attempt Error Instance := do
  let clauses ← liftExcept (SourceClause.ofText text)
  if let some clause := clauses.find? (·.literals.isEmpty) then
    throw (.parse clause.line .emptyClause)
  let names := sourceNames clauses
  let reduced ← reduceAll names.size
    (clauses.map fun clause => (clause.literals.map (rename names)).eraseDups)
  return ⟨.ofClauses reduced, names⟩
where
  /-- A failure on sound input inside an attempt. -/
  liftExcept {α : Type} (result : Except Error α) : Attempt Error α := ExceptT.mk (pure result)

end TripletSat.Dimacs
