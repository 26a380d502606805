import TripletSat.Error
import TripletSat.Formula.Basic
import TripletSat.Random.Source
/-!
Random clauses and formulas from any generator. A clause has three distinct variables, each set of them
equally likely, and each literal is negated with probability one half.
-/
namespace TripletSat.Random

variable {σ : Type} [Generator σ]

def product (m n : Nat) : Checked Nat :=
  if m * n < UInt64.size then return m * n else throw .productOverflow

/-- The number of distinct clauses: eight sign patterns for every set of three variables. -/
def maxClauseCount (vars : Nat) : Checked Nat := do
  if vars < 3 then return 0
  else return (← product (← product (← product 8 vars) (vars - 1)) (vars - 2)) / 6

def drawLit (index : Nat) (s : σ) : Checked (Lit × σ) := do
  let (negated, s) ← (Generator.coin s).getDM (throw .exhaustedSource)
  return (⟨index + 1, negated, Nat.succ_pos index⟩, s)

def drawClause (vars : Nat) (s : σ) : Checked (Clause × σ) := do
  if vars < 3 then throw (.tooFewVariables vars)
  match ← (Generator.sample vars 3 s).getDM (throw .exhaustedSource) with
  | ([i, j, k], s) =>
    let (a, s) ← drawLit i s
    let (b, s) ← drawLit j s
    let (c, s) ← drawLit k s
    return (← Clause.ofLits a b c, s)
  | _ => throw .outOfBounds

def drawClauses (vars : Nat) : (count : Nat) → σ → Checked (List Clause × σ)
  | 0, s => return ([], s)
  | count + 1, s => do
    let (clause, s) ← drawClause vars s
    let (rest, s) ← drawClauses vars count s
    return (clause :: rest, s)

/-- Adds random clauses until the formula has `count` distinct ones; `fuel` bounds the drawings. -/
def fill (vars count : Nat) : (fuel : Nat) → Formula → σ → Checked (Formula × σ)
  | 0, _, _ => throw .exhaustedSource
  | fuel + 1, f, s => do
    if count ≤ f.clauseCount then return (f, s)
    else
      let (clause, s) ← drawClause vars s
      fill vars count fuel (f.add clause) s

def formulaWithin (fuel vars count : Nat) (s : σ) : Attempt Error (Formula × σ) := do
  let max ← maxClauseCount vars
  if max < count then throw (.tooManyClauses vars count max)
  else fill vars count fuel .empty s

/-- Each drawing takes a word, so the source ends before the drawings do. -/
def formula (vars count : Nat) (s : Source) : Attempt Error (Formula × Source) :=
  formulaWithin (s.limit + 1) vars count s

end TripletSat.Random
