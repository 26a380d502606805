import TripletSat.Fault
/-!
Generators of random values, and one that reads them off a row of 64-bit words.

The row is endless, with a position in it. Drawing a number may reject words, so there is also a limit, and a
drawing that reaches it gives no value.
-/
namespace TripletSat.Random

/--
What random clauses ask of a generator, as the values it gives next. It gives none where it ends, or never
stops rejecting.
-/
class Generator (σ : Type) where
  /-- So many indices below a bound. -/
  sample : (bound amount : Nat) → σ → Option (List Nat × σ)
  /-- `true` with probability one half. -/
  coin : σ → Option (Bool × σ)

/-- A row of words, the position of the next one, and the position where it ends. -/
structure Source where
  word : Nat → UInt64
  position : Nat
  limit : Nat

namespace Source

def mix (z : UInt64) : UInt64 :=
  let z := (z ^^^ (z >>> 30)) * 0xBF58476D1CE4E5B9
  let z := (z ^^^ (z >>> 27)) * 0x94D049BB133111EB
  z ^^^ (z >>> 31)

/-- The words that a seed gives by steps of a fixed odd number; they repeat after all 2^64. -/
def splitMix (seed : UInt64) : Source :=
  ⟨fun index => mix (seed + UInt64.ofNat (index + 1) * 0x9E3779B97F4A7C15), 0, UInt64.size⟩

def next (s : Source) : Option (UInt64 × Source) :=
  if s.position < s.limit then some (s.word s.position, { s with position := s.position + 1 })
  else none

/-- The least `k` such that `range <<< k` has the top bit of 32 set. -/
def leadingZeros (range : Nat) : Nat := 31 - Nat.log2 range

/--
A number below `range`, each equally likely: the high half of the product of `range` and a 32-bit
word, drawn again while the low half lies beyond the last full round of results.
-/
def below (range : Nat) (s : Source) : Option (Nat × Source) :=
  if s.position < s.limit then
    let product := (s.word s.position >>> 32).toNat * range
    let s' := { s with position := s.position + 1 }
    if product % UInt32.size < range <<< leadingZeros range then
      some (product / UInt32.size, s')
    else
      below range s'
  else
    none
termination_by s.limit - s.position

/--
Draws a further index below `bound`. One that was drawn before gives its place in the list to
`bound - 1`, which was not.
-/
def drawIndex (bound : Nat) (drawn : List Nat) (s : Source) : Option (List Nat × Source) := do
  let (index, s) ← s.below bound
  match drawn.idxOf? index with
  | some place => return (drawn.insertIdx place (bound - 1), s)
  | none => return (drawn ++ [index], s)

/-- The last index is drawn below the bound, the one before it below the number before that. -/
def sample (bound : Nat) : (amount : Nat) → Source → Option (List Nat × Source)
  | 0, s => some ([], s)
  | amount + 1, s => do
    let (drawn, s) ← sample (bound - 1) amount s
    drawIndex bound drawn s

/-- A fair coin: whether the top bit of the next word is clear. -/
def coin (s : Source) : Option (Bool × Source) := do
  let (word, s) ← s.next
  return (word < 0x8000000000000000, s)

instance : Generator Source where
  sample := sample
  coin := coin

end Source
end TripletSat.Random
