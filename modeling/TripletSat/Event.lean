import TripletSat.Assignment
import TripletSat.Error
import TripletSat.Formula.Basic
/-!
Events: what reading and solving report on the way. They are part of the result, in the order in
which they happen, and stay when the computation ends in an error.
-/
namespace TripletSat

inductive Level
  | info
  | warn
deriving DecidableEq

inductive Event
  | clauseCountDiffers (declared found : Nat)
  | variableBeyondHeader (declared found : Nat)
  | solving (formula : Formula)
  | unsatisfiable (index : Nat)
  | rejected (certificate : Assignment)
  | basicChosen (index : Nat) (basic : Formula) (count : Nat)
  | building (tier count : Nat)
  | seedingAgain
  | rebuilding (dirty kept : Nat)
  | basicEmptied (octant : Octant) (tier : Nat)
  | noRoute (deepest : Nat)
deriving DecidableEq

namespace Event

def level : Event → Level
  | clauseCountDiffers .. | variableBeyondHeader .. | rejected .. => .warn
  | _ => .info

def message : Event → String
  | clauseCountDiffers declared found => s!"header declares {declared} clauses, found {found}"
  | variableBeyondHeader declared found =>
    s!"header declares {declared} variables, found variable {found}"
  | solving formula => s!"solving {formula.summary}"
  | unsatisfiable index => s!"structure #{index} is empty, formula is unsatisfiable"
  | rejected certificate => s!"certificate {certificate.text} does not satisfy the formula"
  | basicChosen index basic count =>
    s!"basic structure #{index}: {basic.summary}, {count} hyper-structures"
  | building tier count => s!"building tier {tier} of {count}"
  | seedingAgain => "tier 0 went dirty, seeding again"
  | rebuilding dirty kept => s!"{dirty} dirty tiers, rebuilding from tier {kept}"
  | basicEmptied octant tier => s!"basic structure emptied removing {octant.text} from tier {tier}"
  | noRoute deepest => s!"no route found, deepest tier reached: {deepest}"

def line (e : Event) : String :=
  match e.level with
  | .info => "INFO " ++ e.message
  | .warn => "WARN " ++ e.message

end Event

/-- A computation that reports events and may fail; the events outlive the failure. -/
abbrev Logged (ε α : Type) := ExceptT ε (StateT (List Event) Checked) α

namespace Logged

def report {ε : Type} (e : Event) : Logged ε Unit := modify (· ++ [e])

def ofAttempt {ε α : Type} (attempt : Attempt ε α) : Logged ε α := do
  match ← (attempt.run : Checked (Except ε α)) with
  | .ok result => return result
  | .error e => throw e

/-- The outcome of a computation and the events it reported. -/
def outcome {ε α : Type} (computation : Logged ε α) : Checked (Except ε α × List Event) :=
  (computation.run.run [] : Checked _)

end Logged
end TripletSat
