import TripletSat.Formula.Basic
/-!
Cleanup: removals spread between neighbouring tiers until nothing changes.

A pass visits the tiers of a range from left to right and restricts each one to the octants that
both of its neighbours can extend. Every pass that restricted something is followed by another over
a range grown by one tier on each side of what changed. A tier left without octants clears the
whole structure, since no assignment runs through it.
-/
namespace TripletSat

/-- What a cleanup did: the first and the last tier restricted, and the octants removed. -/
structure CleanupStatus where
  changed : Bool
  first : Nat
  last : Nat
  removed : Nat
deriving DecidableEq

structure Span where
  first : Nat
  last : Nat
deriving DecidableEq

def Span.join (s t : Span) : Span := ⟨min s.first t.first, max s.last t.last⟩

inductive Sweep
  /-- Every tier kept an octant; the span holds the restricted ones, if there are any. -/
  | kept (tiers : List Tier) (span : Option Span)
  /-- The last tier of the span lost its octants. -/
  | emptied (span : Span)
deriving DecidableEq

namespace Sweep

/-- The outcome with a tier in front that was left alone. -/
def behind (t : Tier) : Sweep → Sweep
  | kept tiers span => kept (t :: tiers) span
  | emptied span => emptied span

/-- The outcome with a restricted tier in front, the one at `index`. -/
def behindRestricted (t : Tier) (index : Nat) : Sweep → Sweep
  | kept tiers span => kept (t :: tiers) (some ⟨index, (span.map Span.last).getD index⟩)
  | emptied span => emptied ⟨index, span.last⟩

end Sweep

namespace Tier

def between (prev : Option Tier) (t : Tier) (next : Option Tier) : Checked Tier := do
  let t ← match prev with
    | some prev => t.adjoinLeft prev
    | none => pure t
  match next with
  | some next => t.adjoinRight next
  | none => pure t

end Tier

/--
One pass over the tiers with an index in `low ..= high`. `index` and `prev` belong to the head of
the list.
-/
def sweep (low high : Nat) : (index : Nat) → (prev : Option Tier) → List Tier → Checked Sweep
  | _, _, [] => pure (.kept [] none)
  | index, prev, t :: rest =>
    if index < low ∨ high < index then do
      return (← sweep low high (index + 1) (some t) rest).behind t
    else do
      let restricted ← t.between prev rest.head?
      if restricted.octants = t.octants then
        return (← sweep low high (index + 1) (some t) rest).behind t
      else if restricted.isEmpty then
        return .emptied ⟨index, index⟩
      else
        return (← sweep low high (index + 1) (some restricted) rest).behindRestricted
          restricted index

def grow (span : Option Span) (more : Span) : Span := (span.map (·.join more)).getD more

/-- Passes until nothing changes over `count` tiers; of `limit` passes `fuel` are left. -/
def settle (count limit : Nat) : (fuel low high : Nat) → List Tier → Option Span → Checked Sweep
  | 0, _, _, _, _ => throw (.cleanupUnsettled limit)
  | fuel + 1, low, high, tiers, span => do
    match ← sweep low high 0 none tiers with
    | .emptied more => return .emptied (grow span more)
    | .kept tiers none => return .kept tiers span
    | .kept tiers (some more) =>
      settle count limit fuel (min low (more.first - 1))
        (max high (min (more.last + 1) (count - 1))) tiers (some (grow span more))

namespace Formula

/-- Cleans up, the first pass visiting the tiers in `low ..= high`. -/
def propagate (f : Formula) (low high : Nat) : Checked (Formula × CleanupStatus) := do
  if f.tiers.isEmpty then
    return (f, ⟨false, 0, 0, 0⟩)
  if f.tierCount + 2 ≠ f.varCount then
    throw (.windowCount f.varCount f.tierCount)
  match f.tiers.findIdx? Tier.isEmpty with
  | some index => return (f.clear, ⟨true, index, index, f.clauseCount⟩)
  | none =>
    let limit := f.clauseCount + 2
    match ← settle f.tierCount limit limit low high f.tiers none with
    | .emptied span => return (f.clear, ⟨true, span.first, span.last, f.clauseCount⟩)
    | .kept _ none => return (f, ⟨false, 0, 0, 0⟩)
    | .kept tiers (some span) =>
      let settled : Formula := { f with tiers }
      return (settled, ⟨true, span.first, span.last, f.clauseCount - settled.clauseCount⟩)

def cleanup (f : Formula) : Checked (Formula × CleanupStatus) :=
  f.propagate 0 (f.tierCount - 1)

def cleanupAround (f : Formula) (index : Nat) : Checked (Formula × CleanupStatus) :=
  f.propagate (index - 1) (min (index + 1) (f.tierCount - 1))

def cleaned (f : Formula) : Checked Formula := return (← f.cleanup).1

end Formula
end TripletSat
