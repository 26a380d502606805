import TripletSat.Dimacs.Printer
import TripletSat.Error
/-!
The binary exchange format. A formula is a run of twelve-byte records, one per clause, each holding
three literals as little-endian 32-bit signed numbers, and a record of zeros at its end. Formulas
follow each other without any further mark.
-/
namespace TripletSat.Exchange

structure Written where
  bytes : List UInt8
  problem? : Option Error

def writeEach {α : Type} (write : α → Checked Written) : List α → Checked Written
  | [] => return ⟨[], none⟩
  | x :: rest => do
    let first ← write x
    if first.problem?.isSome then return first
    else
      let later ← writeEach write rest
      return { later with bytes := first.bytes ++ later.bytes }

/-- The four bytes of a 32-bit signed number, the lowest first. -/
def wordBytes (n : Int) : List UInt8 :=
  let word := (n % UInt32.size).toNat
  [.ofNat word, .ofNat (word >>> 8), .ofNat (word >>> 16), .ofNat (word >>> 24)]

/-- Writes a literal whose negation fits in 32 bits too. -/
def writeLiteral (n : Int) : Checked Written :=
  if n.natAbs ≤ Int32.maxValue.toInt then return ⟨wordBytes n, none⟩
  else return ⟨[], some (.literalOutOfRange n)⟩

def writeTier (t : Tier) : Checked Written :=
  writeEach (fun o => do writeEach writeLiteral (← Clause.ofOctant t.triple o).signed)
    t.octants.toList

def writeFormula (f : Formula) : Checked Written := do
  let tiers ← writeEach writeTier f.tiers
  if tiers.problem?.isSome then return tiers
  else return { tiers with bytes := tiers.bytes ++ List.replicate 12 0 }

def write (formulas : List Formula) : Checked Written := writeEach writeFormula formulas

def word (b₀ b₁ b₂ b₃ : UInt8) : Int :=
  let n : Nat := b₀.toNat + b₁.toNat <<< 8 + b₂.toNat <<< 16 + b₃.toNat <<< 24
  if n ≤ Int32.maxValue.toInt then n else n - UInt32.size

structure Record where
  a : Int
  b : Int
  c : Int
deriving DecidableEq

def records : List UInt8 → List Record
  | a₀ :: a₁ :: a₂ :: a₃ :: b₀ :: b₁ :: b₂ :: b₃ :: c₀ :: c₁ :: c₂ :: c₃ :: rest =>
    ⟨word a₀ a₁ a₂ a₃, word b₀ b₁ b₂ b₃, word c₀ c₁ c₂ c₃⟩ :: records rest
  | _ => []

/-- The clause of a record: three nonzero literals over distinct variables, with negations. -/
def Record.clause? (r : Record) : Option Clause :=
  if [r.a, r.b, r.c].contains Int32.minValue.toInt then none else Clause.ofSigned? r.a r.b r.c

/--
The formulas of the records. `read` counts the records before; `pending` holds the clauses of an
open formula, the latest first.
-/
def readRecords : (read : Nat) → (pending : List Clause) → List Record →
    Except Error (List Formula)
  | read, pending, [] =>
    if pending.isEmpty then return [] else throw (.parse read .missingTerminatorRecord)
  | read, pending, r :: rest =>
    if r = ⟨0, 0, 0⟩ then do
      return .ofClauses pending.reverse :: (← readRecords (read + 1) [] rest)
    else
      match r.clause? with
      | some clause => readRecords (read + 1) (clause :: pending) rest
      | none => throw (.parse (read + 1) (.invalidRecord r.a r.b r.c))

def read (bytes : List UInt8) : Except Error (List Formula) :=
  if bytes.length % 12 = 0 then readRecords 0 [] (records bytes)
  else throw (.parse (bytes.length / 12 + 1) .truncatedRecord)

end TripletSat.Exchange
