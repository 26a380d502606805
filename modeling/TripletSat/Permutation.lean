import TripletSat.Fault
/-!
Permutations: the variables of a formula in a fixed order, and the windows of three consecutive
ones.
-/
namespace TripletSat

structure Permutation where
  names : List Nat
  nodup : names.Nodup
deriving DecidableEq

namespace Permutation

def empty : Permutation := ⟨[], .nil⟩

def size (p : Permutation) : Nat := p.names.length

/-- The position of a variable, or the number of variables if it is absent. -/
def index (p : Permutation) (v : Nat) : Nat := p.names.idxOf v

def index? (p : Permutation) (v : Nat) : Option Nat := p.names.idxOf? v

def contains (p : Permutation) (v : Nat) : Bool := p.names.contains v

def get? (p : Permutation) (index : Nat) : Option Nat := p.names[index]?

/-- The ordering with a variable at its end, unless it is present already. -/
def add (p : Permutation) (v : Nat) : Permutation :=
  if present : v ∈ p.names then p
  else ⟨p.names ++ [v], List.nodup_append.2
    ⟨p.nodup, by simp, fun _ member _ last same =>
      present (List.mem_singleton.1 last ▸ same ▸ member)⟩⟩

def addAll (p : Permutation) (names : List Nat) : Permutation := names.foldl add p

def ofNames (names : List Nat) : Permutation := empty.addAll names

def insert (p : Permutation) (index : Nat) (v : Nat) : Checked Permutation :=
  if present : v ∈ p.names then throw (.alreadyPresent v)
  else if index ≤ p.size then
    pure ⟨p.names.take index ++ v :: p.names.drop index, by
      have parts := p.nodup
      rw [← List.take_append_drop index p.names] at parts present
      rw [List.perm_middle.nodup_iff]
      exact List.nodup_cons.2 ⟨present, parts⟩⟩
  else throw .outOfBounds

def sameVariables (p q : Permutation) : Bool := p.size == q.size && p.names.all q.contains

/-- Whether the positions of the triple's variables follow each other. -/
def isWindow (p : Permutation) (t : Triple) : Bool :=
  match p.index? t.a, p.index? t.b, p.index? t.c with
  | some a, some b, some c => b == a + 1 && c == b + 1
  | _, _, _ => false

section Nodup

variable {a b c : Nat} {rest : List Nat} (nodup : (a :: b :: c :: rest).Nodup)

include nodup

theorem first_ne_second : a ≠ b := by grind

theorem first_ne_third : a ≠ c := by grind

theorem second_ne_third : b ≠ c := by grind

theorem nodup_tail : (b :: c :: rest).Nodup := (List.nodup_cons.1 nodup).2

end Nodup

def windowsOf : (names : List Nat) → names.Nodup → List Triple
  | a :: b :: c :: rest, nodup =>
    ⟨a, b, c, first_ne_second nodup, first_ne_third nodup, second_ne_third nodup⟩ ::
      windowsOf (b :: c :: rest) (nodup_tail nodup)
  | _, _ => []

def windows (p : Permutation) : List Triple := windowsOf p.names p.nodup

theorem mem_add {p : Permutation} {v w : Nat} : w ∈ (p.add v).names ↔ w ∈ p.names ∨ w = v := by
  rw [add]
  split
  · rename_i present
    exact ⟨Or.inl, fun either => either.elim id fun same => same ▸ present⟩
  · simp

theorem mem_addAll {p : Permutation} {names : List Nat} {w : Nat} :
    w ∈ (p.addAll names).names ↔ w ∈ p.names ∨ w ∈ names := by
  rw [addAll]
  induction names generalizing p with
  | nil => simp
  | cons v rest ih => rw [List.foldl_cons, ih, mem_add, List.mem_cons, or_assoc]

theorem length_windowsOf : (names : List Nat) → (nodup : names.Nodup) →
    (windowsOf names nodup).length = names.length - 2
  | [], _ | [_], _ | [_, _], _ => rfl
  | _ :: b :: c :: rest, nodup => by
    rw [windowsOf, List.length_cons, length_windowsOf (b :: c :: rest)]
    rfl

end Permutation
end TripletSat
