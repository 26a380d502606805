import TripletSat.Literal
/-!
Truth assignments, possibly partial: the variables with a value, ascending by name.
-/
namespace TripletSat

/-- A finite map from variables to truth values. -/
structure Assignment where
  entries : List (Nat × Bool)
  ascending : entries.Pairwise (·.1 < ·.1)
deriving DecidableEq

namespace Assignment

def empty : Assignment := ⟨[], .nil⟩

def get? (α : Assignment) (v : Nat) : Option Bool := α.entries.lookup v

def litValue? (α : Assignment) (l : Lit) : Option Bool := (α.get? l.name).map (· != l.negated)

def size (α : Assignment) : Nat := α.entries.length

def isEmpty (α : Assignment) : Bool := α.entries.isEmpty

/-- Puts a value into ascending entries, over an older one of the same variable. -/
def place (v : Nat) (value : Bool) : List (Nat × Bool) → List (Nat × Bool)
  | [] => [(v, value)]
  | entry :: rest =>
    if v < entry.1 then (v, value) :: entry :: rest
    else if v = entry.1 then (v, value) :: rest
    else entry :: place v value rest

theorem mem_place {v : Nat} {value : Bool} {entries : List (Nat × Bool)} {e : Nat × Bool}
    (member : e ∈ place v value entries) : e.1 = v ∨ e ∈ entries := by
  induction entries with
  | nil => simp_all [place]
  | cons entry rest ih =>
    rw [place] at member
    split at member
    · rcases List.mem_cons.1 member with rfl | member <;> simp_all
    · split at member
      · rcases List.mem_cons.1 member with rfl | member <;> simp_all
      · rcases List.mem_cons.1 member with rfl | member
        · simp
        · rcases ih member with same | member <;> simp_all

theorem place_ascending {v : Nat} {value : Bool} {entries : List (Nat × Bool)}
    (ascending : entries.Pairwise (·.1 < ·.1)) :
    (place v value entries).Pairwise (·.1 < ·.1) := by
  induction entries with
  | nil => simp [place]
  | cons entry rest ih =>
    obtain ⟨above, tail⟩ := List.pairwise_cons.1 ascending
    rw [place]
    split
    · rename_i below
      refine List.pairwise_cons.2 ⟨?_, ascending⟩
      intro e member
      rcases List.mem_cons.1 member with rfl | member
      · exact below
      · exact Nat.lt_trans below (above e member)
    · split
      · rename_i same
        exact List.pairwise_cons.2 ⟨fun e member => same ▸ above e member, tail⟩
      · refine List.pairwise_cons.2 ⟨?_, ih tail⟩
        intro e member
        rcases mem_place member with same | member
        · omega
        · exact above e member

def assign (α : Assignment) (v : Nat) (value : Bool) : Assignment :=
  ⟨place v value α.entries, place_ascending α.ascending⟩

def ofList (values : List (Nat × Bool)) : Assignment :=
  values.foldl (fun α entry => α.assign entry.1 entry.2) empty

theorem lookup_entry (u w : Nat) (value : Bool) (rest : List (Nat × Bool)) :
    ((u, value) :: rest).lookup w = if w = u then some value else rest.lookup w := by
  by_cases same : w = u
  · simp [same]
  · simp [List.lookup_cons, beq_eq_false_iff_ne.2 same, same]

theorem lookup_place (v w : Nat) (value : Bool) (entries : List (Nat × Bool)) :
    (place v value entries).lookup w = if w = v then some value else entries.lookup w := by
  induction entries with
  | nil => simp [place, lookup_entry]
  | cons entry rest ih =>
    obtain ⟨u, old⟩ := entry
    rw [place, lookup_entry u w old rest]
    split
    · rw [lookup_entry, lookup_entry]
    · split <;> rw [lookup_entry] <;> grind

theorem get?_empty (v : Nat) : empty.get? v = none := rfl

theorem get?_assign (α : Assignment) (v w : Nat) (value : Bool) :
    (α.assign v value).get? w = if w = v then some value else α.get? w :=
  lookup_place v w value α.entries

/-- The names in ascending order, a minus before the false ones. -/
def text (α : Assignment) : String :=
  " ".intercalate (α.entries.map fun (v, value) => (if value then "" else "-") ++ toString v)

end Assignment
end TripletSat
