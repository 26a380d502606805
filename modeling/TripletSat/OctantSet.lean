import TripletSat.Octant
/-!
Sets of octants, one bit per octant in a byte. Each operation is a few instructions on the byte;
the membership lemmas below say what it does to the set, and nothing else depends on the bits.
-/
namespace TripletSat

/-- The bit of an octant: bit `k` for the octant with key `k`. -/
def Octant.bit : Octant → UInt8
  | ⟨false, false, false⟩ => 0x01
  | ⟨false, false, true⟩ => 0x02
  | ⟨false, true, false⟩ => 0x04
  | ⟨false, true, true⟩ => 0x08
  | ⟨true, false, false⟩ => 0x10
  | ⟨true, false, true⟩ => 0x20
  | ⟨true, true, false⟩ => 0x40
  | ⟨true, true, true⟩ => 0x80

structure OctantSet where
  bits : UInt8
deriving DecidableEq

namespace OctantSet

def empty : OctantSet := ⟨0x00⟩

def full : OctantSet := ⟨0xFF⟩

def contains (s : OctantSet) (o : Octant) : Bool := (s.bits &&& o.bit) != 0

instance : Membership Octant OctantSet := ⟨fun s o => s.contains o = true⟩

instance (o : Octant) (s : OctantSet) : Decidable (o ∈ s) :=
  inferInstanceAs (Decidable (s.contains o = true))

def isEmpty (s : OctantSet) : Bool := s.bits == 0

def isFull (s : OctantSet) : Bool := s.bits == 0xFF

def toList (s : OctantSet) : List Octant := Octant.all.filter s.contains

/-- The number of octants, counted in twos, then in fours, then in eight. -/
def size (s : OctantSet) : Nat :=
  let twos : UInt8 := s.bits - ((s.bits >>> 1) &&& (0x55 : UInt8))
  let fours : UInt8 := (twos &&& (0x33 : UInt8)) + ((twos >>> 2) &&& (0x33 : UInt8))
  ((fours + (fours >>> 4)) &&& (0x0F : UInt8)).toNat

def insert (s : OctantSet) (o : Octant) : OctantSet := ⟨s.bits ||| o.bit⟩

def erase (s : OctantSet) (o : Octant) : OctantSet := ⟨s.bits &&& ~~~o.bit⟩

def union (s t : OctantSet) : OctantSet := ⟨s.bits ||| t.bits⟩

def inter (s t : OctantSet) : OctantSet := ⟨s.bits &&& t.bits⟩

def compl (s : OctantSet) : OctantSet := ⟨~~~s.bits⟩

def half : Place → Bool → OctantSet
  | .a, false => ⟨0x0F⟩
  | .a, true => ⟨0xF0⟩
  | .b, false => ⟨0x33⟩
  | .b, true => ⟨0xCC⟩
  | .c, false => ⟨0x55⟩
  | .c, true => ⟨0xAA⟩

/--
Keeps the octants in `fixed`, moves those in `low` up by `distance` keys, and those `distance` above
`low` down.
-/
@[inline] def exchange (s : OctantSet) (fixed low distance : UInt8) : OctantSet :=
  ⟨(s.bits &&& fixed) ||| ((s.bits &&& low) <<< distance) ||| ((s.bits >>> distance) &&& low)⟩

def swap (s : OctantSet) : Place → Place → OctantSet
  | .a, .b | .b, .a => s.exchange 0xC3 0x0C 2
  | .a, .c | .c, .a => s.exchange 0xA5 0x0A 3
  | .b, .c | .c, .b => s.exchange 0x99 0x22 1
  | .a, .a | .b, .b | .c, .c => s

/--
The octants of `s` whose values at `p` and `q` are the values at `p'` and `q'` of some octant
of `t`.
-/
def agreeing (s : OctantSet) (p q : Place) (t : OctantSet) (p' q' : Place) : OctantSet :=
  let part (x y : Bool) : OctantSet :=
    if (t.inter ((half p' x).inter (half q' y))).isEmpty then empty else (half p x).inter (half q y)
  s.inter (((part false false).union (part false true)).union
    ((part true false).union (part true true)))

/-- The value that every octant of a nonempty set has at a position, if they agree. -/
def forced? (s : OctantSet) (p : Place) : Option Bool :=
  if s.isEmpty then none
  else if (s.inter (half p false)).isEmpty then some true
  else if (s.inter (half p true)).isEmpty then some false
  else none

/-! ### Membership -/

/-- A statement about every set holds if it holds for the 256 bytes. -/
theorem forall_bits {P : OctantSet → Prop} (bytes : ∀ v : BitVec 8, P ⟨⟨v⟩⟩) (s : OctantSet) :
    P s :=
  bytes s.bits.toBitVec

theorem forall_octant {P : Octant → Prop} (eight : ∀ o ∈ Octant.all, P o) (o : Octant) : P o :=
  eight o o.mem_all

theorem contains_iff {s : OctantSet} {o : Octant} : s.contains o = true ↔ o ∈ s := Iff.rfl

theorem mem_iff_bit {s : OctantSet} {o : Octant} : o ∈ s ↔ s.bits.toBitVec.getLsbD o.key = true := by
  have eight : ∀ o ∈ Octant.all, ∀ v : BitVec 8,
      o ∈ (⟨⟨v⟩⟩ : OctantSet) ↔ v.getLsbD o.key = true := by
    decide +kernel
  exact eight o o.mem_all s.bits.toBitVec

theorem getLsbD_bit (o u : Octant) : o.bit.toBitVec.getLsbD u.key = true ↔ u = o := by
  have eight : ∀ o ∈ Octant.all, ∀ u ∈ Octant.all,
      o.bit.toBitVec.getLsbD u.key = true ↔ u = o := by
    decide +kernel
  exact eight o o.mem_all u u.mem_all

theorem not_mem_empty (o : Octant) : o ∉ empty := by
  revert o
  exact forall_octant (by decide)

theorem mem_full (o : Octant) : o ∈ full := by
  revert o
  exact forall_octant (by decide)

theorem mem_union {s t : OctantSet} {o : Octant} : o ∈ s.union t ↔ o ∈ s ∨ o ∈ t := by
  simp [mem_iff_bit, union]

theorem mem_inter {s t : OctantSet} {o : Octant} : o ∈ s.inter t ↔ o ∈ s ∧ o ∈ t := by
  simp [mem_iff_bit, inter]

theorem mem_compl {s : OctantSet} {o : Octant} : o ∈ s.compl ↔ o ∉ s := by
  simp [mem_iff_bit, compl, o.key_lt]

theorem mem_insert {s : OctantSet} {o u : Octant} : u ∈ s.insert o ↔ u ∈ s ∨ u = o := by
  simp [mem_iff_bit, insert, getLsbD_bit]

theorem mem_erase {s : OctantSet} {o u : Octant} : u ∈ s.erase o ↔ u ∈ s ∧ u ≠ o := by
  have other := getLsbD_bit o u
  simp [mem_iff_bit, erase, u.key_lt, ← other]

theorem mem_toList {s : OctantSet} {o : Octant} : o ∈ s.toList ↔ o ∈ s := by
  simp [toList, o.mem_all, contains_iff]

theorem isEmpty_iff {s : OctantSet} : s.isEmpty = true ↔ ∀ o, o ∉ s := by
  have bytes : ∀ s : OctantSet, s.isEmpty = true ↔ ∀ o ∈ Octant.all, o ∉ s :=
    forall_bits (by decide +kernel)
  exact (bytes s).trans ⟨fun outside o => outside o o.mem_all, fun outside o _ => outside o⟩

theorem isEmpty_eq_false_iff {s : OctantSet} : s.isEmpty = false ↔ ∃ o, o ∈ s := by
  rw [← Bool.not_eq_true, isEmpty_iff]
  exact ⟨fun inhabited => Classical.byContradiction fun alone =>
      inhabited fun o member => alone ⟨o, member⟩,
    fun ⟨o, member⟩ outside => outside o member⟩

theorem mem_half {p : Place} {v : Bool} {o : Octant} : o ∈ half p v ↔ o.value p = v := by
  obtain ⟨a, b, c⟩ := o
  cases p <;> cases v <;> cases a <;> cases b <;> cases c <;> decide

/-- An octant stays if some octant of the other set agrees with it on the pair. -/
theorem mem_agreeing {s t : OctantSet} {p q p' q' : Place} {o : Octant} :
    o ∈ s.agreeing p q t p' q' ↔
      o ∈ s ∧ ∃ u ∈ t, u.value p' = o.value p ∧ u.value q' = o.value q := by
  have part (x y : Bool) :
      o ∈ (if (t.inter ((half p' x).inter (half q' y))).isEmpty then empty
          else (half p x).inter (half q y)) ↔
        (o.value p = x ∧ o.value q = y) ∧ ∃ u ∈ t, u.value p' = x ∧ u.value q' = y := by
    split
    · rename_i outside
      simp only [isEmpty_iff, mem_inter, mem_half] at outside
      exact ⟨fun member => (not_mem_empty o member).elim,
        fun ⟨_, u, member, values⟩ => (outside u ⟨member, values⟩).elim⟩
    · rename_i inhabited
      obtain ⟨u, member⟩ := isEmpty_eq_false_iff.1 (Bool.not_eq_true _ ▸ inhabited)
      simp only [mem_inter, mem_half] at member
      simp only [mem_inter, mem_half]
      exact ⟨fun values => ⟨values, u, member⟩, And.left⟩
  simp only [agreeing, mem_inter, mem_union, part]
  cases o.value p <;> cases o.value q <;> simp

theorem mem_swap {p q : Place} {s : OctantSet} {o : Octant} : o ∈ s.swap p q ↔ o.swap p q ∈ s := by
  have ab : ∀ o ∈ Octant.all, ∀ v : BitVec 8,
      o ∈ (⟨⟨v⟩⟩ : OctantSet).swap .a .b ↔ o.swap .a .b ∈ (⟨⟨v⟩⟩ : OctantSet) := by
    decide +kernel
  have ac : ∀ o ∈ Octant.all, ∀ v : BitVec 8,
      o ∈ (⟨⟨v⟩⟩ : OctantSet).swap .a .c ↔ o.swap .a .c ∈ (⟨⟨v⟩⟩ : OctantSet) := by
    decide +kernel
  have bc : ∀ o ∈ Octant.all, ∀ v : BitVec 8,
      o ∈ (⟨⟨v⟩⟩ : OctantSet).swap .b .c ↔ o.swap .b .c ∈ (⟨⟨v⟩⟩ : OctantSet) := by
    decide +kernel
  cases p <;> cases q
  case a.b | b.a => exact ab o o.mem_all s.bits.toBitVec
  case a.c | c.a => exact ac o o.mem_all s.bits.toBitVec
  case b.c | c.b => exact bc o o.mem_all s.bits.toBitVec
  all_goals exact Iff.rfl

theorem size_eq_length (s : OctantSet) : s.size = s.toList.length := by
  revert s
  exact forall_bits (by decide +kernel)

end OctantSet
end TripletSat
