import Mathlib.Logic.Function.Basic
import TripletSat.Hyper.Construction

/-!
Hyper-structures with tiers of their own. A system can keep a map from octants to vertices for each tier
of each hyper-structure, with parts, edges and flags that no other one shares. The construction here reads and
writes these maps one by one: nothing but the construction itself keeps them in step.
-/

namespace TripletSat

/-- A vertex of one hyper-structure. -/
structure HyperVertex where
  octant : Octant
  part : Formula
  /-- The edges to the successors of the octant, in their order. -/
  edges : List Edge
  dirty : Bool

namespace HyperVertex

def ofPart (o : Octant) (part : Formula) : HyperVertex := ⟨o, part, [.absent, .absent], false⟩

def dropEdges (v : HyperVertex) : HyperVertex := { v with edges := [.absent, .absent] }

def targets (v : HyperVertex) : List Octant := v.edges.filterMap Edge.target?

end HyperVertex

/-- The vertices of one hyper-structure over one basic tier, by what looking an octant up gives. -/
abbrev TierMap := Octant → Option HyperVertex

namespace TierMap

variable (map : TierMap)

def empty : TierMap := fun _ => none

/-- Keys are visited in ascending order. -/
def keys : List Octant := Octant.all.filter fun o => (map o).isSome

def values : List HyperVertex := Octant.all.filterMap map

def contains (o : Octant) : Bool := (map o).isSome

def get (o : Octant) : Checked HyperVertex :=
  match map o with
  | some v => pure v
  | none => throw .outOfBounds

def insert (o : Octant) (v : HyperVertex) : TierMap := Function.update map o (some v)

def remove (o : Octant) : TierMap := Function.update map o none

def change (o : Octant) (f : HyperVertex → HyperVertex) : TierMap :=
  Function.update map o ((map o).map f)

def changeAll (f : HyperVertex → HyperVertex) : TierMap := fun o => (map o).map f

def isDirty : Bool := map.values.any HyperVertex.dirty

/-- Whether an edge of a vertex leads to a vertex of the map. -/
def reaches (v : HyperVertex) : Bool := v.targets.any map.contains

def clearLeaves (next : TierMap) : TierMap :=
  map.changeAll fun v => if next.reaches v then v else { v with part := v.part.clear }

end TierMap

/-- One of the other structures with a map for each built tier. -/
structure MappedStructure where
  other : Formula
  tiers : List TierMap

namespace MappedStructure

variable (hs : MappedStructure)

def tier (index : Nat) : Checked TierMap :=
  match hs.tiers[index]? with
  | some map => pure map
  | none => throw .outOfBounds

def part (index : Nat) (o : Octant) : Checked Formula := do
  return (← (← hs.tier index).get o).part

def changeTier (index : Nat) (f : TierMap → TierMap) : Checked MappedStructure := do
  let map ← hs.tier index
  return { hs with tiers := hs.tiers.set index (f map) }

/-- The first tiers only, without edges on the last of them. -/
def truncate (count : Nat) : MappedStructure :=
  let tiers := hs.tiers.take count
  { hs with tiers := tiers.modify (tiers.length - 1) (·.changeAll HyperVertex.dropEdges) }

/-- Opens an empty tier at `index`, in the place of all later ones. -/
def openTier (index : Nat) : Checked MappedStructure := do
  let hs ← { hs with tiers := hs.tiers.take index }.changeTier (index - 1)
    (·.changeAll HyperVertex.dropEdges)
  return { hs with tiers := hs.tiers ++ [.empty] }

/-- Adds a part to the vertex of an octant, or a vertex with this part. -/
def arrive (index : Nat) (o : Octant) (part : Formula) : Checked MappedStructure := do
  let map ← hs.tier index
  match map o with
  | some v =>
    return { hs with tiers := hs.tiers.set index (map.insert o { v with part := ← v.part.union part }) }
  | none => return { hs with tiers := hs.tiers.set index (map.insert o (.ofPart o part)) }

/-- The part of each octant of the first basic tier. -/
def seed (first : Tier) : Checked MappedStructure := do
  let map ← first.octants.toList.foldlM (fun (map : TierMap) o =>
    return map.insert o (.ofPart o (← hs.other.concretizeOctant first.triple o))) .empty
  return { hs with tiers := [map] }

/-- Clears the vertices without a live edge into the next tier, and tells whether there were any. -/
def clearLeaves (index : Nat) : Checked (MappedStructure × Bool) := do
  let map ← hs.tier index
  let next ← hs.tier (index + 1)
  return ({ hs with tiers := hs.tiers.set index (map.clearLeaves next) }, !map.values.all next.reaches)

end MappedStructure

/-- Changes each member by its partner, as far as there are partners. -/
def eachWith {α β : Type} (f : α → β → Checked α) : List α → List β → Checked (List α)
  | x :: xs, y :: ys => do return (← f x y) :: (← eachWith f xs ys)
  | xs, _ => return xs

/-- A basic structure, and hyper-structures that keep their tiers apart. -/
structure MappedSystem where
  basic : Formula
  basicIndex : Nat
  structures : List MappedStructure
  rebuilds : Nat
  reseeds : Nat

namespace MappedSystem

variable (m : MappedSystem)

/-! ### Dirty tiers -/

def first : Checked MappedStructure :=
  match m.structures with
  | [] => throw .outOfBounds
  | hs :: _ => pure hs

/-- The keys of a tier, as the first hyper-structure has them. -/
def keys (index : Nat) : Checked (List Octant) := do
  return (← (← m.first).tier index).keys

def builtTiers : Nat :=
  match m.structures with
  | [] => 0
  | hs :: _ => hs.tiers.length

/-- Whether some hyper-structure has a dirty vertex in the tier. -/
def isDirty (index : Nat) : Checked Bool :=
  m.structures.anyM fun hs => return (← hs.tier index).isDirty

/-- The number of dirty tiers in a row that end below `bound`. -/
def dirtyBelow : (bound : Nat) → Checked Nat
  | 0 => return 0
  | bound + 1 => do
    if ← m.isDirty bound then return (← dirtyBelow bound) + 1
    else return 0

def dirtyCount : Checked Nat := m.dirtyBelow m.builtTiers

def markDirty (start : Nat) : MappedSystem :=
  { m with structures := m.structures.map fun hs =>
      { hs with tiers := hs.tiers.mapIdx fun index map =>
          if start ≤ index then map.changeAll ({ · with dirty := true }) else map } }

def truncate (count : Nat) : MappedSystem :=
  { m with structures := m.structures.map (·.truncate count) }

/-! ### Removing vertices -/

/-- The octant goes from every hyper-structure and from the basic structure. -/
def removeVertex (index : Nat) (o : Octant) : Attempt BasicEmptied MappedSystem := do
  let structures ← (m.structures.mapM (·.changeTier index (·.remove o)) : Checked _)
  let (basic, status) ← (← m.basic.removeOctant index o).cleanupAround index
  let m := { m with basic, structures }
  if basic.isEmpty then throw ⟨o, index⟩
  else if status.changed then return m.markDirty (min (status.first - 1) index)
  else return m

/-- Unifies what the hyper-structures hold at an octant, which each of them must have. -/
def unifyVertex (index : Nat) (m : MappedSystem) (o : Octant) : Attempt BasicEmptied MappedSystem := do
  if (← m.dirtyCount) > 0 then return m
  else
    let group ← (m.structures.mapM (·.part index o) : Checked _)
    match ← ((unifyGroup group).run : Checked _) with
    | .ok parts =>
      let structures ← eachWith (fun hs part =>
        hs.changeTier index (·.change o ({ · with part }))) m.structures parts
      return { m with structures }
    | .error _ => m.removeVertex index o

def unifyTier (index : Nat) : Attempt BasicEmptied MappedSystem := do
  (← m.keys index).foldlM (unifyVertex index) m

/-- Removes a basic octant that some hyper-structure has no vertex for. -/
def pruneOctant (index : Nat) (m : MappedSystem) (o : Octant) : Attempt BasicEmptied MappedSystem := do
  if (← m.dirtyCount) > 0 then return m
  else
    let reached ← (m.structures.allM fun hs => return (← hs.tier index).contains o : Checked Bool)
    if reached then return m else m.removeVertex index o

def prune (index : Nat) : Attempt BasicEmptied MappedSystem := do
  (← m.basic.tier index).octants.toList.foldlM (pruneOctant index) m

def clearLeaves (index : Nat) : Attempt BasicEmptied MappedSystem := do
  let cleared ← (m.structures.mapM (·.clearLeaves index) : Checked _)
  let m := { m with structures := cleared.map Prod.fst }
  if cleared.any Prod.snd then m.unifyTier index else return m

/-! ### Shifting a tier -/

/-- Adds to what agrees so far what each hyper-structure shares with its vertex at a key. -/
def agree (index : Nat) (shifted : List Formula) (agreeing : List (Option Formula)) (key : Octant) :
    Checked (List (Option Formula)) := do
  let group ← (m.structures.zip shifted).mapM fun (hs, part) => do
    part.intersect (← hs.part index key)
  match ← (unifyGroup group).run with
  | .error _ => return agreeing
  | .ok group =>
    eachWith (fun (united : Option Formula) part =>
      match united with
      | some f => return some (← f.union part)
      | none => return some part) agreeing group

/-- The parts that agree with an earlier tier, if every hyper-structure has one. -/
def filterThrough (shifted : List Formula) (index : Nat) : Attempt EmptyStructure (List Formula) := do
  let agreeing ← ((← m.keys index).foldlM (m.agree index shifted)
    (List.replicate shifted.length none) : Checked _)
  let filtered ← agreeing.zipIdx.mapM fun (part, index) =>
    match part with
    | some f => (return f : Attempt EmptyStructure Formula)
    | none => throw ⟨index⟩
  unifyGroup filtered

/-- What the hyper-structures hold at a vertex of the tier before `index`, moved onto a value. -/
def shift (index : Nat) (source : Octant) (v : Nat) (value : Bool) :
    Attempt EmptyStructure (List Formula) := do
  let moved ← (m.structures.mapM fun hs => do
    (← hs.part (index - 1) source).concretize v value : Checked _)
  (List.range (index - 1)).foldlM m.filterThrough (← unifyGroup moved)

def setEdges (index : Nat) (source : Octant) (slot : Nat) (edge : Edge) : Checked MappedSystem := do
  let structures ← m.structures.mapM (·.changeTier index
    (·.change source fun v => { v with edges := v.edges.set slot edge }))
  return { m with structures }

/-- One edge into the tier at `index`, and what arrives at its end. -/
def shiftEdge (index : Nat) (next : Tier) (source : Octant) (m : MappedSystem)
    (entry : Octant × Nat) : Checked MappedSystem := do
  let (target, slot) := entry
  if next.octants.contains target then
    match ← (m.shift index source next.triple.c target.c).run with
    | .ok parts =>
      let structures ← eachWith (fun hs part => hs.arrive index target part) m.structures parts
      { m with structures }.setEdges (index - 1) source slot (.target target)
    | .error _ => m.setEdges (index - 1) source slot .empty
  else
    return m

def shiftVertex (index : Nat) (next : Tier) (m : MappedSystem) (source : Octant) :
    Checked MappedSystem :=
  source.successors.zipIdx.foldlM (shiftEdge index next source) m

def shiftTier (index : Nat) : Checked MappedSystem := do
  let next ← m.basic.tier index
  let structures ← m.structures.mapM (·.openTier index)
  let m := { m with structures }
  (← m.keys (index - 1)).foldlM (shiftVertex index next) m

/-! ### Construction -/

def seedTier : Checked MappedSystem := do
  let first ← m.basic.tier 0
  let structures ← m.structures.mapM (·.seed first)
  return { m with structures }

def seedRounds (limit : Nat) : (fuel : Nat) → MappedSystem → Logged BasicEmptied MappedSystem
  | 0, _ => liftM (throw (.seedingUnsettled limit) : Checked MappedSystem)
  | fuel + 1, m => do
    let seeded ← m.seedTier
    let m ← .ofAttempt (seeded.unifyTier 0)
    if (← m.dirtyCount) = 0 then return m
    else
      .report .seedingAgain
      seedRounds limit fuel m

def seed : Logged BasicEmptied MappedSystem :=
  let limit := m.basic.clauseCount + 1
  seedRounds limit limit m

/-- Refuses a tier of a hyper-structure whose keys are not the octants of the basic one. -/
def requireKeys : Checked Unit :=
  m.structures.zipIdx.forM fun (hs, place) =>
    hs.tiers.zipIdx.forM fun (map, index) => do
      if map.keys = (← m.basic.tier index).octants.toList then return ()
      else throw (.keysDiffer index place)

def buildTier (index : Nat) : Attempt BasicEmptied MappedSystem := do
  let m ← (← m.shiftTier index).prune index
  let m ← if (← m.dirtyCount) = 0 then m.clearLeaves (index - 1) else pure m
  if (← m.dirtyCount) = 0 then m.unifyTier index else return m

def buildFrom (check : Bool) (count : Nat) : (fuel index : Nat) → MappedSystem →
    Logged BasicEmptied MappedSystem
  | 0, index, m =>
    if count ≤ index then return m
    else liftM (throw .constructionUnsettled : Checked MappedSystem)
  | fuel + 1, index, m => do
    if count ≤ index then return m
    else
      .report (.building index count)
      let m ← .ofAttempt (m.buildTier index)
      let dirty ← m.dirtyCount
      if dirty = 0 then
        if check then m.requireKeys
        buildFrom check count fuel (index + 1) m
      else
        let kept := m.builtTiers - dirty
        .report (.rebuilding dirty kept)
        let m := m.truncate kept
        if kept = 0 then
          buildFrom check count fuel 1 (← seed { m with reseeds := m.reseeds + 1 })
        else
          buildFrom check count fuel kept { m with rebuilds := m.rebuilds + 1 }

def build (check : Bool) : Logged BasicEmptied MappedSystem := do
  let count := m.basic.tierCount
  let fuel := (m.basic.clauseCount + 1) * (count + 1) * 2
  let m ← m.seed
  if check then m.requireKeys
  buildFrom check count fuel 1 m

def ofStructures (structures : List Formula) (check : Bool) : Logged Error MappedSystem := do
  if structures.length < 2 then
    throw (.tooFewStructures structures.length)
  match basicIndex? structures with
  | none => throw (.tooFewStructures 0)
  | some basicIndex =>
    if let some index := structures.findIdx? Formula.isEmpty then
      throw (.emptyStructure index)
    let basic := structures.getD basicIndex .empty
    if check && !structures.all (·.permutation.sameVariables basic.permutation) then
      liftM (throw .differentVariableSets : Checked Unit)
    let others := structures.eraseIdx basicIndex
    .report (.basicChosen basicIndex basic others.length)
    let built ← (liftM ((build ⟨basic, basicIndex, others.map (⟨·, []⟩), 0, 0⟩ check).run :
      StateT (List Event) Checked _) : Logged Error (Except BasicEmptied MappedSystem))
    match built with
    | .ok m => return m
    | .error e =>
      .report (.basicEmptied e.octant e.tier)
      throw (.emptyStructure basicIndex)

end MappedSystem

end TripletSat
