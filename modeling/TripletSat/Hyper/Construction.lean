import TripletSat.Event
import TripletSat.Hyper.System
import TripletSat.Unification
/-!
Construction of hyper-structure systems, layer by layer.

The first layer restricts the other structures to each octant of the first basic tier. Each further
layer moves the vertices of the previous one onto the new variable of its tier and filters the
result against all earlier layers. An octant that turns out impossible is taken out of the basic
structure; when that changes other basic tiers too, the layers built over them are dirty and built
again.
-/
namespace TripletSat

/-- The removal that left the basic structure without octants. -/
structure BasicEmptied where
  octant : Octant
  tier : Nat
deriving DecidableEq

def unionParts (parts others : List Formula) : Checked (List Formula) :=
  (parts.zip others).mapM fun (f, g) => f.union g

def intersectParts (parts others : List Formula) : Checked (List Formula) :=
  (parts.zip others).mapM fun (f, g) => f.intersect g

/-- The layer with the parts that arrive at an octant, added to its vertex if there is one. -/
def Layer.arrive (layer : Layer) (arrival : Octant × List Formula) : Checked Layer :=
  match layer with
  | [] => return [.ofParts arrival.1 arrival.2]
  | v :: rest => do
    if arrival.1.key < v.octant.key then
      return .ofParts arrival.1 arrival.2 :: v :: rest
    else if arrival.1 = v.octant then
      return { v with parts := ← unionParts v.parts arrival.2 } :: rest
    else
      return v :: (← Layer.arrive rest arrival)

/-- The parts that agree with some vertex of a layer, unified. -/
def filterThrough (parts : List Formula) (layer : Layer) :
    Attempt EmptyStructure (List Formula) := do
  let agree (agreeing : Option (List Formula)) (v : Vertex) : Checked (Option (List Formula)) := do
    match ← (unifyGroup (← intersectParts parts v.parts)).run with
    | .error _ => return agreeing
    | .ok group =>
      match agreeing with
      | none => return some group
      | some agreeing => return some (← unionParts agreeing group)
  match ← (layer.foldlM agree none : Checked _) with
  | none => throw ⟨0⟩
  | some parts => unifyGroup parts

/-- The parts of a vertex moved onto a value of a new variable and filtered through earlier layers. -/
def Vertex.shift (v : Vertex) (earlier : List Layer) (fresh : Nat) (value : Bool) :
    Attempt EmptyStructure (List Formula) := do
  let moved ← (v.parts.mapM (·.concretize fresh value) : Checked _)
  earlier.foldlM filterThrough (← unifyGroup moved)

/-- The edge from a vertex into the following tier, and what arrives at its end. -/
def Vertex.shiftEdge (v : Vertex) (earlier : List Layer) (next : Tier) (value : Bool) :
    Checked (Edge × List (Octant × List Formula)) := do
  let target := v.octant.shift value
  if next.octants.contains target then
    match ← (v.shift earlier next.triple.c value).run with
    | .ok parts => return (.target target, [(target, parts)])
    | .error _ => return (.empty, [])
  else
    return (.absent, [])

/-- The vertex with both edges into the following tier, and what arrives there. -/
def Vertex.shiftEdges (v : Vertex) (earlier : List Layer) (next : Tier) :
    Checked (Vertex × List (Octant × List Formula)) := do
  let (low, lowArrivals) ← v.shiftEdge earlier next false
  let (high, highArrivals) ← v.shiftEdge earlier next true
  return ({ v with low, high }, lowArrivals ++ highArrivals)

namespace HyperSystem

/-- Builds the layer at `index` from the one before it, in the place of all later ones. -/
def shiftLayer (s : HyperSystem) (index : Nat) : Checked HyperSystem := do
  let next ← s.basic.tier index
  let source ← s.layer (index - 1)
  let earlier := s.layers.take (index - 1)
  let shifted ← source.mapM (·.shiftEdges earlier next)
  let layer ← (shifted.flatMap Prod.snd).foldlM Layer.arrive []
  return { s with layers := earlier ++ [shifted.map Prod.fst, layer] }

/--
Removes an octant from a basic tier and its layer. When that changes the basic structure further,
every layer from the one before the first change on is dirty.
-/
def removeVertex (s : HyperSystem) (tier : Nat) (o : Octant) : Attempt BasicEmptied HyperSystem := do
  let layers := s.layers.modify tier (Layer.erase · o)
  let (basic, status) ← (← s.basic.removeOctant tier o).cleanupAround tier
  let s := { s with basic, layers }
  if basic.isEmpty then throw ⟨o, tier⟩
  else if status.changed then return s.markDirty (min (status.first - 1) tier)
  else return s

/-- Unifies the parts of a vertex, removing it if they have no common assignment. -/
def unifyVertex (tier : Nat) (s : HyperSystem) (o : Octant) : Attempt BasicEmptied HyperSystem := do
  if s.dirtyCount > 0 then return s
  else
    let layer ← s.layer tier
    match Layer.vertex? layer o with
    | none => liftM (throw .outOfBounds : Checked HyperSystem)
    | some v =>
      match ← ((unifyGroup v.parts).run : Checked _) with
      | .ok parts =>
        return { s with layers := s.layers.set tier (Layer.update layer { v with parts }) }
      | .error _ => s.removeVertex tier o

/-- Unifies the parts of every vertex of a layer until some layer is dirty. -/
def unifyLayer (s : HyperSystem) (tier : Nat) : Attempt BasicEmptied HyperSystem := do
  (Layer.keys (← s.layer tier)).foldlM (unifyVertex tier) s

/-- Removes a basic octant that no vertex stands for, unless some layer is dirty. -/
def pruneOctant (tier : Nat) (s : HyperSystem) (o : Octant) : Attempt BasicEmptied HyperSystem := do
  if s.dirtyCount > 0 then return s
  else
    match Layer.vertex? (← s.layer tier) o with
    | some _ => return s
    | none => s.removeVertex tier o

/-- Removes the basic octants that the layer did not reach, until some layer is dirty. -/
def prune (s : HyperSystem) (tier : Nat) : Attempt BasicEmptied HyperSystem := do
  (← s.basic.tier tier).octants.toList.foldlM (pruneOctant tier) s

/-- Clears the vertices of a layer without a live edge into the next, and so removes them. -/
def clearLeaves (s : HyperSystem) (tier : Nat) : Attempt BasicEmptied HyperSystem := do
  let layer ← s.layer tier
  let next ← s.layer (tier + 1)
  let lives (v : Vertex) : Bool := v.targets.any fun o => (Layer.vertex? next o).isSome
  if layer.all lives then return s
  else
    let cleared := layer.map fun v =>
      if lives v then v else { v with parts := v.parts.map Formula.clear }
    { s with layers := s.layers.set tier cleared }.unifyLayer tier

/-- Refuses layers whose octants are not those of the basic tiers. -/
def requireKeys (s : HyperSystem) : Checked Unit :=
  s.layers.zipIdx.forM fun (layer, tier) => do
    if Layer.keys layer = (← s.basic.tier tier).octants.toList then return ()
    else throw (.keysDiffer tier 0)

/-- The first layer: the other structures restricted to each octant of the first basic tier. -/
def firstLayer (s : HyperSystem) : Checked Layer := do
  let first ← s.basic.tier 0
  let octants := first.octants.toList
  let columns ← s.others.mapM fun other => octants.mapM (other.concretizeOctant first.triple)
  return octants.zipIdx.map fun (o, index) => .ofParts o (columns.filterMap (·[index]?))

/-- Builds the first layer until it is clean; of `limit` rounds `fuel` are left. -/
def seedRounds (limit : Nat) : (fuel : Nat) → HyperSystem → Logged BasicEmptied HyperSystem
  | 0, _ => liftM (throw (.seedingUnsettled limit) : Checked HyperSystem)
  | fuel + 1, s => do
    let layer ← s.firstLayer
    let s ← .ofAttempt ({ s with layers := [layer] }.unifyLayer 0)
    if s.dirtyCount = 0 then return s
    else
      .report .seedingAgain
      seedRounds limit fuel s

/-- The system with a clean first layer and no other. -/
def seed (s : HyperSystem) : Logged BasicEmptied HyperSystem :=
  let limit := s.basic.clauseCount + 1
  seedRounds limit limit s

/-- Builds the layer at `index` and removes what it shows to be impossible. -/
def buildLayer (s : HyperSystem) (index : Nat) : Attempt BasicEmptied HyperSystem := do
  let s ← (← s.shiftLayer index).prune index
  let s ← if s.dirtyCount = 0 then s.clearLeaves (index - 1) else pure s
  if s.dirtyCount = 0 then s.unifyLayer index else return s

/-- Builds the layers from `index` on; `fuel` bounds the number of layers built. -/
def buildFrom (check : Bool) (count : Nat) : (fuel index : Nat) → HyperSystem →
    Logged BasicEmptied HyperSystem
  | 0, index, s =>
    if count ≤ index then return s
    else liftM (throw .constructionUnsettled : Checked HyperSystem)
  | fuel + 1, index, s => do
    if count ≤ index then return s
    else
      .report (.building index count)
      let s ← .ofAttempt (s.buildLayer index)
      let dirty := s.dirtyCount
      if dirty = 0 then
        if check then s.requireKeys
        buildFrom check count fuel (index + 1) s
      else
        let kept := s.layers.length - dirty
        .report (.rebuilding dirty kept)
        let s := s.truncate kept
        if kept = 0 then
          buildFrom check count fuel 1 (← seed { s with reseeds := s.reseeds + 1 })
        else
          buildFrom check count fuel kept { s with rebuilds := s.rebuilds + 1 }

def build (check : Bool) (s : HyperSystem) : Logged BasicEmptied HyperSystem := do
  let count := s.tierCount
  let fuel := (s.basic.clauseCount + 1) * (count + 1) * 2
  let s ← s.seed
  if check then s.requireKeys
  buildFrom check count fuel 1 s

/--
The system of at least two structures over one set of variables. With `check`, the layers are
compared with the basic structure after each step.
-/
def ofStructures (structures : List Formula) (check : Bool) : Logged Error HyperSystem := do
  if structures.length < 2 then
    throw (.tooFewStructures structures.length)
  match basicIndex? structures with
  | none => throw (.tooFewStructures 0)
  | some basicIndex =>
    if let some index := structures.findIdx? Formula.isEmpty then
      throw (.emptyStructure index)
    let basic := structures.getD basicIndex .empty
    if check && !structures.all (·.permutation.sameVariables basic.permutation) then
      liftM (throw .differentVariableSets : Checked Unit)
    let others := structures.eraseIdx basicIndex
    .report (.basicChosen basicIndex basic others.length)
    let built ← (liftM ((build check ⟨basic, basicIndex, others, [], 0, 0⟩).run :
      StateT (List Event) Checked _) : Logged Error (Except BasicEmptied HyperSystem))
    match built with
    | .ok s => return s
    | .error e =>
      .report (.basicEmptied e.octant e.tier)
      throw (.emptyStructure basicIndex)

end HyperSystem
end TripletSat
