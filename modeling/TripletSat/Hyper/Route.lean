import TripletSat.Event
import TripletSat.Formula.Reading
import TripletSat.Hyper.System
/-!
Routes: one octant per basic tier, each a successor of the previous one, such that the parts of the
chosen vertices keep a common nonempty intersection in every hyper-structure.

The search fixes the last vertex and the first one, then walks down the layers between them. A step
is taken only if what remains still meets some vertex of every later layer.
-/
namespace TripletSat

structure Route where
  steps : List (Triple × Octant)
deriving DecidableEq

namespace Route

/-- The values that the chosen octants give their variables. -/
def assignment (route : Route) : Assignment :=
  route.steps.foldl (fun α (t, o) => α.assignOctant t o) .empty

/-- Whether the route's assignment makes every clause of several formulas true. -/
def evaluate (route : Route) (formulas : List Formula) : Checked Bool :=
  allChecked (·.evaluate route.assignment) formulas

end Route

/-- Whether a test holds of some member, stopping at the first for which it does. -/
def anyChecked {α : Type} (test : α → Checked Bool) : List α → Checked Bool
  | [] => pure false
  | x :: rest => do if ← test x then return true else anyChecked test rest

/-- The first result of a test on the members. -/
def findChecked? {α β : Type} (test : α → Checked (Option β)) : List α → Checked (Option β)
  | [] => pure none
  | x :: rest => do
    match ← test x with
    | some found => return some found
    | none => findChecked? test rest

/-- The intersections of several pairs, if all of them hold an octant. -/
def meets? : List (Formula × Formula) → Checked (Option (List Formula))
  | [] => return some []
  | (f, g) :: rest => do
    let meet ← f.intersect g
    if meet.isEmpty then return none
    else return (← meets? rest).map (meet :: ·)

/-- Whether something of each witness remains in some vertex of each layer. -/
def reaches (witness : List Formula) (layers : List Layer) : Checked Bool :=
  allChecked (fun layer => allChecked (fun (w, index) => anyChecked (fun (v : Vertex) =>
    match v.parts[index]? with
    | some part => return !(← w.intersect part).isEmpty
    | none => return false) layer) witness.zipIdx) layers

/-- A vertex of a layer that the witness can step onto, with what remains of it. -/
def step? (witness : List Formula) (layer : Layer) (later : List Layer) (o : Octant) :
    Checked (Option (Vertex × List Formula)) := do
  match Layer.vertex? layer o with
  | none => return none
  | some v =>
    match ← meets? (witness.zip v.parts) with
    | none => return none
    | some remaining =>
      if ← reaches remaining later then return some (v, remaining) else return none

/--
The steps from a vertex to the octant `last` of the last tier, `tier` being the index of the first
tier ahead; without a way, the tier where no candidate fitted.
-/
def walkDown (last : Octant) : (tier : Nat) → Vertex → List Formula → List (Tier × Layer) →
    Checked (Except Nat (List (Triple × Octant)))
  | tier, _, _, [] => return .error tier
  | tier, v, _, [(end', _)] =>
    return if v.targets.contains last then .ok [(end'.triple, last)] else .error tier
  | tier, v, witness, (t, layer) :: ahead => do
    match ← findChecked? (step? witness layer (ahead.map Prod.snd)) v.targets with
    | none => return .error tier
    | some (next, remaining) =>
      return (← walkDown last (tier + 1) next remaining ahead).map ((t.triple, next.octant) :: ·)

namespace HyperSystem

def admits (s : HyperSystem) (route : Route) : Bool :=
  let α := route.assignment
  s.basic.admits α && s.others.all (·.admits α)

def accept (s : HyperSystem) (route : Route) : Except Nat Route :=
  if s.admits route then .ok route else .error 0

/-- The route between two vertices, or how deep the walk came. -/
def routeBetween (s : HyperSystem) (first last : Vertex) : Checked (Except Nat Route) := do
  match s.basic.tiers.zip s.layers with
  | [] => return .error 0
  | (t, _) :: ahead =>
    match ← meets? (last.parts.zip first.parts) with
    | none => return .error 0
    | some witness =>
      match ← walkDown last.octant 1 first witness ahead with
      | .error tier => return .error tier
      | .ok steps => return s.accept ⟨(t.triple, first.octant) :: steps⟩

/-- The first route among several searches, or how deep the deepest of them came. -/
def firstRoute : (deepest : Nat) → List (Unit → Checked (Except Nat Route)) →
    Checked (Except Nat Route)
  | deepest, [] => return .error deepest
  | deepest, search :: rest => do
    match ← search () with
    | .ok route => return .ok route
    | .error tier => firstRoute (max deepest tier) rest

/-- The searches for a route: every last vertex with every first one. -/
def searches (s : HyperSystem) : List (Unit → Checked (Except Nat Route)) :=
  match s.basic.tiers, s.layers with
  | [t], [layer] => layer.map fun v _ => return s.accept ⟨[(t.triple, v.octant)]⟩
  | _, layers =>
    (layers.getLastD []).flatMap fun last => (layers.headD []).map fun first _ =>
      s.routeBetween first last

def findRoute (s : HyperSystem) : Logged Error Route := do
  if s.tierCount = 0 ∨ s.others = [] then
    throw (.routeNotFound 0)
  if s.layers.length ≠ s.tierCount then
    liftM (throw .partialSystem : Checked Unit)
  match ← (firstRoute 0 s.searches : Checked _) with
  | .ok route => return route
  | .error deepest =>
    .report (.noRoute deepest)
    throw (.routeNotFound deepest)

end HyperSystem
end TripletSat
