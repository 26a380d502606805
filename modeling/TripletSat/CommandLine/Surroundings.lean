import TripletSat.CommandLine.FileTree
/-!
Surroundings of a run held in memory: a file tree and the lines printed so far.
-/
namespace TripletSat.CommandLine

/-- A file tree and the printed lines, the latest first. -/
structure Surroundings where
  tree : FileTree
  printed : List String
  complaints : List String

namespace Surroundings

def ofTree (tree : FileTree) : Surroundings := ⟨tree, [], []⟩

/-- A run on surroundings in memory, whose clock stands still. -/
def console : Console (StateM Surroundings) where
  print line := modify fun s => { s with printed := line :: s.printed }
  complain line := modify fun s => { s with complaints := line :: s.complaints }
  read name := return (← get).tree.read name
  write name bytes := do
    let s ← get
    match s.tree.write name bytes with
    | .ok tree => set { s with tree }; return .ok ()
    | .error problem => return .error problem
  clock := return 0

end Surroundings
end TripletSat.CommandLine
