import TripletSat.CommandLine.Run
/-!
A file tree held in memory, and the way a path leads through it.

A path is walked one component at a time, and the first component that cannot be entered decides
which problem is reported. Reading and writing differ only in what they make of the last component:
a slash behind it asks a reader for a directory, and is refused to a writer before the name is
looked up.
-/
namespace TripletSat.CommandLine

structure Path where
  /-- Whether it starts at the root. -/
  rooted : Bool
  /-- The components before the last one. -/
  parents : List String
  /-- The last component; a path of slashes has none. -/
  last? : Option String
  /-- Whether a slash follows the last component. -/
  closed : Bool

def Path.ofText (text : String) : Except FileProblem Path :=
  if text = "" then .error .notFound
  else if 4095 < text.utf8ByteSize then .error .nameTooLong
  else
    let parts := (Text.pieces (· == '/') text.toList).map String.ofList
    let components := parts.filter (· != "")
    .ok ⟨parts.head? == some "", components.dropLast, components.getLast?,
      parts.getLast? == some ""⟩

/-- Files, each under its components from the root. -/
structure FileTree where
  files : List (List String × ByteArray)
  /-- The directory where paths start that are not rooted. -/
  home : List String

namespace FileTree

inductive Entry
  | directory (place : List String)
  | file (place : List String) (bytes : ByteArray)
  | vacant (place : List String)

/-- A directory exists above the home directory and above every file. -/
def hasDirectory (t : FileTree) (place : List String) : Bool :=
  place.isPrefixOf t.home ||
    t.files.any fun (name, _) => place.length < name.length && place.isPrefixOf name

/-- What a component names in the directory at `place`. A name has at most 255 bytes. -/
def look (t : FileTree) (place : List String) (component : String) : Except FileProblem Entry :=
  if component = "." then .ok (.directory place)
  else if component = ".." then .ok (.directory place.dropLast)
  else if 255 < component.utf8ByteSize then .error .nameTooLong
  else
    let place := place ++ [component]
    if t.hasDirectory place then .ok (.directory place)
    else match t.files.lookup place with
      | some bytes => .ok (.file place bytes)
      | none => .ok (.vacant place)

def enter (t : FileTree) (place : List String) (component : String) :
    Except FileProblem (List String) := do
  match ← t.look place component with
  | .directory place => return place
  | .file .. => throw .notDirectory
  | .vacant _ => throw .notFound

def parent (t : FileTree) (path : Path) : Except FileProblem (List String) :=
  path.parents.foldlM t.enter (if path.rooted then [] else t.home)

def read (t : FileTree) (name : String) : Except FileProblem String := do
  let path ← Path.ofText name
  let place ← t.parent path
  match ← t.look place (path.last?.getD ".") with
  | .directory _ => throw .isDirectory
  | .file _ bytes => if path.closed then throw .notDirectory else decodeText bytes
  | .vacant _ => throw .notFound

def put (t : FileTree) (place : List String) (bytes : List UInt8) : FileTree :=
  { t with files := (place, ⟨bytes.toArray⟩) :: t.files.filter (·.1 != place) }

def write (t : FileTree) (name : String) (bytes : List UInt8) : Except FileProblem FileTree := do
  let path ← Path.ofText name
  let place ← t.parent path
  if path.closed then throw .isDirectory
  match ← t.look place (path.last?.getD ".") with
  | .directory _ => throw .isDirectory
  | .file place _ | .vacant place => return t.put place bytes

end FileTree
end TripletSat.CommandLine
