import AsmScan.Disk

/-!
A disk held in memory: the files and directories below one working directory.
-/

namespace AsmScan

/-- The names that lead to a place, innermost first; the working directory is
    the empty list. -/
abbrev Place := List Text.Bytes

namespace Place

def enter (here : Place) (part : Text.Bytes) : Place :=
  if part = [] ∨ part = [Path.dot] then here
  else if part = [Path.dot, Path.dot] then here.tail
  else part :: here

end Place

inductive Node where
  | directory
  | file (content : Text.Bytes)
  deriving DecidableEq

structure Tree where
  nodes : List (Place × Node) := []

namespace Tree

def node? (t : Tree) (place : Place) : Option Node :=
  if place = [] then some .directory else t.nodes.lookup place

def maxName : Nat := 255

def maxPath : Nat := 4096

def walk (t : Tree) (here : Place) : List Text.Bytes → Option Place
  | [] => some here
  | part :: rest =>
    if t.node? here = some .directory ∧ part.length ≤ maxName then t.walk (here.enter part) rest
    else none

def find? (t : Tree) (p : Path) : Option Place :=
  if p.bytes = [] ∨ 0 ∈ p.bytes ∨ maxPath ≤ p.bytes.length then none
  else t.walk [] p.components

def read (t : Tree) (p : Path) : Entry :=
  match (t.find? p).bind t.node? with
  | none => .absent
  | some .directory => .directory
  | some (.file content) => .file content

/-- An absolute path leaves the working directory; out there is only a root. -/
def disk (t : Tree) : Disk := fun p =>
  if p.isAbsolute then ({} : Tree).read p else t.read p

def prune (t : Tree) (place : Place) : Tree :=
  { nodes := t.nodes.filter fun (other, _) => !place.isSuffixOf other }

/-- Puts a node at a place instead of what is there. A directory that is there
    already keeps what it holds. -/
def put (t : Tree) (place : Place) (node : Node) : Tree :=
  if t.node? place = some .directory ∧ node = .directory then t
  else { nodes := (place, node) :: (t.prune place).nodes }

def putAlong (t : Tree) (node : Node) (here : Place) : List Text.Bytes → Tree
  | [] => t.put here node
  | part :: rest => (t.put here .directory).putAlong node (here.enter part) rest

def write (t : Tree) (p : Path) (node : Node) : Tree := t.putAlong node [] p.components

def remove (t : Tree) (p : Path) : Tree :=
  match t.find? p with
  | none => t
  | some place => t.prune place

end Tree

end AsmScan
