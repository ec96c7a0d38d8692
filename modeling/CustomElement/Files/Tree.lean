import CustomElement.Files.Path

/-!
# File trees

A `Tree` is a file or a directory of named trees. A path is followed through it step by step, and each step must start
at a directory: `a/../b` leads nowhere if there is no directory `a`. A `Store` keeps texts under clean paths, and a
`FileView` is all that a compilation asks of the files around it.
-/

namespace CustomElement.Files

structure FileView where
  read? : Path → Option String
  isDirectory : Path → Bool

def FileView.isFile (view : FileView) (p : Path) : Bool := (view.read? p).isSome

structure Store where
  files : List (Path × String) := []
deriving DecidableEq, Repr, Inhabited

namespace Store

def read? (s : Store) (p : Path) : Option String := s.files.lookup p.clean

def insert (s : Store) (p : Path) (contents : String) : Store :=
  ⟨(p.clean, contents) :: s.files.filter fun entry => entry.1 != p.clean⟩

/-- Some other file lies below the path; below a dot lies every file. -/
def isDirectory (s : Store) (p : Path) : Bool :=
  let dir := p.clean
  s.files.any fun entry =>
    entry.1 != dir && (dir == ⟨"."⟩ || entry.1.startsWith dir)

def view (s : Store) : FileView := ⟨s.read?, s.isDirectory⟩

def ofList (files : List (Path × String)) : Store :=
  files.foldl (fun s entry => s.insert entry.1 entry.2) {}

end Store

inductive Tree where
  | file (contents : String)
  | dir (entries : List (String × Tree))
deriving Repr, Inhabited

/-- The places a path passes, one per step, as the names that lead there. -/
def Path.trail (p : Path) : List (List String) :=
  let name? : Step → Option String
    | .into name => some name
    | _ => none
  (p.steps.scanl Path.cleanStep []).tail.map fun done => (done.filterMap name?).reverse

/-- The text says that a directory is meant: it ends in a slash, or in a slash and a dot. -/
def Path.wantsDirectory (p : Path) : Bool :=
  match p.pieces.reverse with
  | last :: _ :: _ => last == "" || last == "."
  | _ => false

namespace Tree

def isDir : Tree → Bool
  | .dir _ => true
  | .file _ => false

def find? : Tree → List String → Option Tree
  | t, [] => some t
  | .file _, _ :: _ => none
  | .dir entries, name :: rest => (entries.lookup name).bind fun t => t.find? rest

def hasDir (t : Tree) (names : List String) : Bool := (t.find? names).any isDir

def at? (t : Tree) (p : Path) : Option Tree :=
  if p.trail.dropLast.all t.hasDir then
    (p.trail.getLast?.bind t.find?).filter fun found => found.isDir || !p.wantsDirectory
  else none

def read? (t : Tree) (p : Path) : Option String :=
  match t.at? p with
  | some (.file contents) => some contents
  | _ => none

def isFile (t : Tree) (p : Path) : Bool := (t.read? p).isSome

def isDirectory (t : Tree) (p : Path) : Bool := (t.at? p).any isDir

/-- The files as seen from a directory: other paths than absolute ones start there. -/
def viewFrom (t : Tree) (cwd : Path) : FileView :=
  ⟨fun p => t.read? (cwd.join p), fun p => t.isDirectory (cwd.join p)⟩

def setEntry (name : String) (t : Tree) : List (String × Tree) → List (String × Tree)
  | [] => [(name, t)]
  | entry :: rest => if entry.1 == name then (name, t) :: rest else entry :: setEntry name t rest

/-- The tree with directories along the names. A file in the way is a failure. -/
def makeDirs? : Tree → List String → Option Tree
  | t, [] => if t.isDir then some t else none
  | .file _, _ :: _ => none
  | .dir entries, name :: rest => do
    let below ← ((entries.lookup name).getD (.dir [])).makeDirs? rest
    return .dir (setEntry name below entries)

/-- The tree with a file below the names, in a directory that is there. A directory in its place is a
failure. -/
def put? : Tree → List String → String → Option Tree
  | .file _, [], contents => some (.file contents)
  | .dir _, [], _ => none
  | .file _, _ :: _, _ => none
  | .dir entries, [name], contents =>
    match entries.lookup name with
    | some (.dir _) => none
    | _ => some (.dir (setEntry name (.file contents) entries))
  | .dir entries, name :: next :: rest, contents => do
    let below ← (← entries.lookup name).put? (next :: rest) contents
    return .dir (setEntry name below entries)

/-- The tree with a file at a path and the directories on the way to it. -/
def write? (t : Tree) (p : Path) (contents : String) : Option Tree := do
  let t ← p.trail.dropLast.foldlM makeDirs? t
  let names ← p.trail.getLast?
  guard (!p.wantsDirectory)
  t.put? names contents

mutual

/-- The names that lead to the files of a tree, and their contents. The entries of each directory
come in the order of their names. -/
def files : Tree → List (List String × String)
  | .file contents => [([], contents)]
  | .dir entries =>
    ((filesOfEntries entries).mergeSort fun a b => decide (a.1 ≤ b.1)).flatMap fun (name, below) =>
      below.map fun (names, contents) => (name :: names, contents)

def filesOfEntries : List (String × Tree) → List (String × List (List String × String))
  | [] => []
  | (name, t) :: rest => (name, t.files) :: filesOfEntries rest

end

end Tree

end CustomElement.Files
