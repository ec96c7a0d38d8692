import CustomElement.Component.Standard
import CustomElement.Project.Build

/-!
# The command

Builds the components of a project on disk. The paths of the project's files come on standard input, one per line.
-/

namespace CustomElement

open Files

/-- The tree with the file at a path as it is on disk, if it can be read. -/
def loadFile (tree : Tree) (path : Path) : IO Tree := do
  try
    let contents ← IO.FS.readFile path.text
    return (tree.write? path contents).getD tree
  catch _ => return tree

def changedFiles (before after : Tree) : List (Path × String) :=
  let files := after.files.map fun (names, contents) => (Project.below ⟨"/"⟩ names, contents)
  files.filter fun (path, contents) => before.read? path != some contents

def saveFile (path : Path) (contents : String) : IO Unit := do
  if let some parent := path.parent? then IO.FS.createDirAll parent.text
  IO.FS.writeFile path.text contents

end CustomElement

section

open CustomElement CustomElement.Files

def main (words : List String) : IO UInt32 := do
  let cwd : Path := ⟨toString (← IO.currentDir)⟩
  let listing ← (← IO.getStdin).lines
  let paths := (listing.toList.filter fun line => !line.isEmpty).map fun line => cwd.join ⟨line⟩
  let before ← paths.foldlM loadFile (.dir [])
  let (status, after) := Project.command Component.Toolchain.standard cwd words before
  for (path, contents) in changedFiles before after do
    saveFile path contents
  return status.toUInt32

end
