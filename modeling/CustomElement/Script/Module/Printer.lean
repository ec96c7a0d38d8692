import CustomElement.Script.Module.Reader
import CustomElement.Script.Layout
import CustomElement.Script.Normal

/-!
# Printing the statement tree

Items, members and body statements are printed one below the other, each with its own layout, and
blank lines stand where the tree has them. `reformat` prints the tree of the normal form of a
script.
-/

namespace CustomElement.Script

/-- Lines for the entries of a block; a blank line stands before an entry that calls for one, unless it is the first. -/
def printEntries (entries : List (Bool × String)) : String :=
  String.join (entries.mapIdx fun i entry =>
    (if 0 < i && entry.1 then "\n" else "") ++ entry.2 ++ "\n")

def printBlock (body : List Statement) (level : Nat) : String :=
  if body.isEmpty then " \x7b\x7d"
  else " \x7b\n" ++ printEntries (body.map fun s => (s.blankBefore, reindent s.text (level + 1))) ++
    indentation level ++ closeBrace

def Method.signature (m : Method) : String :=
  let between := if m.between.isEmpty then ""
    else if m.between.toList.head? == some ':' then m.between else " " ++ m.between
  m.head ++ "(" ++ m.params ++ ")" ++ between

def Method.print (m : Method) (level : Nat) : String :=
  reindent m.signature level ++ printBlock m.body level

def Member.print (m : Member) : String :=
  match m.content with
  | .method m => m.print 1
  | .other text => reindent text 1

def ClassDecl.print (c : ClassDecl) : String :=
  let leading := if c.leading.isEmpty then "" else reindent c.leading 0 ++ "\n"
  let body := if c.members.isEmpty then " \x7b\x7d"
    else " \x7b\n" ++ printEntries (c.members.map fun m => (m.blankBefore, m.print)) ++ closeBrace
  let trailing := if c.trailing.isEmpty then ""
    else if c.trailing.toList.head? == some ';' then c.trailing else " " ++ c.trailing
  leading ++ reindent c.header 0 ++ body ++ trailing

def Item.print : Item → String
  | .statement s => reindent s.text 0
  | .classDecl c => c.print

def Module.print (m : Module) : String :=
  String.join (m.items.mapIdx fun i item =>
    (if i == 0 then "" else if item.blankBefore then "\n\n" else "\n") ++ item.print)

def reformat (source : String) : Except Fault String := do
  let normal ← normalize source
  let tree ← parseModule normal
  return tree.print

end CustomElement.Script
