/-!
# Paths

A path is a text in which slashes divide pieces. An empty piece says nothing, and neither does a dot, unless the path
starts with it; the other pieces, and a slash at the very start, are the steps of the path.
-/

namespace CustomElement.Files

structure Path where
  text : String
deriving DecidableEq, Repr, Inhabited

inductive Step where
  | root
  | stay
  | up
  | into (name : String)
deriving DecidableEq, Repr

def Step.text : Step → String
  | .root => "/"
  | .stay => "."
  | .up => ".."
  | .into name => name

namespace Path

def split : List Char → List (List Char)
  | [] => [[]]
  | c :: cs =>
    if c == '/' then [] :: split cs
    else
      match split cs with
      | [] => [[c]]
      | piece :: rest => (c :: piece) :: rest

def pieces (p : Path) : List String := (split p.text.toList).map String.ofList

def isAbsolute (p : Path) : Bool := p.text.toList.head? == some '/'

/-- The step that a piece stands for; `first` says that the path starts with it. -/
def step? (first : Bool) (piece : String) : Option Step :=
  if piece == "" then none
  else if piece == "." then if first then some .stay else none
  else if piece == ".." then some .up
  else some (.into piece)

def stepsOf : List String → List Step
  | [] => []
  | piece :: rest => (step? true piece).toList ++ rest.filterMap (step? false)

def steps (p : Path) : List Step :=
  if p.isAbsolute then .root :: stepsOf p.pieces else stepsOf p.pieces

def trimPieces (first : Bool) : List String → List String
  | [] => []
  | piece :: rest =>
    match trimPieces false rest with
    | [] => if (step? first piece).isSome then [piece] else []
    | kept => piece :: kept

/-- The path without the last step, as far as its text goes. A path without steps other than the root
has none. -/
def parent? (p : Path) : Option Path :=
  match trimPieces true p.pieces with
  | [] => none
  | kept =>
    match trimPieces true kept.dropLast with
    | [] => some ⟨if p.isAbsolute then "/" else ""⟩
    | above => some ⟨"/".intercalate above⟩

/-- The directory that holds a path; for the root and the empty path the empty path. -/
def directory (p : Path) : Path := p.parent?.getD ⟨""⟩

def fileName? (p : Path) : Option String :=
  match p.steps.getLast? with
  | some (.into name) => some name
  | _ => none

def cutName (name : String) : String × Option String :=
  let back := name.toList.reverse
  let after := back.takeWhile (· != '.')
  match back.drop after.length with
  | _ :: before@(_ :: _) => (String.ofList before.reverse, some (String.ofList after.reverse))
  | _ => (name, none)

def stem? (p : Path) : Option String := p.fileName?.map fun name => (cutName name).1

def extension? (p : Path) : Option String := p.fileName?.bind fun name => (cutName name).2

def join (p q : Path) : Path :=
  if q.isAbsolute then q
  else if p.text == "" || p.text.toList.getLast? == some '/' then ⟨p.text ++ q.text⟩
  else ⟨p.text ++ "/" ++ q.text⟩

def withFileName (p : Path) (name : String) : Path :=
  if p.fileName?.isSome then p.directory.join ⟨name⟩ else p.join ⟨name⟩

/-- The path with another extension of the name at its end, if it has such a name. -/
def withExtension (p : Path) (extension : String) : Path :=
  match p.stem? with
  | none => p
  | some stem => p.withFileName (if extension == "" then stem else stem ++ "." ++ extension)

def startsWith (p base : Path) : Bool := base.steps.isPrefixOf p.steps

def dropSteps (first : Bool) : Nat → List String → List String
  | _, [] => []
  | n, piece :: rest =>
    match step? first piece, n with
    | none, n => dropSteps false n rest
    | some _, 0 => piece :: rest
    | some _, n + 1 => dropSteps false n rest

/-- What `p` is below `base`, if the steps of `base` start those of `p`. -/
def relativeTo? (p base : Path) : Option Path :=
  let pieces := trimPieces true p.pieces
  let passed := base.steps.length
  if !p.startsWith base then none
  else if passed == 0 then
    some ⟨if pieces.isEmpty && p.isAbsolute then "/" else "/".intercalate pieces⟩
  else some ⟨"/".intercalate (dropSteps true (passed - (if p.isAbsolute then 1 else 0)) pieces)⟩

/-- One more step after a list of steps in reverse. A step up undoes a name, and stays at the root. -/
def cleanStep (done : List Step) : Step → List Step
  | .stay => done
  | .up =>
    match done with
    | .root :: _ => done
    | .into _ :: before => before
    | _ => .up :: done
  | s => s :: done

def ofSteps : List Step → Path
  | [] => ⟨"."⟩
  | .root :: rest => ⟨"/" ++ "/".intercalate (rest.map Step.text)⟩
  | steps => ⟨"/".intercalate (steps.map Step.text)⟩

/-- The shortest path that leads to the same place: no empty pieces, no dots, and steps up only where there is no name to
undo. The empty path becomes a dot. -/
def clean (p : Path) : Path := ofSteps (p.steps.foldl cleanStep []).reverse

end Path

end CustomElement.Files
