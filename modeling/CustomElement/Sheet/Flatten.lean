import CustomElement.Files.Tree
import CustomElement.Sheet.Selector
import CustomElement.Sheet.Value

/-!
# Flattening a style sheet

A nested sheet becomes a list of plain rules: variables and mixins are put in, the sheets that it
loads are found and put in, and a rule inside another one comes after it with the combined selector.
-/

namespace CustomElement.Sheet

open Files

inductive Item where
  | comment (text : String)
  | declaration (property value : String)
deriving DecidableEq, Repr

inductive Node where
  | comment (text : String)
  /-- A rule; after the last one of a group comes an empty line. -/
  | rule (selectors : List Complex) (items : List Item) (groupEnd : Bool)
  | line (text : String)
  | block (head : String) (items : List Item) (children : List Node)
deriving Repr, Inhabited

def Item.text : Item → String
  | .comment text => text
  | .declaration property value => property ++ ": " ++ value ++ ";"

def indent (lines : List String) : List String :=
  lines.map fun line => if line.isEmpty then line else "  " ++ line

namespace Node

def isGroupEnd : Node → Bool
  | .rule _ _ groupEnd => groupEnd
  | _ => false

def endGroup : Node → Node
  | .rule selectors items _ => .rule selectors items true
  | n => n

def endGroupAfter (nodes : List Node) : List Node :=
  match nodes.reverse with
  | [] => []
  | last :: before => (last.endGroup :: before).reverse

def blockLines (head : String) (lines : List String) : List String :=
  (head ++ " \x7b") :: indent lines ++ ["\x7d"]

mutual

def lines : Node → List String
  | .comment text => [text]
  | .rule selectors items _ =>
    if items.isEmpty || selectors.isEmpty then []
    else blockLines (selectorText selectors) (items.map Item.text)
  | .line text => [text ++ ";"]
  | .block head items children =>
    let inside := items.map Item.text ++ linesOfAll false children
    if inside.isEmpty then [] else blockLines head inside

/-- The lines of nodes; `apart` says that a group ended before them. -/
def linesOfAll (apart : Bool) : List Node → List String
  | [] => []
  | node :: rest =>
    match node.lines with
    | [] => linesOfAll apart rest
    | own => (if apart then [""] else []) ++ own ++ linesOfAll node.isGroupEnd rest

end

/-- The text of a plain sheet. A sheet that is not plain ASCII says how it is encoded. -/
def print (nodes : List Node) : String :=
  let text := String.join ((linesOfAll false nodes).map (· ++ "\n"))
  if text.toList.all fun c => c.toNat < 128 then text else "@charset \"UTF-8\";\n" ++ text

end Node

structure Members where
  values : List (String × String) := []
  mixins : List (String × List Statement) := []
deriving Repr, Inhabited

structure Env where
  /-- The variables of the blocks around, the innermost first. -/
  locals : List (List (String × String)) := []
  members : Members := {}
  modules : List (String × Members) := []
  /-- The sheets whose names are used without one. -/
  merged : List Members := []
  /-- The sheets that have been used, by path. -/
  loaded : List (Path × Members) := []
deriving Repr, Inhabited

def put {α : Type} (name : String) (value : α) (entries : List (String × α)) : List (String × α) :=
  (name, value) :: entries.filter fun e => e.1 != name

namespace Env

def lookup? (env : Env) (name : String) : Option String :=
  (env.locals.findSome? fun scope => scope.lookup name)
    |>.or (env.members.values.lookup name)
    |>.or (env.merged.findSome? fun m => m.values.lookup name)

def module (env : Env) (name : String) : Except Fault Members :=
  match env.modules.lookup name with
  | some m => .ok m
  | none => .error (.undefinedModule name)

def value (env : Env) : Variables := fun module? name => do
  let found ← match module? with
    | none => pure (env.lookup? name)
    | some m => do pure ((← env.module m).values.lookup name)
  match found with
  | some value => return value
  | none => throw (.undefinedVariable name)

def mixin (env : Env) (name : String) : Except Fault (List Statement) := do
  let found ← match cutAt (· == '.') name.toList with
    | (m, some own) => do pure ((← env.module (String.ofList m)).mixins.lookup (String.ofList own))
    | (_, none) =>
      pure ((env.members.mixins.lookup name).or (env.merged.findSome? fun m => m.mixins.lookup name))
  match found with
  | some body => return body
  | none => throw (.undefinedMixin name)

/-- The blocks with a variable set in the innermost one that has it, if any has. -/
def setLocal? (name value : String) :
    List (List (String × String)) → Option (List (List (String × String)))
  | [] => none
  | scope :: rest =>
    if (scope.lookup name).isSome then some (put name value scope :: rest)
    else (setLocal? name value rest).map (scope :: ·)

/-- The names after an assignment. In a block it sets a variable of the blocks around, or a new one. -/
def assign (env : Env) (name value : String) (isGlobal : Bool) : Env :=
  let setGlobal :=
    { env with members := { env.members with values := put name value env.members.values } }
  match env.locals with
  | [] => setGlobal
  | scope :: rest =>
    if isGlobal then setGlobal
    else
      match setLocal? name value env.locals with
      | some locals => { env with locals }
      | none => { env with locals := put name value scope :: rest }

def enter (env : Env) : Env := { env with locals := [] :: env.locals }

def leave (env : Env) : Env := { env with locals := env.locals.tail }

end Env

structure Place where
  files : FileView
  directory : Path
  current : Path

/-- The file at a path, or the one whose name has an underscore in front. -/
def partial? (files : FileView) (path : Path) : Option Path :=
  let other := path.directory.join ⟨"_" ++ path.fileName?.getD ".."⟩
  if files.isFile path then some path
  else if files.isFile other then some other
  else none

def withSheetExtension? (files : FileView) (path : Path) : Option Path :=
  ["import.sass", "import.scss", "import.css", "sass", "scss", "css"].findSome? fun e =>
    partial? files (path.withExtension e)

def sheetAt? (files : FileView) (path : Path) : Option Path :=
  (withSheetExtension? files path).or
    (if files.isDirectory path then withSheetExtension? files (path.join ⟨"index"⟩) else none)

/-- The sheet that an address leads to: from the directory of the sheet at hand, or from the directory
of the document. -/
def Place.find? (p : Place) (url : Path) : Option Path :=
  if url.extension?.any ["scss", "sass", "css"].contains then partial? p.files url
  else (sheetAt? p.files (p.current.directory.join url)).or
    (sheetAt? p.files (p.directory.join url))

/-- The statements of the sheet that an address leads to, and where it lies. -/
def Place.openSheet (p : Place) (url : String) : Except Fault (Path × List Statement) :=
  match p.find? ⟨url⟩ with
  | none => .error (.missingImport url)
  | some path => do return (path, ← parseSheet ((p.files.read? path).getD ""))

def isPlainImport (url : String) : Bool :=
  let cs := url.toList
  let inside := unquote cs
  (cs.head? != some '"' && cs.head? != some '\'') || ".css".toList.isSuffixOf inside ||
    "http://".toList.isPrefixOf inside || "https://".toList.isPrefixOf inside ||
    "//".toList.isPrefixOf inside || cs.length != inside.length + 2

structure Context where
  place : Place
  parents : Option (List Complex) := none
  inBlock : Bool := false

/-- The names, the lines of the rule at hand, and the nodes after it. -/
structure State where
  env : Env := {}
  items : List Item := []
  nodes : List Node := []

def isConditional (head : String) : Bool :=
  let word := String.ofList ((head.toList.drop 1).takeWhile isNameChar)
  ["media", "supports", "layer", "container"].contains word

/-- The state after one statement; `fuel` bounds how deep blocks, mixins and sheets lie. -/
def evaluate (fuel : Nat) (ctx : Context) (s : State) (statement : Statement) :
    Except Fault State :=
  match fuel with
  | 0 => .error (.importLoop ctx.place.current.text)
  | fuel + 1 =>
    match statement with
    | .comment text =>
      if ctx.inBlock then .ok { s with items := s.items ++ [.comment text] }
      else .ok { s with nodes := s.nodes ++ [.comment text] }
    | .assign name value isDefault isGlobal => do
      if isDefault && (s.env.lookup? name).any (· != "null") then return s
      let value ← evalValue s.env.value value
      return { s with env := s.env.assign name value isGlobal }
    | .declare property value => do
      if !ctx.inBlock then throw (.unexpected (property ++ ":"))
      let property ← interpolate s.env.value property
      let value ← if "--".toList.isPrefixOf property.toList then interpolate s.env.value value
        else evalValue s.env.value value
      if value == "null" then return s
      return { s with items := s.items ++ [.declaration property value] }
    | .rule selector body => do
      let own := readSelectors (← interpolate s.env.value selector)
      let selectors := selectorsWithin ctx.parents own
      let inner : Context := { ctx with parents := some selectors, inBlock := true }
      let after ← body.foldlM (evaluate fuel inner) { env := s.env.enter }
      let nodes := .rule selectors after.items false :: after.nodes
      let nodes := if ctx.parents.isNone then Node.endGroupAfter nodes else nodes
      return { s with env := after.env.leave, nodes := s.nodes ++ nodes }
    | .define name body =>
      let members := { s.env.members with mixins := put name body s.env.members.mixins }
      .ok { s with env := { s.env with members } }
    | .apply name => do
      let body ← s.env.mixin name
      let around := s.env.locals
      let after ← body.foldlM (evaluate fuel ctx) { s with env := { s.env with locals := [[]] } }
      return { after with env := { after.env with locals := around } }
    | .load urls =>
      urls.foldlM (fun s url => do
        if isPlainImport url then return { s with nodes := .line ("@import " ++ url) :: s.nodes }
        let (path, statements) ← ctx.place.openSheet (String.ofList (unquote url.toList))
        let inner := { ctx with place := { ctx.place with current := path } }
        statements.foldlM (evaluate fuel inner) s) s
    | .use url name => do
      let (path, statements) ← ctx.place.openSheet url
      let (members, nodes) ← match s.env.loaded.lookup path with
        | some members => pure (members, [])
        | none => do
          let inner : Context := { place := { ctx.place with current := path } }
          let after ← statements.foldlM (evaluate fuel inner) {}
          pure (after.env.members, after.nodes)
      let env := { s.env with loaded := (path, members) :: s.env.loaded }
      let env := match name with
        | some name => { env with modules := put name members env.modules }
        | none => { env with merged := members :: env.merged }
      return { s with env, nodes := s.nodes ++ nodes }
    | .atRule head none => do
      if "@charset".toList.isPrefixOf head.toList then return s
      return { s with nodes := s.nodes ++ [.line (← interpolate s.env.value head)] }
    | .atRule head (some body) => do
      let head ← interpolate s.env.value head
      let parents := if isConditional head then ctx.parents else none
      let inner : Context :=
        { ctx with parents, inBlock := parents.isSome || !isConditional head }
      let after ← body.foldlM (evaluate fuel inner) { env := s.env.enter }
      let node := match parents with
        | some selectors => .block head [] (.rule selectors after.items false :: after.nodes)
        | none => .block head after.items after.nodes
      return { s with env := after.env.leave, nodes := s.nodes ++ [node] }

def maxDepth : Nat := 256

/-- The plain rules of a nested sheet whose imports are found from `directory`. -/
def flatten (files : FileView) (directory : Path) (text : String) : Except Fault String := do
  let statements ← parseSheet text
  let directory := if directory.text == "" then ⟨"."⟩ else directory
  let ctx : Context := { place := ⟨files, directory, ⟨""⟩⟩ }
  let s ← statements.foldlM (evaluate maxDepth ctx) {}
  return Node.print s.nodes

end CustomElement.Sheet
