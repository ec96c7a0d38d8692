import CustomElement.Files.Tree
import CustomElement.Project.Arguments
import CustomElement.Project.Glob
import CustomElement.Text.Json

/-!
# Settings of a project

The settings come from the command line and from a configuration file. The command line wins; the file
fills the gaps, and the patterns of both are ignored.
-/

namespace CustomElement.Project

open Text Files

def defaultConfigFile : String := ".webcomp.json"

structure ConfigFile where
  input : Option String := none
  out : Option String := none
  watch : Option Bool := none
  strict : Option Bool := none
  ignore : List String := []
  /-- The extensions of components, with or without a dot in front. -/
  extensions : List String := []
deriving DecidableEq, Repr, Inhabited

namespace ConfigFile

inductive Field where
  | input
  | out
  | watch
  | strict
  | ignore
  | extensions
deriving DecidableEq, Repr

def Field.all : List Field := [.input, .out, .watch, .strict, .ignore, .extensions]

def Field.ofName? (name : String) : Option Field :=
  match name with
  | "in" | "i" => some .input
  | "out" | "o" => some .out
  | "watch" | "w" => some .watch
  | "strict" => some .strict
  | "ignore" => some .ignore
  | "extensions" => some .extensions
  | _ => none

def text? : Json → Option String
  | .string text => text
  | _ => none

def optionalText? : Json → Option (Option String)
  | .null => some none
  | v => (text? v).map some

def optionalBool? : Json → Option (Option Bool)
  | .null => some none
  | .bool b => some (some b)
  | _ => none

def texts? : Json → Option (List String)
  | .array items => items.mapM text?
  | _ => none

/-- The configuration with a value for a field, if the value is of its type. -/
def set? (c : ConfigFile) (v : Json) : Field → Option ConfigFile
  | .input => do return { c with input := ← optionalText? v }
  | .out => do return { c with out := ← optionalText? v }
  | .watch => do return { c with watch := ← optionalBool? v }
  | .strict => do return { c with strict := ← optionalBool? v }
  | .ignore => do return { c with ignore := ← texts? v }
  | .extensions => do return { c with extensions := ← texts? v }

/-- The configuration that the members of an object add to. Unknown names are passed over, and no field may be given
twice. -/
def ofMembers? (c : ConfigFile) (given : List Field) : List (String × Json) → Option ConfigFile
  | [] => some c
  | (name, v) :: rest =>
    match Field.ofName? name with
    | none => ofMembers? c given rest
    | some field =>
      if given.contains field then none
      else (c.set? v field).bind fun c => ofMembers? c (field :: given) rest

def ofItems? (c : ConfigFile) : List Field → List Json → Option ConfigFile
  | _, [] => some c
  | [], _ :: _ => none
  | field :: fields, v :: rest => (c.set? v field).bind fun c => ofItems? c fields rest

def ofJson? : Json → Option ConfigFile
  | .object members => ofMembers? {} [] members
  | .array items => ofItems? {} Field.all items
  | _ => none

def parse? (text : String) : Option ConfigFile := (Json.parse? text).bind ofJson?

end ConfigFile

inductive Obstacle where
  | noInput
  | badPattern (pattern : String)
  | unreadableConfig (path : Path)
  | invalidConfig (path : Path)
  | missingInput (path : Path)
deriving DecidableEq, Repr

def Obstacle.message : Obstacle → String
  | .noInput => "No input given; pass --in <path> or set `in` in " ++ defaultConfigFile
  | .badPattern pattern => "Invalid ignore pattern `" ++ pattern ++ "`"
  | .unreadableConfig path => "Failed to read " ++ path.text
  | .invalidConfig path => "Invalid config file " ++ path.text
  | .missingInput path => "Input " ++ path.text ++ " does not exist"

structure Settings where
  input : Path
  out : Option Path
  watch : Bool
  strict : Bool
  /-- The extensions of components, without a dot in front. -/
  extensions : List String
  ignore : List Glob
deriving Repr, Inhabited

def alwaysIgnored : List String := ["**/node_modules/**"]

namespace Settings

def readPattern (pattern : String) : Except Obstacle Glob :=
  match Glob.parse? pattern with
  | some glob => .ok glob
  | none => .error (.badPattern pattern)

/-- The extensions that a configuration file names, or the default one. -/
def componentExtensions (file : ConfigFile) : List String :=
  if file.extensions.isEmpty then ["wc"]
  else file.extensions.map fun e => String.ofList (e.toList.dropWhile (· == '.'))

def merge (cwd : Path) (args : Arguments) (file : ConfigFile) : Except Obstacle Settings := do
  let some input := args.input.or file.input | throw .noInput
  let ignore ← (alwaysIgnored ++ file.ignore ++ args.ignore).mapM readPattern
  return {
    input := cwd.join ⟨input⟩
    out := (args.out.or file.out).map fun out => cwd.join ⟨out⟩
    watch := args.watch || file.watch.getD false
    strict := args.strict || file.strict.getD false
    extensions := componentExtensions file
    ignore }

def readConfig (disk : Tree) (path : Path) : Except Obstacle ConfigFile :=
  match disk.read? path with
  | none => .error (.unreadableConfig path)
  | some text =>
    match ConfigFile.parse? text with
    | some file => .ok file
    | none => .error (.invalidConfig path)

/-- The settings of the project in the directory `cwd`, with the configuration file that the arguments name or the default
one. -/
def load (disk : Tree) (cwd : Path) (args : Arguments) : Except Obstacle Settings := do
  let file ← match args.config with
    | some path => readConfig disk (cwd.join ⟨path⟩)
    | none =>
      let path := cwd.join ⟨defaultConfigFile⟩
      if disk.isFile path then readConfig disk path else pure {}
  merge cwd args file

/-- A pattern matches the path as it is, or what it is below the input. -/
def isIgnored (s : Settings) (path : Path) : Bool :=
  let matched (p : Path) : Bool := s.ignore.any fun glob => glob.matches p.text
  matched path || (path.relativeTo? s.input).any fun below => below.text != "" && matched below

/-- Names of files need not be Unicode: `decode` gives the text of a name, and of others than texts it keeps only a part. -/
def isComponent (s : Settings) (path : Path) (decode : String → String := id) : Bool :=
  path.extension?.any fun extension => s.extensions.contains (decode extension)

end Settings

end CustomElement.Project
