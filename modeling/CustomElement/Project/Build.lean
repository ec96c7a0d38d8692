import CustomElement.Component.Compile
import CustomElement.Project.Settings

/-!
# Building a project

The components of a project are found, compiled one after the other, and written. A component that
cannot be compiled or written counts as failed and does not stop the others.
-/

namespace CustomElement.Project

open Files Component

def below (dir : Path) (names : List String) : Path :=
  names.foldl (fun path name => path.join ⟨name⟩) dir

/-- The components of a project: the input if it is a file, or the files below it that have the extension of a component
and are not ignored. -/
def findComponents (s : Settings) (disk : Tree) (decode : String → String := id) : Except Obstacle (List Path) :=
  match disk.at? s.input with
  | some (.file _) => .ok [s.input]
  | some t =>
    let paths := t.files.map fun entry => below s.input entry.1
    .ok (paths.filter fun path => s.isComponent path decode && !s.isIgnored path)
  | none => .error (.missingInput s.input)

/-- The component to compile anew when a file changes: that file, or `x.wc` for a side file such as `x.wc.scss`. -/
def componentFor? (s : Settings) (disk : Tree) (changed : Path) : Option Path :=
  if s.isIgnored changed then none
  else if s.isComponent changed then some changed
  else do
    let stem ← changed.stem?
    let component := changed.withFileName stem
    guard (s.isComponent component && disk.isFile component)
    return component

def moduleExtensions : List String := ["js", "mjs", "jsx"]

/-- Where the module of a component is written. An output path with the extension of a module is that file; any other is a
directory in which the component keeps its place below `root`. Without one the module lies next to the component. -/
def outputPath (root : Path) (out : Option Path) (component : Path) (decode : String → String := id) : Path :=
  let name := match component.stem? with
    | some stem => decode stem ++ ".js"
    | none => "index.js"
  match out with
  | none => component.withFileName name
  | some out =>
    if out.extension?.any fun extension => moduleExtensions.contains (decode extension) then out
    else
      let place := ((component.relativeTo? root).bind Path.parent?).getD ⟨""⟩
      (out.join place).join ⟨name⟩

def outputText (code : String) : String :=
  if code.toList.getLast? == some '\n' then code else code ++ "\n"

structure Report where
  compiled : Nat := 0
  failed : Nat := 0
  warnings : Nat := 0
  errors : Nat := 0
deriving DecidableEq, Repr, Inhabited

def Report.addCompiled (r : Report) (diagnostics : List Diagnostic) : Report :=
  { r with
    compiled := r.compiled + 1
    warnings := r.warnings + diagnostics.countP fun d => d.severity == .warning
    errors := r.errors + diagnostics.countP fun d => d.severity == .error }

def Report.addFailed (r : Report) : Report := { r with failed := r.failed + 1 }

def buildOne? (toolchain : Toolchain) (cwd : Path) (s : Settings) (disk : Tree) (component : Path) :
    Option (Tree × List Diagnostic) :=
  match (Setting.mk toolchain (disk.viewFrom cwd) component s.strict).compileFile with
  | .error _ => none
  | .ok result =>
    (disk.write? (outputPath s.input s.out component) (outputText result.value)).map fun disk =>
      (disk, result.diagnostics)

def buildStep (toolchain : Toolchain) (cwd : Path) (s : Settings) (state : Tree × Report)
    (component : Path) : Tree × Report :=
  match buildOne? toolchain cwd s state.1 component with
  | some (disk, diagnostics) => (disk, state.2.addCompiled diagnostics)
  | none => (state.1, state.2.addFailed)

/-- Compiles and writes all components of a project from the directory `cwd`. -/
def build (toolchain : Toolchain) (cwd : Path) (s : Settings) (disk : Tree) :
    Except Obstacle (Tree × Report) := do
  let components ← findComponents s disk
  return components.foldl (buildStep toolchain cwd s) (disk, {})

/-- The exit status and the disk after a command. Watching starts with a build and ends with the
events that it waits for. -/
def command (toolchain : Toolchain) (cwd : Path) (words : List String) (disk : Tree) : Nat × Tree :=
  match Arguments.parse words with
  | .error .help | .error .version => (0, disk)
  | .error _ => (2, disk)
  | .ok args =>
    let built := do
      let s ← Settings.load disk cwd args
      let (disk, report) ← build toolchain cwd s disk
      return (if s.watch || report.failed == 0 then 0 else 1, disk)
    match built with
    | .error _ => (1, disk)
    | .ok outcome => outcome

end CustomElement.Project
