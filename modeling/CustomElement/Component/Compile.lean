import CustomElement.Component.Diagnostic
import CustomElement.Component.Render
import CustomElement.Component.Splice
import CustomElement.Files.Tree
import CustomElement.Script.Module.Printer
import CustomElement.Script.Erasure.Scan

/-!
# Compiling a component

A component document becomes one module that defines and registers a custom element. Its style is put
in front of its template, the template becomes the body of a `render` method, and the class of its
script is wired to it. In strict mode a style or a script that cannot be compiled is a failure; else
the style is left out, or the script is kept as it is, and that is reported.
-/

namespace CustomElement.Component

open Text Files Markup Script

structure Toolchain where
  grammar : Grammar
  /-- The plain rules of a nested style sheet whose imports are found from a directory. -/
  flattenSheet : FileView → Path → String → Except Sheet.Fault String

structure Setting where
  toolchain : Toolchain
  files : FileView
  path : Path
  strict : Bool

structure Reported (α : Type) where
  value : α
  diagnostics : List Diagnostic := []
deriving Repr

def resolveReference (document : Path) (reference : String) : Path :=
  (document.directory.join ⟨reference⟩).clean

/-- The content of a section: the file that it refers to, or its own text without the blanks around it. -/
def resolveContent (files : FileView) (document : Path) (reference : Option String)
    (text : String) : Except Failure String :=
  match reference with
  | none => .ok (trim text)
  | some reference =>
    let resolved := resolveReference document reference
    match files.read? resolved with
    | some contents => .ok contents
    | none => .error (.unreadableReference reference resolved)

def Setting.content (s : Setting) (block : Block) (reference : Option Reference) :
    Except Failure String :=
  resolveContent s.files s.path (reference.map Reference.path) block.content

/-- The dialect that a tag names, or the default one; `unknown` reports a tag that is not known. -/
def chooseDialect {α : Type} (ofTag? : String → Option α) (default : α)
    (unknown : String → Diagnostic) : Option String → Reported α
  | none => ⟨default, []⟩
  | some tag =>
    match ofTag? tag with
    | some dialect => ⟨dialect, []⟩
    | none => ⟨default, [unknown tag]⟩

def wrapStyle (css : String) : String := "<style>\n" ++ trimEnd css ++ "\n</style>"

def Setting.styleRules (s : Setting) (dialect : StyleDialect) (content : String) :
    Except Failure (Reported String) :=
  match dialect with
  | .css => .ok ⟨content, []⟩
  | .scss =>
    match s.toolchain.flattenSheet s.files s.path.directory content with
    | .ok css => .ok ⟨css, []⟩
    | .error fault =>
      if s.strict then .error (.styleFailed fault) else .ok ⟨"", [.styleFailed fault]⟩

def Setting.buildStyle (s : Setting) (doc : Document) : Except Failure (Reported String) :=
  match doc.style with
  | none => .ok ⟨"", []⟩
  | some style => do
    let dialect := chooseDialect StyleDialect.ofTag? .css .unknownStyle style.lang
    let content ← s.content style.block style.reference
    let rules ← s.styleRules dialect.value content
    return ⟨wrapStyle rules.value, dialect.diagnostics ++ rules.diagnostics⟩

structure TemplateCode where
  engine : Engine
  renderBody : List String
  importLine : String
deriving Repr

/-- The code that renders the template of a document, with the style element in front of it. -/
def Setting.buildTemplate (s : Setting) (doc : Document) (style : String) :
    Except Failure (Reported TemplateCode) := do
  let engine := chooseDialect Engine.ofTag? .html .unknownEngine doc.template.lang
  let content ← s.content doc.template.block doc.template.reference
  let markup := if style.isEmpty then content else style ++ "\n" ++ content
  let packages := (engine.value.package?.map (Diagnostic.needsPackage engine.value)).toList
  let code : TemplateCode := {
    engine := engine.value
    renderBody := renderBody markup engine.value (Target.ofShadow doc.script.shadow)
    importLine := importLine engine.value }
  return ⟨code, engine.diagnostics ++ packages⟩

def Setting.plainScript (s : Setting) (dialect : ScriptDialect) (content : String) :
    Except Failure (Reported String) :=
  match dialect with
  | .plain => .ok ⟨content, []⟩
  | .typed =>
    match stripTypes s.toolchain.grammar content with
    | .ok plain => .ok ⟨plain, []⟩
    | .error fault =>
      if s.strict then .error (.typesNotErased fault) else .ok ⟨content, [.keptTypes fault]⟩

def quotedChar (c : Char) : List Char :=
  if c == '\\' then ['\\', '\\']
  else if c == '\'' then ['\\', '\'']
  else if c == '\n' then ['\\', 'n']
  else if c == '\r' then ['\\', 'r']
  else if c == '\u2028' then "\\u2028".toList
  else if c == '\u2029' then "\\u2029".toList
  else [c]

def escapeSingleQuoted (text : String) : String := String.ofList (text.toList.flatMap quotedChar)

def selectorLiteral (selector : String) : String := "'" ++ escapeSingleQuoted selector ++ "'"

def registration (selector name : String) : String :=
  "customElements.define(" ++ selectorLiteral selector ++ ", " ++ name ++ ");"

def wireModule (doc : Document) (template : TemplateCode) (m : Module) :
    Except Failure (Reported String) := do
  let some c := m.extendingClass? | throw .classNotFound
  let some name := c.name | throw .classNotFound
  let wired := m.modifyExtendingClass (wire doc.script.shadow template.renderBody)
  let missing := doc.script.shadow && lacksSuper (injectRenderCall c)
  let code := template.importLine ++ wired.print ++ "\n\n" ++ registration doc.script.selector name
  return ⟨code, if missing then [.missingSuper name] else []⟩

def Setting.buildScript (s : Setting) (doc : Document) (template : TemplateCode) :
    Except Failure (Reported String) := do
  let dialect := chooseDialect ScriptDialect.ofTag? .plain .unknownScript doc.script.lang
  let content ← s.content doc.script.block doc.script.reference
  let plain ← s.plainScript dialect.value content
  let m ← (normalize plain.value >>= parseModule).mapError Failure.script
  let code ← wireModule doc template m
  return ⟨code.value, dialect.diagnostics ++ plain.diagnostics ++ code.diagnostics⟩

def selectorDiagnostics (selector : String) : List Diagnostic :=
  if selector.toList.contains '-' then [] else [.invalidSelector selector]

def readDocument (path : Path) (source : String) : Except Failure Document :=
  (parseDocument source).mapError fun e =>
    .document path (Location.of source e.span.start) e.problem

/-- The module of the document with this text, and what was reported on the way. -/
def Setting.compile (s : Setting) (source : String) : Except Failure (Reported String) := do
  let doc ← readDocument s.path source
  let style ← s.buildStyle doc
  let template ← s.buildTemplate doc style.value
  let code ← s.buildScript doc template.value
  return ⟨code.value, selectorDiagnostics doc.script.selector ++ style.diagnostics ++
    template.diagnostics ++ code.diagnostics⟩

/-- The module of the document that lies at the path of the setting. -/
def Setting.compileFile (s : Setting) : Except Failure (Reported String) :=
  match s.files.read? s.path with
  | some source => s.compile source
  | none => .error (.unreadableDocument s.path)

end CustomElement.Component
