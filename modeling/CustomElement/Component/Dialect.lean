import CustomElement.Text.Blank

/-!
# Dialects of the sections

What the `lang` attribute of a section can name: the engine of a template, the language of a script
and that of a style. Case and surrounding blanks do not matter.
-/

namespace CustomElement.Component

open Text

inductive Engine where
  | html
  | lit
  | handlebars
  | ejs
deriving DecidableEq, Repr, Inhabited

inductive ScriptDialect where
  | plain
  | typed
deriving DecidableEq, Repr, Inhabited

inductive StyleDialect where
  | css
  /-- Nested rules, variables and imports, to be flattened into plain rules. -/
  | scss
deriving DecidableEq, Repr, Inhabited

def normalTag (tag : String) : String := String.ofList ((trimList tag.toList).map Char.toLower)

namespace Engine

def ofTag? (tag : String) : Option Engine :=
  match normalTag tag with
  | "html" => some .html
  | "lit" | "lit-html" => some .lit
  | "hbs" | "handlebars" => some .handlebars
  | "ejs" => some .ejs
  | _ => none

def tag : Engine → String
  | .html => "html"
  | .lit => "lit"
  | .handlebars => "hbs"
  | .ejs => "ejs"

def package? : Engine → Option String
  | .html => none
  | .lit => some "lit-html"
  | .handlebars => some "handlebars"
  | .ejs => some "ejs"

end Engine

namespace ScriptDialect

def ofTag? (tag : String) : Option ScriptDialect :=
  match normalTag tag with
  | "js" | "javascript" => some .plain
  | "ts" | "typescript" => some .typed
  | _ => none

def tag : ScriptDialect → String
  | .plain => "js"
  | .typed => "ts"

end ScriptDialect

namespace StyleDialect

def ofTag? (tag : String) : Option StyleDialect :=
  match normalTag tag with
  | "css" => some .css
  | "scss" | "sass" => some .scss
  | _ => none

def tag : StyleDialect → String
  | .css => "css"
  | .scss => "scss"

end StyleDialect

end CustomElement.Component
