import CustomElement.Component.Dialect
import CustomElement.Script.Token

/-!
# Rendering a template

The statements that render markup into an element, and the import that they need. The markup becomes a
template literal: its backticks are escaped, and its `$` substitutions stay substitutions.
-/

namespace CustomElement.Component

open Script

inductive Target where
  | shadowRoot
  | host
deriving DecidableEq, Repr

def Target.ofShadow (shadow : Bool) : Target := if shadow then .shadowRoot else .host

def Target.expression : Target → String
  | .shadowRoot => "this.shadowRoot"
  | .host => "this"

/-- The text with a backslash before each backtick that is not escaped; `escaped` says that an odd number of backslashes
stands before it. -/
def escapeFrom (escaped : Bool) : List Char → List Char
  | [] => []
  | c :: cs =>
    if c == '`' && !escaped then '\\' :: c :: escapeFrom false cs
    else c :: escapeFrom (c == '\\' && !escaped) cs

/-- The text with a backslash before each backtick that is not escaped. -/
def escapeBackticks (text : String) : String := String.ofList (escapeFrom false text.toList)

def templateLiteral (content : String) : String := "`" ++ escapeBackticks content ++ "`"

/-- The statements that render the value of a template literal into `target`. -/
def renderLiteral (literal : String) (engine : Engine) (target : Target) : List String :=
  let target := target.expression
  match engine with
  | .html =>
    ["const template = " ++ literal ++ ";",
      "const templateNode = new DOMParser().parseFromString(template, 'text/html').firstChild;",
      target ++ ".innerHTML = '';",
      target ++ ".appendChild(templateNode.cloneNode(true));"]
  | .lit =>
    ["const template = html" ++ literal ++ ";",
      "render(template, " ++ target ++ ");"]
  | .handlebars =>
    ["if (!this.compiledTemplate) " ++ openBrace ++ "\n  this.compiledTemplate = Handlebars.compile(" ++
        literal ++ ");\n" ++ closeBrace,
      target ++ ".innerHTML = this.compiledTemplate(data);"]
  | .ejs =>
    ["const template = " ++ literal ++ ";",
      target ++ ".innerHTML = ejs.render(template, data);"]

def renderBody (content : String) (engine : Engine) (target : Target) : List String :=
  renderLiteral (templateLiteral content) engine target

/-- The import that the engine needs and a blank line, if it needs one. -/
def importLine : Engine → String
  | .html => ""
  | .lit => "import " ++ openBrace ++ " html, render " ++ closeBrace ++ " from 'lit-html';\n\n"
  | .handlebars => "import Handlebars from 'handlebars/dist/handlebars';\n\n"
  | .ejs => "import ejs from 'ejs/ejs';\n\n"

end CustomElement.Component
