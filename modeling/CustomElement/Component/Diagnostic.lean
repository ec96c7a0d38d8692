import CustomElement.Component.Dialect
import CustomElement.Files.Path
import CustomElement.Markup.Document
import CustomElement.Script.Fault
import CustomElement.Sheet.Statement

/-!
# Diagnostics and failures

A `Diagnostic` is a problem that a compilation reports and gets over. A `Failure` is one that it
cannot get over: there is no output then.
-/

namespace CustomElement.Component

open Text Files Markup

inductive Severity where
  /-- Part of the input is left out of the output. -/
  | error
  | warning
deriving DecidableEq, Repr

def Severity.text : Severity → String
  | .error => "error"
  | .warning => "warning"

inductive Diagnostic where
  /-- The name of the element has no hyphen. -/
  | invalidSelector (selector : String)
  | unknownStyle (tag : String)
  | styleFailed (fault : Sheet.Fault)
  | unknownEngine (tag : String)
  | needsPackage (engine : Engine) (package : String)
  | unknownScript (tag : String)
  | keptTypes (fault : Script.Fault)
  | missingSuper (className : String)
deriving DecidableEq, Repr

namespace Diagnostic

def severity : Diagnostic → Severity
  | .styleFailed _ | .keptTypes _ => .error
  | _ => .warning

def code : Diagnostic → String
  | .invalidSelector _ => "invalid-selector"
  | .unknownStyle _ => "unknown-style-lang"
  | .styleFailed _ => "style-failed"
  | .unknownEngine _ => "unknown-engine"
  | .needsPackage .. => "runtime-dependency"
  | .unknownScript _ => "unknown-script-lang"
  | .keptTypes fault => fault.code
  | .missingSuper _ => "missing-super"

def message : Diagnostic → String
  | .invalidSelector selector =>
    "selector `" ++ selector ++
      "` has no hyphen; browsers only register custom element names that contain one"
  | .unknownStyle tag => "unknown style language `" ++ tag ++ "`, treating it as css"
  | .styleFailed fault => "SCSS compilation failed: " ++ fault.message
  | .unknownEngine tag => "unknown template engine `" ++ tag ++ "`, falling back to html"
  | .needsPackage engine package =>
    "the " ++ engine.tag ++ " engine needs a runtime: add " ++ package ++ " to your package.json"
  | .unknownScript tag => "unknown script language `" ++ tag ++ "`, treating it as js"
  | .keptTypes fault =>
    "TypeScript transpilation failed, keeping the source as written: " ++ fault.message
  | .missingSuper className =>
    "the constructor of " ++ className ++ " never calls super(); attachShadow is inserted first"

def render (d : Diagnostic) : String :=
  d.severity.text ++ "[" ++ d.code ++ "]: " ++ d.message

end Diagnostic

inductive Failure where
  /-- The document at `path` is malformed at `loc`. -/
  | document (path : Path) (loc : Location) (problem : Problem)
  | unreadableDocument (path : Path)
  | unreadableReference (reference : String) (resolved : Path)
  /-- The script declares no named class that extends another one. -/
  | classNotFound
  | typesNotErased (fault : Script.Fault)
  | styleFailed (fault : Sheet.Fault)
  | script (fault : Script.Fault)
deriving DecidableEq, Repr

namespace Failure

def code : Failure → String
  | .document _ _ problem => problem.code
  | .unreadableDocument _ => "unreadable-document"
  | .unreadableReference .. => "unreadable-reference"
  | .classNotFound => "class-name-not-found"
  | .typesNotErased _ => "transpile-failed"
  | .styleFailed _ => "style-failed"
  | .script fault => fault.code

def message : Failure → String
  | .document path loc problem => path.text ++ ":" ++ loc.render ++ ": " ++ problem.message
  | .unreadableDocument path => "cannot read " ++ path.text ++ ": no such file"
  | .unreadableReference reference resolved =>
    "cannot read `" ++ reference ++ "` (resolved to " ++ resolved.text ++ "): no such file"
  | .classNotFound =>
    "class name not found; the script needs a `class <Name> extends ...` declaration"
  | .typesNotErased fault => "TypeScript transpilation failed: " ++ fault.message
  | .styleFailed fault => "SCSS compilation failed: " ++ fault.message
  | .script fault => "cannot process script: " ++ fault.message

end Failure

end CustomElement.Component
