import CustomElement.Text.Span

/-!
# What can be wrong with a script

The causes for which a script is refused, and the wording of each. The verdicts on the whole text
(`notTyped`, `notPlain`) carry no position: only their kind is part of the answer.
-/

namespace CustomElement.Script

open Text

inductive Literal where
  | blockComment
  | string
  | template
  | regex
deriving DecidableEq, Repr

def Literal.describe : Literal → String
  | .blockComment => "block comment"
  | .string => "string literal"
  | .template => "template literal"
  | .regex => "regular expression"

inductive Fault where
  | unterminated (what : Literal) (loc : Location)
  | unbalanced (bracket : String) (loc : Location)
  /-- A typed construct at `loc` that has no plain counterpart. -/
  | unsupported (construct : String) (loc : Location)
  | notTyped
  /-- What is left without the types is no module of the plain language. -/
  | notPlain
deriving DecidableEq, Repr

def Fault.code : Fault → String
  | .unterminated .. => "unterminated-token"
  | .unbalanced .. => "unbalanced-delimiter"
  | .unsupported .. => "unsupported-syntax"
  | .notTyped => "invalid-typescript"
  | .notPlain => "invalid-output"

def Fault.message : Fault → String
  | .unterminated what loc => "unterminated " ++ what.describe ++ " starting at " ++ loc.render
  | .unbalanced bracket loc => "unbalanced `" ++ bracket ++ "` at " ++ loc.render
  | .unsupported construct loc =>
    "unsupported TypeScript syntax `" ++ construct ++ "` at " ++ loc.render
  | .notTyped => "TypeScript syntax error"
  | .notPlain => "type erasure produced invalid JavaScript"

end CustomElement.Script
