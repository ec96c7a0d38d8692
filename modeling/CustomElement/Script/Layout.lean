import CustomElement.Script.Lexer

/-!
# Layout

`reindent` gives every line of a piece of script its indentation: one level for each bracket that is open at its
start. A line that starts with closing brackets stands where the line stands that opened the last of them, and a line
that carries on an expression stands one level deeper. Runs of blank lines become one blank line.
-/

namespace CustomElement.Script

open Text

def indentation (level : Nat) : String := String.ofList (List.replicate (2 * level) ' ')

structure Line where
  blankBefore : Bool
  tokens : List Token

def dropTrailingBlanks (tokens : List Token) : List Token :=
  (tokens.reverse.dropWhile fun t => t.kind == .blank).reverse

/-- The lines of `tokens` after the tokens of `line`, which were read last to first. -/
def linesFrom (blankBefore : Bool) (line : List Token) : List Token → List Line
  | [] => if line.isEmpty then [] else [⟨blankBefore, dropTrailingBlanks line.reverse⟩]
  | t :: ts =>
    if t.kind == .blank && t.hasNewline then
      if line.isEmpty then linesFrom blankBefore [] ts
      else ⟨blankBefore, dropTrailingBlanks line.reverse⟩ :: linesFrom (2 ≤ t.newlines) [] ts
    else if t.kind == .blank && line.isEmpty then linesFrom blankBefore [] ts
    else linesFrom blankBefore (t :: line) ts

def splitLines : List Char → List (List Char)
  | [] => [[]]
  | c :: cs =>
    if c = '\n' then [] :: splitLines cs
    else
      match splitLines cs with
      | [] => [[c]]
      | line :: lines => (c :: line) :: lines

/-- A block comment of several lines, those that start with a star brought under its opening. -/
def alignComment (indent : String) (text : String) : String :=
  match splitLines text.toList with
  | [] => ""
  | first :: lines =>
    String.ofList (trimEndList first) ++ String.join (lines.map fun line =>
      let trimmed := trimStartList line
      if trimmed.head? == some '*' then "\n" ++ indent ++ " " ++ String.ofList (trimEndList trimmed)
      else "\n" ++ String.ofList line)

/-- The punctuators at the start of a line that carry on the expression before it. -/
def continuations : List String := [".", "?.", "?", ":", "&&", "||", "??"]

/-- The levels of the lines that opened the brackets still open after `tokens`, which stand on a line at `level`; the
innermost first. -/
def openLevels (level : Nat) : List Nat → List Token → List Nat
  | stack, [] => stack
  | stack, t :: ts =>
    if t.isOpener then openLevels level (level :: stack) ts
    else if t.isCloser then openLevels level stack.tail ts
    else openLevels level stack ts

/-- The text of a line and the brackets open after it; `stack` are the levels of those open before it. -/
def layoutLine (base : Nat) (stack : List Nat) (line : List Token) : String × List Nat :=
  let closers := line.takeWhile Token.isCloser
  let rest := line.dropWhile Token.isCloser
  let popped := stack.take closers.length
  let stack := stack.drop closers.length
  let level := match popped.getLast? with
    | some level => level
    | none =>
      let inner := match stack.head? with
        | some level => level + 1
        | none => base
      let carriesOn := line.head?.any fun t => t.kind == .punct && continuations.contains t.text
      if carriesOn then inner + 1 else inner
  let indent := indentation level
  let body := rest.map fun t =>
    if t.kind == .blockComment && t.hasNewline then alignComment indent t.text else t.text
  (indent ++ String.join (closers.map Token.text) ++ String.join body,
    openLevels level stack rest)

def layoutLines (base : Nat) : List Nat → List Line → String
  | _, [] => ""
  | stack, line :: lines =>
    let (text, stack) := layoutLine base stack line.tokens
    (if line.blankBefore then "\n\n" else "\n") ++ text ++ layoutLines base stack lines

/-- The text with its first line at `level` and every line indented by the brackets open before it. A text that cannot be
read is moved as a whole. -/
def reindent (text : String) (level : Nat) : String :=
  match tokenize text with
  | .error _ => indentation level ++ trim text
  | .ok tokens =>
    match linesFrom false [] tokens with
    | [] => ""
    | first :: lines =>
      let (text, stack) := layoutLine level [] first.tokens
      text ++ layoutLines level stack lines

end CustomElement.Script
