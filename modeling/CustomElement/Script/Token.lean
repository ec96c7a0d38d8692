import CustomElement.Text.Span

/-!
# Script tokens

A script is read as a sequence of tokens that keeps every character: blanks and comments are tokens too. A statement
may end at a line break when the token before it can end it (`Token.canEndStatement`) and the one after it does not
carry it on (`Token.continuesExpression`).
-/

namespace CustomElement.Script

open Text

/-- The kinds of token. A `word` is a name or a keyword, a private `#name` included. -/
inductive Kind where
  | blank
  | lineComment
  | blockComment
  | word
  | number
  | string
  | template
  | regex
  | punct
deriving DecidableEq, Repr

/-- A piece of a script that is read as a unit; `start` is its byte offset. -/
structure Token where
  kind : Kind
  text : String
  start : Nat
deriving DecidableEq, Repr

abbrev openBrace : String := "\x7b"

abbrev closeBrace : String := "\x7d"

namespace Token

def stop (t : Token) : Nat := t.start + byteLength t.text.toList

def isTrivia (t : Token) : Bool :=
  t.kind == .blank || t.kind == .lineComment || t.kind == .blockComment

def isComment (t : Token) : Bool := t.kind == .lineComment || t.kind == .blockComment

def isPunct (t : Token) (text : String) : Bool := t.kind == .punct && t.text == text

def isWord (t : Token) (text : String) : Bool := t.kind == .word && t.text == text

def isOpener (t : Token) : Bool :=
  t.kind == .punct && (t.text == "(" || t.text == "[" || t.text == openBrace)

def isCloser (t : Token) : Bool :=
  t.kind == .punct && (t.text == ")" || t.text == "]" || t.text == closeBrace)

def newlines (t : Token) : Nat := t.text.toList.count '\n'

def hasNewline (t : Token) : Bool := t.text.toList.contains '\n'

end Token

def keywords : List String :=
  ["break", "case", "catch", "class", "const", "continue", "debugger", "default", "delete", "do",
   "else", "export", "extends", "finally", "for", "function", "if", "import", "in", "instanceof",
   "let", "new", "of", "return", "switch", "throw", "try", "typeof", "var", "void", "while",
   "with", "yield", "await"]

def isKeyword (word : String) : Bool := keywords.contains word

/-- The keywords that an expression follows, so that a slash after one starts a regular
expression. -/
def operandKeywords : List String :=
  ["return", "typeof", "instanceof", "in", "of", "new", "delete", "void", "throw", "case", "do",
   "else", "yield", "await"]

def unfinishedWords : List String :=
  ["else", "do", "in", "of", "instanceof", "typeof", "new", "delete", "void", "await", "extends",
   "implements", "case", "export", "import", "const", "let", "var", "class", "function"]

def Token.canEndStatement (t : Token) : Bool :=
  match t.kind with
  | .word => !unfinishedWords.contains t.text
  | .number | .string | .template | .regex => true
  | .punct => [")", "]", closeBrace, "++", "--"].contains t.text
  | .blank | .lineComment | .blockComment => false

def continuingWords : List String :=
  ["else", "catch", "finally", "instanceof", "in", "of", "as", "satisfies", "extends",
   "implements"]

/-- A line that starts with this token carries on the expression of the line before. -/
def Token.continuesExpression (t : Token) : Bool :=
  match t.kind with
  | .punct => !(["++", "--", "!", "~", openBrace, "@", ";", "..."].contains t.text)
  | .word => continuingWords.contains t.text
  | .template => true
  | _ => false

end CustomElement.Script
