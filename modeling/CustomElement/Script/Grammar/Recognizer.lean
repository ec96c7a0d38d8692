import CustomElement.Script.Lexer

/-!
# Recognizers

A recognizer reads a beginning of a text and gives what is left of it, or nothing. It first passes over blanks and
comments. The parts of a script that hold other parts of their own kind are goals; a rule says how a goal is recognized
when its inner goals are (`Inner`). A `Scope` is what the surroundings of a part say about it.
-/

namespace CustomElement.Script.Grammar

open Text

/-- What an expression is, as far as it matters to what stands around it. -/
inductive Shape where
  | name
  | member
  | pattern
  /-- An assignment, which in a pattern is a target with a value for want of another. -/
  | assigned
  /-- A member or a call that may be left out. -/
  | optional
  | signed
  | other
deriving DecidableEq, Repr

def Shape.isReference : Shape → Bool
  | .name | .member => true
  | _ => false

def Shape.isTarget : Shape → Bool
  | .name | .member | .pattern | .assigned => true
  | _ => false

structure Outcome where
  rest : List Char
  shape : Shape := .other

abbrev Recognizer := List Char → Option Outcome

def isLineEnd (c : Char) : Bool := c == '\n' || c == '\r' || c == '\u2028' || c == '\u2029'

inductive Trivia where
  | none
  | line
  | block

/-- The text after blanks and comments, and whether there is a line end among them. An unclosed
comment is left over. -/
def skipTrivia : Trivia → (lineEnd : Bool) → List Char → Bool × List Char
  | .block, lineEnd, [] => (lineEnd, ['/', '*'])
  | _, lineEnd, [] => (lineEnd, [])
  | .line, lineEnd, c :: cs =>
    if isLineEnd c then skipTrivia .none true cs else skipTrivia .line lineEnd cs
  | .block, lineEnd, '*' :: '/' :: cs => skipTrivia .none lineEnd cs
  | .block, lineEnd, c :: cs => skipTrivia .block (lineEnd || isLineEnd c) cs
  | .none, lineEnd, '/' :: '/' :: cs => skipTrivia .line lineEnd cs
  | .none, lineEnd, '/' :: '*' :: cs => skipTrivia .block lineEnd cs
  | .none, lineEnd, c :: cs =>
    if isGap c then skipTrivia .none (lineEnd || isLineEnd c) cs else (lineEnd, c :: cs)

def atToken (cs : List Char) : List Char := (skipTrivia .none false cs).2

def startsLine (cs : List Char) : Bool := (skipTrivia .none false cs).1

def nothing : Recognizer := fun cs => some ⟨cs, .other⟩

def never : Recognizer := fun _ => none

def seq : List Recognizer → Recognizer
  | [], cs => some ⟨cs, .other⟩
  | r :: rs, cs => (r cs).bind fun o => seq rs o.rest

def alt : List Recognizer → Recognizer
  | [], _ => none
  | r :: rs, cs => (r cs).or (alt rs cs)

def only (b : Bool) (r : Recognizer) : Recognizer := if b then r else never

def opt (r : Recognizer) : Recognizer := alt [r, nothing]

def upTo (r : Recognizer) : Nat → Recognizer
  | 0, cs => some ⟨cs, .other⟩
  | n + 1, cs =>
    match r cs with
    | some o => if o.rest.length < cs.length then upTo r n o.rest else some ⟨cs, .other⟩
    | none => some ⟨cs, .other⟩

def many (r : Recognizer) : Recognizer := fun cs => upTo r cs.length cs

def ahead (r : Recognizer) : Recognizer := fun cs => (r cs).map fun _ => ⟨cs, .other⟩

def notAhead (r : Recognizer) : Recognizer := fun cs =>
  match r cs with
  | some _ => none
  | none => some ⟨cs, .other⟩

def sameLine : Recognizer := fun cs => if startsLine cs then none else some ⟨cs, .other⟩

def shaped (shape : Shape) (r : Recognizer) : Recognizer := fun cs =>
  (r cs).map fun o => { o with shape }

def ofShape (p : Shape → Bool) (r : Recognizer) : Recognizer := fun cs =>
  (r cs).filter fun o => p o.shape

/-- The first recognizer and then the last one, whose shape is kept. -/
def before (first last : Recognizer) : Recognizer := fun cs =>
  (first cs).bind fun o => last o.rest

def atEnd : Recognizer := fun cs => if (atToken cs).isEmpty then some ⟨[], .other⟩ else none

def marks : List String :=
  [">>>=", "...", "===", "!==", "**=", "<<=", ">>=", ">>>", "&&=", "||=", "??=", "=>", "==", "!=",
   "<=", ">=", "++", "--", "<<", ">>", "&&", "||", "??", "?.", "+=", "-=", "*=", "/=", "%=", "&=",
   "|=", "^=", "**", openBrace, closeBrace, "(", ")", "[", "]", ";", ",", "<", ">", "+", "-", "*",
   "/", "%", "&", "|", "^", "!", "~", "?", ":", "=", ".", "@"]

/-- The longest mark at the front. Before a digit `?.` is no mark, and neither is the opening of a comment. -/
def markAt? (cs : List Char) : Option String :=
  if "?.".toList.isPrefixOf cs && (cs.drop 2).head?.any Char.isDigit then some "?"
  else if "/*".toList.isPrefixOf cs then none
  else marks.find? fun m => m.toList.isPrefixOf cs

def mark (m : String) : Recognizer := fun cs =>
  let cs := atToken cs
  if m.toList.isPrefixOf cs && markAt? cs == some m then some ⟨cs.drop m.length, .other⟩ else none

def oneOf (ms : List String) : Recognizer := alt (ms.map mark)

def closeAngle : Recognizer := fun cs =>
  match atToken cs with
  | '>' :: rest => some ⟨rest, .other⟩
  | _ => none

def isHexDigit (c : Char) : Bool :=
  c.isDigit || ('a' ≤ c && c ≤ 'f') || ('A' ≤ c && c ≤ 'F')

def isNameStart (c : Char) : Bool :=
  c.isAlpha || c == '_' || c == '$' || (0x80 ≤ c.toNat && isAlphanumeric c)

def isNamePart (c : Char) : Bool := isWordPart c && c != '\\'

/-- How many characters of a name stand at the front. A backslash starts an escape of four digits. -/
def nameExtent (started : Bool) : List Char → Nat
  | '\\' :: 'u' :: a :: b :: c :: d :: rest =>
    if [a, b, c, d].all isHexDigit then nameExtent true rest + 6 else 0
  | c :: rest =>
    if isNameStart c || (started && isNamePart c) then nameExtent true rest + 1 else 0
  | [] => 0

def wordAt? (cs : List Char) : Option (String × List Char) :=
  let cs := atToken cs
  match nameExtent false cs with
  | 0 => none
  | n => some (String.ofList (cs.take n), cs.drop n)

def wordThat (p : String → Bool) : Recognizer := fun cs =>
  match wordAt? cs with
  | some (word, rest) => if p word then some ⟨rest, .other⟩ else none
  | none => none

def anyWord : Recognizer := wordThat fun _ => true

def word (w : String) : Recognizer := wordThat (· == w)

def reservedWords : List String :=
  ["break", "case", "catch", "class", "const", "continue", "debugger", "default", "delete", "do",
   "else", "enum", "export", "extends", "false", "finally", "for", "function", "if", "import", "in",
   "instanceof", "new", "null", "return", "super", "switch", "this", "throw", "true", "try", "typeof",
   "var", "void", "while", "with", "let", "await"]

/-- The words that nothing can be called, though they can be referred to. -/
def unboundWords : List String :=
  ["implements", "interface", "package", "private", "protected", "public", "static", "yield", "eval",
   "arguments"]

def name : Recognizer :=
  wordThat fun w => !reservedWords.contains w && !unboundWords.contains w

def reference : Recognizer := wordThat fun w => !reservedWords.contains w

def privateName : Recognizer := fun cs =>
  match atToken cs with
  | '#' :: rest =>
    match nameExtent false rest with
    | 0 => none
    | n => some ⟨rest.drop n, .other⟩
  | _ => none

/-- Digits that satisfy `p`, with single underscores between them; the text starts after one. -/
def moreDigits (p : Char → Bool) : List Char → List Char
  | '_' :: c :: rest => if p c then moreDigits p rest else '_' :: c :: rest
  | c :: rest => if p c then moreDigits p rest else c :: rest
  | [] => []

def digits (p : Char → Bool) : List Char → Option (List Char)
  | c :: rest => if p c then some (moreDigits p rest) else none
  | [] => none

def numberEnd (cs : List Char) : Option Outcome :=
  if cs.head?.any fun c => isNameStart c || c.isDigit || c == '\\' then none else some ⟨cs, .other⟩

def afterExponent (cs : List Char) : Option (List Char) :=
  match cs with
  | e :: rest =>
    if e == 'e' || e == 'E' then
      match rest with
      | sign :: more => digits Char.isDigit (if sign == '+' || sign == '-' then more else rest)
      | [] => none
    else some cs
  | [] => some []

/-- A number in the digits that satisfy `p`, maybe a whole one of any size. -/
def wholeNumber (p : Char → Bool) (cs : List Char) : Option Outcome := do
  let cs ← digits p cs
  numberEnd (if cs.head? == some 'n' then cs.drop 1 else cs)

def isOctalDigit (c : Char) : Bool := '0' ≤ c && c ≤ '7'

def isBinaryDigit (c : Char) : Bool := c == '0' || c == '1'

def number : Recognizer := fun cs =>
  match atToken cs with
  | '0' :: c :: rest =>
    if c == 'x' || c == 'X' then wholeNumber isHexDigit rest
    else if c == 'o' || c == 'O' then wholeNumber isOctalDigit rest
    else if c == 'b' || c == 'B' then wholeNumber isBinaryDigit rest
    else if c.isDigit || c == '_' then none
    else decimal ('0' :: c :: rest)
  | cs => decimal cs
where
  decimal (cs : List Char) : Option Outcome :=
    match cs with
    | '.' :: rest => do numberEnd (← afterExponent (← digits Char.isDigit rest))
    | cs => do
      let cs ← digits Char.isDigit cs
      match cs with
      | 'n' :: rest => numberEnd rest
      | '.' :: rest => numberEnd (← afterExponent ((digits Char.isDigit rest).getD rest))
      | cs => numberEnd (← afterExponent cs)

/-- What follows a backslash spells a character: after an `x` come two digits, after a `u` four, or some in braces, and a
zero stands alone. -/
def isEscape : List Char → Bool
  | 'x' :: a :: b :: _ => isHexDigit a && isHexDigit b
  | 'u' :: '{' :: rest =>
    let inside := rest.takeWhile isHexDigit
    !inside.isEmpty && (rest.drop inside.length).head? == some '}'
  | 'u' :: a :: b :: c :: d :: _ => [a, b, c, d].all isHexDigit
  | '0' :: rest => !rest.head?.any Char.isDigit
  | c :: _ => c != 'x' && c != 'u' && !c.isDigit
  | [] => false

def stringEnd (quote : Char) : List Char → Option (List Char)
  | '\\' :: '\r' :: '\n' :: rest => stringEnd quote rest
  | '\\' :: c :: rest => if isEscape (c :: rest) then stringEnd quote rest else none
  | c :: rest =>
    if c == quote then some rest
    else if c == '\n' || c == '\r' then none
    else stringEnd quote rest
  | [] => none

def string : Recognizer := fun cs =>
  match atToken cs with
  | c :: rest =>
    if c == '"' || c == '\'' then (stringEnd c rest).map fun rest => ⟨rest, .other⟩ else none
  | [] => none

def regexEnd (inClass : Bool) : List Char → Option (List Char)
  | '\\' :: c :: rest => if isLineEnd c then none else regexEnd inClass rest
  | c :: rest =>
    if isLineEnd c then none
    else if c == '/' && !inClass then some rest
    else regexEnd (c == '[' || (inClass && c != ']')) rest
  | [] => none

def regex : Recognizer := fun cs =>
  match atToken cs with
  | '/' :: c :: rest =>
    if c == '*' || c == '/' then none
    else do
      let rest ← regexEnd false (c :: rest)
      let flags := rest.take (nameExtent true rest)
      guard (flags.all "dgimsuvy".toList.contains && decide flags.Nodup)
      return ⟨rest.drop flags.length, .other⟩
  | _ => none

/-- The rest of a piece of a template: up to the closing backtick, or up to the opening of a
substitution. -/
def templatePiece : List Char → Option (Bool × List Char)
  | '\\' :: _ :: rest => templatePiece rest
  | '$' :: '{' :: rest => some (true, rest)
  | '`' :: rest => some (false, rest)
  | _ :: rest => templatePiece rest
  | [] => none

/-- The rest of a template after a backtick or the end of a substitution; `inside` reads the
substitution and `again` what follows it. -/
def templateTail (inside again : Recognizer) : Recognizer := fun cs =>
  match templatePiece cs with
  | some (false, rest) => some ⟨rest, .other⟩
  | some (true, rest) => seq [inside, mark closeBrace, again] rest
  | none => none

def templateOf (tail : Recognizer) : Recognizer := fun cs =>
  match atToken cs with
  | '`' :: rest => tail rest
  | _ => none

def sepBy (r separator : Recognizer) : Recognizer := seq [r, many (seq [separator, r])]

def commas (r : Recognizer) : Recognizer :=
  opt (seq [sepBy r (mark ","), opt (mark ",")])

/-- Any number in brackets, with commas in between and maybe one at the end. -/
def bracketed (opener : String) (r : Recognizer) (closer : String) : Recognizer :=
  seq [mark opener, commas r, mark closer]

/-- The end of a statement: a semicolon, or a place where one can be left out. -/
def statementEnd : Recognizer := fun cs =>
  let next := atToken cs
  match next with
  | ';' :: rest => some ⟨rest, .other⟩
  | [] => some ⟨[], .other⟩
  | c :: _ => if c == '}' || startsLine cs then some ⟨cs, .other⟩ else none

inductive Goal where
  | type
  | typeOperand
  /-- The type of a result, which may be a predicate on an argument. -/
  | resultType
  | typeTemplateTail
  | expression
  | assignment
  | unary
  /-- An operand with its members and calls. -/
  | operand
  /-- An operand without members and calls. -/
  | head
  /-- A name or a pattern that is bound. -/
  | binding
  | templateTail
  | declaration
  | item
  | statement
  /-- What can stand at the top level of a module. -/
  | moduleItem
deriving DecidableEq, Repr

structure Scope where
  typed : Bool
  /-- The operator `in` would end the part. -/
  noIn : Bool := false
  /-- A colon after parameters would end the part. -/
  noResultType : Bool := false
  /-- A question mark after a type would end the part. -/
  noConditionalType : Bool := false
  inFunction : Bool := false
  /-- A call can ask what it was made with. -/
  knowsTarget : Bool := false
  /-- Members of the class above can be referred to. -/
  knowsSuper : Bool := false
  awaits : Bool := true
  yields : Bool := false
  breaks : Bool := false
  continues : Bool := false
  labels : List String := []
  ambient : Bool := false

abbrev Inner := Goal → Scope → Recognizer

namespace Scope

def inside (σ : Scope) : Scope :=
  { σ with noIn := false, noResultType := false, noConditionalType := false }

def function (σ : Scope) (async generator : Bool) : Scope :=
  { typed := σ.typed, inFunction := true, knowsTarget := true, knowsSuper := σ.typed,
    awaits := async, yields := generator }

def method (σ : Scope) (async generator : Bool) : Scope :=
  { σ.function async generator with knowsSuper := true }

def arrow (σ : Scope) (async : Bool) : Scope :=
  { σ.function async false with knowsTarget := σ.knowsTarget, knowsSuper := σ.knowsSuper }

def field (σ : Scope) : Scope :=
  { σ.function σ.awaits false with inFunction := σ.inFunction, knowsSuper := true }

def setup (σ : Scope) : Scope := { σ.field with inFunction := false }

def loop (σ : Scope) : Scope := { σ with breaks := true, continues := true }

end Scope

end CustomElement.Script.Grammar
