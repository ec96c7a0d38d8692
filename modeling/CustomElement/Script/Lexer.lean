import CustomElement.Script.Token
import CustomElement.Script.Fault
import CustomElement.Text.Cut
import CustomElement.Text.Letter

/-!
# Reading tokens

`tokenize` cuts a script into tokens.

A slash starts a regular expression where an operand is expected, which the last token that is not trivia decides
(`regexAllowed`). A template literal holds expressions between dollar-brace marks; `templateRest` and `interpolation`
read them with `lexeme` itself, as far as the brace that closes the mark.
-/

namespace CustomElement.Script

open Text

def isGap (c : Char) : Bool := isBlank c || c == '\ufeff'

/-- Characters that begin a word. Above ASCII everything but white space does. -/
def isWordStart (c : Char) : Bool :=
  c.isAlpha || c == '_' || c == '$' || c == '#' || c == '\\' || (0x80 ≤ c.toNat && !isBlank c)

def isWordPart (c : Char) : Bool :=
  isAlphanumeric c || c == '_' || c == '$' || c == '\\' || c == '\u200c' || c == '\u200d'

/-- A literal that is never closed, with the offset at which it starts. -/
structure Unclosed where
  what : Literal
  start : Nat
deriving DecidableEq, Repr

def blockCommentRest : (cs : List Char) → Option (Cut cs)
  | [] => none
  | '*' :: '/' :: cs => some ((Cut.first '/' cs).cons '*')
  | c :: cs => (blockCommentRest cs).map (Cut.cons c)

/-- The rest of a string literal that ends at `quote`. A line feed ends it too early, unless a
backslash stands before it. -/
def stringRest (quote : Char) : (cs : List Char) → Option (Cut cs)
  | [] => none
  | ['\\'] => none
  | '\\' :: c :: cs => (stringRest quote cs).map fun cut => (cut.cons c).cons '\\'
  | c :: cs =>
    if c = '\n' then none
    else if c = quote then some (Cut.first c cs)
    else (stringRest quote cs).map (Cut.cons c)

/-- The rest of a regular expression up to its closing slash. Inside a character class a slash
closes nothing. -/
def regexRest (inClass : Bool) : (cs : List Char) → Option (Cut cs)
  | [] => none
  | ['\\'] => none
  | '\\' :: c :: cs => (regexRest inClass cs).map fun cut => (cut.cons c).cons '\\'
  | c :: cs =>
    if c = '\n' then none
    else if c = '[' then (regexRest true cs).map (Cut.cons c)
    else if c = ']' then (regexRest false cs).map (Cut.cons c)
    else if c = '/' && !inClass then some (Cut.first c cs)
    else (regexRest inClass cs).map (Cut.cons c)

/-- How many characters continue a number after `last`. A sign does after the exponent mark of a number that is not
hexadecimal. -/
def numberExtent (hex : Bool) (last : Char) : List Char → Nat
  | [] => 0
  | c :: cs =>
    let sign := (c == '+' || c == '-') && !hex && (last == 'e' || last == 'E')
    if c.isAlphanum || c == '_' || c == '.' || sign then numberExtent hex c cs + 1 else 0

def startsNumber (c : Char) (cs : List Char) : Bool :=
  c.isDigit || (c == '.' && cs.head?.any Char.isDigit)

/-- A line comment starts here: two slashes, or `#!` at the very beginning of the text. -/
def startsLineComment (offset : Nat) (c : Char) (cs : List Char) : Bool :=
  (c == '/' && cs.head? == some '/') || (offset == 0 && c == '#' && cs.head? == some '!')

/-- The punctuators of more than one character; of two that fit the earlier is read. A closing angle is always read alone.
-/
def punctuators : List String :=
  ["...", "===", "!==", "**=", "<<=", "&&=", "||=", "??=", "=>", "==", "!=", "<=", "<<", "&&",
   "||", "??", "?.", "++", "--", "+=", "-=", "*=", "/=", "%=", "&=", "|=", "^=", "**"]

/-- How many characters after the first belong to the punctuator. The mark `?.` before a digit is
a question mark and a number. -/
def punctExtent (c : Char) (cs : List Char) : Nat :=
  let fits (p : String) : Bool :=
    p.toList.isPrefixOf (c :: cs) && !(p == "?." && (cs.drop 1).head?.any Char.isDigit)
  match punctuators.find? fits with
  | some p => p.length - 1
  | none => 0

/-- After `prev`, the last token that is not trivia, a slash starts a regular expression. -/
def regexAllowed : Option Token → Bool
  | none => true
  | some t =>
    match t.kind with
    | .punct => !(t.text == ")" || t.text == "]" || t.text == closeBrace || t.text == "++" || t.text == "--")
    | .word => operandKeywords.contains t.text
    | _ => false

/-- The token at the front of `c :: cs`, which is no template literal. -/
def plainLexeme (offset : Nat) (prev : Option Token) (c : Char) (cs : List Char) :
    Except Unclosed (Kind × Cut (c :: cs)) :=
  let closed (kind : Kind) (what : Literal) : Option (Cut (c :: cs)) →
      Except Unclosed (Kind × Cut (c :: cs))
    | some cut => .ok (kind, cut)
    | none => .error ⟨what, offset⟩
  if isGap c then .ok (.blank, .firstWhile isGap c cs)
  else if startsLineComment offset c cs then
    .ok (.lineComment, .firstWhile (fun c => c != '\n' && c != '\r') c cs)
  else if c == '/' && cs.head? == some '*' then
    closed .blockComment .blockComment <|
      match cs with
      | [] => none
      | star :: cs => (blockCommentRest cs).map fun cut => (cut.cons star).cons c
  else if c == '\'' || c == '"' then
    closed .string .string ((stringRest c cs).map (Cut.cons c))
  else if startsNumber c cs then
    let hex := c == '0' && (cs.head? == some 'x' || cs.head? == some 'X')
    .ok (.number, .firstAnd (numberExtent hex c cs) c cs)
  else if isWordStart c then .ok (.word, .firstWhile isWordPart c cs)
  else if c == '/' && regexAllowed prev then
    closed .regex .regex
      ((regexRest false cs).map fun cut => (cut.cons c).appendWhile Char.isAlpha)
  else .ok (.punct, .firstAnd (punctExtent c cs) c cs)

/-- An expression inside a template literal: where it stands, and the tokens it is read as. -/
structure Substitution where
  span : Span
  tokens : List Token
deriving DecidableEq, Repr

def Token.orPrevious (t : Token) (prev : Option Token) : Option Token :=
  if t.isTrivia then prev else some t

export Token (orPrevious)

mutual

/-- The token at the front of `c :: cs`, which starts at `offset`; `prev` is the last token before
it that is not trivia. -/
def lexeme (offset : Nat) (prev : Option Token) (c : Char) (cs : List Char) :
    Except Unclosed (Kind × Cut (c :: cs)) :=
  if c = '`' then do
    let (cut, _) ← templateRest offset (offset + 1) cs
    return (.template, cut.cons c)
  else plainLexeme offset prev c cs
termination_by 2 * cs.length + 2

/-- The rest of the template literal that starts at `start`, as far as its closing backtick, and
the expressions in it. -/
def templateRest (start offset : Nat) (cs : List Char) :
    Except Unclosed (Cut cs × List Substitution) :=
  match cs with
  | [] => .error ⟨.template, start⟩
  | ['\\'] => .error ⟨.template, start⟩
  | '\\' :: c :: cs => do
    let (cut, substitutions) ← templateRest start (offset + 1 + c.utf8Size) cs
    return ((cut.cons c).cons '\\', substitutions)
  | '`' :: cs => .ok (Cut.first '`' cs, [])
  | '$' :: '{' :: cs => do
    let (code, tokens) ← interpolation start (offset + 2) 0 none cs
    let stop := offset + 2 + byteLength code.head
    let (cut, substitutions) ← templateRest start stop code.rest
    return (((code.append cut).cons '{').cons '$',
      ⟨⟨offset + 2, stop - 1⟩, tokens⟩ :: substitutions)
  | c :: cs => do
    let (cut, substitutions) ← templateRest start (offset + c.utf8Size) cs
    return (cut.cons c, substitutions)
termination_by 2 * cs.length
decreasing_by
  · simp only [List.length_cons]; omega
  · simp only [List.length_cons]; omega
  · simp only [List.length_cons]
    have hlt := code.length_rest_lt
    omega
  · simp only [List.length_cons]; omega

/-- The code of an interpolated expression and the brace that closes it, with its tokens; `depth` braces are open inside
it. -/
def interpolation (start offset depth : Nat) (prev : Option Token) (cs : List Char) :
    Except Unclosed (Cut cs × List Token) :=
  match cs with
  | [] => .error ⟨.template, start⟩
  | c :: cs => do
    let (kind, cut) ← lexeme offset prev c cs
    let token : Token := ⟨kind, String.ofList cut.head, offset⟩
    if token.isPunct closeBrace && depth == 0 then return (cut, [])
    let depth := if token.isPunct openBrace then depth + 1
      else if token.isPunct closeBrace then depth - 1 else depth
    let (more, tokens) ←
      interpolation start (offset + byteLength cut.head) depth (token.orPrevious prev) cut.rest
    return (cut.append more, token :: tokens)
termination_by 2 * cs.length + 1
decreasing_by
  · simp only [List.length_cons]; omega
  · have hlt := cut.length_rest_lt
    simp only [List.length_cons] at hlt ⊢
    omega

end

def tokensFrom (offset : Nat) (prev : Option Token) (cs : List Char) :
    Except Unclosed (List Token) :=
  match cs with
  | [] => .ok []
  | c :: cs => do
    let (kind, cut) ← lexeme offset prev c cs
    let token : Token := ⟨kind, String.ofList cut.head, offset⟩
    let tokens ← tokensFrom (offset + byteLength cut.head) (token.orPrevious prev) cut.rest
    return token :: tokens
termination_by cs.length
decreasing_by exact cut.length_rest_lt

def Unclosed.toFault (source : String) (u : Unclosed) : Fault :=
  .unterminated u.what (Location.of source u.start)

def tokenize (source : String) : Except Fault (List Token) :=
  (tokensFrom 0 none source.toList).mapError (Unclosed.toFault source)

/-- The expressions of a template literal, whose first character is taken for the opening backtick. -/
def templateSubstitutions (template : String) : Except Fault (List Substitution) :=
  match template.toList with
  | [] => .error (.unterminated .template ⟨0, 0⟩)
  | c :: cs =>
    match templateRest 0 c.utf8Size cs with
    | .ok (_, substitutions) => .ok substitutions
    | .error u => .error (u.toFault template)

end CustomElement.Script
