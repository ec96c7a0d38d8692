import CustomElement.Script.Forest

/-!
# The normal form of a script's tokens

`normalize` ends every line with a line feed alone, gives string literals the quotes they should have, and adds
trailing commas. An object or array literal whose last element ends a line gets a comma after it. String literals take
single quotes, unless their text holds more single than double quotes (`requote`).
-/

namespace CustomElement.Script

inductive Enclosure where
  | block
  | object
  | array
  | paren
  /-- A computed member, as in an access by index. -/
  | index
deriving DecidableEq, Repr

def Enclosure.isLiteral : Enclosure → Bool
  | .object | .array => true
  | .block | .paren | .index => false

def valueKeywords : List String :=
  ["return", "typeof", "yield", "await", "in", "of", "case", "throw", "void", "delete", "const",
   "let", "var"]

/-- What has been read: the last token that carries code, and whether the last colon stood before a
value. -/
structure Before where
  token : Option Token := none
  colonValue : Bool := false

def Before.brace (b : Before) : Enclosure :=
  match b.token with
  | none => .block
  | some t =>
    match t.kind with
    | .punct =>
      if t.text == ":" then if b.colonValue then .object else .block
      else if [")", ";", openBrace, closeBrace, "=>"].contains t.text then .block
      else .object
    | .word => if valueKeywords.contains t.text then .object else .block
    | _ => .block

def Before.bracket (b : Before) : Enclosure :=
  match b.token with
  | none => .array
  | some t =>
    match t.kind with
    | .punct => if [")", "]", closeBrace].contains t.text then .index else .array
    | .word => if valueKeywords.contains t.text || isKeyword t.text then .array else .index
    | _ => .index

def Before.enclosure (b : Before) (opener : Token) : Enclosure :=
  if opener.text == "(" then .paren else if opener.text == "[" then b.bracket else b.brace

def hasNewline (nodes : List Node) : Bool := (tokensOf nodes).any Token.hasNewline

/-- The nodes of the last element of a list: those after its last comma. -/
def lastElement (nodes : List Node) : List Node :=
  (nodes.reverse.takeWhile fun n => !n.first.isPunct ",").reverse

/-- The inside of a literal with the comma that its last element calls for. An element that spreads
another value takes none. -/
def trailingComma (inside : List Node) : List Node :=
  let gap := (inside.reverse.takeWhile Node.isTrivia).reverse
  let elements := (inside.reverse.dropWhile Node.isTrivia).reverse
  match elements.getLast? with
  | none => inside
  | some last =>
    let spread := ((lastElement elements).find? fun n => !n.isTrivia).any fun n =>
      n.first.isPunct "..."
    if last.last.isPunct "," || !hasNewline gap || spread then inside
    else elements ++ .leaf ⟨.punct, ",", last.last.stop⟩ :: gap

/-- The nodes with the trailing commas they call for, inside an `enclosure` in which `ternary` conditional expressions
wait for their colon; and what has been read. -/
def addCommas (enclosure : Enclosure) (ternary : Nat) (before : Before) :
    List Node → List Node × Before
  | [] => ([], before)
  | .leaf t :: nodes =>
    let (ternary, before) :=
      if t.isTrivia then (ternary, before)
      else if t.isPunct "?" then (ternary + 1, { before with token := some t })
      else if t.isPunct ":" then
        (ternary - 1, { token := some t, colonValue := 0 < ternary || enclosure == .object })
      else if t.isPunct ";" then (0, { before with token := some t })
      else (ternary, { before with token := some t })
    let (rest, after) := addCommas enclosure ternary before nodes
    (.leaf t :: rest, after)
  | .group opener inside closer :: nodes =>
    let inner := before.enclosure opener
    let (inside, within) := addCommas inner 0 { before with token := some opener } inside
    let inside := if inner.isLiteral then trailingComma inside else inside
    let (rest, after) := addCommas enclosure ternary { within with token := some closer } nodes
    (.group opener inside closer :: rest, after)

def withTrailingCommas (nodes : List Node) : List Node := (addCommas .block 0 {} nodes).1

/-- How often a character stands in the text of a literal, escaped or not. -/
def countQuoted (quote : Char) : List Char → Nat
  | [] => 0
  | '\\' :: c :: cs => (if c = quote then 1 else 0) + countQuoted quote cs
  | c :: cs => (if c = quote then 1 else 0) + countQuoted quote cs

def requoteText (old new : Char) : List Char → List Char
  | [] => []
  | '\\' :: c :: cs =>
    if c = old then c :: requoteText old new cs else '\\' :: c :: requoteText old new cs
  | c :: cs => if c = new then '\\' :: c :: requoteText old new cs else c :: requoteText old new cs

def preferredQuote (text : List Char) : Char :=
  if countQuoted '"' text < countQuoted '\'' text then '"' else '\''

/-- The literal with the quotes it should have, if they are not those it has. -/
def requote (literal : String) : Option String :=
  match literal.toList with
  | quote :: rest =>
    let text := rest.dropLast
    let target := preferredQuote text
    if rest.isEmpty || !(quote == '\'' || quote == '"') || target == quote then none
    else some (String.ofList (target :: (requoteText quote target text ++ [target])))
  | [] => none

/-- The text with each carriage return before a line feed taken out. -/
def unixLines : List Char → List Char
  | '\r' :: '\n' :: cs => '\n' :: unixLines cs
  | c :: cs => c :: unixLines cs
  | [] => []

/-- A string literal with the quotes it should have; any other token as it is. -/
def Token.requoted (t : Token) : Token :=
  if t.kind == .string then { t with text := (requote t.text).getD t.text } else t

def normalize (source : String) : Except Fault String := do
  let source := String.ofList (unixLines source.toList)
  let tokens ← tokenize source
  let nodes ← forest source (tokens.map Token.requoted)
  return textOf (withTrailingCommas nodes)

end CustomElement.Script
