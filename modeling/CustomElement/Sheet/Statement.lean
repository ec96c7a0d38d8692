import CustomElement.Text.Blank

/-!
# Statements of a nested style sheet

A sheet is a list of statements: comments, assignments, declarations, rules and at-rules. A statement ends with a
semicolon or has a block in braces.
-/

namespace CustomElement.Sheet

open Text

inductive Fault where
  | unclosed
  | unexpected (text : String)
  | undefinedVariable (name : String)
  | undefinedMixin (name : String)
  | undefinedModule (name : String)
  | missingImport (url : String)
  | importLoop (url : String)
deriving DecidableEq, Repr

def Fault.message : Fault → String
  | .unclosed => "expected a closing brace"
  | .unexpected text => "unexpected `" ++ text ++ "`"
  | .undefinedVariable name => "undefined variable `$" ++ name ++ "`"
  | .undefinedMixin name => "undefined mixin `" ++ name ++ "`"
  | .undefinedModule name => "there is no module with the namespace `" ++ name ++ "`"
  | .missingImport url => "cannot find the stylesheet `" ++ url ++ "`"
  | .importLoop url => "the stylesheet `" ++ url ++ "` is already being loaded"

inductive Statement where
  | comment (text : String)
  /-- An assignment to a variable. The value may be meant for want of another (`default`), or for the
  whole sheet (`global`). -/
  | assign (name value : String) (isDefault isGlobal : Bool)
  | declare (property value : String)
  | rule (selector : String) (body : List Statement)
  | define (mixin : String) (body : List Statement)
  | apply (mixin : String)
  | load (urls : List String)
  /-- A sheet whose variables and mixins are used under a name, or without one. -/
  | use (url : String) (name : Option String)
  /-- An at-rule that is kept, with its block if it has one. -/
  | atRule (head : String) (body : Option (List Statement))
deriving Repr, Inhabited

def isNameChar (c : Char) : Bool :=
  c.isAlphanum || c == '-' || c == '_' || 128 ≤ c.toNat

def afterComment? : List Char → Option (List Char)
  | [] => none
  | '*' :: '/' :: rest => some rest
  | _ :: rest => afterComment? rest

inductive Ending where
  | semicolon
  | block
  | closing
  | nothing
deriving DecidableEq, Repr

inductive HeadMode where
  | plain
  | string (quote : Char)
  | lineComment
  | blockComment
deriving DecidableEq, Repr

def bracketDepth (depth : Nat) (c : Char) : Nat :=
  if c == '(' || c == '[' then depth + 1
  else if c == ')' || c == ']' || c == '}' then depth - 1
  else depth

/-- The head of a statement without comments, what it ends with, and what follows. Inside `depth`
brackets nothing ends it. -/
def readHead : HeadMode → (depth : Nat) → List Char → List Char × Ending × List Char
  | _, _, [] => ([], .nothing, [])
  | .lineComment, depth, c :: rest => readHead (if c == '\n' then .plain else .lineComment) depth rest
  | .blockComment, depth, '*' :: '/' :: rest => readHead .plain depth rest
  | .blockComment, depth, _ :: rest => readHead .blockComment depth rest
  | .string quote, depth, '\\' :: c :: rest =>
    let (head, more) := readHead (.string quote) depth rest
    ('\\' :: c :: head, more)
  | .string quote, depth, c :: rest =>
    let (head, more) := readHead (if c == quote then .plain else .string quote) depth rest
    (c :: head, more)
  | .plain, depth, '/' :: '*' :: rest => readHead .blockComment depth rest
  | .plain, 0, '/' :: '/' :: rest => readHead .lineComment 0 rest
  | .plain, depth, '#' :: '{' :: rest =>
    let (head, more) := readHead .plain (depth + 1) rest
    ('#' :: '{' :: head, more)
  | .plain, depth, c :: rest =>
    if depth == 0 && c == ';' then ([], .semicolon, rest)
    else if depth == 0 && c == '{' then ([], .block, rest)
    else if depth == 0 && c == '}' then ([], .closing, c :: rest)
    else
      let mode := if c == '"' || c == '\'' then .string c else .plain
      let (head, more) := readHead mode (bracketDepth depth c) rest
      (c :: head, more)

/-- The text before the first place where `p` holds, and the text after it. -/
def cutAt (p : Char → Bool) (cs : List Char) : List Char × Option (List Char) :=
  let head := cs.takeWhile fun c => !p c
  match cs.drop head.length with
  | [] => (head, none)
  | _ :: rest => (head, some rest)

def dropEnding? (word : String) (cs : List Char) : Option (List Char) :=
  let ending := word.toList
  if ending.isSuffixOf cs then some (trimEndList (cs.take (cs.length - ending.length))) else none

/-- The flags at the end of the value of an assignment; `fuel` bounds their number. -/
def cutFlags : (fuel : Nat) → List Char → List Char × Bool × Bool
  | 0, cs => (cs, false, false)
  | fuel + 1, cs =>
    match dropEnding? "!default" cs, dropEnding? "!global" cs with
    | some cs, _ =>
      let (value, _, isGlobal) := cutFlags fuel cs
      (value, true, isGlobal)
    | none, some cs =>
      let (value, isDefault, _) := cutFlags fuel cs
      (value, isDefault, true)
    | none, none => (cs, false, false)

/-- The name of a variable. Hyphens and underscores are the same in it. -/
def variableName (cs : List Char) : String :=
  String.ofList ((trimList cs).map fun c => if c == '_' then '-' else c)

def unquote (cs : List Char) : List Char :=
  match cs with
  | q :: rest => if q == '"' || q == '\'' then rest.takeWhile (· != q) else cs
  | [] => []

/-- The name of a mixin, without the empty list of arguments after it. -/
def mixinName (cs : List Char) : String :=
  variableName (cs.takeWhile fun c => c != '(')

def splitCommas : List Char → List (List Char)
  | [] => [[]]
  | c :: cs =>
    if c == ',' then [] :: splitCommas cs
    else
      match splitCommas cs with
      | [] => [[c]]
      | piece :: rest => (c :: piece) :: rest

/-- The name under which a sheet is used by default: the last part of its address without an underscore in front and
without an extension. -/
def defaultName (url : List Char) : String :=
  let base := (url.reverse.takeWhile (· != '/')).reverse
  let base := if base.head? == some '_' then base.drop 1 else base
  String.ofList (base.takeWhile (· != '.'))

def useOf (cs : List Char) : Statement :=
  let quoted := cs.take 1 ++ unquote cs
  let url := unquote cs
  match (trimList (cs.drop (quoted.length + 1))) with
  | 'a' :: 's' :: c :: name =>
    let name := trimList (c :: name)
    .use (String.ofList url) (if name == ['*'] then none else some (String.ofList name))
  | _ => .use (String.ofList url) (some (defaultName url))

def simpleStatement (head : List Char) : Except Fault Statement :=
  match head with
  | '$' :: rest =>
    match cutAt (· == ':') rest with
    | (name, some value) =>
      let (value, isDefault, isGlobal) := cutFlags value.length (trimList value)
      .ok (.assign (variableName name) (String.ofList value) isDefault isGlobal)
    | _ => .error (.unexpected (String.ofList head))
  | '@' :: rest =>
    let word := rest.takeWhile isNameChar
    let after := trimList (rest.drop word.length)
    match String.ofList word with
    | "import" => .ok (.load ((splitCommas after).map fun url => String.ofList (trimList url)))
    | "use" => .ok (useOf after)
    | "include" => .ok (.apply (mixinName after))
    | _ => .ok (.atRule (String.ofList head) none)
  | _ =>
    match cutAt (· == ':') head with
    | (property, some value) =>
      .ok (.declare (String.ofList (trimList property)) (String.ofList (trimList value)))
    | _ => .error (.unexpected (String.ofList head))

def blockStatement (head : List Char) (body : List Statement) : Statement :=
  match head with
  | '@' :: rest =>
    let word := rest.takeWhile isNameChar
    let after := trimList (rest.drop word.length)
    if word == "mixin".toList then .define (mixinName after) body
    else .atRule (String.ofList head) (some body)
  | _ => .rule (String.ofList head) body

/-- The statements up to the end of a block, or of the sheet, and what follows; `fuel` bounds the
number of steps. -/
def readStatements (fuel : Nat) (inBlock : Bool) (cs : List Char) :
    Except Fault (List Statement × List Char) :=
  match fuel with
  | 0 => .error .unclosed
  | fuel + 1 =>
    match trimStartList cs with
    | [] => if inBlock then .error .unclosed else .ok ([], [])
    | '/' :: '/' :: rest => readStatements fuel inBlock (rest.dropWhile (· != '\n'))
    | '/' :: '*' :: rest =>
      match afterComment? rest with
      | none => .error .unclosed
      | some after => do
        let text := '/' :: '*' :: rest.take (rest.length - after.length)
        let (statements, after) ← readStatements fuel inBlock after
        return (.comment (String.ofList text) :: statements, after)
    | ';' :: rest => readStatements fuel inBlock rest
    | '}' :: rest =>
      if inBlock then .ok ([], rest) else .error (.unexpected (String.ofList ['}']))
    | cs => do
      let (head, ending, rest) := readHead .plain 0 cs
      let head := trimList head
      let (statement, rest) ← match ending with
        | .block => do
          let (body, rest) ← readStatements fuel true rest
          pure (blockStatement head body, rest)
        | .nothing => if inBlock then .error .unclosed else do pure (← simpleStatement head, rest)
        | _ => do pure (← simpleStatement head, rest)
      let (statements, after) ← readStatements fuel inBlock rest
      return (statement :: statements, after)

/-- The statements of a sheet. Each step takes a character, so its length bounds their number. -/
def parseSheet (text : String) : Except Fault (List Statement) := do
  let (statements, _) ← readStatements (text.length + 1) false text.toList
  return statements

end CustomElement.Sheet
