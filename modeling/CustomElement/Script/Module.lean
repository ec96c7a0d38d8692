import CustomElement.Script.Forest

/-!
# The statement tree of a script

A script is a list of items: statements, and class declarations taken apart into members. A method with a body is
taken apart further, down to the statements of the body. Everything else is kept as text.
-/

namespace CustomElement.Script

open Text

structure Statement where
  text : String
  /-- A blank line separates it from the one before. -/
  blankBefore : Bool := false
deriving DecidableEq, Repr

inductive Role where
  | construct
  | call
  | get
  | set
deriving DecidableEq, Repr

structure Method where
  /-- Decorators, modifiers and the name. -/
  head : String
  name : String
  role : Role
  isStatic : Bool
  params : String
  /-- The text between the parameter list and the body. -/
  between : String
  body : List Statement
deriving DecidableEq, Repr

/-- A class member: a method with a body, or the text of anything else. -/
inductive MemberContent where
  | method (method : Method)
  | other (text : String)
deriving DecidableEq, Repr

structure Member where
  blankBefore : Bool
  content : MemberContent
deriving DecidableEq, Repr

structure ClassDecl where
  blankBefore : Bool
  leading : String
  /-- Everything from the first keyword up to the body. -/
  header : String
  name : Option String
  extended : Option String
  members : List Member
  /-- What follows the closing brace in the same statement. -/
  trailing : String
deriving DecidableEq, Repr

inductive Item where
  | statement (statement : Statement)
  | classDecl (decl : ClassDecl)
deriving DecidableEq, Repr

def Item.blankBefore : Item → Bool
  | .statement s => s.blankBefore
  | .classDecl c => c.blankBefore

structure Module where
  items : List Item
deriving DecidableEq, Repr

/-- The tokens of a text that carry code; none if it cannot be read. -/
def codeOf (text : String) : List Token :=
  match tokenize text with
  | .ok tokens => tokens.filter fun t => !t.isTrivia
  | .error _ => []

def Statement.startsWithCall (s : Statement) (callee : String) : Bool :=
  match codeOf s.text with
  | a :: b :: _ => a.isWord callee && b.isPunct "("
  | _ => false

def callPosition (body : List Statement) (callee : String) : Option Nat :=
  body.findIdx? fun s => s.startsWithCall callee

/-- The statements with `s` put in at `position`, at most at the end. -/
def insertStatement (body : List Statement) (position : Nat) (s : Statement) : List Statement :=
  body.take position ++ s :: body.drop position

/-- The number of parameters among `tokens`, inside `depth` brackets; `pending` says that the current one has a token. -/
def countParams (depth : Nat) (pending : Bool) : List Token → Nat
  | [] => if pending then 1 else 0
  | t :: ts =>
    if t.isOpener then countParams (depth + 1) true ts
    else if t.isCloser then countParams (depth - 1) true ts
    else if t.isPunct "," && depth == 0 then (if pending then 1 else 0) + countParams depth false ts
    else countParams depth true ts

def Method.paramCount (m : Method) : Nat := countParams 0 false (codeOf m.params)

def Method.plain (name params : String) (body : List Statement) : Method :=
  { head := name, name := name, role := if name == "constructor" then .construct else .call
    isStatic := false, params := params, between := "", body := body }

def codeNodes (text : String) : Option (List Node) := do
  let tokens ← (tokenize text).toOption
  let nodes ← (forest text tokens).toOption
  -- Trivia inside groups does not matter here.
  return nodes.filter fun n => !n.isTrivia

def fieldModifiers : List String := ["public", "private", "protected", "readonly", "override"]

def Node.isLeaf (n : Node) (p : Token → Bool) : Bool :=
  match n with
  | .leaf t => p t
  | .group .. => false

export Node (isLeaf)

def leadingBrace : List Node → Option Token
  | .group opener _ _ :: _ => if opener.isPunct openBrace then some opener else none
  | _ => none

/-- The opening brace of the function whose parameter list stands at the front. -/
def braceAfterParams : List Node → Option Token
  | .group opener _ _ :: rest => if opener.isPunct "(" then leadingBrace rest else none
  | _ => none

/-- The opening brace of the body of the function expression or arrow function at the front. -/
def functionBrace (nodes : List Node) : Option Token :=
  match nodes with
  | .leaf t :: rest =>
    if t.isWord "function" then
      let rest := match rest with
        | n :: more => if n.isLeaf fun t => t.isPunct "*" then more else rest
        | [] => rest
      let rest := match rest with
        | n :: more => if n.isLeaf fun t => t.kind == .word then more else rest
        | [] => rest
      braceAfterParams rest
    else if t.kind == .word then
      match rest with
      | arrow :: body => if arrow.isLeaf fun t => t.isPunct "=>" then leadingBrace body else none
      | [] => none
    else none
  | .group opener _ _ :: arrow :: body =>
    if opener.isPunct "(" && arrow.isLeaf fun t => t.isPunct "=>" then leadingBrace body else none
  | _ => none

/-- The offset just after the brace that opens the body of the function held by the field `name`. -/
def fieldFunctionBody (text name : String) : Option Nat := do
  let nodes ← codeNodes text
  let nodes := nodes.dropWhile fun n =>
    n.isLeaf fun t => t.kind == .word && fieldModifiers.contains t.text
  match nodes with
  | field :: assign :: rest =>
    guard (field.isLeaf (fun t => t.isWord name) && assign.isLeaf (fun t => t.isPunct "="))
    let rest := match rest with
      | n :: more => if n.isLeaf fun t => t.isWord "async" then more else rest
      | [] => rest
    let brace ← functionBrace rest
    return brace.stop
  | _ => none

/-- The text `stmt` as it is put in front of the rest of a function body: on a line of its own when the body starts on a
new line. -/
def bodyInsertion (stmt : String) (rest : List Char) : String :=
  let onNewLine := rest.contains '\n' && (rest.takeWhile (· != '\n')).all isBlank
  if onNewLine then "\n" ++ stmt
  else if rest.head?.any isBlank then " " ++ stmt
  else " " ++ stmt ++ " "

namespace ClassDecl

def findMethod (c : ClassDecl) (name : String) : Option Nat :=
  c.members.findIdx? fun m =>
    match m.content with
    | .method m => m.name == name && !m.isStatic && m.role == .call
    | .other _ => false

/-- The position of the first field `name` that holds a function with a body in braces. -/
def findFieldFunction (c : ClassDecl) (name : String) : Option Nat :=
  c.members.findIdx? fun m =>
    match m.content with
    | .method _ => false
    | .other text => (fieldFunctionBody text name).isSome

def constructorIndex (c : ClassDecl) : Option Nat :=
  c.members.findIdx? fun m =>
    match m.content with
    | .method m => m.role == .construct
    | .other _ => false

/-- The class with `stmt` as the first statement of the function that the field `name` at `position` holds. -/
def prependToFieldFunction? (c : ClassDecl) (position : Nat) (name stmt : String) :
    Option ClassDecl := do
  let member ← c.members[position]?
  match member.content with
  | .method _ => none
  | .other text =>
    let offset ← fieldFunctionBody text name
    let rest := dropBytes offset text.toList
    let text := String.ofList (takeBytes offset text.toList) ++ bodyInsertion stmt rest ++
      String.ofList rest
    return { c with members := c.members.set position { member with content := .other text } }

def methodAt? (c : ClassDecl) (position : Nat) : Option Method :=
  match c.members[position]? with
  | some ⟨_, .method m⟩ => some m
  | _ => none

def modifyMethod (c : ClassDecl) (position : Nat) (f : Method → Method) : ClassDecl :=
  { c with members := c.members.modify position fun member =>
      match member.content with
      | .method m => { member with content := .method (f m) }
      | .other _ => member }

/-- The class with a method put in at `position`, at most at the end, apart from its neighbours. -/
def insertMethod (c : ClassDecl) (position : Nat) (m : Method) : ClassDecl :=
  let after := match c.members.drop position with
    | next :: rest => { next with blankBefore := true } :: rest
    | [] => []
  { c with members := c.members.take position ++ ⟨true, .method m⟩ :: after }

end ClassDecl

namespace Module

def extendingClass? (m : Module) : Option ClassDecl :=
  m.items.findSome? fun item =>
    match item with
    | .classDecl c => if c.extended.isSome then some c else none
    | .statement _ => none

/-- The items with the first class that extends another one changed. -/
def modifyExtendingItems (f : ClassDecl → ClassDecl) : List Item → List Item
  | [] => []
  | .classDecl c :: items =>
    if c.extended.isSome then .classDecl (f c) :: items
    else .classDecl c :: modifyExtendingItems f items
  | .statement s :: items => .statement s :: modifyExtendingItems f items

/-- The script with the first class that extends another one changed. -/
def modifyExtendingClass (m : Module) (f : ClassDecl → ClassDecl) : Module :=
  ⟨modifyExtendingItems f m.items⟩

end Module

end CustomElement.Script
