import CustomElement.Script.Module

/-!
# Reading the statement tree

`parseModule` cuts the forest of a script into items. A statement ends after its semicolon, after the block that
completes it, or before a line break at which it can end; a comment behind it on the same line belongs to it.
-/

namespace CustomElement.Script

open Text

def nextCode (nodes : List Node) : Option Token :=
  (nodes.find? fun n => !n.isTrivia).map Node.first

def Node.isGroup (n : Node) (opener : String) : Bool :=
  match n with
  | .leaf _ => false
  | .group o _ _ => o.isPunct opener

def Node.isBlank (n : Node) : Bool := n.isLeaf fun t => t.kind == .blank

/-- What is expected while the decorators before a declaration are passed over. -/
inductive Decorator where
  | outside
  /-- A name, after the mark or a point. -/
  | name
  /-- A point or the arguments, after a name. -/
  | suffix
deriving DecidableEq, Repr

/-- Passing over one node of a decorator: the expectation after it, if the node belongs to it. -/
def Decorator.pass (d : Decorator) (n : Node) : Option Decorator :=
  match d with
  | .outside => none
  | .name => if n.isLeaf fun t => t.kind == .word then some .suffix else none
  | .suffix =>
    if n.isLeaf fun t => t.isPunct "." then some .name
    else if n.isGroup "(" then some .outside
    else none

/-- The first word of a statement after `export`, `default`, `async` and decorators, or its opening
brace, with its position. -/
def leadWord (d : Decorator) : List Node → Option (String × Nat)
  | [] => none
  | n :: nodes =>
    if n.isTrivia then leadWord d nodes
    else
      match d.pass n with
      | some d => leadWord d nodes
      | none =>
        if n.isLeaf fun t => t.isPunct "@" then leadWord .name nodes
        else if n.isLeaf fun t => t.kind == .word && ["export", "default", "async"].contains t.text then
          leadWord .outside nodes
        else if n.isGroup openBrace || n.isLeaf fun t => t.kind == .word then
          some (n.first.text, nodes.length + 1)
        else none

/-- A line break between `last` and the token `next` ends the statement, unless it follows the head of an `if` or a loop;
`header` is the token before the parentheses that `last` closes. -/
def breakEnds (last header : Option Token) (next : Option Token) : Bool :=
  match last, next with
  | some l, some n =>
    let inHead := l.isPunct ")" && header.any fun h =>
      h.kind == .word && ["if", "for", "while", "with"].contains h.text
    l.canEndStatement && !inHead && !n.continuesExpression
  | _, _ => false

def blockWords : List String :=
  ["if", "for", "while", "do", "switch", "try", "function", "class", "with", openBrace]

def blockFollows : Option Token → Bool
  | none => false
  | some t =>
    t.isPunct ")" ||
      (t.kind == .word && (["else", "try", "finally", "do"].contains t.text || !isKeyword t.text))

def continuesBlock (lead : Option String) (next : Option Token) : Bool :=
  next.any fun n => n.kind == .word &&
    (["else", "catch", "finally"].contains n.text || (n.text == "while" && lead == some "do"))

/-- The number of nodes of the statement at the front, if it ends before the last node. `lead` is its first word, at
`leadAt`; `last` is the token before, and `header` the one before the group that `last` closes. -/
def statementExtent (lead : Option String) (leadAt : Nat) (last header : Option Token) :
    List Node → Option Nat
  | [] => none
  | .leaf t :: nodes =>
    let more (last header : Option Token) := (statementExtent lead leadAt last header nodes).map (· + 1)
    if t.kind == .blank then
      if t.hasNewline && nodes.length + 1 < leadAt && breakEnds last header (nextCode nodes) then
        some 0
      else more last header
    else if t.isComment then more last header
    else if t.isPunct ";" then some 1
    else more (some t) none
  | .group opener _ closer :: nodes =>
    let completes := opener.isPunct openBrace && lead.any blockWords.contains &&
      (nodes.length + 1 == leadAt || blockFollows last) &&
      !continuesBlock lead (nextCode nodes)
    if completes then some 1
    else (statementExtent lead leadAt (some closer) last nodes).map (· + 1)

def trimNodes (nodes : List Node) : List Node := (nodes.reverse.dropWhile Node.isBlank).reverse

def statementLength (nodes : List Node) : Nat :=
  let lead := leadWord .outside nodes
  let leadAt := (lead.map Prod.snd).getD nodes.length
  (statementExtent (lead.map Prod.fst) leadAt none none nodes).getD (trimNodes nodes).length

/-- The number of nodes of a comment at the front that stands on the line before it. -/
def trailingComment (nodes : List Node) : Nat :=
  let onLine (n : Node) : Bool := n.isLeaf fun t => t.isComment && !t.hasNewline
  match nodes with
  | a :: b :: _ =>
    if a.isLeaf fun t => t.kind == .blank && !t.hasNewline then if onLine b then 2 else 0
    else if onLine a then 1 else 0
  | [a] => if onLine a then 1 else 0
  | [] => 0

/-- A line that starts with this token would carry on the one before it, so a semicolon guards it. -/
def needsGuard (t : Token) : Bool :=
  match t.kind with
  | .punct => ["(", "[", "+", "-", "/"].contains t.text
  | .template | .regex => true
  | _ => false

/-- The number of nodes of a semicolon at the front and the trivia behind it, if it guards the
statement after them. -/
def guardLength (nodes : List Node) : Nat :=
  match nodes with
  | n :: rest =>
    if n.isLeaf (fun t => t.isPunct ";") && (nextCode rest).any needsGuard then
      1 + (rest.takeWhile Node.isTrivia).length
    else 0
  | [] => 0

/-- The number of nodes of the statement at the front, with its guard and the comment behind it. -/
def pieceLength (nodes : List Node) : Nat :=
  let guarded := guardLength nodes
  let length := guarded + statementLength (nodes.drop guarded)
  length + trailingComment (nodes.drop length)

/-- A statement or member as nodes, and whether a blank line stands before it. -/
structure Piece where
  nodes : List Node
  blankBefore : Bool

def splitStatements (blank : Bool) (nodes : List Node) : List Piece :=
  match nodes with
  | [] => []
  | n :: rest =>
    if n.isBlank then splitStatements (blank || 2 ≤ n.first.newlines) rest
    else
      let length := pieceLength (n :: rest)
      ⟨(n :: rest).take length, blank⟩ :: splitStatements false (rest.drop (length - 1))
termination_by nodes.length

def Piece.statement (p : Piece) : Statement := ⟨textOf p.nodes, p.blankBefore⟩

inductive MemberEnd where
  /-- At a line break after so many nodes. -/
  | broken (length : Nat)
  /-- With its last node, after so many; a comment behind it belongs to it. -/
  | closed (length : Nat)
  /-- A parameter list opens after so many nodes. -/
  | params (length : Nat)
  /-- With the last node that is not blank. -/
  | runsOn

def MemberEnd.after : MemberEnd → MemberEnd
  | .broken n => .broken (n + 1)
  | .closed n => .closed (n + 1)
  | .params n => .params (n + 1)
  | .runsOn => .runsOn

/-- How the member at the front ends. `assigned` says whether an equals sign has been read. -/
def memberEnd (d : Decorator) (assigned : Bool) (last header : Option Token) :
    List Node → MemberEnd
  | [] => .runsOn
  | n :: nodes =>
    if n.isTrivia then
      if n.isBlank && n.first.hasNewline && breakEnds last header (nextCode nodes) then .broken 0
      else (memberEnd d assigned last header nodes).after
    else
      match d.pass n with
      | some d => (memberEnd d assigned none none nodes).after
      | none =>
        match n with
        | .leaf t =>
          if t.isPunct ";" then .closed 1
          else if t.isPunct "@" then (memberEnd .name assigned none none nodes).after
          else if t.isPunct "=" then (memberEnd .outside true (some t) none nodes).after
          else (memberEnd .outside assigned (some t) none nodes).after
        | .group opener _ closer =>
          if opener.isPunct "(" && !assigned then .params 0
          else if opener.isPunct openBrace && !assigned then .closed 1
          else (memberEnd .outside assigned (some closer) last nodes).after

/-- How the member goes on after its parameter list: with a body after so many nodes, or without. -/
inductive SignatureEnd where
  | body (length : Nat)
  | broken (length : Nat)
  | closed (length : Nat)
  | runsOn

def SignatureEnd.after : SignatureEnd → SignatureEnd
  | .body n => .body (n + 1)
  | .broken n => .broken (n + 1)
  | .closed n => .closed (n + 1)
  | .runsOn => .runsOn

def signatureEnd : List Node → SignatureEnd
  | [] => .runsOn
  | n :: nodes =>
    if n.isGroup openBrace then .body 0
    else if n.isLeaf fun t => t.isPunct ";" then .closed 1
    else if n.isBlank && n.first.hasNewline &&
        !(nextCode nodes).any (fun t => t.isPunct openBrace || t.continuesExpression) then .broken 0
    else (signatureEnd nodes).after

def methodModifiers : List String :=
  ["static", "async", "get", "set", "public", "private", "protected", "readonly", "override",
   "abstract", "declare", "accessor"]

def undecorated (d : Decorator) : List Node → List Node
  | [] => []
  | n :: nodes =>
    if n.isTrivia then undecorated d nodes
    else
      match d.pass n with
      | some d => undecorated d nodes
      | none =>
        if n.isLeaf fun t => t.isPunct "@" then undecorated .name nodes
        else n :: undecorated .outside nodes

structure MethodName where
  name : String
  role : Option Role
  isStatic : Bool

/-- The name that `nodes` give after modifiers and the mark of a generator. A modifier that only type parameters follow is
the name itself. -/
def readMethodName (role : Option Role) (isStatic : Bool) : List Node → MethodName
  | [] => ⟨"", role, isStatic⟩
  | n :: nodes =>
    let more := nodes.head?.any fun m => !m.first.isPunct "<"
    if more && n.isLeaf fun t => t.kind == .word && methodModifiers.contains t.text then
      let word := n.first.text
      let role := if word == "get" then some .get else if word == "set" then some .set else role
      readMethodName role (isStatic || word == "static") nodes
    else if n.isLeaf fun t => t.isPunct "*" then readMethodName role isStatic nodes
    else if n.isGroup "[" then ⟨textOf [n], role, isStatic⟩
    else ⟨n.first.text, role, isStatic⟩

/-- A method from the nodes before its parameter list, inside it, between it and the body, and inside
the body. -/
def methodOf (head params between body : List Node) : Method :=
  let name := readMethodName none false (undecorated .outside head)
  let role := match name.role with
    | some role => role
    | none => if name.name == "constructor" && !name.isStatic then .construct else .call
  { head := trim (textOf head), name := name.name, role := role, isStatic := name.isStatic
    params := trim (textOf params), between := trim (textOf between)
    body := (splitStatements false body).map Piece.statement }

def Node.inside : Node → List Node
  | .leaf _ => []
  | .group _ inside _ => inside

def readMember (nodes : List Node) : MemberContent × Nat :=
  let other (length : Nat) : MemberContent × Nat := (.other (textOf (nodes.take length)), length)
  let withComment (length : Nat) : Nat := length + trailingComment (nodes.drop length)
  match memberEnd .outside false none none nodes with
  | .broken n => other n
  | .closed n => other (withComment n)
  | .runsOn => other (trimNodes nodes).length
  | .params n =>
    match nodes.drop n with
    | [] => other nodes.length
    | params :: rest =>
      match signatureEnd rest with
      | .broken m => other (n + 1 + m)
      | .closed m => other (withComment (n + 1 + m))
      | .runsOn => other (trimNodes nodes).length
      | .body m =>
        match rest.drop m with
        | [] => other nodes.length
        | body :: _ =>
          (.method (methodOf (nodes.take n) params.inside (rest.take m) body.inside),
            withComment (n + 1 + m + 1))

def splitMembers (blank : Bool) (nodes : List Node) : List Member :=
  match nodes with
  | [] => []
  | n :: rest =>
    if n.isBlank then splitMembers (blank || 2 ≤ n.first.newlines) rest
    else if n.isLeaf fun t => t.isPunct ";" then splitMembers blank rest
    else
      let (content, length) := readMember (n :: rest)
      ⟨blank, content⟩ :: splitMembers false (rest.drop (length - 1))
termination_by nodes.length

/-- The class declaration that a statement is, if a body follows its keyword. -/
def readClass (p : Piece) : Option ClassDecl := do
  let (_, leadAt) ← leadWord .outside p.nodes
  let start := p.nodes.length - leadAt
  -- Between the keyword and the body.
  let clauses := (p.nodes.drop (start + 1)).takeWhile fun n => !n.isGroup openBrace
  let bodyAt := start + 1 + clauses.length
  let body ← p.nodes[bodyAt]?
  let leading := p.nodes.takeWhile Node.isTrivia
  let name := ((clauses.find? fun n => !n.isTrivia).filter fun n =>
    n.isLeaf fun t => t.kind == .word && t.text != "extends" && t.text != "implements").map
      fun n => n.first.text
  let isExtends (n : Node) : Bool := n.isLeaf fun t => t.isWord "extends"
  let isImplements (n : Node) : Bool := n.isLeaf fun t => t.isWord "implements"
  let extended := (clauses.findIdx? isExtends).map fun e =>
    let stop := ((clauses.findIdx? isImplements).filter (e < ·)).getD clauses.length
    trim (textOf ((clauses.take stop).drop (e + 1)))
  return {
    blankBefore := p.blankBefore
    leading := trim (textOf leading)
    header := trimEnd (textOf ((p.nodes.take bodyAt).drop leading.length))
    name := name
    extended := extended
    members := splitMembers false body.inside
    trailing := trim (textOf (p.nodes.drop (bodyAt + 1))) }

def Piece.item (p : Piece) : Item :=
  let isClass := (leadWord .outside p.nodes).any fun lead => lead.1 == "class"
  match if isClass then readClass p else none with
  | some c => .classDecl c
  | none => .statement p.statement

def parseModule (source : String) : Except Fault Module := do
  let tokens ← tokenize source
  let nodes ← forest source tokens
  return ⟨(splitStatements false nodes).map Piece.item⟩

end CustomElement.Script
