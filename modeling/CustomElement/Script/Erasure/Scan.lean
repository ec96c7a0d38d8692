import CustomElement.Script.Erasure.Declaration

/-!
# The walk that erases types

The tokens of a script are walked frame by frame: a frame is the whole text or the inside of a pair of brackets. `step`
looks at one token of a frame and decides: which edits it calls for, which group to enter, and where to go on. Every
move goes forward and every group entered lies inside the frame, so the walk ends. `stripTypes` asks a `Grammar` before
and after: whether the text is a module of the typed language, and whether what is left is one of the plain one.
-/

namespace CustomElement.Script

open Text

inductive Frame where
  /-- The top level of a module, or a block of statements. -/
  | block
  | classBody
  | object
  | paren
  | bracket
  | specifiers
deriving DecidableEq, Repr

/-- Whether a variable declaration is being read, and which part of it. -/
inductive Binding where
  | outside
  | name
  | value
deriving DecidableEq, Repr

structure Progress where
  last : Option Token := none
  /-- How many question marks of conditional expressions wait for their colon. -/
  ternary : Nat := 0
  binding : Binding := .outside
  caseLabel : Bool := false
  /-- Whether the last colon stood before a value. -/
  colonValue : Bool := false
  first : Option Token := none
  heritage : Bool := false

/-- A group to enter: what frame it is, and the positions between its brackets. -/
structure Inner where
  frame : Frame
  lo : Nat
  hi : Nat

structure Move where
  edits : List Edit := []
  inner : Option Inner := none
  progress : Progress
  next : Nat

/-- The edits that erase types inside the expressions of a template literal. -/
def substitutionEdits (erase : String → Except Fault String) (t : Token) :
    Except Fault (List Edit) := do
  let substitutions ← templateSubstitutions t.text
  let edits ← substitutions.mapM fun sub => do
    let expr := (sub.span.slice? t.text).getD ""
    let erased ← erase expr
    return if erased == expr then []
      else [(⟨t.start + sub.span.start, t.start + sub.span.stop, erased⟩ : Edit)]
  return edits.flatten

def valueWords : List String :=
  ["return", "typeof", "yield", "await", "in", "of", "case", "throw", "void", "delete", "const",
   "let", "var", "default"]

def Progress.braceFrame (p : Progress) : Frame :=
  match p.last with
  | none => .block
  | some last =>
    let inClause := p.first.any fun t => t.isOneOf ["import", "export"]
    if inClause && (last.isOneOf ["import", "export", "type"] || last.isPunct ",") then .specifiers
    else
      match last.kind with
      | .punct =>
        if [")", ";", closeBrace, "=>", openBrace].contains last.text then .block
        else if last.text == ":" && !p.colonValue then .block
        else .object
      | .word => if valueWords.contains last.text then .object else .block
      | _ => .block

def typeArgumentsAllowed : Option Token → Bool
  | none => true
  | some t =>
    match t.kind with
    | .word => !isKeyword t.text || ["return", "yield", "await"].contains t.text
    | .punct => ["=", "(", ",", ":", "=>", "?", "&&", "||", "??", "["].contains t.text
    | _ => false

namespace Stream

variable (s : Stream)

def keep (p : Progress) (j : Nat) : Move :=
  { progress := { p with last := some (s.tok j) }, next := j + 1 }

def enter (frame : Frame) (p : Progress) (hi j : Nat) : Move :=
  let stop := s.close hi j
  { inner := some ⟨frame, j + 1, stop⟩
    progress := { p with last := some (s.tok stop) }
    next := stop + 1 }

def implementsEnd (hi b : Nat) : Nat :=
  if b < hi ∧ !s.is b openBrace then
    match if s.is b "<" then s.angleEnd hi b else none with
    | some ⟨angle, _⟩ => implementsEnd hi (angle + 1)
    | none => implementsEnd hi (b + 1)
  else b
termination_by hi - b

/-- The rest of a class from `m` on: the `implements` clause goes, and the body is entered. -/
def classTail (p : Progress) (hi m : Nat) : Move :=
  let p := { p with heritage := false }
  let listed := m < hi && s.is m "implements"
  let bodyAt := if listed then s.implementsEnd hi (m + 1) else m
  let edits := if listed && bodyAt < hi then
    Edit.remove (s.tok m).start (s.tok bodyAt).start else []
  if bodyAt < hi && s.is bodyAt openBrace then
    { s.enter .classBody p hi bodyAt with edits := edits }
  else
    let next := min bodyAt hi
    { edits := edits, progress := { p with last := some (s.tok (next - 1)) }, next := next }

/-- One token of an `extends` clause: type arguments that end the clause go, and groups are
entered. -/
def heritageStep (p : Progress) (hi m : Nat) : Move :=
  if s.isAny m [openBrace, "implements"] then s.classTail p hi m
  else
    let arguments := if s.is m "<" then
      (s.angleEnd hi m).filter fun angle => s.isAny (angle.1 + 1) [openBrace, "implements"]
      else none
    match arguments with
    | some ⟨angle, _⟩ =>
      { edits := Edit.remove (s.tok m).start (s.tok angle).stop
        progress := { p with last := some (s.tok angle) }, next := angle + 1 }
    | none =>
      if (s.tok m).isOpener then s.enter .paren p hi m else s.keep p m

def classStep (p : Progress) (hi j : Nat) : Except Fault Move := do
  let m := if s.isWord (j + 1) && !s.isAny (j + 1) ["extends", "implements"] then j + 2 else j + 1
  let (edits, m) ← if m < hi && s.is m "<" then
      match s.angleEnd hi m with
      | some angle => pure (Edit.remove (s.tok m).start (s.tok angle.1).stop, angle.1 + 1)
      | none => throw (s.unsupported m "type parameters")
    else pure ([], m)
  if m < hi && s.is m "extends" then
    return { edits := edits
             progress := { p with last := some (s.tok m), heritage := true }, next := m + 1 }
  else
    let move := s.classTail p hi m
    return { move with edits := edits ++ move.edits }

/-- An assertion operator stands at `j`: it follows an operand on its line, and a type follows. -/
def isAssertion (frame : Frame) (p : Progress) (hi j : Nat) : Bool :=
  frame != .specifiers && p.last.any Token.endsExpression && !s.breakBefore j &&
    j + 1 < hi && s.typeStarts (j + 1)

/-- The name of a type among the specifiers of an import or export, with its comma. -/
def specifierStep (p : Progress) (hi j : Nat) : Move :=
  let stop := if s.is (j + 2) "as" then j + 4 else j + 2
  if stop < hi && s.is stop "," then
    let edits := if stop + 1 < hi then Edit.remove (s.tok j).start (s.tok (stop + 1)).start
      else s.removeTokens j (stop + 1)
    { edits := edits, progress := p, next := stop + 1 }
  else
    match p.last.filter fun t => t.isOneOf [","] with
    | some comma =>
      { edits := Edit.remove comma.start (s.tok (stop - 1)).stop, progress := p, next := stop }
    | none => { edits := s.removeTokens j stop, progress := p, next := stop }

def wordStep (frame : Frame) (p : Progress) (hi j : Nat) : Except Fault Move := do
  let t := s.tok j
  let afterPoint := p.last.any fun q => q.isOneOf [".", "?."]
  if ["var", "let", "const"].contains t.text && (frame == .block || frame == .paren) &&
      !afterPoint then
    return s.keep { p with binding := .name } j
  else if ["as", "satisfies"].contains t.text && s.isAssertion frame p hi j then
    let stop ← s.typeEnd hi (j + 1)
    return { edits := s.removeInline j stop.1, progress := p, next := stop.1 }
  else if t.text == "this" && frame == .paren && p.last.isNone && s.is (j + 1) ":" then
    let stop ← s.typeEnd hi (j + 2)
    if stop.1 + 1 < hi && s.is stop.1 "," then
      return { edits := Edit.remove t.start (s.tok (stop.1 + 1)).start, progress := p
               next := stop.1 + 1 }
    else return { edits := s.removeTokens j stop.1, progress := p, next := stop.1 }
  else
    let follower := s.tok (j + 1)
    if frame == .paren && accessModifiers.contains t.text &&
        p.last.all (fun q => q.isOneOf [","]) &&
        (follower.kind == .word || follower.isPunct openBrace || follower.isPunct "[") then
      return { edits := Edit.remove t.start follower.start, progress := p, next := j + 1 }
    else return s.keep p j

/-- The decision at a colon: an annotation goes, and other colons are kept. -/
def colonStep (frame : Frame) (p : Progress) (hi j : Nat) : Except Fault Move := do
  if 0 < p.ternary then
    return s.keep { p with ternary := p.ternary - 1, colonValue := true } j
  else if p.caseLabel then return s.keep { p with caseLabel := false, colonValue := false } j
  else
    let afterParen := p.last.any fun q => q.isOneOf [")"]
    let annotation := match frame with
      | .paren | .classBody => true
      | .object => afterParen
      | .block => afterParen || p.binding == Binding.name
      | .bracket | .specifiers => false
    if annotation then
      let stop ← s.typeEnd hi (j + 1)
      return { edits := s.removeInline j stop.1, progress := p, next := stop.1 }
    else return s.keep { p with colonValue := frame == Frame.object } j

/-- The decision at an opening angle: a type assertion or type arguments go. -/
def angleStep (p : Progress) (hi j : Nat) : Move :=
  let t := s.tok j
  let assertion := p.last.all fun q => !q.endsExpression && !q.isOneOf ["++", "--"]
  let angle? := if assertion || typeArgumentsAllowed p.last then
    ((s.angleEnd hi j).map Subtype.val).filter fun angle => angle + 1 < hi else none
  match angle? with
  | some angle =>
    if assertion then
      { edits := Edit.remove t.start (s.tok (angle + 1)).start, progress := p, next := angle + 1 }
    else if s.is (angle + 1) "(" then
      { edits := Edit.remove t.start (s.tok angle).stop, progress := p, next := angle + 1 }
    else s.keep p j
  | none => s.keep p j

def punctStep (frame : Frame) (p : Progress) (hi j : Nat) : Except Fault Move :=
  let t := s.tok j
  let drop : Move := { edits := Edit.remove t.start t.stop, progress := p, next := j + 1 }
  if t.text == "?" then
    let optional := s.isAny (j + 1) [":", ",", ")", ";"] ||
      (frame == .classBody && (s.is (j + 1) "(" || hi ≤ j + 1 || s.breakBefore (j + 1)))
    return if optional then drop else s.keep { p with ternary := p.ternary + 1 } j
  else if t.text == ":" then s.colonStep frame p hi j
  else if t.text == "=" then
    return s.keep { p with binding := if p.binding == .outside then .outside else .value } j
  else if t.text == "," then
    return s.keep { p with binding := if p.binding == .outside then .outside else .name } j
  else if t.text == ";" then return s.keep { p with binding := .outside, ternary := 0 } j
  else if t.text == "!" then
    let nonNull := p.last.any fun q => q.stop == t.start && q.endsExpression
    return if nonNull then drop else s.keep p j
  else if t.text == "<" then return s.angleStep p hi j
  else if t.text == "(" then return s.enter .paren p hi j
  else if t.text == "[" then return s.enter .bracket p hi j
  else if t.text == openBrace then return s.enter p.braceFrame p hi j
  else return s.keep p j

def tokenStep (erase : String → Except Fault String) (frame : Frame) (p : Progress) (hi j : Nat) :
    Except Fault Move := do
  let t := s.tok j
  let afterPoint := p.last.any fun q => q.isOneOf [".", "?."]
  if t.isWord "class" && !afterPoint && !s.isAny (j + 1) [":", "(", "="] then s.classStep p hi j
  else if frame == .specifiers && t.isWord "type" && s.isWord (j + 1) && !s.is (j + 1) "as" then
    return s.specifierStep p hi j
  else
    match t.kind with
    | .word => s.wordStep frame p hi j
    | .punct => s.punctStep frame p hi j
    | .template =>
      let edits ← if hasInterpolation t.text.toList then substitutionEdits erase t else pure []
      return { s.keep p j with edits := edits }
    | _ => return s.keep p j

def memberStep (erase : String → Except Fault String) (p : Progress) (hi j : Nat) :
    Except Fault Move := do
  match ← s.memberDeclaration hi j with
  | some (edits, next) => return { edits := edits, progress := p, next := next }
  | none =>
    let (edits, next) := s.stripMemberModifiers hi j
    if next != j then return { edits := edits, progress := p, next := next }
    else
      let properties := if s.is j "constructor" && s.is (j + 1) "(" then
        s.parameterProperties hi (j + 1) else []
      let move ← s.tokenStep erase .classBody p hi j
      return { move with edits := properties ++ move.edits }

def step (erase : String → Except Fault String) (frame : Frame) (p : Progress) (hi j : Nat) :
    Except Fault Move := do
  if p.heritage then return s.heritageStep p hi j
  else if (frame == .block || frame == .classBody) && s.startsStatement j p.last then
    let p := { p with ternary := 0, binding := .outside, caseLabel := false, first := some (s.tok j) }
    if frame == .block then
      match ← s.declaration erase hi j with
      | some (edits, next) => return { edits := edits, progress := p, next := next }
      | none =>
        s.tokenStep erase frame { p with caseLabel := s.isAny j ["case", "default"] } hi j
    else s.memberStep erase p hi j
  else s.tokenStep erase frame p hi j

/-- The edits that erase the types of the frame from `j` up to `hi`. -/
def scan (erase : String → Except Fault String) (frame : Frame) (p : Progress) (hi j : Nat) :
    Except Fault (List Edit) :=
  if j < hi then do
    let move ← s.step erase frame p hi j
    let inside ← match move.inner with
      | some inner => scan erase inner.frame {} (min inner.hi hi) (max inner.lo (j + 1))
      | none => pure []
    let rest ← scan erase frame move.progress hi (max move.next (j + 1))
    return move.edits ++ inside ++ rest
  else return []
termination_by hi - j

end Stream

/-- The text without its first and its last byte, if it can be cut there. -/
def withoutParentheses (text : String) : String :=
  ((Span.mk 1 (byteLength text.toList - 1)).slice? text).getD ""

/-- The expression `expr` without its types. Expressions inside it are shorter than it; `depth` bounds how deep they are
followed. -/
def eraseExpression : (depth : Nat) → (expr : String) → Except Fault String
  | 0, expr => .ok expr
  | depth + 1, expr => do
    let s ← Stream.read ("(" ++ expr ++ ")")
    let edits ← s.scan (eraseExpression depth) .paren {} (s.size - 1) 1
    return withoutParentheses (applyEdits s.source edits)

def typeEdits (source : String) : Except Fault (List Edit) := do
  let s ← Stream.read source
  s.scan (eraseExpression source.length) .block {} s.size 0

def eraseTypes (source : String) : Except Fault String := do
  let edits ← typeEdits source
  return applyEdits source edits

/-- Verdicts on whole texts: which are modules of the typed language, and which of the plain one. -/
structure Grammar where
  typed : String → Bool
  plain : String → Bool

/-- The script without its types, if the grammar accepts it both with and without them. -/
def stripTypes (grammar : Grammar) (source : String) : Except Fault String := do
  unless grammar.typed source do throw .notTyped
  let out ← eraseTypes source
  unless grammar.plain out do throw .notPlain
  return out

end CustomElement.Script
