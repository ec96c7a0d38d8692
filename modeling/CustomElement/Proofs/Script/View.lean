import CustomElement.Script.Erasure.Scan

/-!
# The walk with every look checked

The walk that erases types is written down a second time, on a `View` of a stream, with nothing taken for granted: a
token that is looked up has to be there, a piece of text has to start and stop between characters, and a loop has to
get on; otherwise the walk is *lost*, which is the outcome `none`.
-/

namespace CustomElement.Script

open Text

/-- Why a walk stops: at a token that it does not support, or in a text that is read by itself. -/
inductive Snag where
  | own (j : Nat) (construct : String)
  | dividing (template : String)
  | erasing (expr : String)
  | reading (expr : String)

/-- A computation that can stop at a snag or be lost. -/
abbrev Checked := ExceptT Snag Option

def Checked.lost {α : Type} : Checked α := ExceptT.mk none

structure Mark where
  token : Nat
  offset : Nat

inductive Change where
  | cut (lo hi : Mark)
  | put (lo hi : Mark) (text : String)

structure Stride where
  changes : List Change := []
  inner : Option Inner := none
  progress : Progress
  next : Nat

/-- What a walk sees of a script: its code, every token at its own position, and the text by way of tokens. -/
structure View where
  code : Stream
  meets : Nat → Nat → Bool
  indent? : Nat → Option String
  between? : Nat → Nat → Option String

namespace View

variable (v : View) (erase? : String → Option (Option String))

def tok? (j : Nat) : Option Token := v.code.tokens[j]?

def close? (j : Nat) : Option Nat := v.code.partners[j]?.map (·.getD j)

def skip? (j : Nat) : Option Nat := do
  if (← v.tok? j).isOpener then (· + 1) <$> v.close? j else some (j + 1)

def start? (j : Nat) : Option Mark := (v.tok? j).map fun _ => ⟨j, 0⟩

def stop? (j : Nat) : Option Mark := (v.tok? j).map fun t => ⟨j, byteLength t.text.toList⟩

def cut? (lo hi : Option Mark) : Option (List Change) := do return [.cut (← lo) (← hi)]

def cutTokens? (lo hi : Nat) : Option (List Change) :=
  if lo < hi then cut? (v.start? lo) (v.stop? (hi - 1)) else some []

def cutInline? (lo hi : Nat) : Option (List Change) :=
  if lo < hi then
    cut? (if 0 < lo && !v.code.breakBefore lo then v.stop? (lo - 1) else v.start? lo) (v.stop? (hi - 1))
  else some []

/-- The end of a statement, or of an ambient declaration, which stops after its first pair of braces too. -/
def endFrom? (ambient : Bool) (hi start m : Nat) : Option Nat := do
  if m < hi then
    if start < m && v.code.breakBefore m && (← v.tok? (m - 1)).canEndStatement && !(← v.tok? m).continuesExpression then
      some m
    else if v.code.is m ";" then some (m + 1)
    else if ambient && v.code.is m openBrace then (· + 1) <$> v.close? m
    else
      let k ← v.skip? m
      if m < k then endFrom? ambient hi start k else none
  else some hi
termination_by hi - m

def interfaceBody? (hi angle m : Nat) : Option (Option Nat) := do
  if m < hi then
    if v.code.is m "<" then interfaceBody? hi (angle + 1) (m + 1)
    else if v.code.is m ">" then interfaceBody? hi (angle - 1) (m + 1)
    else if v.code.is m openBrace && angle == 0 then some (some m)
    else
      let k ← v.skip? m
      if m < k then interfaceBody? hi angle k else none
  else some none
termination_by hi - m

def superCall? (lo hi m : Nat) : Option (Option Nat) := do
  if m < hi then
    if v.code.is m "super" && v.code.is (m + 1) "(" &&
        (m == lo || v.code.isAny (m - 1) [";", closeBrace] || v.code.breakBefore m) then some (some m)
    else
      let k ← v.skip? m
      if m < k then superCall? lo hi k else none
  else some none
termination_by hi - m

def propertyNames? (hi m : Nat) (atParameter : Bool) : Option (List String) := do
  if m < hi then
    let name := v.code.skipAccessModifiers hi m
    let k ← v.skip? m
    if m < k then
      let rest ← propertyNames? hi k (v.code.is m ",")
      if atParameter && m < name then some ((← v.tok? name).text :: rest) else some rest
    else none
  else some []
termination_by hi - m

def initializerEnd? (hi m : Nat) : Option Nat := do
  if m < hi ∧ !v.code.is m "," then
    let k ← v.skip? m
    if m < k then initializerEnd? hi k else none
  else some m
termination_by hi - m

def angleEnd? (hi depth m : Nat) : Option (Option Nat) := do
  if m < hi then
    let t ← v.tok? m
    if t.isPunct "<" then angleEnd? hi (depth + 1) (m + 1)
    else if t.isPunct ">" then if depth ≤ 1 then some (some m) else angleEnd? hi (depth - 1) (m + 1)
    else if t.isOpener then
      let k ← v.close? m
      if m < k then angleEnd? hi depth (k + 1) else none
    else if t.kind == .punct && Stream.notInTypes.contains t.text then some none
    else angleEnd? hi depth (m + 1)
  else some none
termination_by hi - m

def angleAt? (sought : Bool) (hi m : Nat) : Option (Option Nat) := if sought then v.angleEnd? hi 0 m else some none

def implementsEnd? (hi b : Nat) : Option Nat := do
  if b < hi ∧ !v.code.is b openBrace then
    match ← v.angleAt? (v.code.is b "<") hi b with
    | some angle => if b ≤ angle then implementsEnd? hi (angle + 1) else none
    | none => implementsEnd? hi (b + 1)
  else some b
termination_by hi - b

def stripModifiers? (hi m : Nat) : Option (List Change × Nat) := do
  if m + 1 < hi ∧ v.code.memberNameLike (m + 1) ∧ v.code.isWord m then
    let t ← v.tok? m
    if accessModifiers.contains t.text then
      let (changes, next) ← stripModifiers? hi (m + 1)
      return ((← cut? (v.start? m) (v.start? (m + 1))) ++ changes, next)
    else if ["static", "async", "accessor", "get", "set"].contains t.text then stripModifiers? hi (m + 1)
    else some ([], m)
  else some ([], m)
termination_by hi - m

def suffixEnd? (hi m : Nat) : Option Nat := do
  if m < hi ∧ v.code.is m "[" ∧ !v.code.breakBefore m then
    let k ← v.close? m
    if m < k then suffixEnd? hi (k + 1) else none
  else some m
termination_by hi - m

section Types

variable (type? : Nat → Checked Nat)

def functionEnd? (hi j : Nat) : Checked Nat := do
  if j < hi ∧ v.code.is j "(" then
    let k ← v.close? j
    if k + 1 < hi && v.code.is (k + 1) "=>" then type? (k + 2) else throw (.own j "function type")
  else throw (.own j "function type")

def argumentsEnd? (hi m : Nat) : Checked Nat := do
  if m < hi && v.code.is m "<" && !v.code.breakBefore m then
    match ← v.angleEnd? hi 0 m with
    | some angle => return angle + 1
    | none => throw (.own m "type arguments")
  else return m

def primaryEnd? (hi i : Nat) : Checked Nat := do
  if i < hi then
    let t ← v.tok? i
    match t.kind with
    | .punct =>
      if t.text == "<" then
        match ← v.angleEnd? hi 0 i with
        | some angle => v.functionEnd? type? hi (angle + 1)
        | none => throw (.own i "type parameters")
      else if t.text == "(" then
        let k ← v.close? i
        if k + 1 < hi && v.code.is (k + 1) "=>" then type? (k + 2) else return k + 1
      else if t.text == openBrace || t.text == "[" then return (← v.close? i) + 1
      else if t.text == "-" && (v.code.tok (i + 1)).kind == .number then return i + 2
      else throw (.own i t.text)
    | .word =>
      let n ← v.argumentsEnd? hi (v.code.dottedEnd hi (i + 1)).1
      if n < hi && v.code.is n "is" && !v.code.breakBefore n then type? (n + 1) else return n
    | .string | .number | .template => return i + 1
    | _ => throw (.own i t.text)
  else throw (.own i "type")

def operandEnd? (hi j : Nat) : Checked Nat := do
  let m ← v.primaryEnd? type? hi (v.code.operandStart hi j).1
  v.suffixEnd? hi m

def branchesEnd? (hi k checked : Nat) : Checked Nat := do
  if checked < hi && v.code.is checked "?" then
    let yes ← type? (checked + 1)
    if yes < hi && v.code.is yes ":" then type? (yes + 1) else throw (.own k "conditional type")
  else throw (.own k "conditional type")

def tailEnd? (hi k : Nat) : Checked Nat := do
  if k < hi then
    if v.code.isAny k ["|", "&"] then
      let m ← v.operandEnd? type? hi (k + 1)
      if k < m then tailEnd? hi m else .lost
    else if v.code.is k "extends" && !v.code.breakBefore k then
      let checked ← v.operandEnd? type? hi (k + 1)
      let m ← v.branchesEnd? type? hi k checked
      if k < m then tailEnd? hi m else .lost
    else return k
  else return k
termination_by hi - k

end Types

/-- The position after a type. The types inside it have to lie ahead. -/
def typeEnd? (hi j : Nat) : Checked Nat := do
  let type? (k : Nat) : Checked Nat := if hi - k < hi - j then typeEnd? hi k else .lost
  let k ← v.operandEnd? type? hi (if j < hi && v.code.isAny j ["|", "&"] then j + 1 else j)
  v.tailEnd? type? hi k
termination_by hi - j

def erased? (expr : String) : Checked String := do
  match ← erase? expr with
  | some text => return text
  | none => throw (.erasing expr)

def initializer? (lo hi : Nat) (name : String) (members : List String) : Checked EnumValue := do
  let raw ← v.between? lo (hi - 1)
  let t ← v.tok? lo
  if hi == lo + 1 && (t.kind == .string || (t.kind == .template && !hasInterpolation raw.toList)) then return ⟨raw, true⟩
  else
    let expr ← erased? erase? raw
    match tokenize expr with
    | .ok tokens => return ⟨qualifyTokens name members none tokens, false⟩
    | .error _ => throw (.reading expr)

def enumKey? (m : Nat) : Checked (String × String) := do
  let t ← v.tok? m
  match t.kind with
  | .word => return ("'" ++ t.text ++ "'", t.text)
  | .string => return (t.text, ← (Span.mk 1 (byteLength t.text.toList - 1)).slice? t.text)
  | _ => throw (.own m "computed enum member")

def assigned (hi m : Nat) : Bool := m + 1 < hi && v.code.is (m + 1) "="

def memberStop? (hi m : Nat) : Option Nat := if v.assigned hi m then v.initializerEnd? hi (m + 2) else some (m + 1)

def memberValue? (name : String) (hi m : Nat) (members : List String) : Checked (Option EnumValue) := do
  if v.assigned hi m then
    let stop ← v.memberStop? hi m
    if stop = m + 2 then throw (.own (m + 1) "enum initializer")
    else some <$> v.initializer? erase? (m + 2) stop name members
  else return none

def nextMember? (hi m : Nat) : Option Nat := do
  let stop ← v.memberStop? hi m
  if stop < hi && v.code.is stop "," then some (stop + 1) else some stop

def memberLine? (name key : String) (m : Nat) (value : Option EnumValue) (next : Option String) :
    Checked (String × Option String) :=
  let ownKey := name ++ "[" ++ key ++ "]"
  let numbered (text : String) : String := name ++ "[" ++ ownKey ++ " = " ++ text ++ "] = " ++ key ++ ";"
  match value, next with
  | some ⟨text, true⟩, _ => return (ownKey ++ " = " ++ text ++ ";", none)
  | some ⟨text, false⟩, _ => return (numbered text, some (nextEnumValue text name key))
  | none, some text => return (numbered text, some (nextEnumValue text name key))
  | none, none => throw (.own m "enum member without initializer")

def enumLines? (name : String) (hi m : Nat) (members : List String) (next : Option String) : Checked (List String) := do
  if m < hi then
    let key ← v.enumKey? m
    let value ← v.memberValue? erase? name hi m members
    let line ← memberLine? name key.1 m value next
    let after ← v.nextMember? hi m
    if m < after then
      let lines ← enumLines? name hi after (members ++ [key.2]) line.2
      return line.1 :: lines
    else .lost
  else return []
termination_by hi - m

def lowerEnum? (first k hi : Nat) : Checked (List Change × Nat) := do
  let nameAt := if v.code.is k "const" then k + 2 else k + 1
  let bodyAt := nameAt + 1
  if !v.code.isWord nameAt || hi ≤ bodyAt || !v.code.is bodyAt openBrace then throw (.own k "enum")
  else
    let name := (← v.tok? nameAt).text
    let stop ← v.close? bodyAt
    let indent ← v.indent? first
    let exported := if first != k then "export " else ""
    let lines ← v.enumLines? erase? name stop (bodyAt + 1) [] (some "0")
    let body := String.join (lines.map fun line => indent ++ "  " ++ line ++ "\n")
    let text := exported ++ "var " ++ name ++ ";\n" ++ indent ++ "(function (" ++ name ++ ") \x7b\n" ++
      body ++ indent ++ "\x7d)(" ++ name ++ " || (" ++ name ++ " = \x7b\x7d));"
    return ([.put (← v.start? first) (← v.stop? stop) text], stop + 1)

/-- The position of a parameter list, behind the type parameters if some are listed. -/
def parametersAt? (listed : Bool) (hi m : Nat) : Option (Option Nat) :=
  if listed then Option.map (· + 1) <$> v.angleEnd? hi 0 m else some (some m)

def bodilessEnd? (hi m : Nat) : Checked (Option Nat) := do
  let listEnd := (← v.close? m) + 1
  let after ← if listEnd < hi && v.code.is listEnd ":" then v.typeEnd? hi (listEnd + 1) else pure listEnd
  return if after < hi && v.code.is after openBrace then none else some (v.code.pastSemicolon hi after)

def dropTo? (lo hi : Nat) : Option (Option (List Change × Nat)) := do return some (← v.cutTokens? lo hi, hi)

def typeAlias? (first k hi : Nat) : Checked (Option (List Change × Nat)) := do
  let m ← if v.code.is (k + 2) "<" then
      match ← v.angleEnd? hi 0 (k + 2) with
      | some angle => pure (angle + 1)
      | none => throw (.own (k + 2) "type parameters")
    else pure (k + 2)
  if v.code.is m "=" then
    let stop ← v.typeEnd? hi (m + 1)
    v.dropTo? first (v.code.pastSemicolon hi stop)
  else throw (.own k "type alias")

def overload? (exported : Bool) (first k hi : Nat) : Checked (Option (List Change × Nat)) := do
  let a := if exported && v.code.is k "default" then k + 1 else k
  let b := if v.code.is a "async" then a + 1 else a
  if v.code.is b "function" then
    let c := if v.code.is (b + 1) "*" then b + 2 else b + 1
    let d := if v.code.isWord c then c + 1 else c
    match ← v.parametersAt? (v.code.is d "<") hi d with
    | none => return none
    | some m =>
      if m < hi && v.code.is m "(" then
        match ← v.bodilessEnd? hi m with
        | some stop => v.dropTo? first stop
        | none => return none
      else return none
  else return none

def declaration? (hi first : Nat) : Checked (Option (List Change × Nat)) := do
  let exported := v.code.is first "export"
  let k := if exported then first + 1 else first
  if hi ≤ k then return none
  else if exported && v.code.is k "=" then throw (.own k "export =")
  else if v.code.is k "import" && !exported then
    if v.code.is (k + 1) "type" && !v.code.isAny (k + 2) ["from", ",", "="] then
      v.dropTo? first (← v.endFrom? false hi k k)
    else if v.code.isWord (k + 1) && v.code.is (k + 2) "=" then throw (.own k "import =")
    else return none
  else if exported && v.code.is k "type" && v.code.isAny (k + 1) [openBrace, "*"] then
    v.dropTo? first (← v.endFrom? false hi k k)
  else if v.code.is k "declare" && v.code.isWord (k + 1) && !v.code.breakBefore (k + 1) then
    v.dropTo? first (← v.endFrom? true hi (k + 1) (k + 1))
  else if v.code.is k "interface" && v.code.isWord (k + 1) && !v.code.breakBefore (k + 1) then
    match ← v.interfaceBody? hi 0 (k + 2) with
    | some body => v.dropTo? first ((← v.close? body) + 1)
    | none => throw (.own k "interface")
  else if v.code.is k "type" && v.code.isWord (k + 1) && v.code.isAny (k + 2) ["=", "<"] then v.typeAlias? first k hi
  else if (v.code.is k "enum" && v.code.isWord (k + 1)) || (v.code.is k "const" && v.code.is (k + 1) "enum") then
    some <$> v.lowerEnum? erase? first k hi
  else if v.code.isAny k ["namespace", "module"] &&
      ((v.code.tok (k + 1)).kind == .word || (v.code.tok (k + 1)).kind == .string) && !v.code.breakBefore (k + 1) then
    throw (.own k "namespace")
  else if v.code.is k "abstract" && v.code.is (k + 1) "class" then
    return some (← cut? (v.start? k) (v.start? (k + 1)), k + 1)
  else v.overload? exported first k hi

def nameEnd? (m : Nat) : Option Nat := if v.code.is m "[" then (· + 1) <$> v.close? m else some (m + 1)

def memberDeclaration? (hi j : Nat) : Checked (Option (List Change × Nat)) := do
  if v.code.is j "[" && v.code.isWord (j + 1) && v.code.is (j + 2) ":" then
    let listEnd := (← v.close? j) + 1
    let stop ← if listEnd < hi && v.code.is listEnd ":" then v.typeEnd? hi (listEnd + 1) else pure listEnd
    v.dropTo? j (v.code.pastSemicolon hi stop)
  else
    let (m, dropped) := v.code.skipMemberModifiers hi j false
    let nameAt := if v.code.is m "*" then m + 1 else m
    if !(v.code.is nameAt "[" || v.code.memberNameLike nameAt) then return none
    else
      let nameEnd ← v.nameEnd? nameAt
      let marked := if nameEnd < hi && v.code.isAny nameEnd ["?", "!"] then nameEnd + 1 else nameEnd
      match ← v.parametersAt? (marked < hi && v.code.is marked "<") hi marked with
      | none => return none
      | some n =>
        if n < hi && v.code.is n "(" then
          match ← v.bodilessEnd? hi n with
          | some stop => v.dropTo? j stop
          | none => return none
        else if dropped then v.dropTo? j (← v.endFrom? false hi (min n hi) (min n hi))
        else return none

def anchor? (body bodyEnd : Nat) : Option (Mark × String) := do
  match ← v.superCall? (body + 1) bodyEnd (body + 1) with
  | some call => return (← v.stop? ((← v.endFrom? false bodyEnd call call) - 1), ← v.indent? call)
  | none =>
    if body + 1 < bodyEnd && v.code.breakBefore (body + 1) then return (← v.stop? body, ← v.indent? (body + 1))
    else return (← v.stop? body, (← v.indent? body) ++ "  ")

def parameterProperties? (hi start : Nat) : Option (List Change) := do
  let listEnd ← v.close? start
  let names ← v.propertyNames? listEnd (start + 1) true
  let body := listEnd + 1
  if names.isEmpty || hi ≤ body || !v.code.is body openBrace then some []
  else
    let bodyEnd ← v.close? body
    let (anchor, indent) ← v.anchor? body bodyEnd
    let assignments := String.join (names.map fun name => "\n" ++ indent ++ "this." ++ name ++ " = " ++ name ++ ";")
    let ending ← if body + 1 == bodyEnd && !v.code.breakBefore bodyEnd then ("\n" ++ ·) <$> v.indent? body else some ""
    some [.put anchor anchor (assignments ++ ending)]

def keep? (p : Progress) (j : Nat) : Option Stride := do
  return { progress := { p with last := some (← v.tok? j) }, next := j + 1 }

def enter? (frame : Frame) (p : Progress) (j : Nat) : Option Stride := do
  let stop ← v.close? j
  return { inner := some ⟨frame, j + 1, stop⟩, progress := { p with last := some (← v.tok? stop) }, next := stop + 1 }

def classTail? (p : Progress) (hi m : Nat) : Option Stride := do
  let p := { p with heritage := false }
  let listed := m < hi && v.code.is m "implements"
  let bodyAt? := if listed then v.implementsEnd? hi (m + 1) else some m
  let bodyAt ← bodyAt?
  let changes? := if listed && bodyAt < hi then cut? (v.start? m) (v.start? bodyAt) else some []
  let changes ← changes?
  if bodyAt < hi && v.code.is bodyAt openBrace then
    return { ← v.enter? .classBody p bodyAt with changes := changes }
  else
    let next := min bodyAt hi
    return { changes := changes, progress := { p with last := some (← v.tok? (next - 1)) }, next := next }

def heritageStep? (p : Progress) (hi m : Nat) : Option Stride := do
  if v.code.isAny m [openBrace, "implements"] then v.classTail? p hi m
  else
    let angle? ← v.angleAt? (v.code.is m "<") hi m
    match angle?.filter fun angle => v.code.isAny (angle + 1) [openBrace, "implements"] with
    | some angle =>
      return { changes := ← cut? (v.start? m) (v.stop? angle)
               progress := { p with last := some (← v.tok? angle) }, next := angle + 1 }
    | none => if (← v.tok? m).isOpener then v.enter? .paren p m else v.keep? p m

def classStep? (p : Progress) (hi j : Nat) : Checked Stride := do
  let m := if v.code.isWord (j + 1) && !v.code.isAny (j + 1) ["extends", "implements"] then j + 2 else j + 1
  let (changes, m) ← if m < hi && v.code.is m "<" then
      match ← v.angleEnd? hi 0 m with
      | some angle => pure (← cut? (v.start? m) (v.stop? angle), angle + 1)
      | none => throw (.own m "type parameters")
    else pure ([], m)
  if m < hi && v.code.is m "extends" then
    return { changes := changes, progress := { p with last := some (← v.tok? m), heritage := true }, next := m + 1 }
  else
    let move ← v.classTail? p hi m
    return { move with changes := changes ++ move.changes }

def specifierStep? (p : Progress) (hi j : Nat) : Option Stride := do
  let stop := if v.code.is (j + 2) "as" then j + 4 else j + 2
  if stop < hi && v.code.is stop "," then
    let changes? := if stop + 1 < hi then cut? (v.start? j) (v.start? (stop + 1)) else v.cutTokens? j (stop + 1)
    return { changes := ← changes?, progress := p, next := stop + 1 }
  else
    match p.last.filter fun t => t.isOneOf [","] with
    | some comma => return { changes := ← cut? (v.start? comma.start) (v.stop? (stop - 1)), progress := p, next := stop }
    | none => return { changes := ← v.cutTokens? j stop, progress := p, next := stop }

def wordStep? (frame : Frame) (p : Progress) (hi j : Nat) : Checked Stride := do
  let t ← v.tok? j
  let afterPoint := p.last.any fun q => q.isOneOf [".", "?."]
  if ["var", "let", "const"].contains t.text && (frame == .block || frame == .paren) && !afterPoint then
    v.keep? { p with binding := .name } j
  else if ["as", "satisfies"].contains t.text && v.code.isAssertion frame p hi j then
    let stop ← v.typeEnd? hi (j + 1)
    return { changes := ← v.cutInline? j stop, progress := p, next := stop }
  else if t.text == "this" && frame == .paren && p.last.isNone && v.code.is (j + 1) ":" then
    let stop ← v.typeEnd? hi (j + 2)
    if stop + 1 < hi && v.code.is stop "," then
      return { changes := ← cut? (v.start? j) (v.start? (stop + 1)), progress := p, next := stop + 1 }
    else return { changes := ← v.cutTokens? j stop, progress := p, next := stop }
  else
    let follower := v.code.tok (j + 1)
    if frame == .paren && accessModifiers.contains t.text && p.last.all (fun q => q.isOneOf [","]) &&
        (follower.kind == .word || follower.isPunct openBrace || follower.isPunct "[") then
      return { changes := ← cut? (v.start? j) (v.start? (j + 1)), progress := p, next := j + 1 }
    else v.keep? p j

def colonStep? (frame : Frame) (p : Progress) (hi j : Nat) : Checked Stride := do
  if 0 < p.ternary then v.keep? { p with ternary := p.ternary - 1, colonValue := true } j
  else if p.caseLabel then v.keep? { p with caseLabel := false, colonValue := false } j
  else
    let afterParen := p.last.any fun q => q.isOneOf [")"]
    let annotation := match frame with
      | .paren | .classBody => true
      | .object => afterParen
      | .block => afterParen || p.binding == Binding.name
      | .bracket | .specifiers => false
    if annotation then
      let stop ← v.typeEnd? hi (j + 1)
      return { changes := ← v.cutInline? j stop, progress := p, next := stop }
    else v.keep? { p with colonValue := frame == Frame.object } j

def angleStep? (p : Progress) (hi j : Nat) : Option Stride := do
  let assertion := p.last.all fun q => !q.endsExpression && !q.isOneOf ["++", "--"]
  let angle? ← v.angleAt? (assertion || typeArgumentsAllowed p.last) hi j
  match angle?.filter fun angle => angle + 1 < hi with
  | some angle =>
    if assertion then
      return { changes := ← cut? (v.start? j) (v.start? (angle + 1)), progress := p, next := angle + 1 }
    else if v.code.is (angle + 1) "(" then
      return { changes := ← cut? (v.start? j) (v.stop? angle), progress := p, next := angle + 1 }
    else v.keep? p j
  | none => v.keep? p j

def drop? (p : Progress) (j : Nat) : Option Stride := do
  return { changes := ← cut? (v.start? j) (v.stop? j), progress := p, next := j + 1 }

def punctStep? (frame : Frame) (p : Progress) (hi j : Nat) : Checked Stride := do
  let t ← v.tok? j
  if t.text == "?" then
    let optional := v.code.isAny (j + 1) [":", ",", ")", ";"] ||
      (frame == .classBody && (v.code.is (j + 1) "(" || hi ≤ j + 1 || v.code.breakBefore (j + 1)))
    if optional then v.drop? p j else v.keep? { p with ternary := p.ternary + 1 } j
  else if t.text == ":" then v.colonStep? frame p hi j
  else if t.text == "=" then
    v.keep? { p with binding := if p.binding == .outside then .outside else .value } j
  else if t.text == "," then
    v.keep? { p with binding := if p.binding == .outside then .outside else .name } j
  else if t.text == ";" then v.keep? { p with binding := .outside, ternary := 0 } j
  else if t.text == "!" then
    if p.last.any fun q => v.meets q.start j && q.endsExpression then v.drop? p j else v.keep? p j
  else if t.text == "<" then v.angleStep? p hi j
  else if t.text == "(" then v.enter? .paren p j
  else if t.text == "[" then v.enter? .bracket p j
  else if t.text == openBrace then v.enter? p.braceFrame p j
  else v.keep? p j

def substitutionChanges? (j : Nat) (template : String) : Checked (List Change) := do
  match templateSubstitutions template with
  | .error _ => throw (.dividing template)
  | .ok substitutions =>
    let changes ← substitutions.mapM fun sub => do
      let expr ← sub.span.slice? template
      let erased ← erased? erase? expr
      return if erased == expr then [] else [Change.put ⟨j, sub.span.start⟩ ⟨j, sub.span.stop⟩ erased]
    return changes.flatten

def tokenStep? (frame : Frame) (p : Progress) (hi j : Nat) : Checked Stride := do
  let t ← v.tok? j
  let afterPoint := p.last.any fun q => q.isOneOf [".", "?."]
  if t.isWord "class" && !afterPoint && !v.code.isAny (j + 1) [":", "(", "="] then v.classStep? p hi j
  else if frame == .specifiers && t.isWord "type" && v.code.isWord (j + 1) && !v.code.is (j + 1) "as" then
    v.specifierStep? p hi j
  else
    match t.kind with
    | .word => v.wordStep? frame p hi j
    | .punct => v.punctStep? frame p hi j
    | .template =>
      let changes ← if hasInterpolation t.text.toList then substitutionChanges? erase? j t.text else pure []
      return { ← v.keep? p j with changes := changes }
    | _ => v.keep? p j

def memberStep? (p : Progress) (hi j : Nat) : Checked Stride := do
  match ← v.memberDeclaration? hi j with
  | some (changes, next) => return { changes := changes, progress := p, next := next }
  | none =>
    let (changes, next) ← v.stripModifiers? hi j
    if next != j then return { changes := changes, progress := p, next := next }
    else
      let properties? := if v.code.is j "constructor" && v.code.is (j + 1) "(" then v.parameterProperties? hi (j + 1)
        else some []
      let properties ← properties?
      let move ← v.tokenStep? erase? .classBody p hi j
      return { move with changes := properties ++ move.changes }

def step? (frame : Frame) (p : Progress) (hi j : Nat) : Checked Stride := do
  let t ← v.tok? j
  if p.heritage then v.heritageStep? p hi j
  else if (frame == .block || frame == .classBody) && v.code.startsStatement j p.last then
    let p := { p with ternary := 0, binding := .outside, caseLabel := false, first := some t }
    if frame == .block then
      match ← v.declaration? erase? hi j with
      | some (changes, next) => return { changes := changes, progress := p, next := next }
      | none => v.tokenStep? erase? frame { p with caseLabel := v.code.isAny j ["case", "default"] } hi j
    else v.memberStep? erase? p hi j
  else v.tokenStep? erase? frame p hi j

/-- The changes that erase the types of a frame. Every decision has to lead on, and into groups of the frame. -/
def scan? (frame : Frame) (p : Progress) (hi j : Nat) : Checked (List Change) := do
  if j < hi then
    let move ← v.step? erase? frame p hi j
    let inside ← match move.inner with
      | some inner => if j < inner.lo ∧ inner.hi ≤ hi then scan? inner.frame {} inner.hi inner.lo else .lost
      | none => pure []
    if j < move.next then
      let rest ← scan? frame move.progress hi move.next
      return move.changes ++ inside ++ rest
    else .lost
  else return []
termination_by hi - j

end View

end CustomElement.Script
