import CustomElement.Script.Erasure.TypeExtent
import CustomElement.Script.Erasure.Enumeration
import CustomElement.Script.Erasure.ParameterProperty

/-!
# Declarations without a run-time form

At the start of a statement `declaration` recognizes what exists for its types only (imports and exports of types,
interfaces, type aliases, ambient declarations, overload signatures) and enumerations.
-/

namespace CustomElement.Script.Stream

variable (s : Stream)

/-- The end of the ambient declaration whose keyword stands at `start`, looked for from `m` on: as for a statement, or
after the first pair of braces. -/
def ambientEndFrom (hi start m : Nat) : Nat :=
  if m < hi then
    if start < m && s.breakBefore m && (s.tok (m - 1)).canEndStatement &&
        !(s.tok m).continuesExpression then m
    else if s.is m ";" then m + 1
    else if s.is m openBrace then s.close hi m + 1
    else ambientEndFrom hi start (s.skip hi m)
  else hi
termination_by hi - m
decreasing_by
  have h := s.lt_skip hi m
  omega

/-- The brace that opens the body of an interface, outside `angle` open angles. -/
def interfaceBody (hi angle m : Nat) : Option Nat :=
  if m < hi then
    if s.is m "<" then interfaceBody hi (angle + 1) (m + 1)
    else if s.is m ">" then interfaceBody hi (angle - 1) (m + 1)
    else if s.is m openBrace && angle == 0 then some m
    else interfaceBody hi angle (s.skip hi m)
  else none
termination_by hi - m
decreasing_by
  · omega
  · omega
  · have h := s.lt_skip hi m
    omega

def pastSemicolon (hi m : Nat) : Nat := if m < hi && s.is m ";" then m + 1 else m

/-- After a signature whose parameter list opens at `m`, the end of a declaration without body. -/
def bodilessEnd (hi m : Nat) : Except Fault (Option Nat) := do
  let listEnd := s.close hi m + 1
  let after ← if listEnd < hi && s.is listEnd ":" then
      Subtype.val <$> s.typeEnd hi (listEnd + 1)
    else pure listEnd
  return if after < hi && s.is after openBrace then none else some (s.pastSemicolon hi after)

def dropTo (lo hi : Nat) : Option (List Edit × Nat) := some (s.removeTokens lo hi, hi)

/-- The type alias whose keyword stands at `k`, in a statement that starts at `first`. -/
def typeAlias (first k hi : Nat) : Except Fault (Option (List Edit × Nat)) := do
  let m ← if s.is (k + 2) "<" then
      match s.angleEnd hi (k + 2) with
      | some angle => pure (angle.1 + 1)
      | none => throw (s.unsupported (k + 2) "type parameters")
    else pure (k + 2)
  if s.is m "=" then
    let stop ← s.typeEnd hi (m + 1)
    return s.dropTo first (s.pastSemicolon hi stop.1)
  else throw (s.unsupported k "type alias")

/-- The function signature without body that starts at `k`, in a statement that starts at
`first`. -/
def overload (exported : Bool) (first k hi : Nat) : Except Fault (Option (List Edit × Nat)) := do
  let a := if exported && s.is k "default" then k + 1 else k
  let b := if s.is a "async" then a + 1 else a
  if s.is b "function" then
    let c := if s.is (b + 1) "*" then b + 2 else b + 1
    let d := if s.isWord c then c + 1 else c
    let params? := if s.is d "<" then (s.angleEnd hi d).map (·.1 + 1) else some d
    match params? with
    | none => return none
    | some m =>
      if m < hi && s.is m "(" then
        match ← s.bodilessEnd hi m with
        | some stop => return s.dropTo first stop
        | none => return none
      else return none
  else return none

/-- What stands at the start of the statement at `first` and has no run-time form: the edits for it and the position after
it. -/
def declaration (erase : String → Except Fault String) (hi first : Nat) :
    Except Fault (Option (List Edit × Nat)) :=
  let exported := s.is first "export"
  let k := if exported then first + 1 else first
  if hi ≤ k then return none
  else if exported && s.is k "=" then throw (s.unsupported k "export =")
  else if s.is k "import" && !exported then
    if s.is (k + 1) "type" && !s.isAny (k + 2) ["from", ",", "="] then
      return s.dropTo first (s.statementEnd hi k)
    else if s.isWord (k + 1) && s.is (k + 2) "=" then throw (s.unsupported k "import =")
    else return none
  else if exported && s.is k "type" && s.isAny (k + 1) [openBrace, "*"] then
    return s.dropTo first (s.statementEnd hi k)
  else if s.is k "declare" && s.isWord (k + 1) && !s.breakBefore (k + 1) then
    return s.dropTo first (s.ambientEndFrom hi (k + 1) (k + 1))
  else if s.is k "interface" && s.isWord (k + 1) && !s.breakBefore (k + 1) then
    match s.interfaceBody hi 0 (k + 2) with
    | some body => return s.dropTo first (s.close hi body + 1)
    | none => throw (s.unsupported k "interface")
  else if s.is k "type" && s.isWord (k + 1) && s.isAny (k + 2) ["=", "<"] then
    s.typeAlias first k hi
  else if (s.is k "enum" && s.isWord (k + 1)) || (s.is k "const" && s.is (k + 1) "enum") then
    some <$> s.lowerEnum erase first k hi
  else if s.isAny k ["namespace", "module"] &&
      ((s.tok (k + 1)).kind == .word || (s.tok (k + 1)).kind == .string) &&
      !s.breakBefore (k + 1) then
    throw (s.unsupported k "namespace")
  else if s.is k "abstract" && s.is (k + 1) "class" then
    return some (Edit.remove (s.tok k).start (s.tok (k + 1)).start, k + 1)
  else s.overload exported first k hi

/-- The position after the modifiers at `m`, and whether one of them, or one `dropped` before, takes the member out of the
plain code. -/
def skipMemberModifiers (hi m : Nat) (dropped : Bool) : Nat × Bool :=
  if m + 1 < hi ∧ s.isWord m ∧ memberModifiers.contains (s.tok m).text ∧
      s.memberNameLike (m + 1) then
    skipMemberModifiers hi (m + 1) (dropped || s.isAny m ["declare", "abstract"])
  else (m, dropped)
termination_by hi - m

/-- What stands at the start of the class member at `j` and has no run-time form: the edits for it
and the position after it. -/
def memberDeclaration (hi j : Nat) : Except Fault (Option (List Edit × Nat)) := do
  if s.is j "[" && s.isWord (j + 1) && s.is (j + 2) ":" then
    let listEnd := s.close hi j + 1
    let stop ← if listEnd < hi && s.is listEnd ":" then
        Subtype.val <$> s.typeEnd hi (listEnd + 1)
      else pure listEnd
    return s.dropTo j (s.pastSemicolon hi stop)
  else
    let (m, dropped) := s.skipMemberModifiers hi j false
    let nameAt := if s.is m "*" then m + 1 else m
    if !(s.is nameAt "[" || s.memberNameLike nameAt) then return none
    else
      let nameEnd := if s.is nameAt "[" then s.close hi nameAt + 1 else nameAt + 1
      let marked := if nameEnd < hi && s.isAny nameEnd ["?", "!"] then nameEnd + 1 else nameEnd
      let params? := if marked < hi && s.is marked "<" then
        (s.angleEnd hi marked).map (·.1 + 1) else some marked
      match params? with
      | none => return none
      | some n =>
        if n < hi && s.is n "(" then
          match ← s.bodilessEnd hi n with
          | some stop => return s.dropTo j stop
          | none => return none
        else if dropped then return s.dropTo j (s.statementEnd hi (min n hi))
        else return none

/-- The edits that take the access modifiers at the start of a member out, and the position of the
first token left. -/
def stripMemberModifiers (hi m : Nat) : List Edit × Nat :=
  if m + 1 < hi ∧ s.memberNameLike (m + 1) ∧ s.isWord m then
    let t := s.tok m
    if accessModifiers.contains t.text then
      let (edits, next) := stripMemberModifiers hi (m + 1)
      (Edit.remove t.start (s.tok (m + 1)).start ++ edits, next)
    else if ["static", "async", "accessor", "get", "set"].contains t.text then
      stripMemberModifiers hi (m + 1)
    else ([], m)
  else ([], m)
termination_by hi - m

end CustomElement.Script.Stream
