import CustomElement.Script.Erasure.Stream
import CustomElement.Text.Integer

/-!
# Enumerations

An enumeration becomes a variable and a function that fills it in, one assignment for each member. A member without an
initializer has the value after that of the member before it: the next integer where that is an integer numeral, and
otherwise one more at run time. None can follow a string.
-/

namespace CustomElement.Script

open Text

/-- The value after `value`, which is that of the member `key` of the enumeration `name`. -/
def nextEnumValue (value name key : String) : String :=
  let digits := (trimList value.toList).filter (· != '_')
  let parsed := match digits with
    | '0' :: 'x' :: hex => int64? 16 hex
    | '0' :: 'X' :: hex => int64? 16 hex
    | digits => int64? 10 digits
  match parsed with
  | some n => if n + 1 < wordBound then toString (n + 1) else name ++ "[" ++ key ++ "] + 1"
  | none => name ++ "[" ++ key ++ "] + 1"

/-- The tokens of an initializer with the names of `members` written as members of `name`. A name after a point, which
`last` may be, is a property. -/
def qualifyTokens (name : String) (members : List String) (last : Option Token) :
    List Token → String
  | [] => ""
  | t :: ts =>
    let afterPoint := last.any fun p => p.isPunct "." || p.isPunct "?."
    let bare := t.kind == .word && members.contains t.text && !afterPoint
    (if bare then name ++ "." ++ t.text else t.text) ++
      qualifyTokens name members (t.orPrevious last) ts

/-- An expression with the bare names of `members` written as members of `name`. -/
def qualifyMembers (expr name : String) (members : List String) : Except Fault String := do
  let tokens ← tokenize expr
  return qualifyTokens name members none tokens

def hasInterpolation : List Char → Bool
  | '$' :: '{' :: _ => true
  | _ :: cs => hasInterpolation cs
  | [] => false

/-- The value given to a member: an expression, and whether it is a string literal. -/
structure EnumValue where
  text : String
  isString : Bool

namespace Stream

variable (s : Stream)

/-- The position of the comma that ends the initializer at `m`, or the end of the body. -/
def initializerEnd (hi m : Nat) : Nat :=
  if m < hi ∧ !s.is m "," then initializerEnd hi (s.skip hi m) else m
termination_by hi - m
decreasing_by
  have h := s.lt_skip hi m
  omega

def enumInitializer (erase : String → Except Fault String) (lo hi : Nat) (name : String)
    (members : List String) : Except Fault EnumValue := do
  let start := (s.tok lo).start
  let raw := takeBytes ((s.tok (hi - 1)).stop - start) (dropBytes start s.source.toList)
  let t := s.tok lo
  let single := hi == lo + 1
  if single && (t.kind == .string || (t.kind == .template && !hasInterpolation raw)) then
    return ⟨String.ofList raw, true⟩
  else
    let expr ← erase (String.ofList raw)
    let text ← qualifyMembers expr name members
    return ⟨text, false⟩

def enumKey (m : Nat) : Except Fault (String × String) :=
  let t := s.tok m
  match t.kind with
  | .word => .ok ("'" ++ t.text ++ "'", t.text)
  | .string => .ok (t.text, String.ofList (t.text.toList.drop 1).dropLast)
  | _ => .error (s.unsupported m "computed enum member")

/-- The assignments for the members of the enumeration `name` from `m` up to `hi`; `members` are the names before them,
and `next` is the value of a member without initializer. -/
def enumLines (erase : String → Except Fault String) (name : String) (hi m : Nat)
    (members : List String) (next : Option String) : Except Fault (List String) :=
  if m < hi then do
    let (key, member) ← s.enumKey m
    let assigned := m + 1 < hi && s.is (m + 1) "="
    let stop := if assigned then s.initializerEnd hi (m + 2) else m + 1
    if assigned && stop == m + 2 then throw (s.unsupported (m + 1) "enum initializer")
    let value ← if assigned then
        some <$> s.enumInitializer erase (m + 2) stop name members
      else pure none
    let after := if stop < hi && s.is stop "," then stop + 1 else stop
    let ownKey := name ++ "[" ++ key ++ "]"
    let numbered (text : String) : String := name ++ "[" ++ ownKey ++ " = " ++ text ++ "] = " ++ key ++ ";"
    let (line, next) ← match value, next with
      | some ⟨text, true⟩, _ => pure (ownKey ++ " = " ++ text ++ ";", none)
      | some ⟨text, false⟩, _ => pure (numbered text, some (nextEnumValue text name key))
      | none, some text => pure (numbered text, some (nextEnumValue text name key))
      | none, none => throw (s.unsupported m "enum member without initializer")
    let lines ← enumLines erase name hi (max after (m + 1)) (members ++ [member]) next
    return line :: lines
  else return []
termination_by hi - m

/-- The edit that lowers the enumeration whose keyword, or the `const` before it, stands at `k`, in a statement that
starts at `first`; and the position after its body. -/
def lowerEnum (erase : String → Except Fault String) (first k hi : Nat) :
    Except Fault (List Edit × Nat) := do
  let nameAt := if s.is k "const" then k + 2 else k + 1
  let bodyAt := nameAt + 1
  if !s.isWord nameAt || hi ≤ bodyAt || !s.is bodyAt openBrace then
    throw (s.unsupported k "enum")
  else
    let name := (s.tok nameAt).text
    let stop := s.close hi bodyAt
    let indent := s.indentAt (s.tok first).start
    let exported := if first != k then "export " else ""
    let lines ← s.enumLines erase name stop (bodyAt + 1) [] (some "0")
    let body := String.join (lines.map fun line => indent ++ "  " ++ line ++ "\n")
    let text := exported ++ "var " ++ name ++ ";\n" ++ indent ++ "(function (" ++ name ++ ") \x7b\n" ++
      body ++ indent ++ "\x7d)(" ++ name ++ " || (" ++ name ++ " = \x7b\x7d));"
    return ([⟨(s.tok first).start, (s.tok stop).stop, text⟩], stop + 1)

end Stream

end CustomElement.Script
