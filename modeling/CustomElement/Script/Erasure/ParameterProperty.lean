import CustomElement.Script.Erasure.Stream

/-!
# Parameter properties

A constructor parameter with an access modifier is a property as well. The constructor assigns it:
right after the first `super` call that is a statement of its body, or at the start of the body
when there is none.
-/

namespace CustomElement.Script.Stream

variable (s : Stream)

/-- The end of the statement that starts at `start`, looked for from `m` on: after a semicolon, or
at a line break that ends it. -/
def statementEndFrom (hi start m : Nat) : Nat :=
  if m < hi then
    if start < m && s.breakBefore m && (s.tok (m - 1)).canEndStatement &&
        !(s.tok m).continuesExpression then m
    else if s.is m ";" then m + 1
    else statementEndFrom hi start (s.skip hi m)
  else hi
termination_by hi - m
decreasing_by
  have h := s.lt_skip hi m
  omega

def statementEnd (hi start : Nat) : Nat := s.statementEndFrom hi start start

/-- The position of the first `super` call from `m` on that is a statement of the body from `lo`
up to `hi`. -/
def superCallFrom (lo hi m : Nat) : Option Nat :=
  if m < hi then
    if s.is m "super" && s.is (m + 1) "(" &&
        (m == lo || s.isAny (m - 1) [";", closeBrace] || s.breakBefore m) then some m
    else superCallFrom lo hi (s.skip hi m)
  else none
termination_by hi - m
decreasing_by
  have h := s.lt_skip hi m
  omega

def skipAccessModifiers (hi k : Nat) : Nat :=
  if k + 1 < hi ∧ s.isWord k ∧ accessModifiers.contains (s.tok k).text ∧ s.isWord (k + 1) then
    skipAccessModifiers hi (k + 1)
  else k
termination_by hi - k

/-- The names of the parameter properties from `m` up to `hi`; `atParameter` says whether a parameter starts at `m`. -/
def propertyNamesFrom (hi m : Nat) (atParameter : Bool) : List String :=
  if m < hi then
    let k := s.skipAccessModifiers hi m
    let rest := propertyNamesFrom hi (s.skip hi m) (s.is m ",")
    if atParameter && m < k then (s.tok k).text :: rest else rest
  else []
termination_by hi - m
decreasing_by
  have h := s.lt_skip hi m
  omega

/-- Where the assignments go in the body between `body` and `bodyEnd`, and the indentation there. -/
def propertyAnchor (body bodyEnd : Nat) : Nat × String :=
  match s.superCallFrom (body + 1) bodyEnd (body + 1) with
  | some call => ((s.tok (s.statementEnd bodyEnd call - 1)).stop, s.indentAt (s.tok call).start)
  | none =>
    if body + 1 < bodyEnd && s.breakBefore (body + 1) then
      ((s.tok body).stop, s.indentAt (s.tok (body + 1)).start)
    else ((s.tok body).stop, s.indentAt (s.tok body).start ++ "  ")

/-- The edit that assigns the parameter properties of the constructor whose parameter list opens at `start`. -/
def parameterProperties (hi start : Nat) : List Edit :=
  let listEnd := s.close hi start
  let names := s.propertyNamesFrom listEnd (start + 1) true
  let body := listEnd + 1
  if names.isEmpty || hi ≤ body || !s.is body openBrace then []
  else
    let bodyEnd := s.close hi body
    let (anchor, indent) := s.propertyAnchor body bodyEnd
    let assignments := String.join (names.map fun name =>
      "\n" ++ indent ++ "this." ++ name ++ " = " ++ name ++ ";")
    let ending := if body + 1 == bodyEnd && !s.breakBefore bodyEnd then
      "\n" ++ s.indentAt (s.tok body).start else ""
    [⟨anchor, anchor, assignments ++ ending⟩]

end CustomElement.Script.Stream
