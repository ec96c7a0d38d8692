import CustomElement.Sheet.Statement

/-!
# Selectors

A selector is a list of complex ones, each a chain of compounds and combinators. Inside a rule a
selector is meant within the selectors of the rule: an ampersand stands for them, and a selector
without one comes below them.
-/

namespace CustomElement.Sheet

open Text

structure Complex where
  pieces : List String
  ownLine : Bool := false
deriving DecidableEq, Repr

def Complex.text (c : Complex) : String := " ".intercalate c.pieces

def selectorText : List Complex → String
  | [] => ""
  | first :: rest =>
    rest.foldl (fun text c => text ++ (if c.ownLine then ",\n" else ", ") ++ c.text) first.text

def isCombinator (c : Char) : Bool := c == '>' || c == '+' || c == '~'

def isPlainName (cs : List Char) : Bool :=
  cs.all isNameChar && cs.head?.any fun c => !c.isDigit && c != '-'

def unquoteAttribute (cs : List Char) : List Char :=
  match cutAt (· == '=') cs with
  | (name, some value) =>
    let value := trimList value
    if (value.head? == some '"' || value.head? == some '\'') && isPlainName (unquote value) &&
        value.length == (unquote value).length + 2 then
      trimList name ++ '=' :: unquote value
    else trimList name ++ '=' :: value
  | (name, none) => trimList name

structure ChainState where
  /-- The finished pieces, the last one first. -/
  done : List String := []
  /-- The current compound in reverse. -/
  current : List Char := []
  /-- The inside of the current brackets in reverse. -/
  bracket : Option (List Char) := none
  depth : Nat := 0

def ChainState.finish (s : ChainState) : ChainState :=
  if s.current.isEmpty then s
  else { s with done := String.ofList s.current.reverse :: s.done, current := [] }

def ChainState.push (s : ChainState) (c : Char) : ChainState :=
  match s.bracket with
  | some inside =>
    if c == ']' then
      let text := unquoteAttribute inside.reverse
      { s with current := ']' :: text.reverse ++ '[' :: s.current, bracket := none }
    else { s with bracket := some (c :: inside) }
  | none =>
    if c == '(' then { s with current := c :: s.current, depth := s.depth + 1 }
    else if c == ')' then { s with current := c :: s.current, depth := s.depth - 1 }
    else if 0 < s.depth then { s with current := c :: s.current }
    else if c == '[' then { s with bracket := some [] }
    else if isBlank c then s.finish
    else if isCombinator c then
      let s := s.finish
      { s with done := String.singleton c :: s.done }
    else { s with current := c :: s.current }

def readChain (cs : List Char) : List String :=
  ((cs.foldl ChainState.push {}).finish).done.reverse

/-- The pieces of a text between commas that stand in no brackets; `depth` counts the brackets. -/
def splitSelectors (depth : Nat) : List Char → List (List Char)
  | [] => [[]]
  | c :: cs =>
    if c == ',' && depth == 0 then [] :: splitSelectors 0 cs
    else
      let depth := if c == '(' || c == '[' then depth + 1
        else if c == ')' || c == ']' then depth - 1
        else depth
      match splitSelectors depth cs with
      | [] => [[c]]
      | piece :: rest => (c :: piece) :: rest

def readSelectors (text : String) : List Complex :=
  match splitSelectors 0 text.toList with
  | [] => []
  | first :: rest =>
    let complex (cs : List Char) (ownLine : Bool) : Complex := ⟨readChain cs, ownLine⟩
    let rest := rest.map fun cs => complex cs ((cs.takeWhile isBlank).contains '\n')
    (complex first false :: rest).filter fun c => !c.pieces.isEmpty

def addToLast (pieces : List String) (ending : String) : List String :=
  match pieces.reverse with
  | [] => [ending]
  | last :: before => ((last ++ ending) :: before).reverse

def refersToParent (piece : String) : Bool := piece.toList.head? == some '&'

/-- The chains that `pieces` stands for within the selectors `parents`, after the chains `done`. -/
def expandPieces (parents : List Complex) : List Complex → List String → List Complex
  | done, [] => done
  | done, piece :: rest =>
    if refersToParent piece then
      let ending := String.ofList (piece.toList.drop 1)
      let next := done.flatMap fun d => parents.map fun p =>
        ⟨d.pieces ++ addToLast p.pieces ending, d.ownLine || p.ownLine⟩
      expandPieces parents next rest
    else expandPieces parents (done.map fun d => { d with pieces := d.pieces ++ [piece] }) rest

def Complex.within (c : Complex) (parents : List Complex) : List Complex :=
  if c.pieces.any refersToParent then expandPieces parents [⟨[], false⟩] c.pieces
  else parents.map fun p => ⟨p.pieces ++ c.pieces, p.ownLine || c.ownLine⟩

/-- The heads of the lists, then the heads of what is left, and so on for `n` rounds. -/
def flattenVertically {α : Type} : (n : Nat) → List (List α) → List α
  | 0, _ => []
  | n + 1, lists => lists.filterMap List.head? ++ flattenVertically n (lists.map List.tail)

/-- The selectors within the selectors around them, if there are any. -/
def selectorsWithin (parents : Option (List Complex)) (own : List Complex) : List Complex :=
  match parents with
  | none => own
  | some parents =>
    let lists := own.map fun c => c.within parents
    flattenVertically (lists.foldl (fun n l => max n l.length) 0) lists

end CustomElement.Sheet
