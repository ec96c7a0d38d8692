import CustomElement.Script.Lexer

/-!
# Bracketed tokens

A `Node` is a token that is no bracket, or an opening bracket, the nodes inside it and the bracket that closes it.
`forest` fails at the first closing bracket that does not fit the innermost open one, and otherwise at the innermost
bracket left open at the end.
-/

namespace CustomElement.Script

open Text

/-- A token that is no bracket, or a pair of brackets and what they enclose. -/
inductive Node where
  | leaf (token : Token)
  | group (opener : Token) (inside : List Node) (closer : Token)

mutual

def Node.tokens : Node → List Token
  | .leaf t => [t]
  | .group opener inside closer => opener :: (Node.tokensOf inside ++ [closer])

def Node.tokensOf : List Node → List Token
  | [] => []
  | n :: ns => n.tokens ++ Node.tokensOf ns

end

def Node.textOf (nodes : List Node) : String := String.join ((Node.tokensOf nodes).map Token.text)

def Node.isTrivia : Node → Bool
  | .leaf t => t.isTrivia
  | .group .. => false

def Node.first : Node → Token
  | .leaf t => t
  | .group opener _ _ => opener

def Node.last : Node → Token
  | .leaf t => t
  | .group _ _ closer => closer

def closerOf (opener : String) : String :=
  if opener == "(" then ")" else if opener == "[" then "]" else closeBrace

def unbalanced (source : String) (t : Token) : Fault :=
  .unbalanced t.text (Location.of source t.start)

/-- A group that is not closed yet: its opening bracket, and its siblings before it, the last one first. -/
structure OpenGroup where
  opener : Token
  before : List Node

/-- The forest of what has been read and of `tokens`; `siblings` are the nodes since the innermost open bracket, the last
one first. -/
def forestFrom (source : String) :
    (tokens : List Token) → (siblings : List Node) → (stack : List OpenGroup) →
    Except Fault (List Node)
  | [], siblings, [] => .ok siblings.reverse
  | [], _, group :: _ => .error (unbalanced source group.opener)
  | t :: tokens, siblings, stack =>
    if t.isOpener then forestFrom source tokens [] (⟨t, siblings⟩ :: stack)
    else if t.isCloser then
      match stack with
      | [] => .error (unbalanced source t)
      | group :: stack =>
        if t.text == closerOf group.opener.text then
          forestFrom source tokens (.group group.opener siblings.reverse t :: group.before) stack
        else .error (unbalanced source t)
    else forestFrom source tokens (.leaf t :: siblings) stack

def forest (source : String) (tokens : List Token) : Except Fault (List Node) :=
  forestFrom source tokens [] []

mutual

/-- For every token of a node, which starts at position `i`, the position of its partner. -/
def Node.partners (i : Nat) : Node → List (Option Nat)
  | .leaf _ => [none]
  | .group _ inside _ =>
    let inner := Node.partnersOf (i + 1) inside
    some (i + inner.length + 1) :: (inner ++ [some i])

/-- For every token of a forest, which starts at position `i`, the position of its partner. -/
def Node.partnersOf (i : Nat) : List Node → List (Option Nat)
  | [] => []
  | n :: ns =>
    let first := n.partners i
    first ++ Node.partnersOf (i + first.length) ns

end

export Node (tokensOf textOf partnersOf)

/-- For every token the position of its partner, if it is a bracket. -/
def matchBrackets (source : String) (tokens : List Token) : Except Fault (List (Option Nat)) := do
  let nodes ← forest source tokens
  return partnersOf 0 nodes

end CustomElement.Script
