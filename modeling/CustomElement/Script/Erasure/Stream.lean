import CustomElement.Script.Forest
import CustomElement.Script.Edit

/-!
# The code of a script as a stream

Type erasure looks at the tokens of a script that carry code, by position. A `Stream` holds them with their partners
among the brackets and with the line breaks between them.
-/

namespace CustomElement.Script

open Text

structure Stream where
  source : String
  tokens : Array Token
  partners : Array (Option Nat)
  /-- Whether a line break separates a token from the one before it. -/
  breaks : Array Bool

namespace Stream

/-- For every token that carries code, whether a line break stands before it; `pending` says whether one has been seen. A
line comment ends its line. -/
def breaksFrom (pending : Bool) : List Token → List Bool
  | [] => []
  | t :: ts =>
    if t.isTrivia then breaksFrom (pending || t.hasNewline || t.kind == .lineComment) ts
    else pending :: breaksFrom false ts

def read (source : String) : Except Fault Stream := do
  let tokens ← tokenize source
  let code := tokens.filter fun t => !t.isTrivia
  let partners ← matchBrackets source code
  let breaks := false :: (breaksFrom false tokens).drop 1
  return ⟨source, code.toArray, partners.toArray, breaks.toArray⟩

variable (s : Stream)

def size : Nat := s.tokens.size

def tok (j : Nat) : Token := s.tokens.getD j ⟨.punct, "", byteLength s.source.toList⟩

def is (j : Nat) (text : String) : Bool :=
  ((s.tok j).kind == .word || (s.tok j).kind == .punct) && (s.tok j).text == text

def isAny (j : Nat) (texts : List String) : Bool := texts.any (s.is j)

def isWord (j : Nat) : Bool := (s.tok j).kind == .word

def breakBefore (j : Nat) : Bool := s.breaks.getD j false

/-- The position of the bracket that closes the one at `j`, inside a frame that ends at `hi`. -/
def close (hi j : Nat) : Nat :=
  match s.partners.getD j none with
  | some p => if j < p ∧ p ≤ hi then p else j
  | none => j

theorem le_close (hi j : Nat) : j ≤ s.close hi j := by
  unfold close
  split
  · split
    · omega
    · exact Nat.le_refl j
  · exact Nat.le_refl j

theorem close_le (hi j : Nat) (h : j ≤ hi) : s.close hi j ≤ hi := by
  unfold close
  split
  · split
    · omega
    · exact h
  · exact h

/-- The position after the token at `j`, or after its partner if it opens a group. -/
def skip (hi j : Nat) : Nat :=
  if (s.tok j).isOpener then s.close hi j + 1 else j + 1

theorem lt_skip (hi j : Nat) : j < s.skip hi j := by
  have h := s.le_close hi j
  unfold skip
  split <;> omega

def unsupported (j : Nat) (construct : String) : Fault :=
  .unsupported construct (Location.of s.source (s.tok j).start)

def removeTokens (lo hi : Nat) : List Edit :=
  if lo < hi then Edit.remove (s.tok lo).start (s.tok (hi - 1)).stop else []

/-- Take the tokens from `lo` up to `hi` out, with the blanks before them on their line. -/
def removeInline (lo hi : Nat) : List Edit :=
  if lo < hi then
    let start := if 0 < lo && !s.breakBefore lo then (s.tok (lo - 1)).stop else (s.tok lo).start
    Edit.remove start (s.tok (hi - 1)).stop
  else []

/-- The blanks at the beginning of the line that holds the byte `offset`. -/
def indentAt (offset : Nat) : String :=
  let before := takeBytes offset s.source.toList
  let line := (before.reverse.takeWhile (· != '\n')).reverse
  String.ofList (line.takeWhile isBlank)

/-- Between `last`, the token before, and the token at `j` a statement ends. -/
def startsStatement (j : Nat) (last : Option Token) : Bool :=
  match last with
  | none => true
  | some p =>
    ((p.kind == .word || p.kind == .punct) && (p.text == ";" || p.text == closeBrace)) ||
      (s.breakBefore j && p.canEndStatement && !(s.tok j).continuesExpression)

def typeStarts (j : Nat) : Bool :=
  let t := s.tok j
  match t.kind with
  | .word => !(["in", "of", "instanceof"].contains t.text)
  | .punct => ["(", "[", openBrace, "<", "-", "|", "&"].contains t.text
  | .string | .number | .template => true
  | _ => false

def memberNameLike (j : Nat) : Bool :=
  let t := s.tok j
  match t.kind with
  | .word | .string | .number => true
  | .punct => t.text == "[" || t.text == "*"
  | _ => false

end Stream

def Token.isOneOf (t : Token) (texts : List String) : Bool :=
  (t.kind == .word || t.kind == .punct) && texts.contains t.text

export Token (isOneOf)

def Token.endsExpression (t : Token) : Bool :=
  match t.kind with
  | .word => !isKeyword t.text
  | .number | .string | .template | .regex => true
  | .punct => t.text == ")" || t.text == "]" || t.text == closeBrace
  | _ => false

/-- The modifiers of members and parameters that leave no trace in plain code. -/
def accessModifiers : List String := ["public", "private", "protected", "readonly", "override"]

def memberModifiers : List String :=
  accessModifiers ++ ["static", "async", "get", "set", "abstract", "declare", "accessor"]

end CustomElement.Script
