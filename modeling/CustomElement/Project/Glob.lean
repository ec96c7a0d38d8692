/-!
# Glob patterns

A glob describes the texts of paths. A star stands for any text and a question mark for any byte,
slashes included; two stars between slashes stand for any number of directories. Brackets hold a set
of characters, braces a choice of patterns, and a backslash takes away the meaning of what follows.
Texts are matched as bytes.
-/

namespace CustomElement.Project

inductive GlobPart where
  | literal (c : Char)
  | anyByte
  | anyText
  | leading
  | trailing
  | between
  | set (negated : Bool) (ranges : List (Char × Char))
  | choice (branches : List (List GlobPart))
deriving Repr, Inhabited

structure Glob where
  parts : List GlobPart
deriving Repr, Inhabited

namespace Glob

structure OpenSet where
  negated : Bool
  /-- The ranges so far, the last one first. -/
  ranges : List (Char × Char) := []
  /-- A hyphen is waiting for the end of the last range. -/
  inRange : Bool := false

/-- The ranges with another end of the last one, unless that lies before its start. -/
def endRange (c : Char) : List (Char × Char) → Option (List (Char × Char))
  | (lo, _) :: rest => if lo ≤ c then some ((lo, c) :: rest) else none
  | [] => none

def OpenSet.push (s : OpenSet) (c : Char) : Option OpenSet :=
  if s.inRange then do
    let ranges ← endRange c s.ranges
    return { s with ranges, inRange := false }
  else if c == '-' && !s.ranges.isEmpty then some { s with inRange := true }
  else some { s with ranges := (c, c) :: s.ranges }

/-- The set as a part of a pattern. A hyphen at its end stands for itself. -/
def OpenSet.close (s : OpenSet) : GlobPart :=
  .set s.negated (if s.inRange then ('-', '-') :: s.ranges else s.ranges).reverse

/-- A choice that is being read: its finished branches, the last one first, and what stood before the
brace, in reverse. -/
structure OpenChoice where
  before : List GlobPart
  branches : List (List GlobPart) := []

structure Reading where
  /-- The parts of the current branch in reverse. -/
  parts : List GlobPart := []
  /-- The choices around it, the innermost first. -/
  choices : List OpenChoice := []
  openSet : Option OpenSet := none
  /-- The character before. -/
  last : Option Char := none

namespace Reading

def push (r : Reading) (c : Char) (part : GlobPart) : Reading :=
  { r with parts := part :: r.parts, last := some c }

def pushTwoStars (r : Reading) : Reading := (r.push '*' .anyText).push '*' .anyText

def nextBranch (r : Reading) : Reading :=
  match r.choices with
  | [] => r.push ',' (.literal ',')
  | inner :: outer =>
    { r with
      parts := []
      choices := { inner with branches := r.parts.reverse :: inner.branches } :: outer
      last := some ',' }

def closeChoice? (r : Reading) : Option Reading :=
  match r.choices with
  | [] => none
  | inner :: outer =>
    let branches := (r.parts.reverse :: inner.branches).reverse
    some { r with parts := .choice branches :: inner.before, choices := outer, last := some '}' }

/-- What two stars become when the next characters are `rest`: the reading, and whether the slash
after them belongs to them. -/
def twoStars (r : Reading) (rest : List Char) : Reading × Bool :=
  let beforeSlash := rest.head? == some '/'
  if r.parts.isEmpty then
    if rest.isEmpty || beforeSlash then (r.push '*' .leading, beforeSlash)
    else (r.pushTwoStars, false)
  else
    let startsBranch := !r.choices.isEmpty && (r.last == some ',' || r.last == some '{')
    let endsBranch :=
      !r.choices.isEmpty && (rest.head? == some ',' || rest.head? == some '}')
    let isLast := rest.isEmpty || endsBranch
    if !(r.last == some '/' || startsBranch) || !(isLast || beforeSlash) then (r.pushTwoStars, false)
    else
      let part := match r.parts.head? with
        | some .leading => GlobPart.leading
        | some .trailing => GlobPart.trailing
        | _ => if isLast then GlobPart.trailing else GlobPart.between
      ({ r with parts := part :: r.parts.tail, last := some '*' }, !isLast)

end Reading

def readFrom (r : Reading) : List Char → Option Reading
  | [] => if r.openSet.isNone && r.choices.isEmpty then some r else none
  | c :: cs =>
    match r.openSet with
    | some s =>
      if c == ']' && !s.ranges.isEmpty then
        readFrom { r with parts := s.close :: r.parts, openSet := none, last := some c } cs
      else
        match s.push c with
        | some s => readFrom { r with openSet := some s, last := some c } cs
        | none => none
    | none =>
      match c, cs with
      | '?', cs => readFrom (r.push c .anyByte) cs
      | '*', '*' :: cs =>
        match r.twoStars cs, cs with
        | (r, true), slash :: cs => readFrom { r with last := some slash } cs
        | (r, _), cs => readFrom r cs
      | '*', cs => readFrom (r.push c .anyText) cs
      | '[', '!' :: cs => readFrom { r with openSet := some ⟨true, [], false⟩, last := some '!' } cs
      | '[', '^' :: cs => readFrom { r with openSet := some ⟨true, [], false⟩, last := some '^' } cs
      | '[', cs => readFrom { r with openSet := some ⟨false, [], false⟩, last := some c } cs
      | '{', cs =>
        readFrom { r with parts := [], choices := ⟨r.parts, []⟩ :: r.choices, last := some c } cs
      | '}', cs =>
        match r.closeChoice? with
        | some r => readFrom r cs
        | none => none
      | ',', cs => readFrom r.nextBranch cs
      | '\\', escaped :: cs => readFrom (r.push escaped (.literal escaped)) cs
      | '\\', [] => none
      | c, cs => readFrom (r.push c (.literal c)) cs

def parse? (text : String) : Option Glob :=
  (readFrom {} text.toList).map fun r => ⟨r.parts.reverse⟩

end Glob

namespace GlobPart

def bytesOf (c : Char) : List UInt8 := c.toString.toUTF8.toList

def someEnd (k : List UInt8 → Bool) : List UInt8 → Bool
  | [] => k []
  | b :: bs => k (b :: bs) || someEnd k bs

def slash : UInt8 := 47

def afterSlash (k : List UInt8 → Bool) : List UInt8 → Bool
  | [] => false
  | b :: bs => (b == slash && k bs) || afterSlash k bs

def afterBytes (k : List UInt8 → Bool) (bytes text : List UInt8) : Bool :=
  bytes.isPrefixOf text && k (text.drop bytes.length)

/-- The bytes that a range of characters stands for: those that spell its ends, and those between them. -/
def rangeHas (r : Char × Char) (b : UInt8) : Bool :=
  let lo := bytesOf r.1
  let hi := bytesOf r.2
  lo.contains b || hi.contains b ||
    (r.1 != r.2 && lo.getLast?.any (· ≤ b) && hi.head?.any (b ≤ ·))

mutual

def isVoid : GlobPart → Bool
  | .choice branches => areVoid branches
  | _ => false

def areVoid : List (List GlobPart) → Bool
  | [] => true
  | branch :: rest => isVoidBranch branch && areVoid rest

def isVoidBranch : List GlobPart → Bool
  | [] => true
  | part :: rest => part.isVoid && isVoidBranch rest

end

mutual

/-- The part matches a beginning of the text whose rest satisfies `k`. -/
def matchThen (k : List UInt8 → Bool) (text : List UInt8) : GlobPart → Bool
  | .literal c => afterBytes k (bytesOf c) text
  | .anyByte =>
    match text with
    | _ :: rest => k rest
    | [] => false
  | .anyText => someEnd k text
  | .leading => k text || afterBytes k [slash] text || afterSlash k text
  | .trailing => afterBytes (someEnd k) [slash] text
  | .between => afterBytes k [slash] text || afterBytes (afterSlash k) [slash] text
  | .set negated ranges =>
    match text with
    | b :: rest => (ranges.any fun r => rangeHas r b) != negated && k rest
    | [] => false
  | .choice branches => if areVoid branches then k text else matchSome k text branches

/-- The parts match a beginning of the text whose rest satisfies `k`. -/
def matchAll (k : List UInt8 → Bool) (text : List UInt8) : List GlobPart → Bool
  | [] => k text
  | part :: rest => part.matchThen (fun text => matchAll k text rest) text

/-- Some branch that says something matches a beginning of the text whose rest satisfies `k`. -/
def matchSome (k : List UInt8 → Bool) (text : List UInt8) : List (List GlobPart) → Bool
  | [] => false
  | branch :: rest => (!isVoidBranch branch && matchAll k text branch) || matchSome k text rest

end

end GlobPart

/-- The whole text fits the pattern. Two stars alone fit every text. -/
def Glob.matches (g : Glob) (text : String) : Bool :=
  match g.parts with
  | [.leading] => true
  | parts => GlobPart.matchAll List.isEmpty text.toUTF8.toList parts

end CustomElement.Project
