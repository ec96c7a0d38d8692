/-!
# JSON texts

A reader of strict JSON. Numbers are checked and not evaluated, since nothing here needs their value.
A string whose escapes spell half of a surrogate pair is well formed but stands for no text.
-/

namespace CustomElement.Text

inductive Json where
  | null
  | bool (b : Bool)
  | number
  /-- Absent if the escapes spell no text. -/
  | string (text : Option String)
  | array (items : List Json)
  | object (fields : List (String × Json))
deriving Repr, Inhabited

namespace Json

def isBlank (c : Char) : Bool := c == ' ' || c == '\n' || c == '\t' || c == '\r'

def skipBlanks (cs : List Char) : List Char := cs.dropWhile isBlank

def hexDigit? (c : Char) : Option Nat :=
  if '0' ≤ c && c ≤ '9' then some (c.toNat - '0'.toNat)
  else if 'a' ≤ c && c ≤ 'f' then some (c.toNat - 'a'.toNat + 10)
  else if 'A' ≤ c && c ≤ 'F' then some (c.toNat - 'A'.toNat + 10)
  else none

def hexNumber? (a b c d : Char) : Option Nat := do
  return ((← hexDigit? a) * 16 + (← hexDigit? b)) * 256 + (← hexDigit? c) * 16 + (← hexDigit? d)

def escapedChar? (c : Char) : Option Char :=
  match c with
  | '"' => some '"'
  | '\\' => some '\\'
  | '/' => some '/'
  | 'b' => some '\x08'
  | 'f' => some '\x0c'
  | 'n' => some '\n'
  | 'r' => some '\r'
  | 't' => some '\t'
  | _ => none

/-- One unit of a string: a character, or the number of a `u` escape. -/
inductive Unit16 where
  | char (c : Char)
  | code (n : Nat)

/-- The units of a string up to its closing quote, and what follows. -/
def stringUnits : List Char → Option (List Unit16 × List Char)
  | [] => none
  | '"' :: rest => some ([], rest)
  | '\\' :: 'u' :: a :: b :: c :: d :: rest => do
    let n ← hexNumber? a b c d
    let (units, after) ← stringUnits rest
    return (.code n :: units, after)
  | '\\' :: c :: rest => do
    let c ← escapedChar? c
    let (units, after) ← stringUnits rest
    return (.char c :: units, after)
  | c :: rest => do
    guard (0x20 ≤ c.toNat && c != '\\')
    let (units, after) ← stringUnits rest
    return (.char c :: units, after)

/-- The characters that units stand for: two halves of a surrogate pair make one character. -/
def charsOfUnits : List Unit16 → Option (List Char)
  | [] => some []
  | .char c :: rest => (charsOfUnits rest).map (c :: ·)
  | .code hi :: .code lo :: rest =>
    if 0xD800 ≤ hi && hi < 0xDC00 then do
      guard (0xDC00 ≤ lo && lo < 0xE000)
      let rest ← charsOfUnits rest
      return Char.ofNat (0x10000 + (hi - 0xD800) * 0x400 + (lo - 0xDC00)) :: rest
    else do
      guard !(0xDC00 ≤ hi && hi < 0xE000)
      let rest ← charsOfUnits (.code lo :: rest)
      return Char.ofNat hi :: rest
  | .code n :: rest => do
    guard !(0xD800 ≤ n && n < 0xE000)
    let rest ← charsOfUnits rest
    return Char.ofNat n :: rest

def afterDigits? (cs : List Char) : Option (List Char) :=
  if cs.head?.any Char.isDigit then some (cs.dropWhile Char.isDigit) else none

def afterNumber? (cs : List Char) : Option (List Char) := do
  let cs := if cs.head? == some '-' then cs.drop 1 else cs
  let cs ← match cs with
    | '0' :: rest => some rest
    | cs => afterDigits? cs
  let cs ← match cs with
    | '.' :: rest => afterDigits? rest
    | cs => some cs
  match cs with
  | e :: rest =>
    if e == 'e' || e == 'E' then
      match rest with
      | sign :: more => afterDigits? (if sign == '+' || sign == '-' then more else rest)
      | [] => none
    else some cs
  | [] => some []

def afterWord? (word : String) (cs : List Char) : Option (List Char) :=
  if word.toList.isPrefixOf cs then some (cs.drop word.length) else none

mutual

/-- The value at the front, after blanks, and what follows it; `fuel` bounds the number of values. -/
def value (fuel : Nat) (cs : List Char) : Option (Json × List Char) :=
  match fuel with
  | 0 => none
  | fuel + 1 =>
    match skipBlanks cs with
    | '"' :: rest => do
      let (units, after) ← stringUnits rest
      return (.string ((charsOfUnits units).map String.ofList), after)
    | '[' :: rest =>
      match skipBlanks rest with
      | ']' :: after => some (.array [], after)
      | _ => (items fuel rest).map fun (values, after) => (.array values, after)
    | '{' :: rest =>
      match skipBlanks rest with
      | '}' :: after => some (.object [], after)
      | _ => (fields fuel rest).map fun (fields, after) => (.object fields, after)
    | 'n' :: rest => (afterWord? "ull" rest).map fun after => (.null, after)
    | 't' :: rest => (afterWord? "rue" rest).map fun after => (.bool true, after)
    | 'f' :: rest => (afterWord? "alse" rest).map fun after => (.bool false, after)
    | cs => (afterNumber? cs).map fun after => (.number, after)

def items (fuel : Nat) (cs : List Char) : Option (List Json × List Char) :=
  match fuel with
  | 0 => none
  | fuel + 1 => do
    let (item, after) ← value fuel cs
    match skipBlanks after with
    | ',' :: rest => (items fuel rest).map fun (more, after) => (item :: more, after)
    | ']' :: rest => some ([item], rest)
    | _ => none

def fields (fuel : Nat) (cs : List Char) : Option (List (String × Json) × List Char) :=
  match fuel with
  | 0 => none
  | fuel + 1 =>
    match skipBlanks cs with
    | '"' :: rest => do
      let (units, after) ← stringUnits rest
      let name ← charsOfUnits units
      match skipBlanks after with
      | ':' :: rest => do
        let (v, after) ← value fuel rest
        match skipBlanks after with
        | ',' :: rest =>
          (fields fuel rest).map fun (more, after) => ((String.ofList name, v) :: more, after)
        | '}' :: rest => some ([(String.ofList name, v)], rest)
        | _ => none
      | _ => none
    | _ => none

end

/-- The value that a text spells, whose length bounds the number of values. -/
def parse? (text : String) : Option Json := do
  let (v, after) ← value (2 * text.length + 2) text.toList
  guard (skipBlanks after).isEmpty
  return v

end Json

end CustomElement.Text
