import CustomElement.Sheet.Statement

/-!
# Values

The value of a declaration with its variables put in: one blank between words, a comma and a blank
between items, double quotes around strings, and numbers without needless zeros.
-/

namespace CustomElement.Sheet

open Text

/-- The value of a variable by the module that it is in, if any, and its name. -/
abbrev Variables := Option String → String → Except Fault String

/-- Digits of a whole part and of a fraction without needless zeros. -/
def numberText (whole fraction : List Char) : List Char :=
  let whole := whole.dropWhile (· == '0')
  let fraction := (fraction.reverse.dropWhile (· == '0')).reverse
  let whole := if whole.isEmpty then ['0'] else whole
  if fraction.isEmpty then whole else whole ++ '.' :: fraction

def readNumber? (cs : List Char) : Option (List Char × List Char) :=
  let whole := cs.takeWhile Char.isDigit
  match cs.drop whole.length with
  | '.' :: rest =>
    let fraction := rest.takeWhile Char.isDigit
    if fraction.isEmpty then if whole.isEmpty then none else some (numberText whole [], '.' :: rest)
    else some (numberText whole fraction, rest.drop fraction.length)
  | rest => if whole.isEmpty then none else some (numberText whole [], rest)

def readString (quote : Char) : List Char → List Char × List Char
  | [] => ([], [])
  | '\\' :: c :: rest =>
    let (text, after) := readString quote rest
    ('\\' :: c :: text, after)
  | c :: rest =>
    if c == quote then ([], rest)
    else
      let (text, after) := readString quote rest
      (c :: text, after)

/-- A string in quotes: double ones, unless it holds double and no single ones. -/
def quotedText (text : List Char) : List Char :=
  let quote := if text.contains '"' && !text.contains '\'' then '\'' else '"'
  quote :: text ++ [quote]

inductive ValuePart where
  | text (cs : List Char)
  | blank
  | comma
  | slash
deriving Repr

def joinParts : List ValuePart → List Char
  | [] => []
  | .text cs :: .blank :: .text ds :: rest => cs ++ ' ' :: joinParts (.text ds :: rest)
  | .text cs :: rest => cs ++ joinParts rest
  | .blank :: rest => joinParts rest
  | .comma :: .blank :: rest => ',' :: ' ' :: joinParts rest
  | .comma :: rest => ',' :: ' ' :: joinParts rest
  | .slash :: rest => '/' :: joinParts rest

/-- The text up to the closing brace of an interpolation, and what follows. -/
def cutInterpolation (cs : List Char) : List Char × List Char :=
  let inside := cs.takeWhile (· != '}')
  (inside, cs.drop (inside.length + 1))

mutual

def valueParts (vars : Variables) (fuel : Nat) (cs : List Char) : Except Fault (List ValuePart) :=
  match fuel with
  | 0 => .ok []
  | fuel + 1 =>
    match cs with
    | [] => .ok []
    | ',' :: rest => do return .comma :: (← valueParts vars fuel rest)
    | '/' :: rest => do return .slash :: (← valueParts vars fuel rest)
    | '$' :: rest => do
      let name := rest.takeWhile isNameChar
      let value ← vars none (variableName name)
      return .text value.toList :: (← valueParts vars fuel (rest.drop name.length))
    | '#' :: '{' :: rest => do
      let (inside, rest) := cutInterpolation rest
      let value ← valueText vars fuel inside
      return .text (unquote value) :: (← valueParts vars fuel rest)
    | c :: rest =>
      if isBlank c then do return .blank :: (← valueParts vars fuel rest)
      else if c == '"' || c == '\'' then do
        let (text, rest) := readString c rest
        return .text (quotedText text) :: (← valueParts vars fuel rest)
      else
        match readNumber? cs with
        | some (number, rest) => do
          let suffix := rest.takeWhile fun c => isNameChar c || c == '%'
          return .text (number ++ suffix) :: (← valueParts vars fuel (rest.drop suffix.length))
        | none => do
          let name := cs.takeWhile isNameChar
          if name.isEmpty then
            if c == '(' then return .text [c] :: (← valueParts vars fuel (trimStartList rest))
            else return .text [c] :: (← valueParts vars fuel rest)
          else
            match cs.drop name.length with
            | '.' :: '$' :: rest =>
              let ident := rest.takeWhile isNameChar
              let value ← vars (some (String.ofList name)) (variableName ident)
              return .text value.toList :: (← valueParts vars fuel (rest.drop ident.length))
            | '(' :: rest =>
              if name == "url".toList then
                let inside := rest.takeWhile (· != ')')
                let call := name ++ '(' :: inside ++ [')']
                return .text call :: (← valueParts vars fuel (rest.drop (inside.length + 1)))
              else return .text (name ++ ['(']) :: (← valueParts vars fuel (trimStartList rest))
            | rest => return .text name :: (← valueParts vars fuel rest)

def valueText (vars : Variables) (fuel : Nat) (cs : List Char) : Except Fault (List Char) :=
  match fuel with
  | 0 => .ok cs
  | fuel + 1 => do return joinParts (← valueParts vars fuel (trimList cs))

end

def evalValue (vars : Variables) (value : String) : Except Fault String := do
  return String.ofList (← valueText vars (value.length + 2) value.toList)

/-- A text with its interpolations put in; `fuel` bounds the number of steps. -/
def interpolateFrom (vars : Variables) : (fuel : Nat) → List Char → Except Fault (List Char)
  | 0, cs => .ok cs
  | _, [] => .ok []
  | fuel + 1, '#' :: '{' :: rest => do
    let (inside, rest) := cutInterpolation rest
    let value ← evalValue vars (String.ofList inside)
    return unquote value.toList ++ (← interpolateFrom vars fuel rest)
  | fuel + 1, c :: rest => do return c :: (← interpolateFrom vars fuel rest)

def interpolate (vars : Variables) (text : String) : Except Fault String := do
  return String.ofList (← interpolateFrom vars text.length text.toList)

end CustomElement.Sheet
