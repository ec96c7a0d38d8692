import CustomElement.Script.Erasure.Stream

/-!
# Where a type ends

`typeEnd` skips the type that starts at a position: unions and intersections of operands, and conditional types. Every
result lies after its start, which is why the reading ends.
-/

namespace CustomElement.Script.Stream

variable (s : Stream)

def notInTypes : List String :=
  [";", "&&", "||", "==", "===", "!=", "!==", "+", "*", "/", "%", "+=", "-=", "++", "--", "!",
   "**"]

/-- The closing angle that brings the nesting `depth` to zero, at `m` or later. -/
def angleEndFrom (hi depth m : Nat) : Option { k : Nat // m ≤ k } :=
  if m < hi then
    let t := s.tok m
    let next (depth m' : Nat) (h : m < m') : Option { k : Nat // m ≤ k } :=
      (angleEndFrom hi depth m').map fun k => ⟨k.1, by omega⟩
    if t.isPunct "<" then next (depth + 1) (m + 1) (by omega)
    else if t.isPunct ">" then
      if depth ≤ 1 then some ⟨m, Nat.le_refl m⟩ else next (depth - 1) (m + 1) (by omega)
    else if t.isOpener then
      next depth (s.close hi m + 1) (Nat.lt_succ_of_le (s.le_close hi m))
    else if t.kind == .punct && notInTypes.contains t.text then none
    else next depth (m + 1) (by omega)
  else none
termination_by hi - m

/-- The closing angle of the list that opens at `start`, if the tokens in between can form a list
of types. -/
def angleEnd (hi start : Nat) : Option { k : Nat // start ≤ k } := s.angleEndFrom hi 0 start

def typeOperators : List String := ["keyof", "typeof", "readonly", "unique", "infer", "asserts"]

def skipTypeOperators (hi j : Nat) : { k : Nat // j ≤ k } :=
  if j + 1 < hi ∧ s.isAny j typeOperators ∧ s.typeStarts (j + 1) then
    let ⟨k, h⟩ := skipTypeOperators hi (j + 1)
    ⟨k, by omega⟩
  else ⟨j, Nat.le_refl j⟩
termination_by hi - j

/-- The position of the operand proper: after its operators and the mark of a constructor type. -/
def operandStart (hi j : Nat) : { k : Nat // j ≤ k } :=
  let ⟨a, ha⟩ := s.skipTypeOperators hi j
  let b := if a + 1 < hi && s.is a "abstract" && s.is (a + 1) "new" then a + 1 else a
  let c := if b + 1 < hi && s.is b "new" then b + 1 else b
  ⟨c, by grind⟩

def dottedEnd (hi m : Nat) : { k : Nat // m ≤ k } :=
  if m + 1 < hi ∧ s.is m "." ∧ s.isWord (m + 1) then
    let ⟨k, h⟩ := dottedEnd hi (m + 2)
    ⟨k, by omega⟩
  else ⟨m, Nat.le_refl m⟩
termination_by hi - m

/-- The position after the square brackets that follow an operand on its line. -/
def suffixEnd (hi m : Nat) : { k : Nat // m ≤ k } :=
  if m < hi ∧ s.is m "[" ∧ !s.breakBefore m then
    have hle := s.le_close hi m
    let ⟨k, h⟩ := suffixEnd hi (s.close hi m + 1)
    ⟨k, by omega⟩
  else ⟨m, Nat.le_refl m⟩
termination_by hi - m

mutual

/-- The position after the type that starts at `j` in a frame that ends at `hi`. -/
def typeEnd (hi j : Nat) : Except Fault { k : Nat // j < k } :=
  if j < hi && s.isAny j ["|", "&"] then do
    let ⟨k, hk⟩ ← operandEnd hi (j + 1)
    let ⟨m, hm⟩ ← typeTail hi k
    return ⟨m, by omega⟩
  else do
    let ⟨k, hk⟩ ← operandEnd hi j
    let ⟨m, hm⟩ ← typeTail hi k
    return ⟨m, by omega⟩
termination_by 3 * (hi - j) + 2

/-- The position after the operators and branches that follow an operand ending before `k`. -/
def typeTail (hi k : Nat) : Except Fault { m : Nat // k ≤ m } :=
  if k < hi then
    if s.isAny k ["|", "&"] then do
      let ⟨m, hm⟩ ← operandEnd hi (k + 1)
      let ⟨n, hn⟩ ← typeTail hi m
      return ⟨n, by omega⟩
    else if s.is k "extends" && !s.breakBefore k then do
      let ⟨checked, hc⟩ ← operandEnd hi (k + 1)
      if checked < hi && s.is checked "?" then
        let ⟨yes, hy⟩ ← typeEnd hi (checked + 1)
        if yes < hi && s.is yes ":" then
          let ⟨no, hn⟩ ← typeEnd hi (yes + 1)
          let ⟨m, hm⟩ ← typeTail hi no
          return ⟨m, by omega⟩
      throw (s.unsupported k "conditional type")
    else return ⟨k, Nat.le_refl k⟩
  else return ⟨k, Nat.le_refl k⟩
termination_by 3 * (hi - k) + 1

def operandEnd (hi j : Nat) : Except Fault { k : Nat // j < k } := do
  let ⟨i, hi'⟩ := s.operandStart hi j
  if hlt : i < hi then
    let t := s.tok i
    let suffixed (m : Nat) (h : i < m) : { k : Nat // j < k } :=
      let ⟨k, hk⟩ := s.suffixEnd hi m
      ⟨k, by omega⟩
    match t.kind with
    | .punct =>
      if t.text == "<" then
        match s.angleEnd hi i with
        | some ⟨angle, ha⟩ =>
          let ⟨m, hm⟩ ← functionTypeEnd hi (angle + 1)
          return suffixed m (by omega)
        | none => throw (s.unsupported i "type parameters")
      else if t.text == "(" then
        have hle := s.le_close hi i
        if s.close hi i + 1 < hi && s.is (s.close hi i + 1) "=>" then
          let ⟨m, hm⟩ ← typeEnd hi (s.close hi i + 2)
          return suffixed m (by omega)
        else return suffixed (s.close hi i + 1) (by omega)
      else if t.text == openBrace || t.text == "[" then
        return suffixed (s.close hi i + 1) (Nat.lt_succ_of_le (s.le_close hi i))
      else if t.text == "-" && (s.tok (i + 1)).kind == .number then
        return suffixed (i + 2) (by omega)
      else throw (s.unsupported i t.text)
    | .word =>
      let ⟨m, hm⟩ := s.dottedEnd hi (i + 1)
      let ⟨n, hn⟩ : { n : Nat // i < n } ←
        if m < hi && s.is m "<" && !s.breakBefore m then
          match s.angleEnd hi m with
          | some ⟨angle, ha⟩ => pure ⟨angle + 1, by omega⟩
          | none => throw (s.unsupported m "type arguments")
        else pure ⟨m, by omega⟩
      if n < hi && s.is n "is" && !s.breakBefore n then
        let ⟨p, hp⟩ ← typeEnd hi (n + 1)
        return suffixed p (by omega)
      else return suffixed n hn
    | .string | .number | .template => return suffixed (i + 1) (by omega)
    | _ => throw (s.unsupported i t.text)
  else throw (s.unsupported i "type")
termination_by 3 * (hi - j)

/-- The position after a function type whose parameter list opens at `j`. -/
def functionTypeEnd (hi j : Nat) : Except Fault { k : Nat // j < k } := do
  if j < hi ∧ s.is j "(" then
    have hle := s.le_close hi j
    if s.close hi j + 1 < hi && s.is (s.close hi j + 1) "=>" then
      let ⟨m, hm⟩ ← typeEnd hi (s.close hi j + 2)
      return ⟨m, by omega⟩
  throw (s.unsupported j "function type")
termination_by 3 * (hi - j)

end

end CustomElement.Script.Stream
