/-!
# Integers as text

Reading a signed numeral whose value fits a 64-bit word. A sign may stand in front; at least one
digit must follow, and nothing else may.
-/

namespace CustomElement.Text

def digitValue? (base : Nat) (c : Char) : Option Nat :=
  let value :=
    if '0' ≤ c ∧ c ≤ '9' then some (c.toNat - '0'.toNat)
    else if 'a' ≤ c ∧ c ≤ 'z' then some (c.toNat - 'a'.toNat + 10)
    else if 'A' ≤ c ∧ c ≤ 'Z' then some (c.toNat - 'A'.toNat + 10)
    else none
  value.filter (· < base)

def digitsValue? (base : Nat) (value : Nat) : List Char → Option Nat
  | [] => some value
  | c :: cs =>
    match digitValue? base c with
    | some d => digitsValue? base (value * base + d) cs
    | none => none

def natural? (base : Nat) : List Char → Option Nat
  | [] => none
  | cs => digitsValue? base 0 cs

/-- The first integer above those that fit a signed word of 64 bits. -/
def wordBound : Int := 0x8000000000000000

/-- The integer written by `cs`, if it fits a signed word of 64 bits. -/
def int64? (base : Nat) (cs : List Char) : Option Int :=
  let value : Option Int :=
    match cs with
    | '-' :: cs => (natural? base cs).map fun n => -(n : Int)
    | '+' :: cs => (natural? base cs).map fun n => (n : Int)
    | cs => (natural? base cs).map fun n => (n : Int)
  value.filter fun n => -wordBound ≤ n && n < wordBound

end CustomElement.Text
