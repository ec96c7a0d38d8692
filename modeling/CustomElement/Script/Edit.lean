import CustomElement.Text.Span

/-!
# Edits

An `Edit` replaces a range of bytes of a text. Where ranges overlap, a later edit replaces only what is left of its
range, so the result holds the text outside all ranges and every replacement once.
-/

namespace CustomElement.Script

open Text

structure Edit where
  start : Nat
  stop : Nat
  text : String
deriving DecidableEq, Repr

namespace Edit

/-- The edits that take the bytes from `start` to `stop` out, if there are any. -/
def remove (start stop : Nat) : List Edit := if start < stop then [⟨start, stop, ""⟩] else []

def le (a b : Edit) : Bool := a.start < b.start || (a.start == b.start && a.stop ≤ b.stop)

end Edit

/-- The result of the edits on `cs`, which is the text from byte `pos` on. -/
def applyEditsFrom (pos : Nat) (cs : List Char) : List Edit → List Char
  | [] => cs
  | e :: edits =>
    let start := max e.start pos
    let stop := max e.stop start
    takeBytes (start - pos) cs ++ e.text.toList ++
      applyEditsFrom stop (dropBytes (stop - pos) cs) edits

def applyEdits (source : String) (edits : List Edit) : String :=
  String.ofList (applyEditsFrom 0 source.toList (edits.mergeSort Edit.le))

end CustomElement.Script
