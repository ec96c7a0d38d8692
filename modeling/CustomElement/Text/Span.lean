/-!
# Texts measured in bytes

Every offset into a text counts the bytes of its UTF-8 form. An offset is a character boundary when the text can be cut
there (`splitAtByte?`). A `Span` is a half-open range of offsets. A `Location` is a line and a byte column, both counted
from zero; lines end at a line feed only. It is found by a walk over the text, or in a table of lines (`LineIndex`).
-/

namespace CustomElement.Text

def byteLength : List Char → Nat
  | [] => 0
  | c :: cs => c.utf8Size + byteLength cs

@[simp] theorem byteLength_nil : byteLength [] = 0 := rfl

@[simp] theorem byteLength_cons (c : Char) (cs : List Char) : byteLength (c :: cs) = c.utf8Size + byteLength cs := rfl

@[simp] theorem byteLength_append (a b : List Char) : byteLength (a ++ b) = byteLength a + byteLength b := by
  induction a with
  | nil => simp
  | cons c a ih => simp [ih, Nat.add_assoc]

/-- The text cut after `n` bytes, if that is a character boundary inside it. -/
def splitAtByte? : List Char → Nat → Option (List Char × List Char)
  | cs, 0 => some ([], cs)
  | [], _ + 1 => none
  | c :: cs, n + 1 =>
    if c.utf8Size ≤ n + 1 then
      (splitAtByte? cs (n + 1 - c.utf8Size)).map fun p => (c :: p.1, p.2)
    else none

/-- The bytes from `start` to `stop` of a text, if both are character boundaries in order. -/
def slice? (cs : List Char) (start stop : Nat) : Option (List Char) := do
  guard (start ≤ stop)
  let (_, rest) ← splitAtByte? cs start
  let (inside, _) ← splitAtByte? rest (stop - start)
  return inside

def takeBytes : Nat → List Char → List Char
  | _, [] => []
  | n, c :: cs => if c.utf8Size ≤ n then c :: takeBytes (n - c.utf8Size) cs else []

/-- The text without the characters that begin within its first `n` bytes. -/
def dropBytes : Nat → List Char → List Char
  | _, [] => []
  | 0, cs => cs
  | n + 1, c :: cs => dropBytes (n + 1 - c.utf8Size) cs

theorem splitAtByte?_byteLength (a b : List Char) : splitAtByte? (a ++ b) (byteLength a) = some (a, b) := by
  induction a with
  | nil => simp [splitAtByte?]
  | cons c a ih =>
    have hc := c.utf8Size_pos
    obtain ⟨n, hn⟩ : ∃ n, byteLength (c :: a) = n + 1 :=
      ⟨c.utf8Size + byteLength a - 1, by simp only [byteLength_cons]; omega⟩
    have hle : c.utf8Size ≤ n + 1 := by rw [← hn]; simp
    have hsub : n + 1 - c.utf8Size = byteLength a := by rw [← hn]; simp
    rw [hn, List.cons_append, splitAtByte?, if_pos hle, hsub, ih]
    rfl

theorem eq_append_of_splitAtByte? {cs a b : List Char} {n : Nat}
    (h : splitAtByte? cs n = some (a, b)) : cs = a ++ b ∧ byteLength a = n := by
  fun_induction splitAtByte? cs n generalizing a with
  | case1 cs =>
    obtain ⟨rfl, rfl⟩ : a = [] ∧ cs = b := by simpa using h
    simp
  | case2 => simp at h
  | case3 c cs n hle ih =>
    obtain ⟨p, hp, he⟩ := Option.map_eq_some_iff.1 h
    obtain ⟨rfl, rfl⟩ := Prod.mk.inj he
    obtain ⟨h1, h2⟩ := ih hp
    refine ⟨by rw [h1]; rfl, ?_⟩
    simp only [byteLength_cons, h2]
    omega
  | case4 => simp at h

structure Span where
  start : Nat
  stop : Nat
deriving DecidableEq, Repr

def Span.empty (at_ : Nat) : Span := ⟨at_, at_⟩

/-- The text under a span, if its ends are character boundaries in order. -/
def Span.slice? (span : Span) (text : String) : Option String :=
  (Text.slice? text.toList span.start span.stop).map String.ofList

structure Location where
  line : Nat
  column : Nat
deriving DecidableEq, Repr

def Location.render (loc : Location) : String :=
  toString (loc.line + 1) ++ ":" ++ toString (loc.column + 1)

/-- The location reached from `loc` by walking `offset` bytes into a text, at most to its end. -/
def Location.advance (loc : Location) : List Char → Nat → Location
  | [], _ => loc
  | c :: cs, offset =>
    if offset < c.utf8Size then ⟨loc.line, loc.column + offset⟩
    else if c = '\n' then Location.advance ⟨loc.line + 1, 0⟩ cs (offset - c.utf8Size)
    else Location.advance ⟨loc.line, loc.column + c.utf8Size⟩ cs (offset - c.utf8Size)

/-- The location of a byte offset in a text. An offset past the end counts as the end. -/
def Location.of (text : String) (offset : Nat) : Location :=
  Location.advance ⟨0, 0⟩ text.toList offset

/-- The offsets behind the line feeds of a text that stands at `offset`. -/
def lineStarts (offset : Nat) : List Char → List Nat
  | [] => []
  | c :: cs =>
    let rest := lineStarts (offset + c.utf8Size) cs
    if c = '\n' then (offset + 1) :: rest else rest

/-- Where the lines of a text start, and its length, in words of 32 bits. -/
structure LineIndex where
  starts : Array UInt32
  length : UInt32

def LineIndex.ofText (text : String) : LineIndex :=
  ⟨((0 :: lineStarts 0 text.toList).map UInt32.ofNat).toArray, UInt32.ofNat (byteLength text.toList)⟩

/-- The first index from `lo` on, and before `hi`, at which `p` fails, found by bisection. -/
def partitionPoint {α : Type} (xs : Array α) (p : α → Bool) (lo hi : Nat) : Nat :=
  if lo < hi then
    let mid := (lo + hi) / 2
    if xs[mid]?.any p then partitionPoint xs p (mid + 1) hi else partitionPoint xs p lo mid
  else lo
termination_by hi - lo

/-- The location of an offset, looked up among the starts of the lines. There is none if no line starts before the
partition point, if the start of the line is not in the table, or if it lies behind the offset. -/
def LineIndex.locate? (index : LineIndex) (offset : UInt32) : Option Location := do
  let offset := if offset ≤ index.length then offset else index.length
  let point := partitionPoint index.starts (· ≤ offset) 0 index.starts.size
  guard (0 < point)
  let start ← index.starts[point - 1]?
  guard (start ≤ offset)
  return ⟨point - 1, (offset - start).toNat⟩

end CustomElement.Text
