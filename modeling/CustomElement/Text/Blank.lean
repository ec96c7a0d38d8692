/-!
# Blank characters

Which characters count as white space, and what is left of a text without the white space at its
ends. The property is Unicode's `White_Space`; the byte order mark and the zero-width space do not
have it.
-/

namespace CustomElement.Text

def inRanges (ranges : List (Nat × Nat)) (c : Char) : Bool :=
  ranges.any fun r => r.1 ≤ c.toNat && c.toNat ≤ r.2

/-- The code points with the property `White_Space`, as closed ranges in increasing order. -/
def blankRanges : List (Nat × Nat) :=
  [(0x09, 0x0D), (0x20, 0x20), (0x85, 0x85), (0xA0, 0xA0), (0x1680, 0x1680), (0x2000, 0x200A),
   (0x2028, 0x2029), (0x202F, 0x202F), (0x205F, 0x205F), (0x3000, 0x3000)]

def isBlank (c : Char) : Bool := inRanges blankRanges c

def trimStartList (cs : List Char) : List Char := cs.dropWhile isBlank

def trimEndList (cs : List Char) : List Char := (cs.reverse.dropWhile isBlank).reverse

def trimList (cs : List Char) : List Char := trimEndList (trimStartList cs)

def trimEnd (s : String) : String := String.ofList (trimEndList s.toList)

/-- The text without the blanks at its ends. -/
def trim (s : String) : String := String.ofList (trimList s.toList)

end CustomElement.Text
