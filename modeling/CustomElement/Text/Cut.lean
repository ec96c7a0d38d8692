/-!
# Cuts

A scanner reads a piece off the front of a text and leaves the rest. `Cut cs` is such a result: a
piece that is not empty and a rest that together are `cs`. Since the piece is not empty the rest is
shorter than `cs`, which is why scanning ends.
-/

namespace CustomElement.Text

structure Cut (cs : List Char) where
  head : List Char
  rest : List Char
  head_append_rest : head ++ rest = cs
  head_ne_nil : head ≠ []

namespace Cut

theorem length_rest_lt {cs : List Char} (cut : Cut cs) : cut.rest.length < cs.length := by
  have hpos := List.length_pos_iff.2 cut.head_ne_nil
  have hlen := congrArg List.length cut.head_append_rest
  rw [List.length_append] at hlen
  omega

def first (c : Char) (cs : List Char) : Cut (c :: cs) := ⟨[c], cs, rfl, by simp⟩

/-- The first character and the characters after it that satisfy `p`. -/
def firstWhile (p : Char → Bool) (c : Char) (cs : List Char) : Cut (c :: cs) :=
  ⟨c :: cs.takeWhile p, cs.dropWhile p, by simp, by simp⟩

def cons {cs : List Char} (c : Char) (cut : Cut cs) : Cut (c :: cs) :=
  ⟨c :: cut.head, cut.rest, by simp [cut.head_append_rest], by simp⟩

def append {cs : List Char} (cut : Cut cs) (next : Cut cut.rest) : Cut cs :=
  ⟨cut.head ++ next.head, next.rest,
    by rw [List.append_assoc, next.head_append_rest, cut.head_append_rest],
    by simp [cut.head_ne_nil]⟩

/-- A cut, lengthened by the characters of its rest that satisfy `p`. -/
def appendWhile {cs : List Char} (p : Char → Bool) (cut : Cut cs) : Cut cs :=
  ⟨cut.head ++ cut.rest.takeWhile p, cut.rest.dropWhile p,
    by rw [List.append_assoc, List.takeWhile_append_dropWhile, cut.head_append_rest],
    by simp [cut.head_ne_nil]⟩

def firstAnd (n : Nat) (c : Char) (cs : List Char) : Cut (c :: cs) :=
  ⟨c :: cs.take n, cs.drop n, by simp, by simp⟩

end Cut

end CustomElement.Text
