import CustomElement.Text.Blank
import CustomElement.Text.Span

/-!
# A cursor over a document

A `Cursor` is a byte offset into a document and the text from there on. They never go back, and one that finds nothing
leaves the cursor where it is. A tag is recognized by its mark, its name in any case of ASCII letters, and what ends
the name: a blank, a slash or a closing angle.
-/

namespace CustomElement.Markup

open Text

def equalIgnoringCase (a b : List Char) : Bool := a.map Char.toLower == b.map Char.toLower

inductive Mark where
  | opening
  | closing
deriving DecidableEq, Repr

def Mark.text : Mark → List Char
  | .opening => ['<']
  | .closing => ['<', '/']

def tagAt (mark : Mark) (name : List Char) (text : List Char) : Bool :=
  let rest := text.drop mark.text.length
  mark.text.isPrefixOf text && equalIgnoringCase (rest.take name.length) name &&
    match rest.drop name.length with
    | [] => mark == .closing
    | c :: _ => isBlank c || c == '>' || c == '/'

/-- The offsets of the opening tags `name` in a text that starts at `offset`. -/
def openingTagsFrom (name : List Char) (offset : Nat) : List Char → List Nat
  | [] => []
  | c :: cs =>
    let rest := openingTagsFrom name (offset + c.utf8Size) cs
    if tagAt .opening name (c :: cs) then offset :: rest else rest

def openingTags (name : String) (text : String) : List Nat :=
  openingTagsFrom name.toList 0 text.toList

structure Cursor where
  pos : Nat
  rest : List Char

namespace Cursor

def start (source : String) (pos : Nat) : Cursor := ⟨pos, dropBytes pos source.toList⟩

def atEnd (c : Cursor) : Bool := c.rest.isEmpty

def peek (c : Cursor) : Option Char := c.rest.head?

/-- The cursor behind the next `n` characters. -/
def skip (c : Cursor) (n : Nat) : Cursor :=
  ⟨c.pos + byteLength (c.rest.take n), c.rest.drop n⟩

/-- The cursor `n` bytes further on, whether or not that is a character boundary. -/
def jump (c : Cursor) (n : Nat) : Cursor := ⟨c.pos + n, dropBytes n c.rest⟩

def next (c : Cursor) : Cursor := c.skip 1

def readWhile (c : Cursor) (p : Char → Bool) : List Char × Cursor :=
  let head := c.rest.takeWhile p
  (head, ⟨c.pos + byteLength head, c.rest.dropWhile p⟩)

def skipBlanks (c : Cursor) : Cursor := (c.readWhile isBlank).2

def startsWith (c : Cursor) (text : String) : Bool := text.toList.isPrefixOf c.rest

def consume? (c : Cursor) (text : String) : Option Cursor :=
  if c.startsWith text then some (c.jump (byteLength text.toList)) else none

/-- How many characters stand before the first place where `stop` holds, or before the end. -/
def extentUntil (stop : List Char → Bool) : List Char → Nat
  | [] => 0
  | c :: cs => if stop (c :: cs) then 0 else extentUntil stop cs + 1

/-- The text before the first place where `stop` holds, or all that is left. -/
def readUntil (c : Cursor) (stop : List Char → Bool) : List Char × Cursor :=
  let n := extentUntil stop c.rest
  (c.rest.take n, c.skip n)

def readUntilText (c : Cursor) (text : String) : List Char × Cursor :=
  c.readUntil text.toList.isPrefixOf

/-- A tag name: an ASCII letter, then letters, digits, hyphens and underscores. -/
def readTagName? (c : Cursor) : Option (List Char × Cursor) :=
  if c.peek.any Char.isAlpha then
    some (c.readWhile fun a => a.isAlphanum || a == '-' || a == '_')
  else none

def isNameChar (a : Char) : Bool :=
  !isBlank a && !(a == '=' || a == '>' || a == '/' || a == '"' || a == '\'' || a == '<')

def readAttributeName? (c : Cursor) : Option (List Char × Cursor) :=
  if c.peek.any isNameChar then some (c.readWhile isNameChar) else none

/-- A text in quotes, without them, and its quote. Without a closing quote it is all that is left. -/
def readQuoted? (c : Cursor) : Option ((List Char × Char) × Cursor) :=
  match c.peek with
  | some quote =>
    if quote == '"' || quote == '\'' then
      let (text, after) := c.next.readWhile (· != quote)
      some ((text, quote), after.next)
    else none
  | none => none

def readUnquoted (c : Cursor) : List Char × Cursor :=
  c.readWhile fun a => !isBlank a && a != '>' && a != '='

def atTag (c : Cursor) (mark : Mark) (name : String) : Bool := tagAt mark name.toList c.rest

/-- The text before the first closing tag `name`, and the cursor at that tag. Without one there is
no text, and the cursor is at the end. -/
def readContent (c : Cursor) (name : String) : Option (List Char) × Cursor :=
  let (text, after) := c.readUntil (tagAt .closing name.toList)
  (if after.atEnd then none else some text, after)

theorem length_rest_next_lt (c : Cursor) (h : c.atEnd = false) : c.next.rest.length < c.rest.length := by
  cases hc : c.rest with
  | nil => simp [atEnd, hc] at h
  | cons a as => simp [next, skip, hc]

theorem length_dropBytes_le (n : Nat) (cs : List Char) : (dropBytes n cs).length ≤ cs.length := by
  fun_induction dropBytes n cs with
  | case1 => exact Nat.le_refl _
  | case2 => exact Nat.le_refl _
  | case3 c cs n ih => exact Nat.le_succ_of_le ih

theorem length_rest_jump_lt (c : Cursor) {n : Nat} (h : c.atEnd = false) (hn : 0 < n) :
    (c.jump n).rest.length < c.rest.length := by
  obtain ⟨n, rfl⟩ := Nat.exists_eq_succ_of_ne_zero (Nat.ne_of_gt hn)
  cases hc : c.rest with
  | nil => simp [atEnd, hc] at h
  | cons a as =>
    rw [jump, hc, dropBytes]
    exact Nat.lt_succ_of_le (length_dropBytes_le _ _)

/-- The cursor at the closing tag `name` that fits an opening tag read before, where `depth` tags have been opened since,
and whether there is one. Without one the cursor is at the end. -/
def closeNested (name : List Char) (depth : Nat) (c : Cursor) : Bool × Cursor :=
  if h : c.atEnd then (false, c)
  else if tagAt .closing name c.rest then
    match depth with
    | 0 => (true, c)
    | depth + 1 => closeNested name depth (c.jump (2 + byteLength name))
  else if tagAt .opening name c.rest then closeNested name (depth + 1) (c.jump (1 + byteLength name))
  else closeNested name depth c.next
termination_by c.rest.length
decreasing_by
  · exact c.length_rest_jump_lt (Bool.of_not_eq_true h) (by omega)
  · exact c.length_rest_jump_lt (Bool.of_not_eq_true h) (by omega)
  · exact c.length_rest_next_lt (Bool.of_not_eq_true h)

/-- The text before the closing tag `name` that fits an opening tag read before, and the cursor there. Without one there
is no text, and the cursor is at the end. -/
def readNestedContent (c : Cursor) (name : String) : Option (List Char) × Cursor :=
  let (found, d) := closeNested name.toList 0 c
  (if found then some (takeBytes (d.pos - c.pos) c.rest) else none, d)

/-- The cursor after the closing tag `name`, if one stands here: after the closing angle, or at the
end. -/
def consumeClosingTag? (c : Cursor) (name : String) : Option Cursor :=
  if c.atTag .closing name then
    let (_, at_) := (c.jump (2 + byteLength name.toList)).readUntilText ">"
    some ((at_.consume? ">").getD at_)
  else none

def spanFrom (c : Cursor) (start : Nat) : Span := ⟨start, c.pos⟩

theorem length_rest_skip_le (c : Cursor) (n : Nat) : (c.skip n).rest.length ≤ c.rest.length := by
  simp [skip]

theorem length_rest_readWhile_le (c : Cursor) (p : Char → Bool) : (c.readWhile p).2.rest.length ≤ c.rest.length :=
  (List.dropWhile_suffix p).length_le

theorem length_rest_skipBlanks_le (c : Cursor) : c.skipBlanks.rest.length ≤ c.rest.length :=
  c.length_rest_readWhile_le isBlank

theorem length_rest_consume?_le {c d : Cursor} {text : String} (h : c.consume? text = some d) :
    d.rest.length ≤ c.rest.length := by
  unfold consume? at h
  split at h
  · simp only [Option.some.injEq] at h
    rw [← h]
    exact length_dropBytes_le _ _
  · simp at h

theorem length_rest_readAttributeName?_lt {c d : Cursor} {name : List Char}
    (h : c.readAttributeName? = some (name, d)) : d.rest.length < c.rest.length := by
  unfold readAttributeName? at h
  split at h
  · rename_i hp
    simp only [Option.some.injEq] at h
    cases hc : c.rest with
    | nil => simp [peek, hc] at hp
    | cons a as =>
      have ha : isNameChar a = true := by simpa [peek, hc] using hp
      have hd : d.rest = as.dropWhile isNameChar := by
        have hd : d = (c.readWhile isNameChar).2 := by rw [h]
        rw [hd]
        simp [readWhile, hc, ha]
      rw [hd, List.length_cons]
      exact Nat.lt_succ_of_le (List.dropWhile_suffix _).length_le
  · simp at h

theorem length_rest_readQuoted?_le {c d : Cursor} {text : List Char × Char}
    (h : c.readQuoted? = some (text, d)) : d.rest.length ≤ c.rest.length := by
  unfold readQuoted? at h
  split at h
  · split at h
    · simp only [Option.some.injEq, Prod.mk.injEq] at h
      rw [← h.2]
      exact Nat.le_trans (length_rest_skip_le _ _)
        (Nat.le_trans (length_rest_readWhile_le _ _) (length_rest_skip_le _ _))
    · simp at h
  · simp at h

theorem length_rest_readUnquoted_le (c : Cursor) : c.readUnquoted.2.rest.length ≤ c.rest.length :=
  c.length_rest_readWhile_le _

end Cursor

end CustomElement.Markup
