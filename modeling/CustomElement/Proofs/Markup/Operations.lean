import CustomElement.Proofs.Markup.Spans

/-!
# Operations of a cursor

An `Operation` is one thing that a reader does with a cursor, and an `Outcome` what comes of it. A cursor adds up the
bytes of what it recognizes and cuts the text there. What it recognizes has as many bytes as it adds (`jump_tag`), so
every operation passes a text, and gives a piece of it (`Operation.fits`), and a cursor at a character boundary stays
at one (`Operation.soundAt_run`).
-/

namespace CustomElement.Markup.Cursor

open List Text

/-- What a reader asks of a cursor. -/
inductive Operation where
  | next
  | skipBlanks
  | consume (text : String)
  | readUntil (text : String)
  | readTagName
  | readAttributeName
  | readQuoted
  | readUnquoted
  | readContent (name : String)
  | readNestedContent (name : String)
  | consumeClosingTag (name : String)

/-- What comes of an operation: whether it found something, the text that it gives, and the cursor behind it. -/
structure Outcome where
  found : Bool
  text : Option (List Char)
  cursor : Cursor

/-- The outcome of an operation that leaves the cursor alone unless it finds a text. -/
def Outcome.ofRead (c : Cursor) : Option (List Char × Cursor) → Outcome
  | some (text, d) => ⟨true, some text, d⟩
  | none => ⟨false, none, c⟩

/-- The outcome of an operation that gives no text. -/
def Outcome.ofMove (c : Cursor) (moved : Option Cursor) : Outcome := ⟨moved.isSome, none, moved.getD c⟩

/-- The outcome of an operation that moves to the end of the document if there is no section. -/
def Outcome.ofSection (r : Option (List Char) × Cursor) : Outcome := ⟨r.1.isSome, r.1, r.2⟩

def Operation.run (c : Cursor) : Operation → Outcome
  | .next => ⟨c.peek.isSome, c.peek.map ([·]), c.next⟩
  | .skipBlanks => ⟨true, none, c.skipBlanks⟩
  | .consume text => .ofMove c (c.consume? text)
  | .readUntil text => .ofRead c (some (c.readUntilText text))
  | .readTagName => .ofRead c c.readTagName?
  | .readAttributeName => .ofRead (c.readWhile isNameChar).2 c.readAttributeName?
  | .readQuoted => .ofRead c (c.readQuoted?.map fun r => (r.1.1, r.2))
  | .readUnquoted => .ofRead c (some c.readUnquoted)
  | .readContent name => .ofSection (c.readContent name)
  | .readNestedContent name => .ofSection (c.readNestedContent name)
  | .consumeClosingTag name => .ofMove c (c.consumeClosingTag? name)

/-- Operations one after another. -/
def runAll (c : Cursor) (ops : List Operation) : Cursor := ops.foldl (fun c op => (op.run c).cursor) c

/-- Whether the operation looks for the end of a section. -/
def Operation.readsSection : Operation → Bool
  | .readContent _ | .readNestedContent _ => true
  | _ => false

variable {c d : Cursor} {source : String}

/-- The outcome passes a text and gives a piece of it. If nothing is found the cursor stays, unless it looks for a
section. -/
structure Outcome.Fits (c : Cursor) (sectional : Bool) (r : Outcome) : Prop where
  passes : ∃ pre post, c.Passes (pre ++ (r.text.getD [] ++ post)) r.cursor
  unmoved : sectional = false → r.found = false → r.cursor = c

variable {sectional : Bool}

lemma Passes.fits {text : List Char} (h : c.Passes text d) : Outcome.Fits c sectional ⟨true, some text, d⟩ :=
  ⟨⟨[], [], by simpa using h⟩, by simp⟩

lemma Passes.fits_move {text : List Char} (h : c.Passes text d) : Outcome.Fits c sectional ⟨true, none, d⟩ :=
  ⟨⟨text, [], by simpa using h⟩, by simp⟩

lemma fits_none : Outcome.Fits c sectional ⟨false, none, c⟩ :=
  ⟨⟨[], [], Passes.refl c⟩, fun _ _ => rfl⟩

lemma fits_ofMove {moved : Option Cursor} (h : ∀ d, moved = some d → ∃ text, c.Passes text d) :
    (Outcome.ofMove c moved).Fits c sectional := by
  cases moved with
  | none => exact fits_none
  | some d =>
    obtain ⟨text, ht⟩ := h d rfl
    exact ht.fits_move

lemma fits_ofRead {read : Option (List Char × Cursor)} (h : ∀ r, read = some r → c.Passes r.1 r.2) :
    (Outcome.ofRead c read).Fits c sectional := by
  cases read with
  | none => exact fits_none
  | some r => exact (h r rfl).fits

lemma fits_ofSection {r : Option (List Char) × Cursor} (h : ∀ text, r.1 = some text → c.Passes text r.2)
    (hr : ∃ text, c.Passes text r.2) : (Outcome.ofSection r).Fits c true := by
  obtain ⟨_ | text, d⟩ := r
  · obtain ⟨text, ht⟩ := hr
    exact ⟨⟨text, [], by simpa [Outcome.ofSection] using ht⟩, by simp⟩
  · exact (h text rfl).fits

lemma passes_next {a : Char} (hc : c.peek = some a) : c.Passes [a] c.next := by
  obtain ⟨r, hr⟩ := head?_eq_some_iff.1 hc
  have hp := c.passes_skip 1
  rwa [hr, take_succ_cons, take_zero] at hp

/-- **An operation passes a text and gives a piece of it.** -/
lemma Operation.fits (op : Operation) (c : Cursor) : (op.run c).Fits c op.readsSection := by
  cases op with
  | next =>
    cases hc : c.peek with
    | none =>
      have hn : c.next = c := by
        cases c
        simp_all [peek, Cursor.next, skip]
      simpa [run, hc, hn] using fits_none
    | some a => simpa [run, hc] using (passes_next hc).fits
  | skipBlanks => exact c.passes_skipBlanks.fits_move
  | consume text => exact fits_ofMove fun d hd => ⟨_, passes_consume? hd⟩
  | readUntil text => exact (c.passes_readUntil _).fits
  | readTagName =>
    refine fits_ofRead fun r hr => ?_
    unfold readTagName? at hr
    split at hr
    · cases hr
      exact c.passes_readWhile _
    · cases hr
  | readAttributeName =>
    cases hn : c.readAttributeName? with
    | none =>
      -- no name is read, so the cursor comes to stand where it was
      have hstay : (c.readWhile isNameChar).2 = c := by
        obtain ⟨pos, _ | ⟨a, rest⟩⟩ := c
        · rfl
        · cases ha : isNameChar a <;> simp_all [readAttributeName?, peek, readWhile]
      simpa [run, hn, hstay, Outcome.ofRead] using fits_none
    | some r => simpa [run, hn, Outcome.ofRead] using (passes_readAttributeName? hn).fits
  | readQuoted =>
    cases hq : c.readQuoted? with
    | none => simpa [run, hq, Outcome.ofRead] using fits_none
    | some r =>
      -- the quotes are passed, but do not belong to the text
      obtain ⟨-, e, post, ht, hp⟩ := exists_passes_readQuoted? hq
      refine ⟨⟨c.rest.take 1, post, ?_⟩, by simp [run, hq, Outcome.ofRead]⟩
      simpa [run, hq, Outcome.ofRead] using (c.passes_skip 1).trans (ht.trans hp)
  | readUnquoted => exact (c.passes_readWhile _).fits
  | readContent name =>
    exact fits_ofSection (fun text ht => passes_readContent (Prod.ext ht rfl)) ⟨_, c.passes_readUntil _⟩
  | readNestedContent name =>
    refine fits_ofSection (fun text ht => passes_readNestedContent (Prod.ext ht rfl)) ?_
    rw [readNestedContent_eq]
    exact ⟨_, c.passes_skip _⟩
  | consumeClosingTag name => exact fits_ofMove fun d hd => exists_passes_consumeClosingTag? hd

lemma in_runAll (ops : List Operation) (hc : c.In source) : (c.runAll ops).In source := by
  induction ops generalizing c with
  | nil => exact hc
  | cons op ops ih =>
    obtain ⟨pre, post, hp⟩ := (op.fits c).passes
    exact ih (hp.moves hc)

/-- What is promised of an operation: the document can be cut at the cursor, which has the rest of it in front; the cursor
did not go back, and moved only if something was found; and the text that is given stands between two places that it
went over. -/
structure Operation.SoundAt (op : Operation) (source : String) (c : Cursor) : Prop where
  boundary : (splitAtByte? source.toList (op.run c).cursor.pos).map Prod.snd = some (op.run c).cursor.rest
  inside : (op.run c).cursor.pos ≤ byteLength source.toList
  forward : c.pos ≤ (op.run c).cursor.pos
  unmoved : op.readsSection = false → (op.run c).found = false → (op.run c).cursor = c
  text : ∀ text, (op.run c).text = some text → ∃ start stop, c.pos ≤ start ∧ start ≤ stop ∧
    stop ≤ (op.run c).cursor.pos ∧ (Span.mk start stop).slice? source = some (String.ofList text)

lemma Operation.soundAt (op : Operation) (hc : c.In source) : op.SoundAt source c := by
  obtain ⟨⟨pre, post, hp⟩, hunmoved⟩ := op.fits c
  obtain ⟨before, hs, hb⟩ := hp.moves hc
  have hle := hp.le
  refine ⟨?_, ?_, hle, hunmoved, fun text ht => ?_⟩
  · rw [hs, ← hb, splitAtByte?_byteLength, map_some]
  · rw [hs, ← hb, byteLength_append]
    exact Nat.le_add_right _ _
  · obtain ⟨front, hf, hn⟩ := hc
    rw [ht, getD_some] at hp
    refine ⟨c.pos + byteLength pre, c.pos + byteLength pre + byteLength text, by omega, by omega, ?_, ?_⟩
    · rw [hp.pos, byteLength_append, byteLength_append]
      omega
    · have hm := slice?_middle (front ++ pre) text (post ++ (op.run c).cursor.rest)
      rw [byteLength_append, hn] at hm
      rw [Span.slice?, hf, hp.rest]
      simpa using congrArg (Option.map String.ofList) hm

/-- **A cursor is always valid.** From any character boundary of a document and after any operations, every operation is
sound. -/
theorem Operation.soundAt_run {source : String} {pos : Nat} (h : (splitAtByte? source.toList pos).isSome)
    (ops : List Operation) (op : Operation) : op.SoundAt source ((Cursor.start source pos).runAll ops) := by
  obtain ⟨⟨before, rest⟩, hs⟩ := isSome_iff_exists.1 h
  obtain ⟨hsource, rfl⟩ := eq_append_of_splitAtByte? hs
  exact op.soundAt (in_runAll ops (in_start hsource))

theorem Operation.soundAt_run_nested : (splitAtByte? "é<u>«<u>»</u></U >".toList 2).isSome ∧
      (Operation.readNestedContent "u").SoundAt "é<u>«<u>»</u></U >"
        ((Cursor.start "é<u>«<u>»</u></U >" 2).runAll [.consume "<", .readQuoted, .readUntil ">", .next]) :=
  ⟨by decide, Operation.soundAt_run (by decide) _ _⟩

end CustomElement.Markup.Cursor
