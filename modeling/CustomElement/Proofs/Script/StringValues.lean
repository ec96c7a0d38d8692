import CustomElement.Proofs.Script.NormalForm

/-!
# The values of string literals

`literalValue` is the string that a literal stands for, as a sequence of UTF-16 code units. A literal keeps its value
between other quotes (`requote_keeps_value`): where the texts differ, one has a backslash or a quote and so has the
other, and neither is part of an escape that has begun (`valueFrom_congr_of_mark`).
-/

namespace CustomElement.Script

open Text

variable {c q : Char} {r : List UInt16 × LiteralState} {state : LiteralState} {literal : String}

def codeUnits (point : Nat) : List UInt16 :=
  if point < 0x10000 then [UInt16.ofNat point]
  else [UInt16.ofNat (0xD800 + (point - 0x10000) / 0x400), UInt16.ofNat (0xDC00 + (point - 0x10000) % 0x400)]

def hexDigit? (c : Char) : Option Nat :=
  if '0' ≤ c ∧ c ≤ '9' then some (c.toNat - '0'.toNat)
  else if 'a' ≤ c ∧ c ≤ 'f' then some (c.toNat - 'a'.toNat + 10)
  else if 'A' ≤ c ∧ c ≤ 'F' then some (c.toNat - 'A'.toNat + 10)
  else none

def octalDigit? (c : Char) : Option Nat := if '0' ≤ c ∧ c ≤ '7' then some (c.toNat - '0'.toNat) else none

inductive LiteralState where
  /-- In no escape. -/
  | text
  | escape
  /-- Behind an escaped carriage return, to which a line feed belongs. -/
  | carriage
  /-- In a code unit of which `left` hexadecimal digits are missing. -/
  | unit (left value : Nat)
  /-- Behind the mark of a Unicode escape. -/
  | unicode
  /-- Between the braces of a code point, with the value of its digits if there were any. -/
  | point (value : Option Nat)
  /-- In an octal escape that takes at most `left` more digits. -/
  | octal (left value : Nat)
deriving DecidableEq, Repr

def readPlain (c : Char) : Option (List UInt16 × LiteralState) :=
  if c = '\\' then some ([], .escape)
  else if c = '\n' ∨ c = '\r' then none
  else some (codeUnits c.toNat, .text)

def escapedUnits (c : Char) : List UInt16 :=
  match c with
  | 'b' => [0x08]
  | 't' => [0x09]
  | 'n' => [0x0A]
  | 'v' => [0x0B]
  | 'f' => [0x0C]
  | 'r' => [0x0D]
  | c => codeUnits c.toNat

def readEscaped (c : Char) : List UInt16 × LiteralState :=
  if c = 'x' then ([], .unit 2 0)
  else if c = 'u' then ([], .unicode)
  else if c = '\r' then ([], .carriage)
  else if c = '\n' ∨ c = '\u2028' ∨ c = '\u2029' then ([], .text)
  else
    match octalDigit? c with
    | some d => ([], .octal (if d ≤ 3 then 2 else 1) d)
    | none => (escapedUnits c, .text)

def readDigit (left value : Nat) (c : Char) : Option (List UInt16 × LiteralState) :=
  (hexDigit? c).map fun d =>
    if left ≤ 1 then ([UInt16.ofNat (16 * value + d)], .text) else ([], .unit (left - 1) (16 * value + d))

def readPoint (value : Option Nat) (c : Char) : Option (List UInt16 × LiteralState) :=
  if c = '}' then value.map fun v => (codeUnits v, .text)
  else
    (hexDigit? c).bind fun d =>
      if 16 * value.getD 0 + d ≤ 0x10FFFF then some ([], .point (some (16 * value.getD 0 + d))) else none

def readOctal (left value : Nat) (c : Char) : Option (List UInt16 × LiteralState) :=
  match if left = 0 then none else octalDigit? c with
  | some d => some ([], .octal (left - 1) (8 * value + d))
  | none => (readPlain c).map fun r => (UInt16.ofNat value :: r.1, r.2)

/-- The code units that the reader puts out at a character, and where it stands behind it. -/
def LiteralState.step : LiteralState → Char → Option (List UInt16 × LiteralState)
  | .text, c => readPlain c
  | .escape, c => some (readEscaped c)
  | .carriage, c => if c = '\n' then some ([], .text) else readPlain c
  | .unit left value, c => readDigit left value c
  | .unicode, c => if c = '{' then some ([], .point none) else readDigit 4 0 c
  | .point value, c => readPoint value c
  | .octal left value, c => readOctal left value c

def LiteralState.finish : LiteralState → Option (List UInt16)
  | .text | .carriage => some []
  | .octal _ value => some [UInt16.ofNat value]
  | .escape | .unit .. | .unicode | .point _ => none

def valueFrom : LiteralState → List Char → Option (List UInt16)
  | state, [] => state.finish
  | state, c :: cs => (state.step c).bind fun r => (valueFrom r.2 cs).map (r.1 ++ ·)

def betweenQuotes (literal : String) : List Char := literal.toList.tail.dropLast

/-- The string that a literal stands for, in code units. -/
def literalValue (literal : String) : Option (List UInt16) := valueFrom .text (betweenQuotes literal)

/-- A surrogate pair written out, an octal escape that a digit ends, and a line that goes on. -/
example : literalValue "'\\u\x7b1F600\x7d\\08\\\n\\x41'" = some [0xD83D, 0xDE00, 0, 0x38, 0x41] := by
  decide

def isEscapeMark (c : Char) : Bool := c == '\\' || c == '\'' || c == '"'

lemma isEscapeMark_iff : isEscapeMark c ↔ c = '\\' ∨ c = '\'' ∨ c = '"' := by
  simp [isEscapeMark, or_assoc]

lemma readDigit_of_mark (hc : isEscapeMark c) (left v : Nat) : readDigit left v c = none := by
  rcases isEscapeMark_iff.1 hc with rfl | rfl | rfl <;> rfl

lemma readPoint_of_mark (hc : isEscapeMark c) (v : Option Nat) : readPoint v c = none := by
  rcases isEscapeMark_iff.1 hc with rfl | rfl | rfl <;> rfl

lemma readOctal_of_mark (hc : isEscapeMark c) (left v : Nat) :
    readOctal left v c = (readPlain c).map fun r => (UInt16.ofNat v :: r.1, r.2) := by
  have hd : octalDigit? c = none := by rcases isEscapeMark_iff.1 hc with rfl | rfl | rfl <;> rfl
  rw [readOctal, hd, ite_self]

lemma valueFrom_octal_of_mark (hc : isEscapeMark c) (left v : Nat) (cs : List Char) :
    valueFrom (.octal left v) (c :: cs) = (valueFrom .text (c :: cs)).map (UInt16.ofNat v :: ·) := by
  rw [valueFrom, valueFrom, LiteralState.step, LiteralState.step, readOctal_of_mark hc]
  cases readPlain c with
  | none => rfl
  | some r => simp [comp_def]

/-- **No escape goes on at a backslash or a quote.** So texts that begin with one and have one value have one value in
every place but behind a backslash. -/
lemma valueFrom_congr_of_mark {d : Char} {cs ds : List Char} (hc : isEscapeMark c)
    (hd : isEscapeMark d) (h : valueFrom .text (c :: cs) = valueFrom .text (d :: ds))
    (hst : state ≠ .escape) : valueFrom state (c :: cs) = valueFrom state (d :: ds) := by
  have hp : ∀ {c : Char}, isEscapeMark c → c ≠ '\n' ∧ c ≠ '{' := by
    intro c hc
    rcases isEscapeMark_iff.1 hc with rfl | rfl | rfl <;> decide
  cases state with
  | text => exact h
  | escape => exact absurd rfl hst
  | carriage =>
    have hs : ∀ {c : Char}, isEscapeMark c → LiteralState.step .carriage c = LiteralState.step .text c :=
      fun hc => if_neg (hp hc).1
    rw [valueFrom, valueFrom] at h ⊢
    rw [hs hc, hs hd, h]
  | unit left v =>
    rw [valueFrom, valueFrom, LiteralState.step, LiteralState.step, readDigit_of_mark hc, readDigit_of_mark hd]
    rfl
  | unicode =>
    have hs : ∀ {c : Char}, isEscapeMark c → LiteralState.step .unicode c = none := by
      intro c hc
      rw [LiteralState.step, if_neg (hp hc).2, readDigit_of_mark hc]
    rw [valueFrom, valueFrom, hs hc, hs hd]
    rfl
  | point v =>
    rw [valueFrom, valueFrom, LiteralState.step, LiteralState.step, readPoint_of_mark hc, readPoint_of_mark hd]
    rfl
  | octal left v => rw [valueFrom_octal_of_mark hc, valueFrom_octal_of_mark hd, h]

lemma readPlain_ne_escape (hc : c ≠ '\\') (h : readPlain c = some r) : r.2 ≠ .escape := by
  rw [readPlain, if_neg hc] at h
  split at h
  · cases h
  · cases h
    exact LiteralState.noConfusion

lemma readDigit_ne_escape {left v : Nat} (h : readDigit left v c = some r) : r.2 ≠ .escape := by
  obtain ⟨d, -, rfl⟩ := map_eq_some_iff.1 h
  split <;> exact LiteralState.noConfusion

lemma readEscaped_ne_escape (c : Char) : (readEscaped c).2 ≠ .escape := by
  unfold readEscaped
  repeat' split
  all_goals exact LiteralState.noConfusion

lemma step_ne_escape (hc : c ≠ '\\') (h : state.step c = some r) : r.2 ≠ .escape := by
  cases state with
  | text => exact readPlain_ne_escape hc h
  | escape =>
    cases h
    exact readEscaped_ne_escape c
  | carriage =>
    rw [LiteralState.step] at h
    split at h
    · cases h
      exact LiteralState.noConfusion
    · exact readPlain_ne_escape hc h
  | unit left value => exact readDigit_ne_escape h
  | unicode =>
    rw [LiteralState.step] at h
    split at h
    · cases h
      exact LiteralState.noConfusion
    · exact readDigit_ne_escape h
  | point value =>
    rw [LiteralState.step, readPoint] at h
    split at h
    · obtain ⟨v, -, rfl⟩ := map_eq_some_iff.1 h
      exact LiteralState.noConfusion
    · obtain ⟨d, -, h⟩ := bind_eq_some_iff.1 h
      split at h
      · cases h
        exact LiteralState.noConfusion
      · cases h
  | octal left value =>
    rw [LiteralState.step, readOctal] at h
    split at h
    · cases h
      exact LiteralState.noConfusion
    · obtain ⟨r, hr, rfl⟩ := map_eq_some_iff.1 h
      exact readPlain_ne_escape (r := r) hc hr

lemma valueFrom_escaped_quote (hq : q = '\'' ∨ q = '"') (cs : List Char) :
    valueFrom .text ('\\' :: q :: cs) = valueFrom .text (q :: cs) := by
  rcases hq with rfl | rfl
  all_goals
    simp only [valueFrom, LiteralState.step]
    simp [readPlain, readEscaped, escapedUnits, octalDigit?, Function.comp_def]

lemma valueFrom_requoteText {old new : Char} (ho : old = '\'' ∨ old = '"') (hn : new = '\'' ∨ new = '"')
    (text : List Char) (hst : state ≠ .escape) : valueFrom state (requoteText old new text) = valueFrom state text := by
  have hm : ∀ {q : Char}, q = '\'' ∨ q = '"' → isEscapeMark q := fun hq => isEscapeMark_iff.2 (.inr hq)
  have hs : isEscapeMark '\\' := rfl
  have hp : ∀ {q : Char}, q = '\'' ∨ q = '"' → ∀ {x y : List Char},
      (∀ {state : LiteralState}, state ≠ .escape → valueFrom state x = valueFrom state y) →
        valueFrom .text (q :: x) = valueFrom .text (q :: y) := by
    intro q hq x y hre
    have hq' : q ≠ '\\' := by rcases hq with rfl | rfl <;> decide
    rw [valueFrom, valueFrom]
    exact Option.bind_congr fun r hr => by rw [hre (step_ne_escape hq' hr)]
  fun_induction requoteText old new text generalizing state with
  | case1 => rfl
  | case2 cs ih =>
    -- The backslash before the old quote goes.
    refine valueFrom_congr_of_mark (hm ho) hs ?_ hst
    rw [valueFrom_escaped_quote ho]
    exact hp ho ih
  | case3 c cs hc ih =>
    refine valueFrom_congr_of_mark hs hs ?_ hst
    have he : ∀ x : List Char, valueFrom .text ('\\' :: c :: x) =
        (valueFrom (readEscaped c).2 x).map ((readEscaped c).1 ++ ·) := by
      intro x
      simp [valueFrom, LiteralState.step, readPlain, Function.comp_def]
    rw [he, he, ih (readEscaped_ne_escape c)]
  | case4 cs he ih =>
    -- The new quote takes a backslash.
    refine valueFrom_congr_of_mark hs (hm hn) ?_ hst
    rw [valueFrom_escaped_quote hn]
    exact hp hn ih
  | case5 c cs he hc ih =>
    by_cases hs : c = '\\'
    · cases cs with
      | nil => rfl
      | cons d cs => exact (he d cs hs rfl).elim
    · rw [valueFrom, valueFrom]
      exact Option.bind_congr fun r hr => by rw [ih (step_ne_escape hs hr)]

lemma countQuoted_eq_count (hq : q ≠ '\\') (x : List Char) : countQuoted q x = x.count q := by
  fun_induction countQuoted q x with
  | case1 => rfl
  | case2 c cs ih =>
    rw [ih, List.count_cons_of_ne hq.symm, List.count_cons, Nat.add_comm]
    simp
  | case3 c cs he ih =>
    rw [ih, List.count_cons, Nat.add_comm]
    simp

def QuotedBy (q : Char) (literal : String) : Prop := ∃ text, literal.toList = q :: (text ++ [q])

def wellQuoted (literal : String) : String := (requote literal).getD literal

lemma exists_quotes {t : Token} (h : tokenize literal = .ok [t]) (hk : t.kind = .string) :
    t.text = literal ∧ Lexes true true literal.toList t.form [] ∧
      ∃ q x, literal.toList = q :: (x ++ [q]) ∧ (q = '\'' ∨ q = '"') := by
  have hr : Reads true true literal.toList [t.form] := tokenize_eq_ok_iff.1 ⟨[t], h, rfl⟩
  have ht : t.text.toList = literal.toList := by simpa [form] using hr.flatMap_text
  obtain ⟨rs, fst, more⟩ := hr.uncons
  obtain rfl : rs = [] := by simpa using more.flatMap_text.symm
  obtain ⟨q, x, ha, hq⟩ := fst.exists_quotes hk
  exact ⟨String.toList_injective ht, fst, q, x, ht ▸ ha, hq⟩

lemma betweenQuotes_eq {r : Char} {text : List Char} (h : literal.toList = q :: (text ++ [r])) :
    betweenQuotes literal = text := by
  rw [betweenQuotes, h, List.tail_cons, List.dropLast_concat]

lemma quotedBy_iff {r : Char} {x : List Char} (h : literal.toList = r :: (x ++ [r])) : QuotedBy q literal ↔ r = q := by
  constructor
  · rintro ⟨x', ht'⟩
    exact (List.cons.inj (h.symm.trans ht')).1
  · rintro rfl
    exact ⟨x, h⟩

lemma wellQuoted_eq {x : List Char} (h : literal.toList = q :: (x ++ [q])) (hq : q = '\'' ∨ q = '"') :
    (wellQuoted literal).toList = preferredQuote x ::
        ((if preferredQuote x = q then x else requoteText q (preferredQuote x) x) ++ [preferredQuote x]) ∧
      requote (wellQuoted literal) = none := by
  unfold wellQuoted
  cases hr : requote literal with
  | none =>
    have hs : preferredQuote x = q := by
      unfold requote at hr
      rw [h] at hr
      rcases hq with rfl | rfl <;> simpa using hr
    simp [hs, h, hr]
  | some changed =>
    obtain ⟨old, x', last, hl, -, hn, hc⟩ := requote_eq_some hr
    obtain ⟨rfl, hre⟩ := List.cons.inj (h.symm.trans hl)
    obtain ⟨rfl, -⟩ := List.append_inj' hre rfl
    exact ⟨by rw [Option.getD_some, hc, if_neg hn], requote_of_requote hr⟩

/-- **Other quotes keep a literal what it is.** A script that is one string literal is one again with the quotes it
should have, and stands for the same string. These are double quotes exactly if the text holds more single than double
quotes, and they are right once and for all. -/
theorem requote_keeps_value {literal : String} {t : Token} (h : tokenize literal = .ok [t]) (hkind : t.kind = .string) :
    (∃ t', tokenize (wellQuoted literal) = .ok [t'] ∧ t'.kind = .string ∧ t'.text = wellQuoted literal) ∧
      literalValue (wellQuoted literal) = literalValue literal ∧
      (QuotedBy '"' (wellQuoted literal) ↔ (betweenQuotes literal).count '"' < (betweenQuotes literal).count '\'') ∧
      requote (wellQuoted literal) = none := by
  obtain ⟨htext, first, q, text, hliteral, hq⟩ := exists_quotes h hkind
  obtain ⟨hquoted, hnone⟩ := wellQuoted_eq hliteral hq
  have hbetween := betweenQuotes_eq hliteral
  refine ⟨?_, ?_, ?_, hnone⟩
  · have hform : t.requoted.form = ⟨.string, (wellQuoted literal).toList⟩ := by
      simp [Token.form, Token.requoted, hkind, htext, wellQuoted]
    have hreads : Reads true true (wellQuoted literal).toList [t.requoted.form] := by
      have hlexes := first.requoted hkind []
      rw [List.append_nil, hform] at hlexes
      rw [hform]
      exact .cons hlexes (.nil _ _)
    obtain ⟨tokens, htokens, hforms⟩ := tokenize_eq_ok_iff.2 hreads
    obtain ⟨t', rfl, ht'⟩ := List.map_eq_singleton_iff.1 hforms
    obtain ⟨hkind', htext'⟩ := Form.mk.inj (ht'.trans hform)
    exact ⟨t', htokens, hkind', String.toList_injective htext'⟩
  · rw [literalValue, literalValue, betweenQuotes_eq hquoted, hbetween]
    split
    · rfl
    · exact valueFrom_requoteText hq (preferredQuote_eq text).symm text (by decide)
  · rw [quotedBy_iff hquoted, hbetween, ← countQuoted_eq_count (by decide), ← countQuoted_eq_count (by decide),
      preferredQuote]
    simp

theorem requote_keeps_value_escapes :
    tokenize "\"\\\\\\\"'\\\n\\x27\"" = .ok [⟨.string, "\"\\\\\\\"'\\\n\\x27\"", 0⟩] ∧
      (∃ t', tokenize "'\\\\\"\\'\\\n\\x27'" = .ok [t'] ∧ t'.kind = .string ∧ t'.text = "'\\\\\"\\'\\\n\\x27'") ∧
      literalValue "'\\\\\"\\'\\\n\\x27'" = literalValue "\"\\\\\\\"'\\\n\\x27\"" := by
  have htokens : tokenize "\"\\\\\\\"'\\\n\\x27\"" = .ok [⟨.string, "\"\\\\\\\"'\\\n\\x27\"", 0⟩] := by cbv
  have hquoted : wellQuoted "\"\\\\\\\"'\\\n\\x27\"" = "'\\\\\"\\'\\\n\\x27'" := by cbv
  obtain ⟨hread, hvalue, -⟩ := requote_keeps_value htokens rfl
  rw [hquoted] at hread hvalue
  exact ⟨htokens, hread, hvalue⟩

end CustomElement.Script
