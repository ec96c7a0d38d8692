import CustomElement.Proofs.Script.Tiling

/-!
# How far ahead a token is read

`Form.endsBefore` says which texts may follow a token without being drawn into it, and `lexeme_local` that nothing else
matters: a token that was read once is read again, from other places and before other texts.
-/

namespace CustomElement.Script

open List Text

variable {fresh : Bool} {c d : Char} {a b cs v r : List Char} {offset st : Nat} {prev : Option Token}
  {o : Option (Cut cs)} {kind : Kind} {prev' : Option Token}

/-- A token without its place: its kind and its text. -/
structure Form where
  kind : Kind
  text : List Char
deriving DecidableEq, Repr

def Token.form (t : Token) : Form := ⟨t.kind, t.text.toList⟩

def continuesNumber (hex : Bool) (last c : Char) : Bool :=
  c.isAlphanum || c == '_' || c == '.' || ((c == '+' || c == '-') && !hex && (last == 'e' || last == 'E'))

def isHexText : List Char → Bool
  | c :: cs => c == '0' && (cs.head? == some 'x' || cs.head? == some 'X')
  | [] => false

/-- A token of this form ends before `rest`. At the very beginning of a script (`fresh`) a number sign before an
exclamation mark is no word. -/
def Form.endsBefore (fresh : Bool) (f : Form) (rest : List Char) : Bool :=
  match f.kind with
  | .blank => !rest.head?.any isGap
  | .lineComment => rest.head?.all fun c => c == '\n' || c == '\r'
  | .blockComment | .string | .template => true
  | .number => !rest.head?.any (continuesNumber (isHexText f.text) (f.text.getLastD '0'))
  | .word => !rest.head?.any isWordPart && !(fresh && f.text == ['#'] && rest.head? == some '!')
  | .regex => !rest.head?.any Char.isAlpha
  | .punct =>
    match f.text with
    | [] => false
    | c :: cs => punctExtent c (cs ++ rest) == cs.length &&
        !(cs.isEmpty && c == '/' && (rest.head? == some '/' || rest.head? == some '*')) &&
        !(cs.isEmpty && c == '.' && rest.head?.any Char.isDigit)

def parts {cs : List Char} (cut : Cut cs) : List Char × List Char := (cut.head, cut.rest)

lemma map_cons_parts : (o.map (Cut.cons c)).map parts = some (a, b) ↔ ∃ a', a = c :: a' ∧ o.map parts = some (a', b) := by
  cases o with
  | none => simp
  | some cut => simp [parts, Cut.cons]; grind

lemma map_escape_parts : (o.map fun cut => (cut.cons c).cons '\\').map parts = some (a, b) ↔
      ∃ a', a = '\\' :: c :: a' ∧ o.map parts = some (a', b) := by
  cases o with
  | none => simp
  | some cut => simp [parts, Cut.cons]; grind

lemma append_of_parts (h : o.map parts = some (a, b)) : a ++ b = cs ∧ a ≠ [] := by
  obtain ⟨cut, -, hp⟩ := map_eq_some_iff.1 h
  obtain ⟨rfl, rfl⟩ := Prod.mk.inj hp
  exact ⟨cut.head_append_rest, cut.head_ne_nil⟩

lemma blockCommentRest_local (h : (blockCommentRest cs).map parts = some (a, b)) (rest : List Char) :
    (blockCommentRest (a ++ rest)).map parts = some (a, rest) ∧ a.getLast? = some '/' := by
  fun_induction blockCommentRest cs generalizing a with
  | case1 => simp at h
  | case2 cs =>
    obtain ⟨rfl, rfl⟩ : ['*', '/'] = a ∧ cs = b := by simpa [parts, Cut.cons, Cut.first] using h
    exact ⟨rfl, rfl⟩
  | case3 c cs hn ih =>
    obtain ⟨a, rfl, hr⟩ := map_cons_parts.1 h
    obtain ⟨hcs, ha⟩ := append_of_parts hr
    obtain ⟨hlo, hla⟩ := ih hr
    obtain ⟨d, a, rfl⟩ := exists_cons_of_ne_nil ha
    -- The mark that closes the comment stands later, so it does not stand here.
    have hn' : ∀ tail, c = '*' → (d :: a) ++ rest = '/' :: tail → False := by
      intro tail hc ht
      obtain ⟨hd, -⟩ := List.cons.inj ht
      exact hn (a ++ b) hc (by rw [← hcs, hd, cons_append])
    rw [cons_append, blockCommentRest.eq_3 _ _ hn', map_cons_parts]
    exact ⟨⟨d :: a, rfl, hlo⟩, by simp [getLast?_cons, hla]⟩

lemma ne_escape (ho : c = '\\' → cs = [] → False) (ht : ∀ d ds, c = '\\' → cs = d :: ds → False) : c ≠ '\\' := by
  intro hc
  cases cs with
  | nil => exact ho hc rfl
  | cons d cs => exact ht d cs hc rfl

lemma stringRest_cons {q : Char} (hc : c ≠ '\\') : stringRest q (c :: cs) = if c = '\n' then none
      else if c = q then some (Cut.first c cs) else (stringRest q cs).map (Cut.cons c) :=
  stringRest.eq_4 _ _ _ (fun h _ => hc h) (fun _ _ h _ => hc h)

lemma stringRest_local {quote : Char} (h : (stringRest quote cs).map parts = some (a, b)) (rest : List Char) :
    (stringRest quote (a ++ rest)).map parts = some (a, rest) ∧ a.getLast? = some quote := by
  fun_induction stringRest quote cs generalizing a with
  | case1 => simp at h
  | case2 => simp at h
  | case3 c cs ih =>
    obtain ⟨a, rfl, hr⟩ := map_escape_parts.1 h
    rw [cons_append, cons_append, stringRest, map_escape_parts]
    exact ⟨⟨a, rfl, (ih hr).1⟩, by simp [getLast?_cons, (ih hr).2]⟩
  | case4 => simp at h
  | case5 cs ho ht hl =>
    obtain ⟨rfl, rfl⟩ : [quote] = a ∧ cs = b := by simpa [parts, Cut.first] using h
    rw [singleton_append, stringRest_cons (ne_escape ho ht)]
    simp [hl, parts, Cut.first]
  | case6 c cs ho ht hl hq ih =>
    obtain ⟨a, rfl, hr⟩ := map_cons_parts.1 h
    rw [cons_append, stringRest_cons (ne_escape ho ht), if_neg hl, if_neg hq, map_cons_parts]
    exact ⟨⟨a, rfl, (ih hr).1⟩, by simp [getLast?_cons, (ih hr).2]⟩

lemma regexRest_cons {inClass : Bool} (hc : c ≠ '\\') : regexRest inClass (c :: cs) = if c = '\n' then none
      else if c = '[' then (regexRest true cs).map (Cut.cons c)
      else if c = ']' then (regexRest false cs).map (Cut.cons c) else if c = '/' && !inClass then some (Cut.first c cs)
      else (regexRest inClass cs).map (Cut.cons c) :=
  regexRest.eq_4 _ _ _ (fun h _ => hc h) (fun _ _ h _ => hc h)

lemma regexRest_local {inClass : Bool} (h : (regexRest inClass cs).map parts = some (a, b)) (rest : List Char) :
    (regexRest inClass (a ++ rest)).map parts = some (a, rest) ∧ a.getLast? = some '/' := by
  fun_induction regexRest inClass cs generalizing a with
  | case1 => simp at h
  | case2 => simp at h
  | case3 inClass c cs ih =>
    obtain ⟨a, rfl, hr⟩ := map_escape_parts.1 h
    rw [cons_append, cons_append, regexRest, map_escape_parts]
    exact ⟨⟨a, rfl, (ih hr).1⟩, by simp [getLast?_cons, (ih hr).2]⟩
  | case4 => simp at h
  | case5 inClass cs ho ht hl ih | case6 inClass cs ho ht hl hn ih =>
    obtain ⟨a, rfl, hr⟩ := map_cons_parts.1 h
    rw [cons_append, regexRest_cons (by decide)]
    simp only [Char.reduceEq, if_false, if_true, map_cons_parts]
    exact ⟨⟨a, rfl, (ih hr).1⟩, by simp [getLast?_cons, (ih hr).2]⟩
  | case7 inClass c cs ho ht hl hop hc hs =>
    obtain ⟨rfl, rfl⟩ : [c] = a ∧ cs = b := by simpa [parts, Cut.first] using h
    rw [singleton_append, regexRest_cons (ne_escape ho ht), if_neg hl, if_neg hop, if_neg hc, if_pos hs]
    exact ⟨rfl, by simp_all⟩
  | case8 inClass c cs ho ht hl hop hc hs ih =>
    obtain ⟨a, rfl, hr⟩ := map_cons_parts.1 h
    rw [cons_append, regexRest_cons (ne_escape ho ht), if_neg hl, if_neg hop, if_neg hc, if_neg hs, map_cons_parts]
    exact ⟨⟨a, rfl, (ih hr).1⟩, by simp [getLast?_cons, (ih hr).2]⟩

lemma numberExtent_le (hex : Bool) (last : Char) (cs : List Char) : numberExtent hex last cs ≤ cs.length := by
  fun_induction numberExtent hex last cs with
  | case1 => simp
  | case2 last c cs sign hc ih => simpa using ih
  | case3 => simp

lemma numberExtent_append {hex : Bool} {last : Char} : numberExtent hex last (a ++ r) = a.length ↔
      numberExtent hex last a = a.length ∧ r.head?.any (continuesNumber hex (a.getLastD last)) = false := by
  induction a generalizing last with
  | nil =>
    cases r with
    | nil => simp [numberExtent]
    | cons c r => simp [numberExtent, continuesNumber]
  | cons c a ih =>
    simp only [cons_append, numberExtent, length_cons, getLastD_cons]
    split <;> simp [ih]

lemma length_take_numberExtent (hex : Bool) (last : Char) (cs : List Char) :
    (cs.take (numberExtent hex last cs)).length = numberExtent hex last cs :=
  length_take_of_le (numberExtent_le hex last cs)

lemma punctExtent_le (c : Char) (cs : List Char) : punctExtent c cs ≤ cs.length := by
  unfold punctExtent
  dsimp only
  split
  · rename_i p hp
    have hf := find?_some hp
    rw [and_eq_true] at hf
    have hl := ( isPrefixOf_iff_prefix.1 hf.1).length_le
    rw [length_toList, length_cons] at hl
    omega
  · omega

/-- The kind of the token that starts with `c` before `next`, templates apart. A slash starts a
regular expression if `slash` says so. -/
def openingKind (fresh slash : Bool) (c : Char) (next : Option Char) : Kind :=
  if isGap c then .blank
  else if (c == '/' && next == some '/') || (fresh && c == '#' && next == some '!') then .lineComment
  else if c == '/' && next == some '*' then .blockComment
  else if c == '\'' || c == '"' then .string
  else if c.isDigit || (c == '.' && next.any Char.isDigit) then .number
  else if isWordStart c then .word
  else if c == '/' && slash then .regex
  else .punct

/-- A token of this kind that starts with `c`: its other characters, and what is left of `cs`. -/
def bodyOf (kind : Kind) (c : Char) (cs : List Char) : Option (List Char × List Char) :=
  match kind with
  | .blank => some (cs.takeWhile isGap, cs.dropWhile isGap)
  | .lineComment => some (cs.takeWhile fun c => c != '\n' && c != '\r', cs.dropWhile fun c => c != '\n' && c != '\r')
  | .blockComment =>
    match cs with
    | [] => none
    | star :: cs => ((blockCommentRest cs).map (Cut.cons star)).map parts
  | .string => (stringRest c cs).map parts
  | .template => none
  | .number =>
    let n := numberExtent (isHexText (c :: cs)) c cs
    some (cs.take n, cs.drop n)
  | .word => some (cs.takeWhile isWordPart, cs.dropWhile isWordPart)
  | .regex => ((regexRest false cs).map parts).map fun p =>
      (p.1 ++ p.2.takeWhile Char.isAlpha, p.2.dropWhile Char.isAlpha)
  | .punct => some (cs.take (punctExtent c cs), cs.drop (punctExtent c cs))

def outcome {cs : List Char} (r : Except Unclosed (Kind × Cut cs)) :
    Option (Kind × List Char × List Char) :=
  r.toOption.map fun r => (r.1, parts r.2)

lemma plainLexeme_outcome (offset : Nat) (prev : Option Token) (c : Char) (cs : List Char) :
    outcome (plainLexeme offset prev c cs) =
      (bodyOf (openingKind (offset == 0) (regexAllowed prev) c cs.head?) c cs).map fun p =>
        (openingKind (offset == 0) (regexAllowed prev) c cs.head?, c :: p.1, p.2) := by
  unfold plainLexeme openingKind
  simp only [startsLineComment, startsNumber]
  by_cases hg : isGap c
  · rw [if_pos hg, if_pos hg]
    rfl
  rw [if_neg hg, if_neg hg]
  by_cases hl : (c == '/' && cs.head? == some '/' || offset == 0 && c == '#' && cs.head? == some '!')
  · rw [if_pos hl, if_pos hl]
    rfl
  rw [if_neg hl, if_neg hl]
  by_cases hb : (c == '/' && cs.head? == some '*')
  · rw [if_pos hb, if_pos hb]
    cases cs with
    | nil => simp at hb
    | cons star cs =>
      simp only [bodyOf, Option.map_map]
      cases blockCommentRest cs <;> rfl
  rw [if_neg hb, if_neg hb]
  by_cases hq : (c == '\'' || c == '"')
  · rw [if_pos hq, if_pos hq]
    simp only [bodyOf, Option.map_map]
    cases stringRest c cs <;> rfl
  rw [if_neg hq, if_neg hq]
  by_cases hn : (c.isDigit || c == '.' && cs.head?.any Char.isDigit)
  · rw [if_pos hn, if_pos hn]
    rfl
  rw [if_neg hn, if_neg hn]
  by_cases hw : isWordStart c
  · rw [if_pos hw, if_pos hw]
    rfl
  rw [if_neg hw, if_neg hw]
  by_cases hr : (c == '/' && regexAllowed prev)
  · rw [if_pos hr, if_pos hr]
    simp only [bodyOf, Option.map_map]
    cases regexRest false cs <;> rfl
  · rw [if_neg hr, if_neg hr]
    rfl

lemma bodyOf_append (h : bodyOf kind c cs = some (a, b)) : a ++ b = cs := by
  unfold bodyOf at h
  split at h
  · obtain ⟨rfl, rfl⟩ : _ ∧ _ := by simpa using h
    exact takeWhile_append_dropWhile
  · obtain ⟨rfl, rfl⟩ : _ ∧ _ := by simpa using h
    exact takeWhile_append_dropWhile
  · split at h
    · simp at h
    · exact (append_of_parts h).1
  · exact (append_of_parts h).1
  · simp at h
  · obtain ⟨rfl, rfl⟩ : _ ∧ _ := by simpa using h
    exact take_append_drop _ _
  · obtain ⟨rfl, rfl⟩ : _ ∧ _ := by simpa using h
    exact takeWhile_append_dropWhile
  · obtain ⟨p, hp, he⟩ := map_eq_some_iff.1 h
    obtain ⟨rfl, rfl⟩ := Prod.mk.inj he
    rw [append_assoc, takeWhile_append_dropWhile, (append_of_parts hp).1]
  · obtain ⟨rfl, rfl⟩ : _ ∧ _ := by simpa using h
    exact take_append_drop _ _

lemma isHexText_append {last : Char} {hex : Bool} (hb : b.head?.any (continuesNumber hex last) = false) :
    isHexText (c :: (a ++ b)) = isHexText (c :: a) := by
  cases a with
  | cons d a => rfl
  | nil =>
    cases b with
    | nil => rfl
    | cons d b =>
      have hd : continuesNumber hex last d = false := by simpa using hb
      have hx : d ≠ 'x' := by rintro rfl; simp [continuesNumber] at hd
      have hX : d ≠ 'X' := by rintro rfl; simp [continuesNumber] at hd
      simp [isHexText, hx, hX]

lemma number_body (h : bodyOf .number c cs = some (a, b)) : numberExtent (isHexText (c :: a)) c a = a.length ∧
      b.head?.any (continuesNumber (isHexText (c :: a)) (a.getLastD c)) = false := by
  have hc := bodyOf_append h
  have ha : a = cs.take (numberExtent (isHexText (c :: cs)) c cs) := by
    simp only [bodyOf, some.injEq, Prod.mk.injEq] at h
    exact h.1.symm
  have hl : numberExtent (isHexText (c :: cs)) c (a ++ b) = a.length := by
    rw [hc, ha, length_take_numberExtent]
  obtain ⟨h1, h2⟩ := numberExtent_append.1 hl
  have hh : isHexText (c :: cs) = isHexText (c :: a) := by
    rw [← hc]
    exact isHexText_append h2
  rw [hh] at h1 h2
  exact ⟨h1, h2⟩

lemma while_body {p : Char → Bool} (h : some (cs.takeWhile p, cs.dropWhile p) = some (a, b)) :
    a.all p ∧ b.head?.any p = false := by
  obtain ⟨rfl, rfl⟩ : cs.takeWhile p = a ∧ cs.dropWhile p = b := by simpa using h
  exact ⟨all_takeWhile, head?_dropWhile_any p cs⟩

lemma endsBefore_of_bodyOf {slash : Bool} (hk : openingKind fresh slash c cs.head? = kind)
    (h : bodyOf kind c cs = some (a, b)) : Form.endsBefore fresh ⟨kind, c :: a⟩ b := by
  have hc := bodyOf_append h
  cases kind with
  | blank => simpa [Form.endsBefore] using (while_body h).2
  | lineComment =>
    have hb := (while_body h).2
    cases b with
    | nil => rfl
    | cons d b =>
      simp only [head?_cons, any_some, Bool.and_eq_false_iff, bne_eq_false_iff_eq] at hb
      simpa [Form.endsBefore] using hb
  | blockComment => rfl
  | string => rfl
  | template => rfl
  | number =>
    have hb := (number_body h).2
    simp only [Form.endsBefore, getLastD_cons, hb, Bool.not_false]
  | word =>
    have hb := (while_body h).2
    have hba : (fresh && (c :: a) == ['#'] && b.head? == some '!') = false := by
      by_contra hne
      simp only [not_eq_false, and_eq_true, beq_iff_eq, List.cons.injEq] at hne
      obtain ⟨⟨rfl, rfl, rfl⟩, hn⟩ := hne
      rw [← hc, nil_append, hn] at hk
      cases hk
    simp only [Form.endsBefore, hb, hba, Bool.not_false, Bool.and_self]
  | regex =>
    obtain ⟨p, -, he⟩ := map_eq_some_iff.1 h
    obtain ⟨-, rfl⟩ := Prod.mk.inj he
    simpa [Form.endsBefore] using head?_dropWhile_any Char.isAlpha p.2
  | punct =>
    have ha : a = cs.take (punctExtent c cs) := by
      simp only [bodyOf, some.injEq, Prod.mk.injEq] at h
      exact h.1.symm
    have hex : punctExtent c (a ++ b) = a.length := by
      rw [hc, ha, length_take_of_le (punctExtent_le c cs)]
    have hs : (a.isEmpty && c == '/' && (b.head? == some '/' || b.head? == some '*')) = false := by
      by_contra hne
      simp only [not_eq_false, and_eq_true, List.isEmpty_iff, beq_iff_eq] at hne
      obtain ⟨⟨rfl, rfl⟩, hn⟩ := hne
      rw [nil_append] at hc
      subst hc
      have hg : isGap '/' = false := by decide
      rcases or_eq_true _ _ ▸ hn with hn | hn <;>
        simp [openingKind, hg, beq_iff_eq.1 hn] at hk
    have hp : (a.isEmpty && c == '.' && b.head?.any Char.isDigit) = false := by
      by_contra hne
      simp only [not_eq_false, and_eq_true, List.isEmpty_iff, beq_iff_eq] at hne
      obtain ⟨⟨rfl, rfl⟩, hn⟩ := hne
      rw [nil_append] at hc
      subst hc
      have hg : isGap '.' = false := by decide
      simp [openingKind, hg, hn] at hk
    simp only [Form.endsBefore, hex, hs, hp, beq_self_eq_true, Bool.not_false, Bool.and_self]

lemma bodyOf_local {rest : List Char} (h : bodyOf kind c cs = some (a, b))
    (hr : Form.endsBefore fresh ⟨kind, c :: a⟩ rest) : bodyOf kind c (a ++ rest) = some (a, rest) := by
  cases kind with
  | blank =>
    obtain ⟨h1, h2⟩ := takeWhile_dropWhile_local (while_body h).1
      (by simpa [Form.endsBefore] using hr)
    simp only [bodyOf, h1, h2]
  | lineComment =>
    have hs : rest.head?.any (fun c => c != '\n' && c != '\r') = false := by
      cases rest with
      | nil => rfl
      | cons d rest =>
        have hd : d = '\n' ∨ d = '\r' := by simpa [Form.endsBefore] using hr
        rcases hd with rfl | rfl <;> rfl
    obtain ⟨h1, h2⟩ := takeWhile_dropWhile_local (while_body h).1 hs
    simp only [bodyOf, h1, h2]
  | blockComment =>
    cases cs with
    | nil => simp [bodyOf] at h
    | cons star cs =>
      obtain ⟨a, rfl, hre⟩ := map_cons_parts.1 h
      exact map_cons_parts.2 ⟨a, rfl, (blockCommentRest_local hre rest).1⟩
  | string => exact (stringRest_local h rest).1
  | template => simp [bodyOf] at h
  | number =>
    have hs : rest.head?.any (continuesNumber (isHexText (c :: a)) (a.getLastD c)) = false := by
      simpa only [Form.endsBefore, getLastD_cons, not_eq_true'] using hr
    have hl := numberExtent_append.2 ⟨(number_body h).1, hs⟩
    simp only [bodyOf, isHexText_append hs, hl, take_left, drop_left]
  | word =>
    rw [Form.endsBefore, and_eq_true] at hr
    obtain ⟨h1, h2⟩ := takeWhile_dropWhile_local (while_body h).1 (by simpa using hr.1)
    simp only [bodyOf, h1, h2]
  | regex =>
    obtain ⟨⟨x, y⟩, hre, he⟩ := map_eq_some_iff.1 h
    obtain ⟨rfl, rfl⟩ := Prod.mk.inj he
    have hf : (y.takeWhile Char.isAlpha).all Char.isAlpha := all_takeWhile
    have hs : rest.head?.any Char.isAlpha = false := by simpa [Form.endsBefore] using hr
    obtain ⟨h1, h2⟩ := takeWhile_dropWhile_local hf hs
    rw [bodyOf, append_assoc, (regexRest_local hre _).1, map_some, h1, h2]
  | punct =>
    have hl : punctExtent c (a ++ rest) = a.length := by
      simp only [Form.endsBefore, and_eq_true, beq_iff_eq] at hr
      exact hr.1.1
    simp only [bodyOf, hl, take_left, drop_left]

def plainNext (fresh : Bool) (c : Char) (next : Option Char) : Bool :=
  !((c == '/' && next == some '/') || (fresh && c == '#' && next == some '!')) &&
    !(c == '/' && next == some '*') && !(c == '.' && next.any Char.isDigit)

lemma openingKind_of_plainNext {sl : Bool} {next : Option Char} (h : plainNext fresh c next) :
    openingKind fresh sl c next = openingKind fresh sl c none := by
  simp only [plainNext, and_eq_true, not_eq_true'] at h
  obtain ⟨⟨h1, h2⟩, h3⟩ := h
  simp [openingKind, h1, h2, h3]

lemma plainNext_of_ne (next : Option Char) (h1 : c ≠ '/') (h2 : c ≠ '#') (h3 : c ≠ '.') : plainNext fresh c next := by
  simp [plainNext, h1, h2, h3]

def Opens (slash : Bool) (c : Char) (next : Option Char) : Kind → Prop
  | .blank => isGap c = true
  | .lineComment => next = some '/' ∨ next = some '!'
  | .blockComment => c = '/' ∧ next = some '*'
  | .string => c = '\'' ∨ c = '"'
  | .template => False
  | .number => c.isDigit = true ∨ next.any Char.isDigit = true
  | .word => isWordStart c = true
  | .regex => c = '/' ∧ slash = true
  | .punct => isWordStart c = false

lemma opens_openingKind (fresh sl : Bool) (c : Char) (next : Option Char) :
    Opens sl c next (openingKind fresh sl c next) := by
  unfold openingKind
  split
  · assumption
  split
  · simp only [Opens]; grind
  split
  · simp only [Opens]; grind
  split
  · simp only [Opens]; grind
  split
  · simp only [Opens]; grind
  split
  · assumption
  split
  · simp only [Opens]; grind
  · simp only [Opens]; grind

lemma plainNext_of_single {slash : Bool} {rest : List Char}
    (hk : openingKind fresh slash c cs.head? = kind) (h : bodyOf kind c cs = some ([], b))
    (hr : Form.endsBefore fresh ⟨kind, [c]⟩ rest) : plainNext fresh c rest.head? := by
  have ho : Opens slash c cs.head? kind := hk ▸ opens_openingKind fresh slash c cs.head?
  cases kind with
  | blank =>
    have hg : isGap c := ho
    refine plainNext_of_ne _ ?_ ?_ ?_ <;>
    · rintro rfl
      revert hg
      decide
  | lineComment =>
    have hni : cs.takeWhile (fun c => c != '\n' && c != '\r') = [] := by
      simpa [bodyOf] using congrArg (Option.map Prod.fst) h
    cases cs with
    | nil => simp [Opens] at ho
    | cons d cs =>
      have hd : d = '/' ∨ d = '!' := by simpa [Opens] using ho
      rcases hd with rfl | rfl <;> simp at hni
  | blockComment =>
    cases cs with
    | nil => simp [bodyOf] at h
    | cons star cs =>
      obtain ⟨a, ha, -⟩ := map_cons_parts.1 h
      cases ha
  | string => exact absurd rfl (append_of_parts h).2
  | template => simp [bodyOf] at h
  | number =>
    have hb := number_body h
    have hcs : b = cs := bodyOf_append h
    subst hcs
    have hdi : c.isDigit := by
      refine ho.resolve_right fun hn => ?_
      cases b with
      | nil => simp at hn
      | cons d b =>
        have hd : d.isDigit := by simpa using hn
        have hc : continuesNumber (isHexText [c]) c d = false := by simpa using hb.2
        simp [continuesNumber, Char.isAlphanum, hd] at hc
    refine plainNext_of_ne _ ?_ ?_ ?_ <;>
    · rintro rfl
      revert hdi
      decide
  | word =>
    have hs : isWordStart c := ho
    have h1 : c ≠ '/' := by rintro rfl; revert hs; decide
    have h3 : c ≠ '.' := by rintro rfl; revert hs; decide
    simp only [Form.endsBefore, Bool.and_eq_true] at hr
    simp [plainNext, h1, h3]
    grind
  | regex =>
    obtain ⟨⟨x, y⟩, hre, he⟩ := Option.map_eq_some_iff.1 h
    obtain ⟨hx, -⟩ := List.append_eq_nil_iff.1 (Prod.mk.inj he).1
    exact absurd hx (append_of_parts hre).2
  | punct =>
    have h2 : c ≠ '#' := by rintro rfl; revert ho; simp [Opens, isWordStart]
    simp only [Form.endsBefore, isEmpty_nil, Bool.true_and, Bool.and_eq_true] at hr
    simp [plainNext, h2]
    grind

lemma openingKind_local {sl : Bool} (hk : openingKind fresh sl c cs.head? = kind)
    (h : bodyOf kind c cs = some (a, b)) (hr : Form.endsBefore fresh ⟨kind, c :: a⟩ r) :
    openingKind fresh sl c (a ++ r).head? = kind := by
  have hc := bodyOf_append h
  cases a with
  | cons d a =>
    subst hc
    exact hk
  | nil =>
    have hb := endsBefore_of_bodyOf hk h
    rw [nil_append] at hc ⊢
    subst hc
    rw [openingKind_of_plainNext (plainNext_of_single hk h hr), ← hk,
      openingKind_of_plainNext (plainNext_of_single hk h hb)]

def isMark (c : Char) : Bool := punctuators.any fun p => p.toList.contains c

lemma isPrefixOf_append_of_mem {p : List Char} (hp : d ∉ p) (hd : d ∈ v) : p.isPrefixOf (v ++ r) = p.isPrefixOf v := by
  induction p generalizing v with
  | nil => cases v <;> rfl
  | cons a p ih =>
    cases v with
    | nil => simp at hd
    | cons b v =>
      by_cases ha : a = b
      · have hn : d ≠ b := fun h => hp (by simp [h, ha])
        have hv : d ∈ v := (mem_cons.1 hd).resolve_left hn
        simp only [cons_append, isPrefixOf, ih (fun h => hp (mem_cons_of_mem a h)) hv]
      · have hb : (a == b) = false := by simp [ha]
        simp only [cons_append, isPrefixOf, hb, Bool.false_and]

lemma punctExtent_append_of_mem (r : List Char) (hd : d ∈ v) (hm : isMark d = false) :
    punctExtent c (v ++ r) = punctExtent c v := by
  have hf : ∀ p ∈ punctuators,
      (p.toList.isPrefixOf (c :: (v ++ r)) && !(p == "?." && ((v ++ r).drop 1).head?.any Char.isDigit)) =
        (p.toList.isPrefixOf (c :: v) && !(p == "?." && (v.drop 1).head?.any Char.isDigit)) := by
    intro p hp
    have hn : d ∉ p.toList := by
      intro hme
      have : isMark d := any_eq_true.2 ⟨p, hp, by simpa using hme⟩
      simp [hm] at this
    rw [← cons_append, isPrefixOf_append_of_mem hn (mem_cons_of_mem c hd)]
    cases v with
    | nil => simp at hd
    | cons a v =>
      cases v with
      | cons b v => rfl
      | nil =>
        -- The only character behind `c` is in no punctuator.
        obtain rfl : d = a := by simpa using hd
        by_cases hq : p = "?."
        · subst hq
          have hne : d ≠ '.' := fun h => hn (by simp [h])
          simp [Ne.symm hne]
        · simp [hq]
  unfold punctExtent
  dsimp only
  rw [find?_congr hf]

lemma endsBefore_append_of_mem {f : Form} (r : List Char) (hd : d ∈ v) (hm : isMark d = false) :
    f.endsBefore fresh (v ++ r) = f.endsBefore fresh v := by
  obtain ⟨kind, x⟩ := f
  have hh : (v ++ r).head? = v.head? := by
    cases v with
    | nil => simp at hd
    | cons a v => rfl
  cases kind with
  | punct =>
    cases x with
    | nil => rfl
    | cons c cs =>
      simp only [Form.endsBefore, ← append_assoc, hh, punctExtent_append_of_mem r (mem_append_right cs hd) hm]
  | _ => simp only [Form.endsBefore, hh]

def Form.slashAfter (f : Form) : Bool := regexAllowed (some ⟨f.kind, String.ofList f.text, 0⟩)

export Token (form)

export Form (slashAfter)

lemma regexAllowed_orPrevious (t : Token) (prev : Option Token) :
    regexAllowed (t.orPrevious prev) = if t.isTrivia then regexAllowed prev else t.form.slashAfter := by
  unfold orPrevious
  split
  · rfl
  · simp [slashAfter, form, regexAllowed]

def partsOf {cs : List Char} {α : Type} (r : Except Unclosed (Cut cs × α)) :
    Option (List Char × List Char) :=
  r.toOption.map fun r => parts r.1

lemma partsOf_eq_some {α : Type} {r : Except Unclosed (Cut cs × α)} :
    partsOf r = some (a, b) ↔ ∃ cut x, r = .ok (cut, x) ∧ cut.head = a ∧ cut.rest = b := by
  cases r with
  | error u => simp [partsOf, Except.toOption]
  | ok r => simp [partsOf, Except.toOption, parts, Prod.ext_iff]

lemma outcome_eq_some {r : Except Unclosed (Kind × Cut cs)} :
    outcome r = some (kind, a, b) ↔ ∃ cut, r = .ok (kind, cut) ∧ cut.head = a ∧ cut.rest = b := by
  cases r with
  | error u => simp [outcome, Except.toOption]
  | ok r => simp [outcome, Except.toOption, parts, Prod.ext_iff]

lemma lexeme_template : outcome (lexeme offset prev '`' cs) = some (kind, '`' :: a, b) ↔
      kind = .template ∧ partsOf (templateRest offset (offset + 1) cs) = some (a, b) := by
  rw [lexeme, if_pos rfl]
  cases templateRest offset (offset + 1) cs with
  | error u => simp [outcome, partsOf, bind, Except.bind, Except.toOption]
  | ok r =>
    simp [outcome, partsOf, bind, Except.bind, pure, Except.pure, Except.toOption, parts, Cut.cons, Prod.ext_iff, eq_comm]

lemma templateRest_close : partsOf (templateRest st offset ('`' :: cs)) = some (['`'], cs) := by
  rw [templateRest]
  rfl

lemma templateRest_escape : partsOf (templateRest st offset ('\\' :: c :: cs)) = some (a, b) ↔
      ∃ a', a = '\\' :: c :: a' ∧ partsOf (templateRest st (offset + 1 + c.utf8Size) cs) = some (a', b) := by
  rw [templateRest]
  cases templateRest st (offset + 1 + c.utf8Size) cs with
  | error u => simp [partsOf, bind, Except.bind, Except.toOption]
  | ok r =>
    simp [partsOf, bind, Except.bind, pure, Except.pure, Except.toOption, parts, Cut.cons]
    grind

lemma templateRest_char (he : c ≠ '\\') (hc : c ≠ '`') (hco : c = '$' → cs.head? ≠ some '{') :
    partsOf (templateRest st offset (c :: cs)) = some (a, b) ↔
      ∃ a', a = c :: a' ∧ partsOf (templateRest st (offset + c.utf8Size) cs) = some (a', b) := by
  rw [templateRest.eq_6 _ _ _ _ (fun h _ => he h) (fun _ _ h _ => he h) hc (fun _ h hcs => hco h (by rw [hcs]; rfl))]
  cases templateRest st (offset + c.utf8Size) cs with
  | error u => simp [partsOf, bind, Except.bind, Except.toOption]
  | ok r =>
    simp [partsOf, bind, Except.bind, pure, Except.pure, Except.toOption, parts, Cut.cons]
    grind

lemma templateRest_code : partsOf (templateRest st offset ('$' :: '{' :: cs)) = some (a, b) ↔
      ∃ x r y, a = '$' :: '{' :: (x ++ y) ∧ partsOf (interpolation st (offset + 2) 0 none cs) = some (x, r) ∧
        partsOf (templateRest st (offset + 2 + byteLength x) r) = some (y, b) := by
  rw [templateRest]
  constructor
  · intro h
    obtain ⟨cut, subs, hr, rfl, rfl⟩ := partsOf_eq_some.1 h
    obtain ⟨⟨code, ts⟩, hc, hr⟩ := bind_eq_ok.1 hr
    obtain ⟨⟨more, subs⟩, hm, hr⟩ := bind_eq_ok.1 hr
    obtain ⟨rfl, -⟩ := Prod.mk.inj (ok.inj hr)
    exact ⟨code.head, code.rest, more.head, rfl, partsOf_eq_some.2 ⟨_, _, hc, rfl, rfl⟩,
      partsOf_eq_some.2 ⟨_, _, hm, rfl, rfl⟩⟩
  · rintro ⟨x, r, y, rfl, hx, hy⟩
    obtain ⟨code, ts, hc, rfl, rfl⟩ := partsOf_eq_some.1 hx
    obtain ⟨more, subs, hm, rfl, rfl⟩ := partsOf_eq_some.1 hy
    exact partsOf_eq_some.2
      ⟨_, _, bind_eq_ok.2 ⟨_, hc, bind_eq_ok.2 ⟨_, hm, rfl⟩⟩, rfl, rfl⟩

def Form.isPunct (f : Form) (text : String) : Bool := f.kind == .punct && f.text == text.toList

lemma Token.isPunct_mk (kind : Kind) (x : List Char) (st : Nat) (text : String) :
    (Token.mk kind (String.ofList x) st).isPunct text = Form.isPunct ⟨kind, x⟩ text := by
  have ht : (String.ofList x == text) = (x == text.toList) := by
    rw [Bool.eq_iff_iff, beq_iff_eq, beq_iff_eq]
    exact ⟨fun h => by rw [← h, toList_ofList], fun h => by rw [h, ofList_toList]⟩
  simp only [Token.isPunct, Form.isPunct, ht]

def Form.depthAfter (f : Form) (depth : Nat) : Nat :=
  if f.isPunct openBrace then depth + 1 else if f.isPunct closeBrace then depth - 1 else depth

lemma interpolation_cons {dp : Nat} : partsOf (interpolation st offset dp prev (c :: cs)) = some (a, b) ↔
      ∃ kind x r, outcome (lexeme offset prev c cs) = some (kind, x, r) ∧
        if Form.isPunct ⟨kind, x⟩ closeBrace && dp == 0 then a = x ∧ b = r
        else ∃ y, a = x ++ y ∧ partsOf (interpolation st (offset + byteLength x) (Form.depthAfter ⟨kind, x⟩ dp)
          (orPrevious ⟨kind, String.ofList x, offset⟩ prev) r) = some (y, b) := by
  rw [interpolation]
  simp only [Token.isPunct_mk]
  constructor
  · intro h
    obtain ⟨cut, ts, hr, rfl, rfl⟩ := partsOf_eq_some.1 h
    obtain ⟨⟨kind, fst⟩, hf, hr⟩ := bind_eq_ok.1 hr
    refine ⟨kind, fst.head, fst.rest, outcome_eq_some.2 ⟨fst, hf, rfl, rfl⟩, ?_⟩
    dsimp only at hr
    split at hr
    · rename_i hc
      obtain ⟨rfl, -⟩ := Prod.mk.inj (ok.inj hr)
      rw [if_pos hc]
      exact ⟨rfl, rfl⟩
    · rename_i hc
      obtain ⟨⟨more, ts⟩, hm, hr⟩ := bind_eq_ok.1 hr
      obtain ⟨rfl, -⟩ := Prod.mk.inj (ok.inj hr)
      rw [if_neg hc]
      exact ⟨more.head, rfl, partsOf_eq_some.2 ⟨more, ts, hm, rfl, rfl⟩⟩
  · rintro ⟨kind, x, r, hx, hs⟩
    obtain ⟨fst, hf, rfl, rfl⟩ := outcome_eq_some.1 hx
    split at hs
    · rename_i hc
      obtain ⟨rfl, rfl⟩ := hs
      refine partsOf_eq_some.2 ⟨fst, [], bind_eq_ok.2 ⟨_, hf, ?_⟩, rfl, rfl⟩
      dsimp only
      rw [if_pos hc]
      rfl
    · rename_i hc
      obtain ⟨y, rfl, hy⟩ := hs
      obtain ⟨more, ts, hm, rfl, rfl⟩ := partsOf_eq_some.1 hy
      refine partsOf_eq_some.2 ⟨fst.append more, ⟨kind, String.ofList fst.head, offset⟩ :: ts,
        bind_eq_ok.2 ⟨_, hf, ?_⟩, rfl, rfl⟩
      dsimp only
      rw [if_neg hc]
      exact bind_eq_ok.2 ⟨_, hm, rfl⟩

lemma append_of_partsOf {α : Type} {r : Except Unclosed (Cut cs × α)} (h : partsOf r = some (a, b)) : a ++ b = cs := by
  obtain ⟨cut, -, -, rfl, rfl⟩ := partsOf_eq_some.1 h
  exact cut.head_append_rest

lemma cons_of_outcome {x : List Char} {r : Except Unclosed (Kind × Cut (c :: cs))}
    (h : outcome r = some (kind, x, b)) : ∃ a, x = c :: a ∧ a ++ b = cs := by
  obtain ⟨cut, -, rfl, rfl⟩ := outcome_eq_some.1 h
  obtain ⟨d, a, ha⟩ := exists_cons_of_ne_nil cut.head_ne_nil
  have hap := cut.head_append_rest
  rw [ha, cons_append] at hap
  obtain ⟨rfl, hap⟩ := cons.inj hap
  exact ⟨a, ha, hap⟩

lemma plainLexeme_eq_some : outcome (plainLexeme offset prev c cs) = some (kind, c :: a, b) ↔
      openingKind (offset == 0) (regexAllowed prev) c cs.head? = kind ∧ bodyOf kind c cs = some (a, b) := by
  rw [plainLexeme_outcome, map_eq_some_iff]
  constructor
  · rintro ⟨⟨x, y⟩, hb, he⟩
    simp only [Prod.mk.injEq, cons.injEq, true_and] at he
    obtain ⟨rfl, rfl, rfl⟩ := he
    exact ⟨rfl, hb⟩
  · rintro ⟨rfl, hb⟩
    exact ⟨(a, b), hb, rfl⟩

lemma endsBefore_of_lexeme {x : List Char} (h : outcome (lexeme offset prev c cs) = some (kind, x, b)) :
    Form.endsBefore (offset == 0) ⟨kind, x⟩ b := by
  obtain ⟨a, rfl, -⟩ := cons_of_outcome h
  by_cases hc : c = '`'
  · subst hc
    obtain ⟨rfl, -⟩ := lexeme_template.1 h
    rfl
  · rw [lexeme, if_neg hc, plainLexeme_eq_some] at h
    exact endsBefore_of_bodyOf h.1 h.2

lemma plainLexeme_local {offset' : Nat}
    (h : outcome (plainLexeme offset prev c cs) = some (kind, c :: a, b)) (hf : (offset' == 0) = (offset == 0))
    (hs : regexAllowed prev' = regexAllowed prev) (hr : Form.endsBefore (offset == 0) ⟨kind, c :: a⟩ r) :
    outcome (plainLexeme offset' prev' c (a ++ r)) = some (kind, c :: a, r) := by
  obtain ⟨hk, hb⟩ := plainLexeme_eq_some.1 h
  rw [plainLexeme_eq_some, hf, hs]
  exact ⟨openingKind_local hk hb hr, bodyOf_local hb hr⟩

lemma closeBrace_endsBefore (r : List Char) : Form.endsBefore false ⟨.punct, ['}']⟩ r := by
  have he : punctExtent '}' r = 0 := by
    simp [punctExtent, punctuators, isPrefixOf]
  simp [Form.endsBefore, he]

/-- The three readers at once, along their common recursion: a token, the rest of a template and an interpolated
expression are read again before every text that does not continue them. -/
lemma lexeme_templateRest_interpolation_local :
    (∀ offset prev c cs, ∀ kind a b, outcome (lexeme offset prev c cs) = some (kind, c :: a, b) →
      ∀ offset' prev' rs, (offset' == 0) = (offset == 0) → regexAllowed prev' = regexAllowed prev →
        Form.endsBefore (offset == 0) ⟨kind, c :: a⟩ rs →
          outcome (lexeme offset' prev' c (a ++ rs)) = some (kind, c :: a, rs)) ∧
    (∀ st offset cs, ∀ a b, partsOf (templateRest st offset cs) = some (a, b) →
      ∀ st' offset' rs, partsOf (templateRest st' offset' (a ++ rs)) = some (a, rs)) ∧
    (∀ st offset dp prev cs, ∀ a b, partsOf (interpolation st offset dp prev cs) = some (a, b) → offset ≠ 0 →
        '}' ∈ a ∧ ∀ st' offset' prev' rs, offset' ≠ 0 → regexAllowed prev' = regexAllowed prev →
          partsOf (interpolation st' offset' dp prev' (a ++ rs)) = some (a, rs)) := by
  refine lexeme.mutual_induct _ _ _ ?_ ?_ ?_ ?_ ?_ ?_ ?_ ?_ ?_ ?_
  · intro offset prev cs ih kind a b h offset' prev' rs hf hs hre
    obtain ⟨rfl, hbo⟩ := lexeme_template.1 h
    exact lexeme_template.2 ⟨rfl, ih a b hbo _ _ rs⟩
  · intro offset prev c cs hc kind a b h offset' prev' rs hf hs hre
    rw [lexeme, if_neg hc] at h ⊢
    exact plainLexeme_local h hf hs hre
  · intro st offset a b h
    rw [templateRest] at h
    simp [partsOf, Except.toOption] at h
  · intro st offset a b h
    rw [templateRest] at h
    simp [partsOf, Except.toOption] at h
  · intro st offset c cs ih a b h st' offset' rs
    obtain ⟨a, rfl, hm⟩ := templateRest_escape.1 h
    exact templateRest_escape.2 ⟨a, rfl, ih a b hm _ _ rs⟩
  · intro st offset cs a b h st' offset' rs
    rw [templateRest_close] at h
    obtain ⟨rfl, rfl⟩ := Prod.mk.inj (some.inj h)
    exact templateRest_close
  · intro st offset cs ihcode ihrest a b h st' offset' rs
    obtain ⟨x, r, y, rfl, hx, hy⟩ := templateRest_code.1 h
    obtain ⟨code, ts, hco, rfl, rfl⟩ := partsOf_eq_some.1 hx
    refine templateRest_code.2 ⟨code.head, y ++ rs, y, rfl, ?_, ihrest code y b hy _ _ rs⟩
    have hr := (ihcode _ _ hx (by omega)).2 st' (offset' + 2) none (y ++ rs) (by omega) rfl
    rwa [← append_assoc] at hr
  · intro st offset c cs hon htw hcl hco ih a b h st' offset' rs
    have he := ne_escape hon htw
    have hma : c = '$' → cs.head? ≠ some '{' := by
      intro hc hh
      obtain ⟨cs, rfl⟩ := head?_eq_some_iff.1 hh
      exact hco cs hc rfl
    obtain ⟨a, rfl, hm⟩ := (templateRest_char he hcl hma).1 h
    refine (templateRest_char he hcl ?_).2 ⟨a, rfl, ih a b hm _ _ rs⟩
    obtain ⟨cut, -, -, rfl, -⟩ := partsOf_eq_some.1 hm
    obtain ⟨d, a, ha⟩ := exists_cons_of_ne_nil cut.head_ne_nil
    rw [← cut.head_append_rest, ha] at hma
    rw [ha]
    exact hma
  · intro st offset dp prev a b h
    rw [interpolation] at h
    simp [partsOf, Except.toOption] at h
  · intro st offset dp prev c cs ihtoken ihrest a b h ho
    obtain ⟨kind, x, r, hx, hst⟩ := interpolation_cons.1 h
    obtain ⟨w, rfl, -⟩ := cons_of_outcome hx
    have hfi := endsBefore_of_lexeme hx
    have hf : (offset == 0) = false := by simp [ho]
    have ht := ihtoken _ _ _ hx
    rw [hf] at hfi ht
    split at hst
    · rename_i hcl
      obtain ⟨rfl, rfl⟩ := hst
      have hb : kind = .punct ∧ c :: w = ['}'] := by
        simp only [Form.isPunct, and_eq_true, beq_iff_eq] at hcl
        exact hcl.1
      refine ⟨by simp [hb.2], fun st' offset' prev' rs ho' hs => ?_⟩
      refine interpolation_cons.2 ⟨kind, c :: w, rs, ht _ _ _ (by simp [ho']) hs ?_, ?_⟩
      · rw [hb.1, hb.2]
        exact closeBrace_endsBefore rs
      · rw [if_pos hcl]
        exact ⟨rfl, rfl⟩
    · rename_i hcl
      obtain ⟨y, rfl, hy⟩ := hst
      obtain ⟨cut, -, hw, rfl⟩ := outcome_eq_some.1 hx
      have hl : offset + byteLength cut.head ≠ 0 := by omega
      have ihmore := ihrest kind cut y b
      simp only [dite_eq_ite, Token.isPunct_mk, hw] at ihmore
      obtain ⟨hme, hr⟩ := ihmore hy (hw ▸ hl)
      refine ⟨mem_append_right _ hme, fun st' offset' prev' rs ho' hs => ?_⟩
      refine interpolation_cons.2 ⟨kind, c :: w, y ++ rs, ?_, ?_⟩
      · rw [← append_of_partsOf hy, endsBefore_append_of_mem b hme (by decide)] at hfi
        have := ht offset' prev' (y ++ rs) (by simp [ho']) hs
          ((endsBefore_append_of_mem rs hme (by decide)).trans hfi)
        rwa [← append_assoc] at this
      · rw [if_neg hcl]
        refine ⟨y, rfl, hr _ _ _ _ (by omega) ?_⟩
        rw [regexAllowed_orPrevious, regexAllowed_orPrevious, hs]
        rfl

/-- **A token is read again wherever its text stands**, if what follows does not continue it. -/
lemma lexeme_local {offset' : Nat}
    (h : outcome (lexeme offset prev c cs) = some (kind, c :: a, b)) (hf : (offset' == 0) = (offset == 0))
    (hs : regexAllowed prev' = regexAllowed prev) (hr : Form.endsBefore (offset == 0) ⟨kind, c :: a⟩ r) :
    outcome (lexeme offset' prev' c (a ++ r)) = some (kind, c :: a, r) :=
  lexeme_templateRest_interpolation_local.1 _ _ _ _ _ _ _ h _ _ _ hf hs hr

end CustomElement.Script
