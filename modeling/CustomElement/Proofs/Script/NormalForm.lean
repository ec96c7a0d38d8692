import CustomElement.Proofs.Script.Commas

/-!
# The normal form and its tokens

A string literal keeps the quotes it was given (`requote_of_requote`) and is read as before between them
(`Lexes.requoted`).
-/

namespace CustomElement.Script

open List Text

variable {fresh sl : Bool} {old q : Char} {cs x : List Char} {ts : List Token} {t : Token}

lemma countQuoted_cons {c : Char} (hc : c ≠ '\\') : countQuoted q (c :: cs) = (if c = q then 1 else 0) + countQuoted q cs :=
  countQuoted.eq_3 _ _ _ fun _ _ h _ => hc h

lemma requoteText_cons {new c : Char} (hc : c ≠ '\\') : requoteText old new (c :: cs) =
      if c = new then '\\' :: c :: requoteText old new cs else c :: requoteText old new cs :=
  requoteText.eq_3 _ _ _ _ fun _ _ h _ => hc h

lemma countQuoted_requoteText (q : Char) (new : Char) (ho : old ≠ '\\') (text : List Char) :
    countQuoted q (requoteText old new text) = countQuoted q text := by
  fun_induction requoteText old new text with
  | case1 => rfl
  | case2 cs ih => rw [countQuoted_cons ho, ih, countQuoted]
  | case3 c cs hc ih => rw [countQuoted, ih, countQuoted]
  | case4 cs he ih => rw [countQuoted, ih, countQuoted.eq_3 _ _ _ he]
  | case5 c cs he hc ih =>
    by_cases hs : c = '\\'
    · cases cs with
      | nil => rfl
      | cons d cs => exact (he d cs hs rfl).elim
    · rw [countQuoted_cons hs, ih, countQuoted_cons hs]

lemma preferredQuote_eq (x : List Char) : preferredQuote x = '"' ∨ preferredQuote x = '\'' := by
  unfold preferredQuote
  split
  · exact .inl rfl
  · exact .inr rfl

lemma requote_eq_some {literal changed : String} (h : requote literal = some changed) :
    ∃ old x last, literal.toList = old :: (x ++ [last]) ∧ (old = '\'' ∨ old = '"') ∧ preferredQuote x ≠ old ∧
      changed.toList = preferredQuote x :: (requoteText old (preferredQuote x) x ++ [preferredQuote x]) := by
  unfold requote at h
  cases hl : literal.toList with
  | nil => simp [hl] at h
  | cons old r =>
    simp only [hl] at h
    split at h
    · cases h
    · rename_i hc
      simp only [or_eq_true, not_eq_true', List.isEmpty_iff, beq_iff_eq, not_or, not_eq_false] at hc
      obtain ⟨⟨hn, ho⟩, ht⟩ := hc
      refine ⟨old, r.dropLast, r.getLast hn, by rw [dropLast_concat_getLast], ?_, ht, ?_⟩
      · simpa using ho
      · rw [← some.inj h, toList_ofList]

lemma requote_of_requote {literal changed : String} (h : requote literal = some changed) : requote changed = none := by
  obtain ⟨old, text, last, -, ho, -, hc⟩ := requote_eq_some h
  have hs : old ≠ '\\' := by rcases ho with rfl | rfl <;> decide
  have hsa : preferredQuote (requoteText old (preferredQuote text) text) = preferredQuote text := by
    rw [preferredQuote, countQuoted_requoteText _ _ hs, countQuoted_requoteText _ _ hs, ← preferredQuote]
  unfold requote
  rw [hc]
  simp [hsa]

lemma Token.requoted_requoted (t : Token) : t.requoted.requoted = t.requoted := by
  unfold Token.requoted
  by_cases hk : t.kind = .string
  · cases hr : requote t.text with
    | none => simp [hk, hr]
    | some changed => simp [hk, requote_of_requote hr]
  · simp [hk]

lemma stringRest_char (h₁ : c ≠ '\\') (h₂ : c ≠ '\n') (h₃ : c ≠ q) {a b : List Char}
    (h : (stringRest q x).map parts = some (a, b)) : (stringRest q (c :: x)).map parts = some (c :: a, b) := by
  rw [stringRest_cons h₁, if_neg h₂, if_neg h₃]
  exact map_cons_parts.2 ⟨a, rfl, h⟩

lemma stringRest_escape {a b : List Char} (h : (stringRest q x).map parts = some (a, b)) :
    (stringRest q ('\\' :: c :: x)).map parts = some ('\\' :: c :: a, b) := by
  rw [stringRest]
  exact map_escape_parts.2 ⟨a, rfl, h⟩

lemma stringRest_requote {new : Char} (ho : old = '\'' ∨ old = '"') (hnw : new = '\'' ∨ new = '"')
    (hne : new ≠ old) {body rest : List Char} (h : (stringRest old cs).map parts = some (body, rest)) :
    ∃ text, body = text ++ [old] ∧ ∀ rest', (stringRest new (requoteText old new text ++ new :: rest')).map parts =
      some (requoteText old new text ++ [new], rest') := by
  have hq : ∀ c : Char, c = '\'' ∨ c = '"' → c ≠ '\\' ∧ c ≠ '\n' := by
    rintro c (rfl | rfl) <;> decide
  have ho' := hq old ho
  have hnw' := hq new hnw
  fun_induction stringRest old cs generalizing body with
  | case1 => simp at h
  | case2 => simp at h
  | case3 c cs ih =>
    obtain ⟨a, rfl, hr⟩ := map_escape_parts.1 h
    obtain ⟨text, rfl, ha⟩ := ih hr
    refine ⟨'\\' :: c :: text, rfl, fun rest' => ?_⟩
    rw [requoteText]
    by_cases hc : c = old
    · rw [if_pos hc]
      exact stringRest_char (hc ▸ ho'.1) (hc ▸ ho'.2) (hc ▸ hne.symm) (ha rest')
    · rw [if_neg hc]
      exact stringRest_escape (ha rest')
  | case4 => simp at h
  | case5 cs hon ht hl =>
    obtain ⟨rfl, rfl⟩ : [old] = body ∧ cs = rest := by simpa [parts, Cut.first] using h
    refine ⟨[], rfl, fun rest' => ?_⟩
    rw [requoteText, nil_append, stringRest_cons hnw'.1, if_neg hnw'.2, if_pos rfl]
    rfl
  | case6 c cs hon ht hl hen ih =>
    obtain ⟨a, rfl, hr⟩ := map_cons_parts.1 h
    obtain ⟨text, rfl, ha⟩ := ih hr
    refine ⟨c :: text, rfl, fun rest' => ?_⟩
    have hc : c ≠ '\\' := ne_escape hon ht
    rw [requoteText_cons hc]
    by_cases hn : c = new
    · rw [if_pos hn]
      exact stringRest_escape (ha rest')
    · rw [if_neg hn]
      exact stringRest_char hc hl hn (ha rest')

lemma Token.requoted_of_ne (h : t.kind ≠ .string) : t.requoted = t := by
  simp [Token.requoted, h]

lemma Token.requoted_of_none (h : requote t.text = none) : t.requoted = t := by
  rw [Token.requoted, h]
  exact ite_self t

lemma Token.requoted_eq_or (t : Token) : t.requoted = t ∨ ∃ old x last, t.kind = .string ∧
    t.text.toList = old :: (x ++ [last]) ∧ (old = '\'' ∨ old = '"') ∧ preferredQuote x ≠ old ∧
    t.requoted.text.toList = preferredQuote x :: (requoteText old (preferredQuote x) x ++ [preferredQuote x]) := by
  by_cases hk : t.kind = .string
  · cases hr : requote t.text with
    | none => exact .inl (Token.requoted_of_none hr)
    | some changed =>
      obtain ⟨old, x, last, ht, ho, hn, hc⟩ := requote_eq_some hr
      exact .inr ⟨old, x, last, hk, ht, ho, hn, by simp [Token.requoted, hk, hr, hc]⟩
  · exact .inl (Token.requoted_of_ne hk)

@[simp] lemma Token.kind_requoted (t : Token) : t.requoted.kind = t.kind := by
  unfold Token.requoted
  split <;> rfl

lemma Lexes.requoted {r : List Char} (h : Lexes fresh sl cs t.form r) (hk : t.kind = .string) (r' : List Char) :
    Lexes fresh sl (t.requoted.form.text ++ r') t.requoted.form r' := by
  have he : t.form.endsBefore fresh r' := by
    have hf : t.form.kind = .string := hk
    simp [Form.endsBefore, hf]
  have hs : ∀ c : Char, c = '\'' ∨ c = '"' → ∀ next, openingKind fresh sl c next = .string ∧ c ≠ '`' := by
    rintro c (rfl | rfl) next
    · simp [openingKind, show isGap '\'' = false from by decide]
    · simp [openingKind, show isGap '"' = false from by decide]
  rcases t.requoted_eq_or with hsa | ⟨old, x, last, -, ht, ho, hne, hc⟩
  · rw [hsa]
    exact h.before he
  · have hn : preferredQuote x = '\'' ∨ preferredQuote x = '"' := (preferredQuote_eq x).symm
    obtain ⟨c, a, ha, -, hbo⟩ := h.exists_body (by simp [Token.form, hk])
    have hk' : t.form.kind = .string := hk
    obtain ⟨rfl, rfl⟩ := cons.inj (ht.symm.trans ha)
    rw [hk', bodyOf] at hbo
    obtain ⟨x', ht', hr⟩ := stringRest_requote ho hn hne hbo
    obtain ⟨rfl, -⟩ := append_inj ht' (by simpa using congrArg length ht')
    have hf : t.requoted.form =
        ⟨.string, preferredQuote x :: (requoteText old (preferredQuote x) x ++ [preferredQuote x])⟩ := by
      rw [Token.form, Token.kind_requoted, hk, hc]
    rw [hf]
    refine (lexes_plain_iff (hs _ hn none).2).2 ⟨(hs _ hn _).1, ?_⟩
    have hb : requoteText old (preferredQuote x) x ++ [preferredQuote x] ++ r' =
        requoteText old (preferredQuote x) x ++ preferredQuote x :: r' := by simp
    have hal := hr r'
    rw [← hb] at hal
    exact hal

/-- The texts are the same, or they part: the first at a character that is no digit, the second at a neutral one
that is no blank. If they part at once, the first does not begin with a blank. -/
def Parts (x y : List Char) : Prop :=
  x = y ∨ ∃ v d r d' r', x = v ++ d :: r ∧ y = v ++ d' :: r' ∧ d.isDigit = false ∧ isNeutral d' = true ∧
    isGap d' = false ∧ (v = [] → isGap d = false)

lemma Parts.append_left {y : List Char} (h : Parts x y) (a : List Char) : Parts (a ++ x) (a ++ y) := by
  rcases h with rfl | ⟨v, d, r, d', r', rfl, rfl, hd, hd', hg, hf⟩
  · exact .inl rfl
  · exact .inr ⟨a ++ v, d, r, d', r', by simp, by simp, hd, hd', hg, fun h => hf (append_eq_nil_iff.1 h).2⟩

lemma Parts.endsBefore {y : List Char} (h : Parts x y) {f : Form} (hx : f.endsBefore fresh x) : f.endsBefore fresh y := by
  rcases h with rfl | ⟨v, d, r, d', r', rfl, rfl, hd, hd', hg, hf⟩
  · exact hx
  · have hfr : f.endsBefore fresh v := by
      refine Form.endsBefore_of_append hx fun _ => ?_
      simpa using hd
    by_cases hv : v = []
    · subst hv
      by_cases hb : f.kind = .blank
      · simp [Form.endsBefore, hb, hg]
      · refine Form.endsBefore_append_neutral hfr hd' (.inr ⟨hb, fun hl => ?_⟩)
        -- The text behind a line comment begins with the end of its line.
        have he : isLineEnd d := by
          rw [Form.endsBefore, hl] at hx
          exact hx
        rw [isGap_of_isLineEnd he] at hf
        exact absurd (hf rfl) (by decide)
    · exact Form.endsBefore_append_neutral hfr hd' (.inl hv)

lemma parts_requoted (tokens : List Token) : Parts (charsOf tokens) (charsOf (tokens.map Token.requoted)) := by
  induction tokens with
  | nil => exact .inl rfl
  | cons t tokens ih =>
    rw [map_cons, charsOf_cons, charsOf_cons]
    rcases t.requoted_eq_or with hs | ⟨old, x, last, -, ht, ho, -, hc⟩
    · rw [hs]
      exact ih.append_left t.text.toList
    · have hq : ∀ c : Char, c = '"' ∨ c = '\'' → c.isDigit = false ∧ isNeutral c ∧ isGap c = false := by
        rintro c (rfl | rfl) <;> decide
      obtain ⟨hd, -, hg⟩ := hq old ho.symm
      obtain ⟨-, hn, hg'⟩ := hq _ (preferredQuote_eq x)
      exact .inr ⟨[], old, _, preferredQuote x, _, by rw [ht]; rfl, by rw [hc]; rfl, hd, hn, hg', fun _ => hg⟩

lemma Reads.requoted {slash : Bool} {tokens : List Token} (h : Reads fresh slash cs (tokens.map form)) :
    Reads fresh slash (charsOf (tokens.map Token.requoted)) ((tokens.map Token.requoted).map form) := by
  induction tokens generalizing fresh slash cs with
  | nil => exact .nil _ _
  | cons t tokens ih =>
    rw [map_cons] at h
    obtain ⟨rest, fst, more⟩ := h.uncons
    have hre : charsOf tokens = rest := by rw [← flatMap_form, more.flatMap_text]
    have hr := ih more
    rw [map_cons, map_cons, charsOf_cons]
    by_cases hk : t.kind = .string
    · -- Whether a slash behind a literal opens a regular expression does not depend on its quotes.
      have hs : t.requoted.form.slashNext slash = t.form.slashNext slash := by
        have hc : ∀ u : Token, u.kind = .string → u.form.slashNext slash = u.form.slashAfter := by
          intro u hu
          have hf : u.form.kind = .string := hu
          simp [slashNext, Form.isTrivia, hf]
        rw [hc t hk, hc t.requoted (by rw [Token.kind_requoted, hk])]
        simp [slashAfter, form, regexAllowed, hk]
      exact .cons (fst.requoted hk _) (hs ▸ hr)
    · rw [Token.requoted_of_ne hk]
      have hp := parts_requoted tokens
      rw [hre] at hp
      exact .cons (fst.before (hp.endsBefore fst.endsBefore)) hr

def closesList (tokens : List Token) : Bool :=
  (tokens.find? fun t => !t.isTrivia).any fun t => t.isPunct "]" || t.isPunct closeBrace

/-- The second tokens are the first and trailing commas, each directly behind a token of code that is neither a comma nor
an opening bracket, with nothing but trivia between that and the bracket that closes the list. -/
inductive TrailingCommas : List Token → List Token → Prop
  | nil : TrailingCommas [] []
  | keep (t : Token) {ts us : List Token} (more : TrailingCommas ts us) : TrailingCommas (t :: ts) (t :: us)
  | comma (start : Nat) {t : Token} {ts us : List Token} (hcode : t.isTrivia = false) (hcomma : t.isPunct "," = false)
      (hopener : t.isOpener = false) (hcloses : closesList ts = true) (more : TrailingCommas ts us) :
      TrailingCommas (t :: ts) (t :: ⟨.punct, ",", start⟩ :: us)

namespace TrailingCommas

variable {us : List Token}

lemma closesList_eq (h : TrailingCommas ts us) : closesList us = closesList ts := by
  unfold closesList
  induction h with
  | nil => rfl
  | keep t more ih => by_cases ht : t.isTrivia <;> simp [ht, ih]
  | comma st hc _ _ _ more ih => simp [hc]

lemma charsOf_comma (st : Nat) (us : List Token) : charsOf (⟨.punct, ",", st⟩ :: us) = ',' :: charsOf us := by
  simp

lemma behind (st : Nat) {fr back : List Token} (h : TrailingCommas ts (fr ++ t :: back))
    (hcd : t.isTrivia = false) (hco : t.isPunct "," = false) (ho : t.isOpener = false)
    (hc : closesList back) : TrailingCommas ts (fr ++ t :: ⟨.punct, ",", st⟩ :: back) := by
  generalize hu : fr ++ t :: back = us at h
  induction h generalizing fr with
  | nil => simp at hu
  | @keep u ts us more ih =>
    cases fr with
    | nil =>
      obtain ⟨rfl, rfl⟩ := cons.inj hu
      exact .comma st hcd hco ho (more.closesList_eq ▸ hc) more
    | cons v fr =>
      obtain ⟨rfl, hm⟩ := cons.inj hu
      exact .keep v (ih hm)
  | @comma st' u ts us hcd' hco' ho' hc' more ih =>
    rcases fr with _ | ⟨v, _ | ⟨w, fr⟩⟩
    · -- A comma behind the token would not close the list.
      obtain ⟨-, rfl⟩ := cons.inj hu
      simp [closesList, Token.isTrivia, Token.isPunct, closeBrace] at hc
    · obtain ⟨-, hm⟩ := cons.inj hu
      obtain ⟨rfl, -⟩ := cons.inj hm
      simp [Token.isPunct] at hco
    · obtain ⟨rfl, ht⟩ := cons.inj hu
      obtain ⟨rfl, hm⟩ := cons.inj ht
      exact .comma st' hcd' hco' ho' hc' (ih hm)

lemma mem (h : TrailingCommas ts us) (ht : t ∈ us) : t ∈ ts ∨ t.kind = .punct ∧ t.text = "," := by
  induction h with
  | nil => exact .inl ht
  | keep u more ih =>
    rcases mem_cons.1 ht with rfl | ht
    · exact .inl mem_cons_self
    · exact (ih ht).imp_left (mem_cons_of_mem u)
  | @comma st u ts us hcd hco ho hc more ih =>
    rcases mem_cons.1 ht with rfl | ht
    · exact .inl mem_cons_self
    · rcases mem_cons.1 ht with rfl | ht
      · exact .inr ⟨rfl, rfl⟩
      · exact (ih ht).imp_left (mem_cons_of_mem u)

end TrailingCommas

lemma Lexes.not_isDigit {rs : List Char} {f : Form} (h : Lexes fresh sl cs f rs) (hf : f.kind ≠ .number) :
    ∃ d r, cs = d :: r ∧ d.isDigit = false := by
  obtain ⟨c, a, ha⟩ := exists_cons_of_ne_nil h.text_ne_nil
  refine ⟨c, a ++ rs, by rw [← h.append_eq, ha, cons_append], ?_⟩
  by_cases hk : f.kind = .template
  · obtain ⟨b, hb, -⟩ := h.getLast?_template hk
    obtain ⟨rfl, -⟩ := cons.inj (ha.symm.trans hb)
    decide
  · obtain ⟨d, b, hb, ho, -⟩ := h.exists_body hk
    obtain ⟨rfl, rfl⟩ := cons.inj (ha.symm.trans hb)
    by_contra hd
    have hd := of_not_eq_false hd
    have hn : ∀ e : Char, e.isDigit = false → c ≠ e := by
      rintro e he rfl
      rw [he] at hd
      cases hd
    have hg := not_isGap_of_isAlphanum (c := c) (by simp [Char.isAlphanum, hd])
    apply hf
    rw [← ho]
    simp [openingKind, hg, hd, hn '/' (by decide), hn '#' (by decide), hn '\'' (by decide), hn '"' (by decide)]

lemma Reads.not_isDigit (h : Reads fresh sl cs (ts.map Token.form)) (hc : closesList ts) :
    ∃ d r, charsOf ts = d :: r ∧ d.isDigit = false := by
  cases ts with
  | nil => simp [closesList] at hc
  | cons t ts =>
    have ht := h.flatMap_text
    rw [flatMap_form] at ht
    rw [map_cons] at h
    obtain ⟨rs, fst, -⟩ := h.uncons
    rw [ht]
    refine fst.not_isDigit fun hk => ?_
    have hn : t.kind = .number := hk
    simp [closesList, Token.isTrivia, Token.isPunct, hn] at hc

lemma TrailingCommas.parts {us : List Token} (h : TrailingCommas ts us) (hr : Reads fresh sl cs (ts.map Token.form)) :
    Parts (charsOf ts) (charsOf us) := by
  induction h generalizing fresh sl cs with
  | nil => exact .inl rfl
  | keep t more ih =>
    rw [map_cons] at hr
    obtain ⟨rs, -, hm⟩ := hr.uncons
    exact (ih hm).append_left t.text.toList
  | @comma st t ts us hcd hco ho hc more ih =>
    rw [map_cons] at hr
    obtain ⟨rs, fst, hm⟩ := hr.uncons
    obtain ⟨d, r, hd, hdi⟩ := hm.not_isDigit hc
    rw [charsOf_cons, charsOf_cons, charsOf_comma, hd]
    exact .inr ⟨t.text.toList, d, r, ',', charsOf us, rfl, rfl, hdi, by decide, by decide,
      fun hn => absurd hn fst.text_ne_nil⟩

lemma Reads.trailingCommas {us : List Token} (h : Reads fresh sl cs (ts.map Token.form)) (hco : TrailingCommas ts us) :
    Reads fresh sl (charsOf us) (us.map Token.form) := by
  induction hco generalizing fresh sl cs with
  | nil => exact .nil _ _
  | @keep t ts us more ih =>
    rw [map_cons] at h
    obtain ⟨rs, fst, hr⟩ := h.uncons
    have hp := more.parts hr
    rw [← flatMap_form ts, hr.flatMap_text] at hp
    exact .cons (fst.before (hp.endsBefore fst.endsBefore)) (ih hr)
  | @comma st t ts us hcd hcm ho hc more ih =>
    rw [map_cons] at h
    obtain ⟨rs, fst, hr⟩ := h.uncons
    have hf : Token.form ⟨.punct, ",", st⟩ = ⟨.punct, [',']⟩ := by simp [Token.form]
    have hk : t.form.kind ≠ .blank ∧ t.form.kind ≠ .lineComment := by
      constructor <;> intro hk <;> simp_all [Token.form, Token.isTrivia]
    have he : t.form.endsBefore fresh (',' :: charsOf us) := by
      refine Form.endsBefore_append_neutral (v := []) ?_ (by decide) (.inr hk)
      exact Form.endsBefore_of_append (v := []) (r := rs) fst.endsBefore (by simp)
    -- Behind the comma stands the bracket, which is read the same everywhere.
    have hs : ((us.map Token.form).find? fun f => !f.isTrivia).all (fun f => f.text.head? != some '/') := by
      have hc' := more.closesList_eq.trans hc
      rw [find?_map, Option.all_map]
      obtain ⟨u, hu, hb⟩ := (Option.any_eq_true _ _).1 hc'
      have hfi : us.find? ((fun f => !f.isTrivia) ∘ Token.form) = some u := hu
      rw [hfi]
      simp only [Token.isPunct, Bool.or_eq_true, Bool.and_eq_true, beq_iff_eq] at hb
      rcases hb with ⟨-, hb⟩ | ⟨-, hb⟩ <;> simp [Token.form, hb, closeBrace]
    rw [charsOf_cons, TrailingCommas.charsOf_comma, map_cons, map_cons, hf]
    exact .cons (fst.before he) (.cons (lexes_single (by simp) _) ((ih hr).anywhere (.inr hs) (.inl rfl)))

lemma exists_tokens_eq_concat (n : Node) : ∃ fr, n.tokens = fr ++ [n.last] := by
  cases n with
  | leaf t => exact ⟨[], by simp [Node.last]⟩
  | group o ms c => exact ⟨o :: Node.tokensOf ms, by simp [Node.last]⟩

lemma Node.Balanced.last {n : Node} (h : n.Balanced) (hco : n.isTrivia = false) :
    n.last.isTrivia = false ∧ n.last.isOpener = false := by
  cases h with
  | leaf ho _ => exact ⟨hco, ho⟩
  | group ho hc _ =>
    refine ⟨?_, (isCloser_of_closerOf hc).2.1⟩
    rw [Token.isPunct_iff] at hc
    simp [Node.last, Token.isTrivia, hc.1]

lemma closesList_gap {g : List Node} (hg : ∀ n ∈ g, n.isTrivia) {b : Before} {op cl : Token}
    (hl : (b.enclosure op).isLiteral) (hcl : cl.isPunct (closerOf op.text))
    (r : List Token) : closesList (Node.tokensOf g ++ cl :: r) := by
  induction g with
  | nil =>
    have hc : closerOf op.text = "]" ∨ closerOf op.text = closeBrace := by
      unfold closerOf
      by_cases hp : (op.text == "(")
      · simp [Before.enclosure, hp, Enclosure.isLiteral] at hl
      · rw [if_neg hp]
        by_cases hb : (op.text == "[") <;> simp [hb]
    rw [isPunct_iff] at hcl
    rcases hc with hc | hc <;> simp [closesList, Token.isTrivia, Token.isPunct, hcl, hc]
  | cons n g ih =>
    obtain ⟨hn, hm⟩ := forall_mem_cons.1 hg
    cases n with
    | group o ms c => cases hn
    | leaf t =>
      have ht : t.isTrivia := hn
      have hr := ih hm
      unfold closesList at hr ⊢
      simpa [ht] using hr

lemma balanced_addCommas (e : Enclosure) (k : Nat) (b : Before) (ns : List Node) (hn : ∀ n ∈ ns, n.Balanced) :
    ∀ n ∈ (addCommas e k b ns).1, n.Balanced := by
  induction ns using Node.forest_induction generalizing e k b with
  | nil => simp
  | leaf t ns ih =>
    obtain ⟨hl, hm⟩ := forall_mem_cons.1 hn
    rw [addCommas_leaf]
    exact forall_mem_cons.2 ⟨hl, ih e _ _ hm⟩
  | group o ms c ns ihInside ih =>
    obtain ⟨hg, hm⟩ := forall_mem_cons.1 hn
    cases hg with
    | group ho hc hin =>
      have hb := ihInside (b.enclosure o) 0 { b with token := some o } hin
      rw [addCommas_group]
      refine forall_mem_cons.2 ⟨.group ho hc ?_, ih e _ _ hm⟩
      rcases insideWith_cases b o ms with ⟨heq, -⟩ | ⟨-, elements, g, stop, hie, hco, -⟩
      · rwa [heq]
      · rw [← innerWith, hie, forall_mem_append] at hb
        rw [hco, forall_mem_append]
        exact ⟨hb.1, forall_mem_cons.2 ⟨.leaf rfl rfl, hb.2⟩⟩

lemma trailingCommas_addCommas (e : Enclosure) (k : Nat) (b : Before) (ns : List Node) (hns : ∀ n ∈ ns, n.Balanced)
    {tl tl' : List Token} (h : TrailingCommas tl tl') :
    TrailingCommas (tokensOf ns ++ tl) (tokensOf (addCommas e k b ns).1 ++ tl') := by
  induction ns using Node.forest_induction generalizing e k b tl tl' with
  | nil => simpa using h
  | leaf t ns ih =>
    rw [addCommas_leaf, tokensOf_cons, tokensOf_cons, tokens_leaf]
    exact .keep t (ih e _ _ (fun n hn => hns n (mem_cons_of_mem _ hn)) h)
  | group o ms c ns ihInside ih =>
    cases hns _ mem_cons_self with
    | group ho hc hin =>
      have hm := ih e k (readBehind b o ms c) (fun n hn => hns n (mem_cons_of_mem _ hn)) h
      have hb := ihInside (b.enclosure o) 0 { b with token := some o } hin (.keep c hm)
      have hw : TrailingCommas (tokensOf ms ++ c :: (tokensOf ns ++ tl))
          (tokensOf (insideWith b o ms) ++ c :: (tokensOf (addCommas e k (readBehind b o ms c) ns).1 ++ tl')) := by
        rcases insideWith_cases b o ms with ⟨heq, -⟩ | ⟨⟨hl, -⟩, elements, g, stop, hie, hco, hg,
          front, last, rfl, hcd, hla⟩
        · rwa [heq]
        · have hba : last.Balanced := balanced_addCommas _ _ _ ms hin last (by rw [← innerWith, hie]; simp)
          obtain ⟨pre, hbe⟩ := exists_tokens_eq_concat last
          obtain ⟨hlastCode, hlastOpener⟩ := hba.last hcd
          rw [← innerWith, hie] at hb
          rw [hco]
          simp only [tokensOf_append, tokensOf_cons, tokens_leaf, hbe, append_assoc, cons_append, nil_append] at hb ⊢
          rw [← append_assoc] at hb ⊢
          exact hb.behind stop hlastCode hla hlastOpener (closesList_gap hg hl hc _)
      rw [addCommas_group]
      simpa using TrailingCommas.keep o hw

end CustomElement.Script
