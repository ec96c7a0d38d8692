import CustomElement.Proofs.Script.Fusion

/-!
# The mark of non-nullness

An exclamation mark right behind an operand says that it is not null, and the walk drops it.
-/

namespace CustomElement.Script

open Text

/-- An operand ends with this token, whatever stands before it. -/
def Token.endsOperand (t : Token) : Bool :=
  match t.kind with
  | .word => !isKeyword t.text
  | .number | .string | .template => true
  | .punct => t.text == "]"
  | _ => false

lemma Token.endsExpression_of_endsOperand {t : Token} (h : t.endsOperand) : t.endsExpression := by
  unfold Token.endsOperand at h
  unfold Token.endsExpression
  cases hk : t.kind with
  | punct => simp_all
  | _ => simp_all

lemma Token.isTrivia_of_endsOperand {t : Token} (h : t.endsOperand) : t.isTrivia = false := by
  unfold Token.endsOperand at h
  unfold Token.isTrivia
  cases hk : t.kind with
  | _ => simp_all

lemma Lexes.regex_iff {fr : Bool} {cs rest : List Char} {f : Form} (h : Lexes fr true cs f rest)
    (hc : f.isTrivia = false) : f.kind = .regex ↔ f.text.head? = some '/' := by
  by_cases ht : f.kind = .template
  · obtain ⟨a, ha, -⟩ := h.getLast?_template ht
    simp [ht, ha]
  · obtain ⟨c, a, hte, hk, -⟩ := h.exists_body ht
    rw [hte, List.head?_cons, some.injEq]
    constructor
    · intro hr
      have ho := opens_openingKind fr true c (a ++ rest).head?
      rw [hk, hr] at ho
      exact ho.1
    · rintro rfl
      -- A slash begins a comment or a regular expression, and a comment is trivia.
      have hg : isGap '/' = false := by decide
      have hw : isWordStart '/' = false := by decide
      have hl : f.kind ≠ .lineComment := by
        intro hl
        simp [Form.isTrivia, hl] at hc
      have hb : f.kind ≠ .blockComment := by
        intro hb
        simp [Form.isTrivia, hb] at hc
      rw [← hk] at hl hb ⊢
      simp only [openingKind, hg, hw] at hl hb ⊢
      grind

lemma breaksFrom_adjacent (pending : Bool) (before rest : List Token) {q t : Token} (hq : q.isTrivia = false)
    (ht : t.isTrivia = false) :
    (Stream.breaksFrom pending (before ++ q :: t :: rest))[(before.filter fun u => !u.isTrivia).length + 1]? =
      some false := by
  induction before generalizing pending with
  | nil => simp [Stream.breaksFrom, hq, ht]
  | cons u before ih =>
    by_cases hu : u.isTrivia
    · simpa [Stream.breaksFrom, hu] using ih _
    · simpa [Stream.breaksFrom, hu] using ih _

namespace Stream

variable {source : String} {s : Stream} {before rest : List Token} {q t : Token}

section

variable (hs : Stream.read source = .ok s) (hto : tokenize source = .ok (before ++ q :: t :: rest))
  (hq : q.isTrivia = false) (ht : t.isTrivia = false)

include hs hto hq ht

lemma breakBefore_adjacent : s.breakBefore ((before.filter fun u => !u.isTrivia).length + 1) = false := by
  obtain ⟨ts, hto', hs⟩ := bind_eq_ok.1 hs
  obtain ⟨partners, -, hs⟩ := bind_eq_ok.1 hs
  obtain rfl := ok.inj (hto.symm.trans hto')
  cases hs
  have hb := breaksFrom_adjacent false before rest hq ht
  simp [breakBefore, Array.getD_eq_getD_getElem?, hb]

lemma tok_adjacent : s.tok ((before.filter fun u => !u.isTrivia).length + 1) = t := by
  obtain ⟨ts, -, hto', -, -, hc, -⟩ := exists_of_read hs
  obtain rfl := ok.inj (hto.symm.trans hto')
  have hsp : s.tokens.toList = (before.filter fun u => !u.isTrivia) ++ q :: t :: rest.filter fun u => !u.isTrivia := by
    simp [hc, hq, ht]
  rw [tok, Array.getD_eq_getD_getElem?, ← Array.getElem?_toList, hsp, List.getElem?_append_right (Nat.le_add_right _ 1),
    Nat.add_sub_cancel_left]
  rfl

end

lemma isOneOf_of_endsOperand {ts : List Token} (ht : tokenize source = .ok ts) (hm : q ∈ ts)
    (hq : q.endsOperand) : q.isOneOf [";", closeBrace] = false := by
  rw [isOneOf]
  unfold Token.endsOperand at hq
  cases hk : q.kind with
  | punct =>
    rw [hk] at hq
    rw [beq_iff_eq.1 hq]
    decide
  | word =>
    obtain ⟨c, cs, hte, hs⟩ := exists_isWordStart ht hm hk
    rw [contains_of_isWordStart hte hs (by decide), Bool.and_false]
  | _ => rfl

lemma stepAt_nonNull {er : String → Except Fault String} (hs : Stream.read source = .ok s)
    (hto : tokenize source = .ok (before ++ q :: t :: rest)) (hq : q.endsOperand) (ht : t.isPunct "!")
    {c : Site} (hpo : c.pos = (before.filter fun u => !u.isTrivia).length + 1) (hl : c.progress.last = some q)
    (hh : c.progress.heritage = false) :
    s.stepAt er c = .ok { edits := Edit.remove t.start t.stop, progress := c.progress, next := c.pos + 1 } := by
  obtain ⟨hk, hte⟩ : t.kind = .punct ∧ t.text = "!" := by
    simpa [Token.isPunct] using ht
  have hc := q.isTrivia_of_endsOperand hq
  have hc' : t.isTrivia = false := by simp [Token.isTrivia, hk]
  have htk := tok_adjacent hs hto hc hc'
  have hb := breakBefore_adjacent hs hto hc hc'
  rw [← hpo] at htk hb
  have hso : q.stop = t.start :=
    ((tokensFrom_tiles (mapError_eq_ok.1 hto)).start_next before.length q t (by simp) (by simp)).symm
  have hst : s.startsStatement c.pos c.progress.last = false := by
    have hn := isOneOf_of_endsOperand hto (by simp) hq
    simp only [isOneOf, List.contains_cons, List.contains_nil, Bool.or_false] at hn
    rw [hl, startsStatement, hb, hn]
    rfl
  have hp : s.punctStep c.frame c.progress c.hi c.pos =
      .ok { edits := Edit.remove t.start t.stop, progress := c.progress, next := c.pos + 1 } := by
    simp [punctStep, htk, hte, hl, hso, q.endsExpression_of_endsOperand hq]
    rfl
  rw [stepAt, step, hh, hst]
  simp [tokenStep, htk, Token.isWord, hk, hp]

end Stream

/-- **Behind a mark of non-nullness a slash is never a division.** Let an exclamation mark stand right behind the end of
an operand, and let `next` be the first token of code after it. The walk drops the mark, but what begins with a slash has
been read as a regular expression. -/
theorem regex_iff_slash_of_nonNull {source : String} {before gap behind : List Token} {q mark next : Token}
    (htokens : tokenize source = .ok (before ++ q :: mark :: (gap ++ next :: behind))) (hq : q.endsOperand = true)
    (hmark : mark.isPunct "!" = true) (hgap : ∀ t ∈ gap, t.isTrivia = true) (hnext : next.isTrivia = false) :
    (next.kind = .regex ↔ next.text.toList.head? = some '/') ∧
      ∀ (s : Stream) (erase : String → Except Fault String) (c : Site), Stream.read source = .ok s →
        c.pos = (before.filter fun t => !t.isTrivia).length + 1 → c.progress.last = some q → c.progress.heritage = false →
        s.stepAt erase c = .ok { edits := Edit.remove mark.start mark.stop, progress := c.progress, next := c.pos + 1 } := by
  constructor
  · have hreads := tokenize_eq_ok_iff.1 ⟨_, htokens, rfl⟩
    have hsplit : before ++ q :: mark :: (gap ++ next :: behind) = (before ++ q :: mark :: gap) ++ next :: behind := by simp
    rw [hsplit, List.map_append, List.map_cons] at hreads
    obtain ⟨rest, hlex, -⟩ := hreads.split.2.uncons
    have hslash : slashThrough true ((before ++ q :: mark :: gap).map Token.form) = true := by
      obtain ⟨hkind, htext⟩ : mark.kind = .punct ∧ mark.text = "!" := by simpa [Token.isPunct] using hmark
      rw [List.map_append, List.map_cons, List.map_cons, slashThrough_append, slashThrough_cons, slashThrough_cons,
        slashThrough_of_trivia]
      · have hbrace : "!" ≠ closeBrace := by decide
        simp [Form.slashNext, Form.isTrivia, Form.slashAfter, Token.form, hkind, htext, regexAllowed, hbrace]
      · intro f hf
        obtain ⟨t, ht, rfl⟩ := List.mem_map.1 hf
        exact hgap t ht
    rw [hslash] at hlex
    exact hlex.regex_iff hnext
  · intro s erase c hs hpos hlast hheritage
    exact Stream.stepAt_nonNull hs htokens hq hmark hpos hlast hheritage

theorem regex_iff_slash_of_nonNull_quotient :
    ∃ before q mark gap next behind s, tokenize "x! / 2 / 3" = .ok (before ++ q :: mark :: (gap ++ next :: behind)) ∧
      q.endsOperand = true ∧ mark.isPunct "!" = true ∧ (∀ t ∈ gap, t.isTrivia = true) ∧ next.isTrivia = false ∧
      next = ⟨.regex, "/ 2 /", 3⟩ ∧ (next.kind = .regex ↔ next.text.toList.head? = some '/') ∧
      Stream.read "x! / 2 / 3" = .ok s ∧
      s.stepAt .ok ⟨.block, { last := some q }, 4, 1⟩ =
        .ok { edits := Edit.remove 1 2, progress := { last := some q }, next := 2 } := by
  have htokens : tokenize "x! / 2 / 3" =
      .ok ([] ++ ⟨.word, "x", 0⟩ :: ⟨.punct, "!", 1⟩ :: ([⟨.blank, " ", 2⟩] ++ ⟨.regex, "/ 2 /", 3⟩ ::
        [⟨.blank, " ", 8⟩, ⟨.number, "3", 9⟩])) := by cbv
  obtain ⟨s, hs⟩ : ∃ s, Stream.read "x! / 2 / 3" = .ok s := ⟨_, by cbv⟩
  obtain ⟨hkind, hstep⟩ := regex_iff_slash_of_nonNull htokens (by decide) (by decide) (by decide) (by decide)
  exact ⟨_, _, _, _, _, _, s, htokens, by decide, by decide, by decide, by decide, rfl, hkind, hs,
    hstep s .ok _ hs rfl rfl rfl⟩

end CustomElement.Script
