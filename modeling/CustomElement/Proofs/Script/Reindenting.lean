import CustomElement.Proofs.Script.Relaying

/-!
# Layout twice

A line that was laid out is laid out as it is (`layoutLine_laid`), and so is a layout (`reindent_reindent`). Its
tokens are those of the text but for line breaks and the white space in block comments (`tokenize_reindent`).
-/

namespace CustomElement.Script

open List Text

variable {bl : Bool} {fst : List Char} {ts : List Token} {l : Nat} {lines : List (List Char)}
  {line : List Token} {tokens : List Token}

lemma trimEndList_trimEndList (cs : List Char) : trimEndList (trimEndList cs) = trimEndList cs := by
  rw [trimEndList, trimEndList, reverse_reverse, dropWhile_idempotent]

lemma blank_or_append (cs : List Char) : (∀ c ∈ cs, isBlank c) ∨ ∃ a c b, cs = a ++ c :: b ∧ isBlank c = false := by
  by_cases h : ∃ c ∈ cs, isBlank c = false
  · obtain ⟨c, hm, hc⟩ := h
    obtain ⟨a, b, rfl⟩ := append_of_mem hm
    exact .inr ⟨a, c, b, rfl, hc⟩
  · exact .inl fun c hc => by_contra fun hin => h ⟨c, hc, of_not_eq_true hin⟩

lemma trimList_trimEndList (cs : List Char) : trimList (trimEndList cs) = trimList cs := by
  rcases blank_or_append cs with ha | ⟨a, c, b, rfl, hc⟩
  · rw [trimList_eq_nil.2 ha, trimList_eq_nil]
    exact fun c hc => ha c (mem_of_mem_trimEndList hc)
  · rw [trimEndList_append_of_not_blank hc, trimList_append hc, trimList_append hc, trimEndList_trimEndList]

lemma alignedLine_cases (l : Nat) (line : List Char) :
    alignedLine l line = line ∨ ∃ lead rest, line = lead ++ '*' :: rest ∧ trimStartList lead = [] ∧
      alignedLine l line = (indentation l).toList ++ ' ' :: '*' :: trimEndList rest := by
  unfold alignedLine
  split
  · rename_i hs
    obtain ⟨rest, hr⟩ := head?_eq_some_iff.1 (beq_iff_eq.1 hs)
    refine .inr ⟨line.takeWhile isBlank, rest, ?_, ?_, ?_⟩
    · rw [← hr, trimStartList, takeWhile_append_dropWhile]
    · rw [trimStartList, dropWhile_eq_nil_iff]
      exact fun c hc => mem_takeWhile_imp hc
    · rw [hr, ← nil_append ('*' :: rest), trimEndList_append_of_not_blank (by decide), nil_append]
  · exact .inl rfl

lemma trimStartList_indentation (l : Nat) : trimStartList ((indentation l).toList ++ [' ']) = [] := by
  rw [trimStartList, dropWhile_eq_nil_iff]
  intro c hc
  rcases mem_append.1 hc with hc | hc
  · rw [indentation, toList_ofList, mem_replicate] at hc
    rw [hc.2]
    decide
  · rw [mem_singleton.1 hc]
    decide

lemma alignedLine_alignedLine (l : Nat) (line : List Char) : alignedLine l (alignedLine l line) = alignedLine l line := by
  rcases alignedLine_cases l line with heq | ⟨lead, rest, -, -, heq⟩
  · rw [heq, heq]
  · have hs : trimStartList (alignedLine l line) = '*' :: trimEndList rest := by
      rw [heq, ← singleton_append, ← append_assoc, trimStartList, dropWhile_append_cons_of_neg (by decide),
        ← trimStartList, trimStartList_indentation, nil_append]
    have he : trimEndList ('*' :: trimEndList rest) = '*' :: trimEndList rest := by
      rw [← nil_append ('*' :: _), trimEndList_append_of_not_blank (by decide), trimEndList_trimEndList]
    conv_lhs => rw [alignedLine]
    rw [hs, he, heq]
    rfl

lemma trimList_alignedLine (l : Nat) (line : List Char) : trimList (alignedLine l line) = trimList line := by
  rcases alignedLine_cases l line with heq | ⟨lead, r, hl, hle, heq⟩
  · rw [heq]
  · rw [heq, ← singleton_append, ← append_assoc, trimList_append (by decide), trimStartList_indentation,
      trimEndList_trimEndList, hl, trimList_append (by decide), hle]

lemma splitLines_append {r line : List Char} (hf : '\n' ∉ fst)
    (hr : splitLines r = line :: lines) : splitLines (fst ++ r) = (fst ++ line) :: lines := by
  induction fst with
  | nil => exact hr
  | cons c fst ih =>
    obtain ⟨hc, hf⟩ := not_or.1 (mem_cons.not.1 hf)
    rw [cons_append, splitLines, if_neg (Ne.symm hc), ih hf, cons_append]

lemma splitLines_flatMap (hf : '\n' ∉ fst) (hl : ∀ line ∈ lines, '\n' ∉ line) :
    splitLines (fst ++ lines.flatMap ('\n' :: ·)) = fst :: lines := by
  induction lines generalizing fst with
  | nil => simpa using splitLines_append hf (show splitLines [] = [[]] from rfl)
  | cons line lines ih =>
    obtain ⟨hli, hl⟩ := forall_mem_cons.1 hl
    have hr : splitLines ('\n' :: (line ++ lines.flatMap ('\n' :: ·))) = [] :: line :: lines := by
      rw [splitLines, if_pos rfl, ih hli hl]
    simpa using splitLines_append hf hr

lemma splitLines_alignComment (l : Nat) {x : String} {ls : List (List Char)} (h : splitLines x.toList = fst :: ls) :
    splitLines (alignComment (indentation l) x).toList = trimEndList fst :: ls.map (alignedLine l) := by
  have hp := not_mem_splitLines x.toList
  rw [h] at hp
  obtain ⟨hf, hl⟩ := forall_mem_cons.1 hp
  rw [alignComment_toList l x h]
  refine splitLines_flatMap (fun hm => hf (mem_of_mem_trimEndList hm)) fun aligned ha hm => ?_
  obtain ⟨line, hli, rfl⟩ := mem_map.1 ha
  rcases alignedLine_cases l line with heq | ⟨lead, rest, hs, -, heq⟩
  · exact hl line hli (heq ▸ hm)
  · have hr : '\n' ∉ trimEndList rest := fun hm => hl line hli (by simp [hs, mem_of_mem_trimEndList hm])
    rw [heq] at hm
    simp [hr, not_mem_indentation] at hm

lemma alignComment_alignComment (l : Nat) (text : String) :
    alignComment (indentation l) (alignComment (indentation l) text) = alignComment (indentation l) text := by
  obtain ⟨fst, ls, hs, -⟩ := splitLines_join text.toList
  rw [← toList_inj, alignComment_toList l _ (splitLines_alignComment l hs), trimEndList_trimEndList,
    map_map, show alignedLine l ∘ alignedLine l = alignedLine l from
      funext (alignedLine_alignedLine l), alignComment_toList l text hs]

lemma laid_of_not_comment {t : Token} (h : ¬ (t.kind == .blockComment && t.hasNewline)) : t.laid l = t.bare := by
  rw [Token.laid, laidChars, if_neg h, ofList_toList]
  rfl

lemma laid_of_comment {t : Token} (h : (t.kind == .blockComment && t.hasNewline)) :
    t.laid l = ⟨.blockComment, alignComment (indentation l) t.text, 0⟩ := by
  rw [Token.laid, laidChars, if_pos h, ofList_toList]
  rw [and_eq_true, beq_iff_eq] at h
  rw [h.1]

lemma laidChars_laid (l : Nat) (t : Token) : laidChars l (t.laid l) = laidChars l t := by
  by_cases ht : (t.kind == .blockComment && t.hasNewline)
  · have hl : laidChars l t = (alignComment (indentation l) t.text).toList := if_pos ht
    rw [hl, laid_of_comment ht, laidChars, alignComment_alignComment, ite_self]
  · rw [laid_of_not_comment ht]
    rfl

lemma layoutLine_laid (base : Nat) (st : List Nat) (line : List Token) :
    layoutLine base st (line.map (Token.laid (lineLevel base st line))) = layoutLine base st line := by
  generalize hl : lineLevel base st line = l
  refine layoutLine_map (f := Token.laid l) (fun _ => rfl) (fun t ht => ?_) base st fun t _ => ?_
  · rw [laid_of_not_comment (by simp [ht])]
    rfl
  · rw [hl, laidChars_laid]

lemma layoutLines_laid (base : Nat) (st : List Nat) (lines : List Line) :
    layoutLines base st ((laidLines base st lines).map Prod.snd) = layoutLines base st lines := by
  induction lines generalizing st with
  | nil => rfl
  | cons line lines ih =>
    simp only [laidLines, map_cons, layoutLines, layoutLine_laid, ih]

lemma IsLine.laid (h : IsLine line) (l : Nat) : IsLine (line.map (Token.laid l)) := by
  have hk : (line.map (Token.laid l)).map Token.kind = line.map Token.kind := by
    rw [map_map]
    rfl
  refine ⟨by simpa using h.ne_nil, hk ▸ h.first, hk ▸ h.last, fun u hu => ?_⟩
  obtain ⟨t, ht, rfl⟩ := mem_map.1 hu
  have ho := h.onLine t ht
  by_cases hb : t.kind = .blank
  · simpa [Token.laid, Token.hasNewline, laidChars, hb] using ho
  · simp [Token.laid, hb]

lemma hasNewline_breakToken (blankLine : Bool) (l : Nat) : (breakToken blankLine l).hasNewline := by
  rw [Token.hasNewline, contains_iff_mem, ← count_pos_iff, ← Token.newlines, newlines_breakToken]
  split <;> omega

lemma InLines.laid {ls : List Line} (h : InLines bl ls ts) (base : Nat) (st : List Nat) :
    InLines bl ((laidLines base st ls).map Prod.snd) (tokensBelow (laidLines base st ls)).tail := by
  induction h generalizing st with
  | single hl => simpa [laidLines, tokensBelow] using InLines.single (hl.laid _)
  | @cons bl line ts ls b hl hb hbr more ih =>
    obtain ⟨l, heq⟩ := more.exists_breakToken base (layoutLine base st line).2
    have hm := ih (layoutLine base st line).2
    have ht : decide (2 ≤ (breakToken (2 ≤ b.newlines) l).newlines) = decide (2 ≤ b.newlines) := by
      rw [newlines_breakToken]
      by_cases ht : 2 ≤ b.newlines <;> simp [ht]
    rw [← ht] at hm
    have ha : InLines bl _ _ := .cons (hl.laid (lineLevel base st line)) rfl (hasNewline_breakToken _ l) hm
    rw [laidLines, tokensBelow, flatMap_cons, cons_append, tail_cons, ← tokensBelow, heq, map_cons]
    exact ha

lemma linesFrom_append (b : Bool) (acc : List Token) (rest : List Token) (ho : OnLine line)
    (hf : acc = [] → (line.map Token.kind).head? ≠ some .blank) :
    linesFrom b acc (line ++ rest) = linesFrom b (line.reverse ++ acc) rest := by
  induction line generalizing acc with
  | nil => rfl
  | cons t line ih =>
    obtain ⟨ht, hl⟩ := List.forall_mem_cons.1 ho
    have hk : ¬ (t.kind == .blank && acc.isEmpty) := by
      rw [and_eq_true, beq_iff_eq, List.isEmpty_iff]
      exact fun h => hf h.2 (by simp [h.1])
    rw [cons_append, linesFrom, if_neg (by simp [ht]), if_neg hk, ih _ hl (absurd · (cons_ne_nil _ _)),
      reverse_cons, append_assoc, singleton_append]

lemma InLines.linesFrom_eq {lines : List Line} (h : InLines bl lines ts) : linesFrom bl [] ts = lines := by
  have hc : ∀ {line : List Token}, IsLine line → ∀ (bl : Bool) (r : List Token),
      linesFrom bl [] (line ++ r) = linesFrom bl line.reverse r ∧ dropTrailingBlanks line = line := by
    intro line hl bl r
    obtain ⟨fr, t, rfl⟩ := (eq_nil_or_concat' line).resolve_left hl.ne_nil
    refine ⟨?_, dropTrailingBlanks_append (by simpa using hl.last) fr (by simp)⟩
    simpa using linesFrom_append bl [] r hl.onLine fun _ => hl.first
  induction h with
  | @single bl line hl =>
    have hli := (hc hl bl []).1
    rw [append_nil] at hli
    rw [hli, linesFrom, if_neg (by simp [hl.ne_nil]), reverse_reverse, (hc hl bl []).2]
  | @cons bl line ts lines b hl hb hbr more ih =>
    rw [(hc hl bl _).1, linesFrom, if_pos (by simp [hb, hbr]), if_neg (by simp [hl.ne_nil]),
      reverse_reverse, (hc hl bl []).2, ih]

lemma ne_mark {g cs tail : List Char} (hg : IsGap g) (hm : ¬ ['#', '!'] <+: (g ++ cs).dropWhile isGap) :
    cs ≠ '#' :: '!' :: tail := by
  rintro rfl
  have hin : StartsInk ('#' :: '!' :: tail) := by
    rw [StartsInk, head?_cons, any_some]
    decide
  rw [(takeWhile_dropWhile_gap hg hin).2] at hm
  exact hm ⟨tail, rfl⟩

lemma Respaced.mark {a tl : List Char} (h : Respaced a ('#' :: '!' :: tl)) : ∃ rest, a = '#' :: '!' :: rest := by
  obtain ⟨a, rfl⟩ := head?_eq_some_iff.1 ((h.head_eq (c := '#') (by decide)).2 rfl)
  have h := h.tail (by decide)
  obtain ⟨a, rfl⟩ := head?_eq_some_iff.1 ((h.head_eq (c := '!') (by decide)).2 rfl)
  exact ⟨a, rfl⟩

lemma exists_tokenize_reindent {x : String} (h : tokenize x = .ok ts) (hm : ¬ ['#', '!'] <+: x.toList.dropWhile isGap)
    (l : Nat) : ∃ g laid, (∀ b ∈ g, b.kind = .blank) ∧ tokenize (reindent x l) = .ok laid ∧
      laid.map form = (g ++ laidTokens l ts).map form := by
  have hr := tokenize_eq_ok_iff.1 ⟨ts, h, rfl⟩
  obtain ⟨lead, body, bs, heq, hle, hb, hfi, -, -, hla⟩ := exists_laidOut h l
  obtain ⟨n, hl⟩ := exists_layoutOf l ts
  rw [← reindent_of_tokenize h] at hl
  have hg : IsGap (charsOf lead) := hr.proper.isGap_charsOf (fun t ht => by simp [heq, ht]) hle
  have hfr : ∀ tail, charsOf (laidTokens l ts) ≠ '#' :: '!' :: tail := by
    intro tail hta
    obtain ⟨r, hre⟩ := (hta ▸ hla.respaced).mark
    rw [← hr.flatMap_text, flatMap_form, heq, charsOf_append, charsOf_append, hre] at hm
    exact ne_mark hg hm rfl
  by_cases hn : (indentation n).toList = []
  · rw [hn, nil_append] at hl
    obtain ⟨laid, hto, hf⟩ := tokenize_eq_ok_iff.2 (hl ▸ hla.reads.anywhere (.inl rfl) (.inr hfr))
    exact ⟨[], laid, by simp, hto, hf⟩
  · have hlx : Lexes true true _ _ _ := lexes_blank hn (isGap_indentation n) (hla.startsInk hfi)
    have ha := Reads.cons hlx (hla.reads.anywhere (.inl rfl) (.inr hfr))
    obtain ⟨laid, hto, hf⟩ := tokenize_eq_ok_iff.2 (hl ▸ ha)
    exact ⟨[⟨.blank, indentation n, 0⟩], laid, by simp, hto, hf⟩

/-- Tokens without the blanks at both ends. -/
def trimBlanks (fs : List Form) : List Form :=
  (fs.dropWhile fun f => f.kind == .blank).rdropWhile fun f => f.kind == .blank

lemma trimBlanks_eq {lead body bs : List Token} (hl : ∀ b ∈ lead, b.kind = .blank) (hbs : ∀ b ∈ bs, b.kind = .blank)
    (hfi : (body.map Token.kind).head? ≠ some .blank) (hla : (body.map Token.kind).getLast? ≠ some .blank) :
    trimBlanks ((lead ++ (body ++ bs)).map form) = body.map form := by
  have hbl : ∀ {ts : List Token}, (∀ t ∈ ts, t.kind = .blank) → ∀ f ∈ ts.map form, (f.kind == .blank) := by
    intro ts hts f hf
    obtain ⟨t, ht, rfl⟩ := mem_map.1 hf
    exact beq_iff_eq.2 (hts t ht)
  rw [trimBlanks, map_append, dropWhile_append_of_pos (hbl hl)]
  rcases eq_nil_or_concat' body with rfl | ⟨fr, t, rfl⟩
  · rw [nil_append, dropWhile_eq_nil_iff.2 (hbl hbs)]
    rfl
  · have hk : ((fr ++ [t] ++ bs).map form).dropWhile (fun f => f.kind == .blank) = (fr ++ [t] ++ bs).map form := by
      obtain ⟨u, r, hr⟩ := exists_cons_of_ne_nil (show fr ++ [t] ≠ [] by simp)
      rw [hr] at hfi ⊢
      exact dropWhile_cons_of_neg (by simpa [form] using hfi)
    rw [hk, rdropWhile, ← map_reverse, reverse_append, map_append,
      dropWhile_append_of_pos (hbl fun b hb => hbs b (mem_reverse.1 hb)), reverse_append,
      reverse_singleton, singleton_append, map_cons,
      dropWhile_cons_of_neg (by simpa [form] using hla)]
    simp

/-- What layout makes of a token: of a blank with a line break another one, of a block comment one with other white space
around its lines, and else nothing. -/
inductive Relaid : Form → Form → Prop
  | same (f : Form) : Relaid f f
  | lineBreak {a b : List Char} (ha : '\n' ∈ a) (hb : '\n' ∈ b) : Relaid ⟨.blank, a⟩ ⟨.blank, b⟩
  | comment {a b : List Char} (ha : '\n' ∈ a) (hlines : (splitLines b).map trimList = (splitLines a).map trimList) :
      Relaid ⟨.blockComment, a⟩ ⟨.blockComment, b⟩

lemma relaid_laid (t : Token) (l : Nat) : Relaid t.form (t.laid l).form := by
  by_cases ht : (t.kind == .blockComment && t.hasNewline)
  · rw [laid_of_comment ht]
    obtain ⟨hk, hb⟩ := and_eq_true_iff.1 ht
    obtain ⟨fst, ls, hs, -⟩ := splitLines_join t.text.toList
    rw [form, beq_iff_eq.1 hk]
    refine .comment (contains_iff_mem.1 hb) ?_
    rw [hs, splitLines_alignComment l hs, map_cons, map_map, trimList_trimEndList,
      show trimList ∘ alignedLine l = trimList from funext (trimList_alignedLine l), map_cons]
  · rw [laid_of_not_comment ht]
    exact .same t.form

lemma InLines.relaid {ls : List Line} (h : InLines bl ls ts) (base : Nat) (st : List Nat) :
    Forall₂ Relaid (ts.map form) ((tokensBelow (laidLines base st ls)).tail.map form) := by
  have hm : ∀ (line : List Token) l, Forall₂ Relaid (line.map form) ((line.map (Token.laid l)).map form) := by
    intro line l
    rw [map_map, forall₂_map_left_iff, forall₂_map_right_iff, forall₂_same]
    exact fun t _ => relaid_laid t l
  induction h generalizing st with
  | @single bl line hl => simpa [laidLines, tokensBelow] using hm line _
  | @cons bl line ts ls b hl hb hbr more ih =>
    obtain ⟨l, heq⟩ := more.exists_breakToken base (layoutLine base st line).2
    rw [laidLines, tokensBelow, flatMap_cons, cons_append, tail_cons, ← tokensBelow, heq, map_append,
      map_append, map_cons, map_cons]
    refine rel_append (hm line _) (.cons ?_ (ih _))
    rw [form, hb]
    exact .lineBreak (contains_iff_mem.1 hbr) (contains_iff_mem.1 (hasNewline_breakToken _ l))

/-- **Layout keeps the tokens and their lines.** -/
theorem tokenize_reindent {text : String} {tokens : List Token} (h : tokenize text = .ok tokens)
    (hmark : ¬ ['#', '!'] <+: text.toList.dropWhile isGap) (level : Nat) :
    ∃ laid, tokenize (reindent text level) = .ok laid ∧
      List.Forall₂ Relaid (trimBlanks (tokens.map Token.form)) (trimBlanks (laid.map Token.form)) := by
  obtain ⟨gap, laid, hgap, htokenize, hforms⟩ := exists_tokenize_reindent h hmark level
  obtain ⟨lead, body, bs, heq, hlead, hbs, hlines⟩ := (tokenize_eq_ok_iff.1 ⟨tokens, h, rfl⟩).proper.exists_inLines
  refine ⟨laid, htokenize, ?_⟩
  rw [hforms, ← List.append_nil (laidTokens level tokens)]
  rcases hlines with ⟨rfl, hnil⟩ | hlines
  · have hnone : laidTokens level tokens = [] := by
      rw [laidTokens, hnil]
      rfl
    rw [hnone, heq, trimBlanks_eq hlead hbs (by simp) (by simp), trimBlanks_eq hgap (by simp) (by simp) (by simp)]
    exact .nil
  · have hlaid := hlines.laid level []
    rw [laidTokens, trimBlanks_eq hgap (by simp) hlaid.first hlaid.last, heq,
      trimBlanks_eq hlead hbs hlines.first hlines.last, ← heq]
    exact hlines.relaid level []

theorem tokenize_reindent_comment :
    ∃ tokens laid, tokenize " f(\n/* a\n* b */\n\n\nc)\n" = .ok tokens ∧
      tokenize "  f(\n    /* a\n     * b */\n\n    c)" = .ok laid ∧
      List.Forall₂ Relaid (trimBlanks (tokens.map Token.form)) (trimBlanks (laid.map Token.form)) := by
  have htokens : tokenize " f(\n/* a\n* b */\n\n\nc)\n" = .ok
      [⟨.blank, " ", 0⟩, ⟨.word, "f", 1⟩, ⟨.punct, "(", 2⟩, ⟨.blank, "\n", 3⟩, ⟨.blockComment, "/* a\n* b */", 4⟩,
        ⟨.blank, "\n\n\n", 15⟩, ⟨.word, "c", 18⟩, ⟨.punct, ")", 19⟩, ⟨.blank, "\n", 20⟩] := by cbv
  have hlayout : reindent " f(\n/* a\n* b */\n\n\nc)\n" 1 = "  f(\n    /* a\n     * b */\n\n    c)" := by cbv
  obtain ⟨laid, hlaid, hrelaid⟩ := tokenize_reindent htokens (by decide) 1
  exact ⟨_, laid, htokens, hlayout ▸ hlaid, hrelaid⟩

/-- A byte order mark is a blank, but no white space: without it a number sign and an exclamation mark begin a comment. -/
theorem tokenize_reindent_mark : ¬ ['#', '!'] <+: "\uFEFF#! a".toList.dropWhile isBlank ∧
    tokenize "\uFEFF#! a" = .ok [⟨.blank, "\uFEFF", 0⟩, ⟨.word, "#", 3⟩, ⟨.punct, "!", 4⟩, ⟨.blank, " ", 5⟩,
      ⟨.word, "a", 6⟩] ∧ tokenize (reindent "\uFEFF#! a" 0) = .ok [⟨.lineComment, "#! a", 0⟩] := by
  refine ⟨by decide, by cbv, by cbv⟩

lemma layoutOf_append_of_blank {g : List Token} (hg : ∀ b ∈ g, b.kind = .blank) :
    layoutOf l (g ++ tokens) = layoutOf l tokens := by
  have hl : linesFrom false [] (g ++ tokens) = linesFrom false [] tokens := by
    induction g with
    | nil => rfl
    | cons b g ih =>
      obtain ⟨hb, hg⟩ := forall_mem_cons.1 hg
      rw [cons_append, linesFrom_cons_blank hb, ih hg]
  rw [layoutOf, hl, layoutOf]

lemma layoutOf_laidTokens (h : Proper (tokens.map form)) (l : Nat) :
    layoutOf l (laidTokens l tokens) = layoutOf l tokens := by
  obtain ⟨lead, body, bs, -, -, -, ⟨-, hn⟩ | hl⟩ := h.exists_inLines
  · rw [laidTokens, hn, layoutOf, layoutOf, hn]
    rfl
  · rw [layoutOf, laidTokens, (hl.laid l []).linesFrom_eq, layoutOf]
    cases linesFrom false [] tokens with
    | nil => rfl
    | cons fst ls => simp only [laidLines, map_cons, layoutLine_laid, layoutLines_laid]

lemma trim_indentation_append (l : Nat) (text : String) : trim (indentation l ++ trim text) = trim text := by
  have hb := dropWhile_eq_nil_iff.1 (trimStartList_indentation l)
  have hb : ∀ c ∈ (indentation l).toList, isBlank c := fun c hc => hb c (mem_append_left _ hc)
  rw [trim, trim, toList_append, toList_ofList]
  rcases blank_or_append text.toList with ha | ⟨a, c, b, heq, hc⟩
  · rw [trimList_eq_nil.2 ha, append_nil, trimList_eq_nil.2 hb]
  · rw [heq, trimList_append hc, ← append_assoc, trimList_append hc, trimStartList, trimStartList,
      dropWhile_append_of_pos hb, dropWhile_idempotent, trimEndList_trimEndList]

lemma readsAs_gap_append_of_ne_mark {g r : List Char} {es : List Form} (hg : IsGap g)
    (hm : ∀ tl, r ≠ '#' :: '!' :: tl) : ReadsAs fresh slash (g ++ r) es ↔ ReadsAs false slash r es := by
  by_cases hn : g = []
  · rw [hn, nil_append]
    exact ⟨fun h => h.anywhere (.inl rfl) (.inr hm), fun h => h.anywhere (.inl rfl) (.inr hm)⟩
  · exact readsAs_gap_append hn hg

/-- **A layout is laid out as it is.** -/
theorem reindent_reindent (text : String) (hmark : ¬ ['#', '!'] <+: text.toList.dropWhile isGap) (level : Nat) :
    reindent (reindent text level) level = reindent text level := by
  cases h : tokenize text with
  | ok tokens =>
    obtain ⟨gap, laid, hgap, htokenize, hforms⟩ := exists_tokenize_reindent h hmark level
    rw [reindent_of_tokenize htokenize, reindent_of_tokenize h, ← gentle_bare.layoutOf, map_bare_of_map_form hforms,
      gentle_bare.layoutOf, layoutOf_append_of_blank hgap]
    exact layoutOf_laidTokens (tokenize_eq_ok_iff.1 ⟨tokens, h, rfl⟩).proper level
  | error fault =>
    have hfirst : reindent text level = indentation level ++ trim text := by rw [reindent, h]
    rw [hfirst]
    cases hagain : tokenize (indentation level ++ trim text) with
    | error fault => rw [reindent, hagain, trim_indentation_append]
    | ok tokens =>
      -- What can be read of the text without the white space around it can be read of the text.
      obtain ⟨g, g', hg, hg', htrim⟩ := exists_trim text
      rw [List.append_assoc] at htrim
      have hrest : ∀ tail, (trim text).toList ++ g' ≠ '#' :: '!' :: tail := fun tail => ne_mark hg (htrim ▸ hmark)
      have hcore : ∀ tail, (trim text).toList ≠ '#' :: '!' :: tail := fun tail heq => hrest (tail ++ g') (by rw [heq]; rfl)
      have hread : ReadsAs true true (indentation level ++ trim text).toList (essences (tokens.map Token.form)) :=
        ⟨_, tokenize_eq_ok_iff.1 ⟨tokens, hagain, rfl⟩, rfl⟩
      rw [toList_append, readsAs_gap_append_of_ne_mark (isGap_indentation level) hcore] at hread
      have hread := hread.append_gap hg'
      rw [← readsAs_gap_append_of_ne_mark hg hrest, ← htrim] at hread
      obtain ⟨fs, hfs, -⟩ := hread
      obtain ⟨tokens, htokens, -⟩ := tokenize_eq_ok_iff.2 hfs
      rw [h] at htokens
      cases htokens

theorem reindent_reindent_unread :
    reindent " `a\n b " 1 = "  `a\n b" ∧ reindent "  `a\n b" 1 = "  `a\n b" := by
  have hlayout : reindent " `a\n b " 1 = "  `a\n b" := by cbv
  have htwice := reindent_reindent " `a\n b " (by decide) 1
  rw [hlayout] at htwice
  exact ⟨hlayout, htwice⟩

/-- Behind a byte order mark a bracket opens, and without it the bracket belongs to a comment. -/
theorem reindent_reindent_mark : ¬ ['#', '!'] <+: "\uFEFF#!(\na".toList.dropWhile isBlank ∧
    reindent "\uFEFF#!(\na" 0 = "#!(\n  a" ∧ reindent (reindent "\uFEFF#!(\na" 0) 0 = "#!(\na" := by
  refine ⟨by decide, by cbv, by cbv⟩

end CustomElement.Script
