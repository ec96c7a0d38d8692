import CustomElement.Proofs.Script.Comments
import CustomElement.Proofs.Script.Forest

/-!
# Layout keeps the tokens

`reindent` cuts the tokens of a text into lines (`Proper.exists_inLines`) and puts every line behind an indentation of
its own. The layout is read as `laidTokens`, the tokens of the text but for blanks and the gaps in block comments
(`exists_laidOut`).
-/

namespace CustomElement.Script

open List Text

variable {slash fresh : Bool} {cs : List Char} {es : List Form} {line ts : List Token} {b t : Token} {x : String}
  {tokens : List Token} {f : Token → Token}

lemma flatMap_form (tokens : List Token) : (tokens.map form).flatMap Form.text = charsOf tokens := by
  rw [flatMap_map]
  rfl

/-- Blanks are gaps that stand apart, and every other token begins with ink. -/
structure Proper (fs : List Form) : Prop where
  blank : ∀ f ∈ fs, f.kind = .blank → f.text ≠ [] ∧ IsGap f.text
  ink : ∀ f ∈ fs, f.kind ≠ .blank → f.text ≠ [] ∧ StartsInk f.text
  apart : fs.IsChain fun f g => f.kind = .blank → g.kind ≠ .blank

namespace Proper

variable {f : Form} {fs : List Form}

lemma tail (h : Proper (f :: fs)) : Proper fs :=
  ⟨fun g hg => h.blank g (mem_cons_of_mem f hg), fun g hg => h.ink g (mem_cons_of_mem f hg), (isChain_cons.1 h.apart).2⟩

lemma text_ne_nil (h : Proper fs) (hf : f ∈ fs) : f.text ≠ [] := by
  by_cases hb : f.kind = .blank
  · exact (h.blank f hf hb).1
  · exact (h.ink f hf hb).1

lemma startsInk (h : Proper fs) (hf : (fs.map Form.kind).head? ≠ some .blank) : StartsInk (fs.flatMap Form.text) := by
  cases fs with
  | nil => rfl
  | cons g fs =>
    obtain ⟨hn, hin⟩ := h.ink g (by simp) (by simpa using hf)
    obtain ⟨c, a, ha⟩ := exists_cons_of_ne_nil hn
    rw [flatMap_cons, ha]
    rw [ha] at hin
    exact hin

end Proper

lemma Proper.isGap_charsOf (h : Proper (tokens.map form)) (hs : ts ⊆ tokens)
    (hts : ∀ t ∈ ts, t.kind = .blank) : IsGap (charsOf ts) := by
  intro c hc
  obtain ⟨t, ht, hc⟩ := mem_flatMap.1 hc
  exact (h.blank t.form (mem_map_of_mem (hs ht)) (hts t ht)).2 c hc

lemma Reads.proper {slash : Bool} {fs : List Form} (h : Reads fresh slash cs fs) : Proper fs := by
  induction h with
  | nil => exact ⟨by simp, by simp, .nil⟩
  | @cons fresh slash cs r f fs fst more ih =>
    refine ⟨forall_mem_cons.2 ⟨fun hb => ⟨fst.text_ne_nil, (fst.blank hb).1⟩, ih.blank⟩,
      forall_mem_cons.2 ⟨fun hb => ⟨fst.text_ne_nil, ?_⟩, ih.ink⟩, isChain_cons.2 ⟨?_, ih.apart⟩⟩
    · obtain ⟨c, a, ha, hc⟩ := fst.exists_cons hb
      simpa [StartsInk, ha] using hc
    · intro g hg hf hb
      obtain ⟨fs, rfl⟩ := head?_eq_some_iff.1 hg
      obtain ⟨hn, hga⟩ := ih.blank g (by simp) hb
      obtain ⟨c, a, ha⟩ := exists_cons_of_ne_nil hn
      have hin := (fst.blank hf).2
      rw [← more.flatMap_text, flatMap_cons, ha] at hin
      have hc : isGap c = false := by simpa [StartsInk] using hin
      rw [hga c (by simp [ha])] at hc
      cases hc

def OnLine (tokens : List Token) : Prop := ∀ t ∈ tokens, (t.kind == .blank && t.hasNewline) = false

/-- The tokens of a line: none at its ends is blank, and no line break stands between them. -/
structure IsLine (line : List Token) : Prop where
  ne_nil : line ≠ []
  first : (line.map Token.kind).head? ≠ some .blank
  last : (line.map Token.kind).getLast? ≠ some .blank
  onLine : OnLine line

/-- The tokens are those of the lines, with a line break before each line but the first. -/
inductive InLines : Bool → List Line → List Token → Prop
  | single {blank : Bool} {line : List Token} (hline : IsLine line) : InLines blank [⟨blank, line⟩] line
  | cons {blank : Bool} {line tokens : List Token} {lines : List Line} {b : Token} (hline : IsLine line)
      (hblank : b.kind = .blank) (hbreak : b.hasNewline = true) (more : InLines (2 ≤ b.newlines) lines tokens) :
      InLines blank (⟨blank, line⟩ :: lines) (line ++ b :: tokens)

lemma exists_last_code (ht : t ∈ tokens) (hk : t.kind ≠ .blank) :
    ∃ fr u bs, tokens = fr ++ u :: bs ∧ u.kind ≠ .blank ∧ ∀ b ∈ bs, b.kind = .blank := by
  induction tokens generalizing t with
  | nil => cases ht
  | cons v tokens ih =>
    by_cases hm : ∃ u ∈ tokens, u.kind ≠ .blank
    · obtain ⟨u, hu, hc⟩ := hm
      obtain ⟨fr, u, bs, rfl, hc, hbs⟩ := ih hu hc
      exact ⟨v :: fr, u, bs, rfl, hc, hbs⟩
    · have hbs : ∀ b ∈ tokens, b.kind = .blank := fun b hb => by_contra fun hc => hm ⟨b, hb, hc⟩
      rcases mem_cons.1 ht with rfl | ht
      · exact ⟨[], t, tokens, rfl, hk, hbs⟩
      · exact absurd (hbs t ht) hk

lemma dropTrailingBlanks_append (ht : t.kind ≠ .blank) (fr : List Token) {bs : List Token}
    (hbs : ∀ b ∈ bs, b.kind = .blank) : dropTrailingBlanks (fr ++ t :: bs) = fr ++ [t] := by
  have ha : ∀ b ∈ bs.reverse, (b.kind == .blank) := fun b hb => by simp [hbs b (mem_reverse.1 hb)]
  rw [dropTrailingBlanks, reverse_append, reverse_cons, append_assoc, dropWhile_append_of_pos ha,
    singleton_append, dropWhile_cons_of_neg (by simp [ht]), reverse_cons, reverse_reverse]

lemma exists_inLines (blank : Bool) (line tokens : List Token)
    (ha : (line.reverse ++ tokens).IsChain fun t u => t.kind = .blank → u.kind ≠ .blank) (hl : OnLine line)
    (hf : ((line.reverse ++ tokens).map Token.kind).head? ≠ some .blank) (hne : line.reverse ++ tokens ≠ []) :
    ∃ body bs, line.reverse ++ tokens = body ++ bs ∧ (∀ b ∈ bs, b.kind = .blank) ∧
      InLines blank (linesFrom blank line tokens) body := by
  fun_induction linesFrom blank line tokens with
  | case1 blank line hn => simp [isEmpty_iff.1 hn] at hne
  | case2 blank line hn =>
    rw [append_nil] at hf hne ⊢
    obtain ⟨t, r, hr⟩ := exists_cons_of_ne_nil hne
    have ht : t.kind ≠ .blank := by simpa [hr] using hf
    obtain ⟨fr, u, bs, hs, hu, hbs⟩ := exists_last_code (show t ∈ line.reverse by simp [hr]) ht
    refine ⟨fr ++ [u], bs, by simp [hs], hbs, ?_⟩
    rw [hs, dropTrailingBlanks_append hu fr hbs]
    refine .single ⟨by simp, ?_, by simpa using hu, fun v hv => hl v ?_⟩
    · rw [hs] at hf
      cases fr with
      | nil => simpa using hu
      | cons v fr => simpa using hf
    · rw [← mem_reverse, hs]
      rcases mem_append.1 hv with hv | hv
      · simp [hv]
      · simp [mem_singleton.1 hv]
  | case3 blank line t tokens hb hn ih =>
    rw [and_eq_true, beq_iff_eq] at hb
    simp [isEmpty_iff.1 hn, hb.1] at hf
  | case4 blank line t tokens hb hn ih =>
    rw [and_eq_true, beq_iff_eq] at hb
    obtain ⟨u, line, rfl⟩ := exists_cons_of_ne_nil (by simpa using hn)
    have hbe := ha.right_of_append
    -- The blank stands between two tokens that are not blank.
    have hu : u.kind ≠ .blank := by
      intro hu
      rw [reverse_cons, append_assoc, singleton_append] at ha
      exact (isChain_cons_cons.1 ha.right_of_append).1 hu hb.1
    have hisLine : IsLine (u :: line).reverse := by
      refine ⟨by simp, ?_, by simpa using hu, fun v hv => hl v (mem_reverse.1 hv)⟩
      rwa [map_append, head?_append_of_ne_nil _ (by simp)] at hf
    have hd : dropTrailingBlanks (u :: line).reverse = (u :: line).reverse := by
      rw [reverse_cons]
      exact dropTrailingBlanks_append hu line.reverse (by simp)
    rw [hd]
    by_cases hto : tokens = []
    · subst hto
      exact ⟨(u :: line).reverse, [t], rfl, by simpa using hb.1, .single hisLine⟩
    · obtain ⟨body, bs, heq, hbs, hm⟩ := ih (isChain_cons.1 hbe).2 (by simp [OnLine])
        (by simpa [hb.1] using (isChain_cons.1 hbe).1) hto
      rw [reverse_nil, nil_append] at heq
      exact ⟨(u :: line).reverse ++ t :: body, bs, by rw [heq, append_assoc, cons_append], hbs, .cons hisLine hb.1 hb.2 hm⟩
  | case5 blank line t tokens hb hbl ih =>
    rw [and_eq_true, beq_iff_eq] at hbl
    simp [isEmpty_iff.1 hbl.2, hbl.1] at hf
  | case6 blank line t tokens hb hbl ih =>
    have hs : (t :: line).reverse ++ tokens = line.reverse ++ t :: tokens := by simp
    rw [hs] at ih
    exact ih ha (forall_mem_cons.2 ⟨of_not_eq_true hb, hl⟩) hf hne

lemma linesFrom_cons_blank (hb : b.kind = .blank) (blank : Bool) (tokens : List Token) :
    linesFrom blank [] (b :: tokens) = linesFrom blank [] tokens := by
  simp [linesFrom, hb]

lemma Proper.exists_inLines (h : Proper (tokens.map form)) :
    ∃ lead body bs, tokens = lead ++ (body ++ bs) ∧ (∀ b ∈ lead, b.kind = .blank) ∧ (∀ b ∈ bs, b.kind = .blank) ∧
      (body = [] ∧ linesFrom false [] tokens = [] ∨ InLines false (linesFrom false [] tokens) body) := by
  induction tokens with
  | nil => exact ⟨[], [], [], rfl, by simp, by simp, .inl ⟨rfl, rfl⟩⟩
  | cons t tokens ih =>
    by_cases ht : t.kind = .blank
    · obtain ⟨lead, body, bs, heq, hle, hb, hl⟩ := ih h.tail
      rw [linesFrom_cons_blank ht]
      exact ⟨t :: lead, body, bs, by rw [heq]; rfl, forall_mem_cons.2 ⟨ht, hle⟩, hb, hl⟩
    · obtain ⟨body, bs, heq, hb, hl⟩ := Script.exists_inLines false [] (t :: tokens)
        ((isChain_map form).1 h.apart) (by simp [OnLine]) (by simpa using ht) (by simp)
      exact ⟨[], body, bs, heq, by simp, hb, .inr hl⟩

def laidChars (level : Nat) (t : Token) : List Char :=
  if t.kind == .blockComment && t.hasNewline then (alignComment (indentation level) t.text).toList
  else t.text.toList

lemma laidChars_of_isCloser {l : Nat} (h : t.isCloser) : laidChars l t = t.text.toList := by
  have hk : t.kind = .punct := by
    simp only [Token.isCloser, and_eq_true, beq_iff_eq] at h
    exact h.1
  simp [laidChars, hk]

def lineLevel (base : Nat) (stack : List Nat) (line : List Token) : Nat :=
  let closers := (line.takeWhile Token.isCloser).length
  match (stack.take closers).getLast? with
  | some level => level
  | none =>
    let inner := match (stack.drop closers).head? with
      | some level => level + 1
      | none => base
    if line.head?.any fun t => t.kind == .punct && continuations.contains t.text then inner + 1
    else inner

lemma layoutLine_toList (base : Nat) (st : List Nat) (line : List Token) :
    (layoutLine base st line).1.toList = (indentation (lineLevel base st line)).toList ++
      line.flatMap (laidChars (lineLevel base st line)) := by
  generalize hl : lineLevel base st line = l
  have hc : (line.takeWhile Token.isCloser).flatMap (laidChars l) =
      (line.takeWhile Token.isCloser).flatMap fun t => t.text.toList := by
    rw [flatMap_def, flatMap_def, map_congr_left fun t ht => laidChars_of_isCloser (mem_takeWhile_imp ht)]
  have hli : line.flatMap (laidChars l) = (line.takeWhile Token.isCloser).flatMap
      (fun t => t.text.toList) ++ (line.dropWhile Token.isCloser).flatMap (laidChars l) := by
    rw [← hc, ← flatMap_append, takeWhile_append_dropWhile]
  rw [hli, ← hl]
  simp only [layoutLine, toList_append, toList_join, flatMap_map, append_assoc]
  congr 3
  funext t
  simp only [laidChars, apply_ite String.toList]
  rfl

lemma openLevels_map (ho : ∀ t, (f t).isOpener = t.isOpener)
    (hc : ∀ t, (f t).isCloser = t.isCloser) (l : Nat) (st : List Nat) (tokens : List Token) :
    openLevels l st (tokens.map f) = openLevels l st tokens := by
  induction tokens generalizing st with
  | nil => rfl
  | cons t tokens ih => simp only [map_cons, openLevels, ho, hc, ih]

lemma layoutLine_map (hk : ∀ t, (f t).kind = t.kind)
    (hte : ∀ t, t.kind = .punct → (f t).text = t.text) (base : Nat) (st : List Nat)
    (hla : ∀ t ∈ line, laidChars (lineLevel base st line) (f t) = laidChars (lineLevel base st line) t) :
    layoutLine base st (line.map f) = layoutLine base st line := by
  have hp : ∀ (p : String → Bool) t, ((f t).kind == .punct && p (f t).text) = (t.kind == .punct && p t.text) := by
    intro p t
    by_cases ht : t.kind = .punct
    · rw [hk, hte t ht]
    · rw [hk, beq_false_of_ne ht, Bool.false_and, Bool.false_and]
  have hc : ∀ t, (f t).isCloser = t.isCloser := hp fun s => s == ")" || s == "]" || s == closeBrace
  have ho : ∀ t, (f t).isOpener = t.isOpener := hp fun s => s == "(" || s == "[" || s == openBrace
  have hta : (line.map f).takeWhile Token.isCloser = (line.takeWhile Token.isCloser).map f := by
    rw [takeWhile_map, show Token.isCloser ∘ f = Token.isCloser from funext hc]
  have hd : (line.map f).dropWhile Token.isCloser = (line.dropWhile Token.isCloser).map f := by
    rw [dropWhile_map, show Token.isCloser ∘ f = Token.isCloser from funext hc]
  have hl : lineLevel base st (line.map f) = lineLevel base st line := by
    have hm : (line.map f).head?.any (fun t => t.kind == .punct && continuations.contains t.text) =
        line.head?.any fun t => t.kind == .punct && continuations.contains t.text := by
      rw [head?_map, Option.any_map]
      congr 1
      exact funext (hp continuations.contains)
    simp only [lineLevel, hta, length_map, hm]
  refine Prod.ext ?_ ?_
  · rw [← toList_inj, layoutLine_toList, layoutLine_toList, hl, flatMap_map, flatMap_def, flatMap_def, map_congr_left hla]
  · change openLevels (lineLevel base st (line.map f)) _ ((line.map f).dropWhile Token.isCloser) =
      openLevels (lineLevel base st line) _ (line.dropWhile Token.isCloser)
    rw [hl, hd, hta, length_map, openLevels_map ho hc]

def Token.laid (level : Nat) (t : Token) : Token := ⟨t.kind, String.ofList (laidChars level t), 0⟩

def lineGap (blankLine : Bool) : List Char := if blankLine then ['\n', '\n'] else ['\n']

def breakToken (blankLine : Bool) (level : Nat) : Token :=
  ⟨.blank, String.ofList (lineGap blankLine ++ (indentation level).toList), 0⟩

def laidLines (base : Nat) : List Nat → List Line → List (Nat × Line)
  | _, [] => []
  | stack, line :: lines =>
    let level := lineLevel base stack line.tokens
    (level, ⟨line.blankBefore, line.tokens.map (Token.laid level)⟩) ::
      laidLines base (layoutLine base stack line.tokens).2 lines

def tokensBelow (lines : List (Nat × Line)) : List Token :=
  lines.flatMap fun line => breakToken line.2.blankBefore line.1 :: line.2.tokens

def laidTokens (level : Nat) (tokens : List Token) : List Token :=
  (tokensBelow (laidLines level [] (linesFrom false [] tokens))).tail

lemma charsOf_map_laid (l : Nat) (line : List Token) : charsOf (line.map (Token.laid l)) = line.flatMap (laidChars l) := by
  simp [charsOf, flatMap_map, Token.laid]

lemma layoutLines_toList (base : Nat) (st : List Nat) (lines : List Line) :
    (layoutLines base st lines).toList = charsOf (tokensBelow (laidLines base st lines)) := by
  induction lines generalizing st with
  | nil => rfl
  | cons line lines ih =>
    have hm := ih (layoutLine base st line.tokens).2
    rw [layoutLines, laidLines, tokensBelow, flatMap_cons, charsOf_append, charsOf_cons, charsOf_map_laid]
    simp only [toList_append, layoutLine_toList, hm, breakToken, toList_ofList, tokensBelow, lineGap]
    cases line.blankBefore <;> simp

def layoutOf (level : Nat) (tokens : List Token) : String :=
  match linesFrom false [] tokens with
  | [] => ""
  | first :: lines =>
    (layoutLine level [] first.tokens).1 ++ layoutLines level (layoutLine level [] first.tokens).2 lines

lemma reindent_of_tokenize (h : tokenize x = .ok tokens) (l : Nat) : reindent x l = layoutOf l tokens := by
  rw [reindent, h]
  rfl

lemma exists_layoutOf (l : Nat) (tokens : List Token) :
    ∃ n, (layoutOf l tokens).toList = (indentation n).toList ++ charsOf (laidTokens l tokens) := by
  rw [layoutOf, laidTokens]
  cases linesFrom false [] tokens with
  | nil => exact ⟨0, rfl⟩
  | cons fst lines =>
    refine ⟨lineLevel l [] fst.tokens, ?_⟩
    simp only [toList_append, layoutLine_toList, layoutLines_toList, laidLines, tokensBelow, flatMap_cons,
      cons_append, tail_cons, charsOf_append, charsOf_map_laid, append_assoc]

/-- The tokens `us` are read in the place of `ts`, with other gaps around line breaks. -/
structure LaidOut (fresh slash : Bool) (ts us : List Token) : Prop where
  reads : Reads fresh slash (charsOf us) (us.map form)
  essences : essences (us.map form) = essences (ts.map form)
  kinds : us.map Token.kind = ts.map Token.kind
  respaced : Respaced (charsOf ts) (charsOf us)

lemma restated_line (h : Reads fresh slash cs (line.map form)) (l : Nat) :
    Forall₂ Restated (line.map form) ((line.map (Token.laid l)).map form) := by
  induction line generalizing fresh slash cs with
  | nil => exact .nil
  | cons t line ih =>
    rw [map_cons] at h
    obtain ⟨r, fst, more⟩ := h.uncons
    refine .cons ?_ (ih more)
    rw [Token.laid, Token.form_mk]
    by_cases ht : (t.kind == .blockComment && t.hasNewline)
    · have hk : t.kind = .blockComment := by
        rw [and_eq_true, beq_iff_eq] at ht
        exact ht.1
      obtain ⟨body, hb, hc⟩ := fst.blockComment hk
      obtain ⟨body', hb', hs⟩ := exists_alignComment l hb hc
      have hf : t.form = ⟨.blockComment, '/' :: '*' :: body⟩ := by
        rw [form, hk, ← show t.text.toList = _ from hb]
      rw [hf, laidChars, if_pos ht, hk, hb']
      exact .comment hs
    · rw [laidChars, if_neg ht]
      exact .refl t.form

lemma Reads.laid (h : Reads fresh slash cs (line.map form)) (l : Nat) :
    LaidOut fresh slash line (line.map (Token.laid l)) := by
  have hr := restated_line h l
  obtain ⟨hre, he⟩ := h.restated hr
  have hs := respaced_of_restated hr
  rw [flatMap_form] at hre hs
  rw [flatMap_form] at hs
  exact ⟨hre, he, by rw [map_map]; rfl, hs⟩

lemma breakToken_subset (blankLine : Bool) (l : Nat) : (breakToken blankLine l).text.toList ⊆ layoutChars := by
  rw [breakToken, toList_ofList]
  refine append_subset.2 ⟨?_, indentation_subset l⟩
  cases blankLine <;> simp [lineGap]

lemma newlines_breakToken (blankLine : Bool) (l : Nat) :
    (breakToken blankLine l).newlines = if blankLine then 2 else 1 := by
  rw [Token.newlines, breakToken, toList_ofList, count_append, count_eq_zero.2 (not_mem_indentation l), lineGap]
  cases blankLine <;> rfl

lemma crease_breakToken (hb : b.hasNewline) (l : Nat) :
    crease (breakToken (2 ≤ b.newlines) l).text.toList = crease b.text.toList := by
  have hm : '\n' ∈ b.text.toList := by simpa [Token.hasNewline] using hb
  have hc := newlines_breakToken (2 ≤ b.newlines) l
  have hm' : '\n' ∈ (breakToken (2 ≤ b.newlines) l).text.toList := by
    rw [← count_pos_iff, ← Token.newlines, hc]
    split <;> omega
  rw [crease, crease, if_pos hm, if_pos hm', ← Token.newlines, ← Token.newlines, hc]
  by_cases ht : 2 ≤ b.newlines <;> simp [ht]

lemma LaidOut.startsInk {us : List Token} (h : LaidOut fresh slash ts us)
    (hf : (ts.map Token.kind).head? ≠ some .blank) : StartsInk (charsOf us) := by
  rw [← flatMap_form]
  refine h.reads.proper.startsInk ?_
  rwa [map_map, show Form.kind ∘ form = Token.kind from rfl, h.kinds]

lemma LaidOut.append {us ts' us' : List Token} (h : LaidOut fresh slash ts us) (hl : IsLine ts)
    (hb : b.kind = .blank) (hg : IsGap b.text.toList) (hbr : b.hasNewline)
    (hfi : (ts'.map Token.kind).head? ≠ some .blank)
    (hm : LaidOut false (slashThrough slash (ts.map form)) ts' us') (l : Nat) :
    LaidOut fresh slash (ts ++ b :: ts') (us ++ breakToken (2 ≤ b.newlines) l :: us') := by
  have hn : us ≠ [] := by
    rintro rfl
    exact hl.ne_nil (map_eq_nil_iff.1 h.kinds.symm)
  have hs : slashThrough slash (us.map form) = slashThrough slash (ts.map form) := by
    rw [← slashThrough_essences, h.essences, slashThrough_essences]
  refine ⟨?_, ?_, ?_, ?_⟩
  · obtain ⟨gap, hfo⟩ : ∃ gap, (breakToken (2 ≤ b.newlines) l).text.toList = '\n' :: gap := by
      rw [breakToken, toList_ofList, lineGap]
      split <;> exact ⟨_, rfl⟩
    have hle : Lexes false (slashThrough slash (ts.map form)) _ _ _ := lexes_blank (by simp [hfo])
      (isGap_of_subset (breakToken_subset (2 ≤ b.newlines) l)) (hm.startsInk hfi)
    have hbe := Reads.cons hle (by simpa [slashNext, Form.isTrivia] using hm.reads)
    rw [charsOf_append, charsOf_cons, map_append, map_cons]
    refine h.reads.append ?_ (by simp [hfo]; decide) fun f hf => ⟨fun _ => by rw [hfo]; rfl, fun hbl => ?_⟩
    · rw [hs, isEmpty_map, isEmpty_eq_false_iff.2 hn, Bool.and_false]
      exact hbe
    · refine absurd ?_ hl.last
      rw [← h.kinds, ← hbl, ← map_some, ← Option.mem_def.1 hf, getLast?_map, getLast?_map, Option.map_map]
      rfl
  · rw [map_append, map_cons, essences_append, h.essences, essences_cons_blank rfl, hm.essences,
      map_append, map_cons, essences_append, essences_cons_blank hb]
  · simp [h.kinds, hm.kinds, hb, breakToken]
  · rw [charsOf_append, charsOf_append, charsOf_cons, charsOf_cons]
    exact h.respaced.append (.gap hg (breakToken_subset _ l) (by simpa [Token.hasNewline] using hbr)
      (crease_breakToken hbr l) hm.respaced)

section InLines

variable {blank : Bool} {lines : List Line} {tokens : List Token}

section

variable (h : InLines blank lines tokens)

include h

lemma InLines.ne_nil : tokens ≠ [] := by
  cases h with
  | single hl => exact hl.ne_nil
  | cons hl hb hbr more => simp

lemma InLines.first : (tokens.map Token.kind).head? ≠ some .blank := by
  cases h with
  | single hl => exact hl.first
  | cons hl hb hbr more =>
    rw [map_append, head?_append_of_ne_nil _ (by simpa using hl.ne_nil)]
    exact hl.first

lemma InLines.last : (tokens.map Token.kind).getLast? ≠ some .blank := by
  induction h with
  | single hl => exact hl.last
  | cons hl hb hbr more ih =>
    rw [map_append, map_cons, getLast?_append_of_ne_nil _ (by simp), getLast?_cons_of_ne_nil (by simpa using more.ne_nil)]
    exact ih

lemma InLines.exists_breakToken (base : Nat) (st : List Nat) :
    ∃ l, tokensBelow (laidLines base st lines) = breakToken blank l :: (tokensBelow (laidLines base st lines)).tail := by
  cases h <;> exact ⟨_, rfl⟩

lemma InLines.laidOut (hr : Reads fresh slash cs (tokens.map form))
    (base : Nat) (st : List Nat) : LaidOut fresh slash tokens (tokensBelow (laidLines base st lines)).tail := by
  induction h generalizing fresh slash cs st with
  | single hl => simpa [laidLines, tokensBelow] using hr.laid _
  | @cons blank line tokens lines b hl hb hbr more ih =>
    have hg := (hr.proper.blank b.form (by simp) hb).2
    rw [map_append, map_cons] at hr
    obtain ⟨hf, hre⟩ := hr.split
    obtain ⟨r, -, hm⟩ := hre.uncons
    rw [show b.form.slashNext _ = _ by simp [slashNext, Form.isTrivia, form, hb]; rfl] at hm
    have hbe := ih hm (layoutLine base st line).2
    have ha := fun l => (hf.laid (lineLevel base st line)).append hl hb hg hbr more.first hbe l
    obtain ⟨l, heq⟩ := more.exists_breakToken base (layoutLine base st line).2
    rw [laidLines, tokensBelow, flatMap_cons, cons_append, tail_cons, ← tokensBelow, heq]
    exact ha l

end

end InLines

lemma essences_blanks (h : ∀ t ∈ tokens, t.kind = .blank) : essences (tokens.map form) = [] := by
  rw [essences, map_eq_nil_iff, filter_eq_nil_iff]
  intro f hf
  obtain ⟨t, ht, rfl⟩ := mem_map.1 hf
  simpa [form] using h t ht

/-- **Layout keeps the tokens.** The layout of a text is read as its own tokens, which stand for those of the text. -/
lemma exists_laidOut (h : tokenize x = .ok tokens) (l : Nat) :
    ∃ lead body bs, tokens = lead ++ (body ++ bs) ∧ (∀ b ∈ lead, b.kind = .blank) ∧ (∀ b ∈ bs, b.kind = .blank) ∧
      (body.map Token.kind).head? ≠ some .blank ∧ (body.map Token.kind).getLast? ≠ some .blank ∧
      (body = [] → layoutOf l tokens = "") ∧ LaidOut lead.isEmpty true body (laidTokens l tokens) := by
  have hr := tokenize_eq_ok_iff.1 ⟨tokens, h, rfl⟩
  obtain ⟨lead, body, bs, heq, hle, hb, hl⟩ := hr.proper.exists_inLines
  refine ⟨lead, body, bs, heq, hle, hb, ?_⟩
  rw [laidTokens]
  rcases hl with ⟨rfl, hn⟩ | hl
  · rw [layoutOf, hn]
    exact ⟨by simp, by simp, fun _ => rfl, .nil _ _, rfl, rfl, .nil⟩
  · rw [heq, map_append, map_append] at hr
    have hre := hr.split.2
    rw [← slashThrough_essences, essences_blanks hle, Bool.true_and, isEmpty_map] at hre
    exact ⟨hl.first, hl.last, (absurd · hl.ne_nil), hl.laidOut hre.split.1 l []⟩

lemma exists_readsAs_reindent (h : tokenize x = .ok tokens) (l : Nat) :
    ∃ fresh g out, (reindent x l).toList = g ++ out ∧ IsGap g ∧ ReadsAs fresh true out (essences (tokens.map form)) := by
  obtain ⟨lead, body, bs, heq, hle, hb, -, -, -, hla⟩ := exists_laidOut h l
  obtain ⟨n, hl⟩ := exists_layoutOf l tokens
  refine ⟨_, _, _, reindent_of_tokenize h l ▸ hl, isGap_indentation n, _, hla.reads, ?_⟩
  rw [hla.essences, heq, map_append, map_append, essences_append, essences_append, essences_blanks hle,
    essences_blanks hb, nil_append, append_nil]

lemma ink_reindent (x : String) (l : Nat) : ink (reindent x l).toList = ink x.toList := by
  cases h : tokenize x with
  | error fault =>
    rw [reindent, h]
    simp only [toList_append, ink_append, (isGap_indentation l).ink, nil_append]
    obtain ⟨g, g', hg, hg', ht⟩ := exists_trim x
    rw [ht, ink_append, ink_append, hg.ink, hg'.ink, nil_append, append_nil]
  | ok tokens =>
    obtain ⟨fresh, g, out, hl, hg, hr⟩ := exists_readsAs_reindent h l
    have hte : ReadsAs true true x.toList (essences (tokens.map form)) := ⟨_, tokenize_eq_ok_iff.1 ⟨tokens, h, rfl⟩, rfl⟩
    rw [hl, ink_append, hg.ink, nil_append, hr.ink_eq, hte.ink_eq]

lemma lastLineInked_reindent (h : tokenize x = .ok tokens) (l : Nat) :
    (reindent x l).toList = [] ∨ LastLineInked (reindent x l).toList := by
  obtain ⟨lead, body, bs, -, -, -, -, hls, hni, hla⟩ := exists_laidOut h l
  rw [reindent_of_tokenize h]
  by_cases hb : body = []
  · exact .inl (by rw [hni hb]; rfl)
  · obtain ⟨n, hl⟩ := exists_layoutOf l tokens
    have hk : ((laidTokens l tokens).map form).map Form.kind = body.map Token.kind := by
      rw [map_map]
      exact hla.kinds
    rw [hl]
    refine .inr ((hla.reads.lastLineInked ?_ (hk ▸ hls)).append_left _)
    intro hn
    rw [hn] at hk
    exact hb (map_eq_nil_iff.1 hk.symm)

def Form.isNumberSign (f : Form) : Bool :=
  f.text.head? == some '#' && (f.kind == .lineComment || f.text == ['#'])

lemma openingKind_numberSign (fresh slash : Bool) (next : Option Char) :
    openingKind fresh slash '#' next = .lineComment ∨ openingKind fresh slash '#' next = .word := by
  have hg : isGap '#' = false := by decide
  have hs : isWordStart '#' := by decide
  have hd : '#'.isDigit = false := by decide
  by_cases hb : fresh ∧ next = some '!'
  · simp [openingKind, hg, hb]
  · simp only [openingKind, hg, hs, hd]
    simp [hb]

lemma ReadsAs.isNumberSign {slash : Bool} (h : ReadsAs fresh slash cs es) {v : List Char}
    (hin : ink cs = '#' :: '!' :: v) : es.head?.any Form.isNumberSign := by
  have he := h.ink_eq
  rw [hin] at he
  obtain ⟨fs, hfs, rfl⟩ := h
  cases hcu : essences fs with
  | nil => simp [hcu] at he
  | cons e es =>
    obtain ⟨bs, f, gs, rfl, -, hf, -⟩ := exists_cons_of_essences hcu
    obtain ⟨r, fst, -⟩ := hfs.split.2.uncons
    have hbl : f.kind ≠ .blank := fun hbl => by simp [essences_cons_blank hbl] at hf
    obtain rfl : f.essence = e := by simpa [essences_cons hbl] using hf
    obtain ⟨c, a, ha, hc⟩ := fst.exists_cons hbl
    rw [hcu, flatMap_cons, f.ink_essence, ha, ink_cons_of_not_gap hc, cons_append] at he
    obtain ⟨rfl, hm⟩ := cons.inj he
    have ht : f.kind ≠ .template := by
      intro hk
      obtain ⟨b, hb, -⟩ := fst.getLast?_template hk
      simp [hb] at ha
    obtain ⟨d, b, hb, hk, hbo⟩ := fst.exists_body ht
    obtain ⟨rfl, rfl⟩ := cons.inj (ha.symm.trans hb)
    simp only [head?_cons, any_some]
    have ho := openingKind_numberSign (fresh && bs.isEmpty) (slashThrough slash bs) (a ++ r).head?
    rw [hk] at ho
    rcases ho with hl | hw
    · simp [Form.isNumberSign, essence, hl, ha, ink_cons_of_not_gap hc]
    · have hco : f.isTrivia = false := by simp [Form.isTrivia, hw]
      rw [Form.essence_of_code hco, Form.isNumberSign, ha]
      cases a with
      | nil => simp
      | cons d a =>
        -- No exclamation mark is part of a word.
        rw [hw] at hbo
        have hp : isWordPart d := all_eq_true.1 (while_body hbo).1 d (by simp)
        have hd : isGap d = false := by
          by_contra hg
          rw [isWordPart_of_isGap (of_not_eq_false hg)] at hp
          cases hp
        rw [ink_cons_of_not_gap hd] at hm
        obtain ⟨rfl, -⟩ := cons.inj hm
        exact absurd hp (by decide)

lemma ReadsAs.elsewhere {x : List Char} {slash fresh' slash' : Bool} (h : ReadsAs fresh slash x es)
    (hsi : es.head?.any Form.isNumberSign = false) (hs : slash' = slash ∨
      (es.find? fun e => !e.isTrivia).all (fun e => e.text.head? != some '/')) : ReadsAs fresh' slash' x es := by
  refine h.anywhere hs (.inr ?_)
  rintro tl rfl
  have hm : isGap '#' = false ∧ isGap '!' = false := by decide
  have ha := h.isNumberSign (v := ink tl) (by
    rw [ink_cons_of_not_gap hm.1, ink_cons_of_not_gap hm.2])
  rw [hsi] at ha
  cases ha

/-- **Layout keeps what is read**, where the text does not begin with a number sign or with a slash that could be read in
two ways. -/
lemma readsAs_reindent_iff {l : Nat} {slash : Bool} (hs : es.head?.any Form.isNumberSign = false) (hsl : slash ∨
      (es.find? fun e => !e.isTrivia).all (fun e => e.text.head? != some '/')) :
    ReadsAs fresh slash (reindent x l).toList es ↔ ReadsAs true true x.toList es := by
  constructor
  · intro h
    have h : ReadsAs false true (reindent x l).toList es := h.elsewhere hs (hsl.imp_left Eq.symm)
    cases ht : tokenize x with
    | error fault =>
      -- The text was only moved as a whole.
      obtain ⟨g, g', hg, hg', htr⟩ := exists_trim x
      rw [reindent, ht] at h
      simp only [toList_append] at h
      rw [readsAs_gap_append_iff (isGap_indentation l)] at h
      rw [htr, append_assoc]
      exact ((readsAs_gap_append_iff hg).2 (h.append_gap hg')).elsewhere hs (.inl rfl)
    | ok tokens =>
      obtain ⟨fresh', g, out, hl, hg, hr⟩ := exists_readsAs_reindent ht l
      rw [hl, readsAs_gap_append_iff hg] at h
      rw [hr.unique (h.elsewhere hs (.inl rfl))]
      exact ⟨_, tokenize_eq_ok_iff.1 ⟨tokens, ht, rfl⟩, rfl⟩
  · rintro ⟨fs, hf, rfl⟩
    obtain ⟨tokens, ht, rfl⟩ := tokenize_eq_ok_iff.2 hf
    obtain ⟨fresh', g, out, hl, hg, hr⟩ := exists_readsAs_reindent ht l
    have ho : ReadsAs false true out _ := hr.elsewhere hs (.inl rfl)
    rw [hl]
    exact ((readsAs_gap_append_iff hg).2 ho).elsewhere hs hsl

end CustomElement.Script
