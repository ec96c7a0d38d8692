import CustomElement.Proofs.Script.Layout

/-!
# Brackets between texts

A line break between two texts keeps the tokens of both apart (`readsAs_append_break_iff`), and so does a bracket,
unless the first text ends with a line comment and the bracket stands in its line (`readsAs_append_neutral_iff`).
-/

namespace CustomElement.Script

open List Text

variable {fresh slash : Bool} {c : Char} {cs x y : List Char} {A : List Form} {tx : String}

def EndsInComment (es : List Form) : Prop := es.getLast?.any (fun e => e.kind == .lineComment) = true

lemma ReadsAs.exists_break (h : ReadsAs fresh slash x A) (hl : EndsInComment A) (hx : endsInLine x = false) :
    ∃ x' g, x = x' ++ g ∧ IsGap g ∧ g ≠ [] ∧ g.head?.all isLineEnd ∧ ReadsAs fresh slash x' A := by
  obtain ⟨e, he, hk⟩ := (Option.any_eq_true _ _).1 hl
  obtain ⟨A, rfl⟩ := getLast?_eq_some_iff.1 he
  obtain ⟨fs, hfs, hes⟩ := h
  obtain ⟨fs, gs, rfl, rfl, hg⟩ := exists_append_of_essences hes
  obtain ⟨bs, f, gs, rfl, hbs, hf, hn⟩ := exists_cons_of_essences hg
  have hb : f.kind ≠ .blank := fun hb => by simp [essences_cons_blank hb] at hf
  have hli : f.kind = .lineComment := by
    rw [essences_cons hb] at hf
    rw [← f.kind_essence, (cons.inj hf).1]
    simpa using hk
  have hs : fs ++ (bs ++ f :: gs) = (fs ++ bs ++ [f]) ++ gs := by simp
  obtain ⟨r, fst, more⟩ := hfs.split.2.split.2.uncons
  rw [hs] at hfs
  obtain ⟨hfr, hba⟩ := hfs.split
  refine ⟨(fs ++ bs ++ [f]).flatMap Form.text, gs.flatMap Form.text, ?_, ?_, ?_, ?_, _, hfr, ?_⟩
  · rw [← flatMap_append, hfs.flatMap_text]
  · have hik := ReadsAs.ink_eq ⟨gs, hba, hn⟩
    exact isGap_of_ink hik
  · intro hem
    have hin := (hfr.lastLineInked (by simp) (by simpa using hb)).endsInLine
    rw [← append_nil (flatMap _ _), ← hem, ← flatMap_append, hfs.flatMap_text, hx] at hin
    cases hin
  · rw [more.flatMap_text]
    exact (fst.lineComment hli).2.2
  · simp [hbs, hf]

lemma readsAs_append_break_iff {B : List Form} (hin : ink x = A.flatMap fun e => ink e.text) (hy : y.head?.all isLineEnd) :
    ReadsAs fresh slash (x ++ y) (A ++ B) ↔
      ReadsAs fresh slash x A ∧ ReadsAs (fresh && x.isEmpty) (slashThrough slash A) y B := by
  refine ⟨fun h => h.split hin, fun ⟨hx, hb⟩ => hx.append hb ?_ fun _ => hy⟩
  cases y with
  | nil => rfl
  | cons c y => exact isNeutral_of_isGap (isGap_of_isLineEnd hy)

lemma readsAs_append_neutral_iff {B : List Form} (hin : ink x = A.flatMap fun e => ink e.text)
    (hc : isNeutral c) (hga : isGap c = false) : ReadsAs fresh slash (x ++ c :: y) (A ++ B) ↔
      ReadsAs fresh slash x A ∧ ReadsAs (fresh && x.isEmpty) (slashThrough slash A) (c :: y) B ∧
        ¬ (EndsInComment A ∧ endsInLine x) := by
  constructor
  · intro h
    obtain ⟨hx, hy⟩ := h.split hin
    refine ⟨hx, hy, fun ⟨hco, hl⟩ => ?_⟩
    have hn := h.not_lineComment hin hl hga
    rw [show A.getLast?.any (fun e => e.kind == .lineComment) from hco] at hn
    cases hn
  · rintro ⟨hx, hy, hs⟩
    by_cases hco : EndsInComment A
    · -- The line of the comment ends in `x`, so `x` is cut there.
      obtain ⟨x', g, rfl, hg, hne, he, hx'⟩ := hx.exists_break hco
        (of_not_eq_true fun hl => hs ⟨hco, hl⟩)
      rw [isEmpty_append_of_ne_nil _ hne, Bool.and_false] at hy
      rw [append_assoc]
      obtain ⟨d, g, rfl⟩ := exists_cons_of_ne_nil hne
      refine hx'.append ((readsAs_gap_append hne hg).2 hy) ?_ fun _ => he
      exact isNeutral_of_isGap (isGap_of_isLineEnd he)
    · exact hx.append hy hc fun h => absurd h hco

lemma punctExtent_eq_zero {v : List Char} (h : ∀ p ∈ punctuators, ∀ w, p.toList = c :: w → ¬ w <+: v) :
    punctExtent c v = 0 := by
  have hn : punctuators.find? (fitsAt c v) = none := by
    rw [find?_eq_none]
    intro p hp hf
    simp only [fitsAt, and_eq_true, isPrefixOf_iff_prefix] at hf
    have hpo : ∀ p ∈ punctuators, p.toList ≠ [] := by decide
    obtain ⟨d, w, hd⟩ := exists_cons_of_ne_nil (hpo p hp)
    rw [hd, cons_prefix_cons] at hf
    obtain ⟨⟨rfl, hw⟩, -⟩ := hf
    exact h p hp w hd hw
  rw [punctExtent_eq, hn]

lemma lexes_single (hc : c ∈ ['(', ')', '\x7b', '\x7d', ',', ';']) (y : List Char) :
    Lexes fresh slash (c :: y) ⟨.punct, [c]⟩ y := by
  obtain ⟨hg, hs, hsi, hdo, hqu, hq, hd, hwo, ht, hm⟩ : isGap c = false ∧ c ≠ '/' ∧
      c ≠ '#' ∧ c ≠ '.' ∧ c ≠ '\'' ∧ c ≠ '"' ∧ c.isDigit = false ∧ isWordStart c = false ∧ c ≠ '`' ∧
      isMark c = false := by
    simp only [mem_cons, not_mem_nil, or_false] at hc
    rcases hc with rfl | rfl | rfl | rfl | rfl | rfl <;> decide
  have he : punctExtent c y = 0 := punctExtent_eq_zero fun p hp w hw _ =>
    absurd (any_eq_false.1 hm p hp) (by simp [hw])
  refine (lexes_plain_iff ht).2 ⟨?_, by simp [bodyOf, he]⟩
  simp [openingKind, hg, hs, hsi, hdo, hqu, hq, hd, hwo]

lemma lexes_bracket (hc : c ∈ ['(', ')', '\x7b', '\x7d']) (y : List Char) : Lexes fresh slash (c :: y) ⟨.punct, [c]⟩ y :=
  lexes_single (mem_append_left [',', ';'] hc) y

/-- The text is read as one word. A byte order mark is blank. -/
def isName (word : String) : Bool :=
  match word.toList with
  | [] => false
  | c :: cs => isWordStart c && !isGap c && cs.all isWordPart

lemma isName_iff {w : String} : isName w ↔
    ∃ c cs, w.toList = c :: cs ∧ isWordStart c ∧ isGap c = false ∧ cs.all isWordPart := by
  unfold isName
  cases w.toList with
  | nil => simp
  | cons c cs => simp [and_assoc]

lemma isDigit_of_isWordStart (h : isWordStart c) : c.isDigit = false := by
  by_contra hd
  obtain ⟨hl, hh⟩ : 48 ≤ c.toNat ∧ c.toNat ≤ 57 := by
    simp only [Bool.not_eq_false, Char.isDigit, Bool.and_eq_true, decide_eq_true_eq, ge_iff_le, UInt32.le_iff_toNat_le]
      at hd
    exact hd
  have hdi : ∀ n ∈ range' 48 10, isWordStart (Char.ofNat n) = false := by decide
  have hc := hdi c.toNat (by rw [mem_range'_1]; omega)
  rw [Char.ofNat_toNat, h] at hc
  cases hc

lemma lexes_name {w : String} {rest : List Char} (h : isName w)
    (hf : fresh = false ∨ w.toList.head? ≠ some '#') (hr : rest.head?.any isWordPart = false) :
    Lexes fresh slash (w.toList ++ rest) ⟨.word, w.toList⟩ rest := by
  obtain ⟨c, cs, hw, hs, hg, ha⟩ := isName_iff.1 h
  have hn : ∀ d, isWordStart d = false → c ≠ d := by
    rintro d hd rfl
    rw [hd] at hs
    cases hs
  have hm : (fresh && c == '#') = false := by
    rcases hf with rfl | hf
    · rfl
    · rw [hw] at hf
      simpa using fun _ => hf
  obtain ⟨ht, hdr⟩ := takeWhile_dropWhile_local ha hr
  rw [hw, cons_append]
  refine (lexes_plain_iff (hn _ (by decide))).2 ⟨?_, by simp only [bodyOf, ht, hdr]⟩
  simp [openingKind, hg, hm, hs, isDigit_of_isWordStart hs, hn '/' (by decide), hn '\'' (by decide),
    hn '"' (by decide), hn '.' (by decide)]

lemma lexes_point {rest : List Char} (h : rest.head?.any isWordStart) :
    Lexes fresh slash ('.' :: rest) ⟨.punct, ['.']⟩ rest := by
  obtain ⟨c, hc, hs⟩ := (Option.any_eq_true _ _).1 h
  obtain ⟨rest, rfl⟩ := head?_eq_some_iff.1 hc
  have hd : ∀ p ∈ punctuators, p.toList.head? = some '.' → p.toList = ['.', '.', '.'] := by decide
  have he : punctExtent '.' (c :: rest) = 0 := by
    refine punctExtent_eq_zero fun p hp w hw hpr => ?_
    rw [hd p hp (by rw [hw]; rfl)] at hw
    obtain ⟨-, rfl⟩ := cons.inj hw
    obtain ⟨rfl, -⟩ := cons_prefix_cons.1 hpr
    revert hs
    decide
  refine (lexes_plain_iff (by decide)).2 ⟨?_, by simp [bodyOf, he]⟩
  have hg : isGap '.' = false ∧ isWordStart '.' = false := by decide
  simp [openingKind, hg, isDigit_of_isWordStart hs]

lemma readsAs_bracket_iff (hc : c ∈ ['(', ')', '\x7b', '\x7d']) {es : List Form} :
    ReadsAs fresh slash (c :: y) (⟨.punct, [c]⟩ :: es) ↔ ReadsAs false (slashAfter ⟨.punct, [c]⟩) y es := by
  rw [readsAs_iff_of_lexes (lexes_bracket hc y) (by simp)]
  constructor
  · rintro ⟨more, heq, hm⟩
    obtain ⟨-, rfl⟩ := cons.inj heq
    exact hm
  · intro h
    exact ⟨es, rfl, h⟩

/-- The tokens without the white space at the end. A byte order mark is none. -/
def dropTrailingSpace (tokens : List Token) : List Token :=
  (tokens.reverse.dropWhile fun t => t.text.toList.all isBlank).reverse

def endsWithLineComment (tokens : List Token) : Bool :=
  tokens.getLast?.any fun t => t.kind == .lineComment

lemma endsWithLineComment_dropWhile (p : Token → Bool) (us : List Token) :
    endsWithLineComment (us.reverse.dropWhile p).reverse ↔
      ∃ ts c bs, us = ts ++ c :: bs ∧ (∀ b ∈ bs, p b) ∧ p c = false ∧ c.kind = .lineComment := by
  rw [endsWithLineComment, getLast?_reverse]
  constructor
  · intro h
    obtain ⟨c, hc, hk⟩ := (Option.any_eq_true _ _).1 h
    obtain ⟨r, hre⟩ := head?_eq_some_iff.1 hc
    have hst := head?_dropWhile_any p us.reverse
    have hs := takeWhile_append_dropWhile (p := p) (l := us.reverse)
    rw [hre] at hs hst
    refine ⟨r.reverse, c, (us.reverse.takeWhile p).reverse, ?_, ?_, by simpa using hst,
      by simpa using hk⟩
    · simpa using (congrArg reverse hs).symm
    · exact fun b hb => mem_takeWhile_imp (mem_reverse.1 hb)
  · rintro ⟨ts, c, bs, rfl, hbs, hc, hk⟩
    have hr : (ts ++ c :: bs).reverse = bs.reverse ++ c :: ts.reverse := by simp
    rw [hr, dropWhile_append_of_pos fun b hb => hbs b (mem_reverse.1 hb), dropWhile_cons_of_neg (by simp [hc])]
    simp [hk]

lemma endsInComment_iff {ts : List Token} : EndsInComment (essences (ts.map form)) ↔
      endsWithLineComment (dropTrailingBlanks ts) := by
  have hf : (ts.map form).filter (fun f => f.kind != .blank) = (ts.filter fun t => t.kind != .blank).map form := by
    rw [filter_map]
    rfl
  rw [EndsInComment, endsWithLineComment, dropTrailingBlanks, getLast?_reverse,
    ← find?_not_eq_head?_dropWhile, ← head?_filter, filter_reverse, head?_reverse,
    essences, hf, map_map, getLast?_map, Option.any_map]
  have hk : (fun t : Token => ((essence ∘ form) t).kind == .lineComment) = fun t => t.kind == .lineComment := by
    funext t
    simp [form]
  rw [hk]
  rfl

lemma Reads.exists_lexes {fs : List Form} (h : Reads fresh slash cs fs) {f : Form} (hf : f ∈ fs) :
    ∃ fresh slash cs rest, Lexes fresh slash cs f rest := by
  obtain ⟨as, bs, rfl⟩ := append_of_mem hf
  obtain ⟨rest, fst, -⟩ := h.split.2.uncons
  exact ⟨_, _, _, rest, fst⟩

lemma exists_isWordStart {src : String} {ts : List Token} {t : Token} (ht : tokenize src = .ok ts)
    (hm : t ∈ ts) (hw : t.kind = .word) : ∃ c cs, t.text.toList = c :: cs ∧ isWordStart c := by
  have hr := tokenize_eq_ok_iff.1 ⟨ts, ht, rfl⟩
  obtain ⟨fresh, slash, _, r, hl⟩ := hr.exists_lexes (mem_map_of_mem hm)
  have hk : t.form.kind = .word := hw
  obtain ⟨c, cs, hte, ho, -⟩ := hl.exists_body (by rw [hk]; nofun)
  have hop := opens_openingKind fresh slash c (cs ++ r).head?
  rw [ho, hk] at hop
  exact ⟨c, cs, hte, hop⟩

lemma contains_of_isWordStart (ht : tx.toList = c :: cs) (hs : isWordStart c)
    {texts : List String} (h : ∀ t ∈ texts, t.toList.head?.any isWordStart = false) : texts.contains tx = false := by
  rw [contains_eq_mem, decide_eq_false_iff_not]
  intro hm
  simpa [ht, hs] using h tx hm

lemma toList_trim_of_append {a : List Char} (ht : tx.toList = a ++ c :: cs)
    (hc : isBlank c = false) : (trim tx).toList = trimStartList a ++ c :: trimEndList cs := by
  rw [trim, toList_ofList, ht, trimList_append hc]

lemma trimEndList_append_of_blank {a w : List Char} (hw : w.all isBlank) : trimEndList (a ++ w) = trimEndList a := by
  have ha : ∀ c ∈ w.reverse, isBlank c := fun c hc =>
    all_eq_true.1 hw c (mem_reverse.1 hc)
  rw [trimEndList, trimEndList, reverse_append, dropWhile_append_of_pos ha]

lemma not_isBlank_of_not_isGap (h : isGap c = false) : isBlank c = false := by
  by_contra hb
  rw [isGap_of_isBlank (of_not_eq_false hb)] at h
  cases h

/-- Behind a line comment, white space is left out of a trimmed text, and other blanks are not. -/
lemma endsInComment_trim_iff {us : List Token} (ht : tx.toList = (us.map form).flatMap Form.text)
    (h : Reads fresh slash tx.toList (us.map form)) :
    EndsInComment (essences (us.map form)) ∧ endsInLine (trim tx).toList ↔ endsWithLineComment (dropTrailingSpace us) := by
  rw [endsInComment_iff, dropTrailingBlanks, endsWithLineComment_dropWhile, dropTrailingSpace,
    endsWithLineComment_dropWhile]
  -- The comment, what stands before it, and the line break behind it.
  have hcu : ∀ {ts bs : List Token} {c : Token}, us = ts ++ c :: bs → c.kind = .lineComment →
      ∃ k tl, tx.toList = (ts.map form).flatMap Form.text ++
          k :: (tl ++ (bs.map form).flatMap Form.text) ∧ c.text.toList = k :: tl ∧
        isBlank k = false ∧ (∀ d ∈ k :: tl, isLineEnd d = false) ∧ isGap k = false ∧
        ((bs.map form).flatMap Form.text).head?.all isLineEnd := by
    rintro ts bs c rfl hki
    rw [map_append, map_cons] at h
    obtain ⟨r, fst, more⟩ := h.split.2.uncons
    obtain ⟨k, tl, hk, hga⟩ := fst.exists_cons (by simp [form, hki])
    obtain ⟨-, hal, he⟩ := fst.lineComment hki
    rw [hk] at hal
    refine ⟨k, tl, ?_, hk, not_isBlank_of_not_isGap hga, by simpa using hal, hga, ?_⟩
    · rw [ht, map_append, map_cons, flatMap_append, flatMap_cons, hk]
      rfl
    · rw [more.flatMap_text]
      exact he
  constructor
  · rintro ⟨⟨ts, c, bs, rfl, hbs, hc, hki⟩, hl⟩
    obtain ⟨k, tl, ht', hk, hbl, -, hga, he⟩ := hcu rfl hki
    refine ⟨ts, c, bs, rfl, ?_, ?_, hki⟩
    · -- A blank token that is not all white space would keep the line break through the trimming.
      by_contra hba
      push Not at hba
      obtain ⟨b, hb, hb'⟩ := hba
      obtain ⟨q, hq, hq'⟩ : ∃ q ∈ b.text.toList, isBlank q = false := by
        simpa using hb'
      have hm : q ∈ (bs.map form).flatMap Form.text := mem_flatMap.2 ⟨b.form, mem_map_of_mem hb, hq⟩
      have hW : IsGap ((bs.map form).flatMap Form.text) := by
        intro d hd
        obtain ⟨f, hf, hd⟩ := mem_flatMap.1 hd
        obtain ⟨b', hb', rfl⟩ := mem_map.1 hf
        obtain ⟨_, _, _, _, hle⟩ := h.exists_lexes
          (mem_map_of_mem (mem_append_right ts (mem_cons_of_mem c hb')))
        exact (hle.blank (beq_iff_eq.1 (hbs b' hb'))).1 d hd
      generalize (bs.map form).flatMap Form.text = W at ht' he hm hW
      obtain ⟨W1, W2, rfl⟩ := append_of_mem hm
      have hcs : tx.toList = ((ts.map form).flatMap Form.text ++ k :: (tl ++ W1)) ++ q :: W2 := by
        rw [ht']
        simp
      rw [toList_trim_of_append hcs hq', trimStartList, dropWhile_append_cons_of_neg hbl,
        ← cons_append, ← append_assoc, append_assoc] at hl
      have hgp : IsGap (W1 ++ q :: trimEndList W2) := by
        obtain ⟨g, -, hg⟩ := exists_trimEndList W2
        intro d hd
        refine hW d ?_
        rw [hg]
        simp only [mem_append, mem_cons] at hd ⊢
        tauto
      have hn := not_isLineEnd_of_endsInLine hl hgp
      cases W1 with
      | nil =>
        rw [nil_append, head?_cons, all_some, hn q (by simp)] at he
        cases he
      | cons l W1 =>
        rw [cons_append, head?_cons, all_some, hn l (by simp)] at he
        cases he
    · rw [hk, all_cons, hbl, Bool.false_and]
  · rintro ⟨ts, c, bs, rfl, hbs, hc, hki⟩
    obtain ⟨k, tl, ht', hk, hbl, hli, hga, -⟩ := hcu rfl hki
    refine ⟨⟨ts, c, bs, rfl, ?_, by simp [hki], hki⟩, ?_⟩
    · intro b hb
      obtain ⟨_, _, _, _, hle⟩ := h.exists_lexes
        (mem_map_of_mem (mem_append_right ts (mem_cons_of_mem c hb)))
      by_contra hno
      obtain ⟨d, a, ha, hd⟩ := hle.exists_cons (by simpa [form] using hno)
      have hs := all_eq_true.1 (hbs b hb) d (by rw [show b.text.toList = d :: a from ha]; simp)
      rw [not_isBlank_of_not_isGap hd] at hs
      cases hs
    · have hs : ((bs.map form).flatMap Form.text).all isBlank := by
        rw [flatMap_map, all_flatMap, all_eq_true]
        exact hbs
      rw [toList_trim_of_append ht' hbl, trimEndList_append_of_blank hs]
      refine LastLineInked.endsInLine ⟨_, _, rfl, ⟨k, by simp, hga⟩, fun d hd => hli d ?_⟩
      rcases mem_cons.1 hd with rfl | hd
      · simp
      · obtain ⟨g, -, hg⟩ := exists_trimEndList tl
        rw [hg]
        simp [hd]

end CustomElement.Script
