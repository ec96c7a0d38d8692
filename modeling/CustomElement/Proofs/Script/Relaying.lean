import CustomElement.Proofs.Script.Gentle
import CustomElement.Proofs.Script.Printing

/-!
# Tokens laid out anew

Layout keeps the code of a text, and of the gaps between its tokens what `Token.tidy` keeps. So the tokens of a text
are known up to `Token.tidy` from its code and its folds (`map_tidy_of_folds`), and with them the forest of the text
(`Gentle.exists_forest`).
-/

namespace CustomElement.Script

open List Text

variable {ts : List Token} {t : Token} {f : Token → Token} {line : List Token}

lemma toList_trim_of_inkEdged {x : String} {lead core g : List Char} (ht : x.toList = lead ++ (core ++ g))
    (hco : InkEdged core) : (trim x).toList = trimStartList lead ++ (core ++ trimEndList g) := by
  obtain ⟨⟨c, a, rfl, hc⟩, b, d, hb, hd⟩ := hco
  have hdr : trimStartList (lead ++ b) ++ [d] = trimStartList lead ++ c :: a := by
    rw [hb]
    cases b with
    | nil => rw [append_nil, nil_append]
    | cons e b =>
      obtain ⟨rfl, -⟩ := cons.inj hb
      rw [trimStartList, dropWhile_append_cons_of_neg (not_isBlank_of_not_isGap hc), append_assoc, trimStartList]
  have hs : x.toList = (lead ++ b) ++ d :: g := by
    rw [ht, hb]
    simp
  rw [toList_trim_of_append hs (not_isBlank_of_not_isGap hd), ← append_assoc, ← hdr]
  simp

lemma exists_laid {tx : String} {core g : List Char} (hte : tx.toList = core ++ g) (hco : InkEdged core)
    (hg : IsGap g) (l : Nat) :
    ∃ lead body g', (reindent tx l).toList = lead ++ (body ++ g') ∧ IsGap lead ∧ '\n' ∉ lead ∧ InkEdged body ∧
      IsGap g' ∧ ('\n' ∈ g' → '\n' ∈ g) ∧ (g = [] → g' = []) ∧ folds body = folds core := by
  cases hto : tokenize tx with
  | error fault =>
    obtain ⟨g', hg', heq⟩ := exists_trimEndList g
    refine ⟨(indentation l).toList, core, trimEndList g, ?_, isGap_indentation l, not_mem_indentation l, hco,
      fun c hc => hg c ?_, fun hm => ?_, ?_, rfl⟩
    · have hle : tx.toList = [] ++ (core ++ g) := hte
      rw [reindent, hto, toList_append, toList_trim_of_inkEdged hle hco]
      rfl
    · rw [heq]
      exact mem_append_left g' hc
    · rw [heq]
      exact mem_append_left g' hm
    · rintro rfl
      rfl
  | ok ts =>
    obtain ⟨lead, body, bs, heq, hle, hbs, hfi, hls, hni, hla⟩ := exists_laidOut hto l
    have hr := tokenize_eq_ok_iff.1 ⟨ts, hto, rfl⟩
    have hta : IsGap (charsOf bs) := hr.proper.isGap_charsOf (fun t ht => by simp [heq, ht]) hbs
    have hch : charsOf lead ++ (charsOf body ++ charsOf bs) = core ++ g := by
      rw [← hte, ← hr.flatMap_text, flatMap_form, heq, charsOf_append, charsOf_append]
    -- No blank stands before the ink.
    have hfr : charsOf lead = [] := by
      obtain ⟨⟨c, a, rfl, hc⟩, -⟩ := hco
      by_contra hne
      obtain ⟨d, x, hx⟩ := exists_cons_of_ne_nil hne
      rw [hx] at hch
      obtain ⟨rfl, -⟩ := cons.inj hch
      rw [hr.proper.isGap_charsOf (fun t ht => by simp [heq, ht]) hle d (by simp [hx])] at hc
      cases hc
    rw [hfr, nil_append] at hch
    have hfo : folds (charsOf (laidTokens l ts)) = folds core := by
      rw [hla.respaced.folds_eq, ← folds_append_gap hta, hch, folds_append_gap hg]
    have hin := hla.startsInk hfi
    obtain ⟨c, cs, hcs⟩ : ∃ c cs, charsOf (laidTokens l ts) = c :: cs := by
      refine exists_cons_of_ne_nil fun hn => ?_
      rw [hn] at hfo
      exact (endsInk_iff.1 hco.endsInk).1 hfo.symm
    rw [hcs] at hin
    obtain ⟨body', g', hs, hb', hg'⟩ := exists_inkEdged (c := c) (by simpa [StartsInk] using hin) cs
    obtain ⟨n, hl⟩ := exists_layoutOf l ts
    rw [← reindent_of_tokenize hto, hcs, hs] at hl
    refine ⟨_, body', g', hl, isGap_indentation n, not_mem_indentation n, hb', hg', fun hm => ?_, ?_, ?_⟩
    · rcases lastLineInked_reindent hto l with hn | hli
      · simp [hl, hb'.ne_nil] at hn
      · have he := hli.endsInLine
        rw [hl, ← append_assoc] at he
        exact absurd (not_isLineEnd_of_endsInLine he hg' '\n' hm) (by decide)
    · rintro rfl
      rw [append_nil] at hch
      have he := hch ▸ hco.endsInk
      rw [he.eq_nil hta, append_nil] at he
      have he := hla.respaced.endsInk he
      rw [hcs, hs] at he
      exact he.eq_nil hg'
    · rw [← hfo, hcs, hs, folds_append_gap hg']

/-- The token without its place, and of a blank only what layout keeps of it. -/
def Token.tidy (t : Token) : Token :=
  ⟨t.kind, if t.kind == .blank then String.ofList (crease t.text.toList) else t.text, 0⟩

export Token (tidy)

lemma text_tidy_of_blank (h : t.kind = .blank) : t.tidy.text.toList = crease t.text.toList := by
  simp [tidy, h]

lemma text_tidy_of_code (h : t.kind ≠ .blank) : t.tidy.text = t.text := by
  simp [tidy, h]

lemma gentle_tidy : Gentle tidy := by
  refine ⟨fun _ => rfl, fun t ht => ?_, fun t => ?_, fun t => ?_⟩
  all_goals by_cases hb : t.kind = .blank
  · have hm : '\n' ∉ t.text.toList := by simpa [hb, Token.hasNewline] using ht
    rw [← toList_inj, text_tidy_of_blank hb, crease_of_not_mem hm]
  · exact text_tidy_of_code hb
  · rw [Token.hasNewline, Token.hasNewline, text_tidy_of_blank hb, Bool.eq_iff_iff, contains_iff_mem, contains_iff_mem]
    exact mem_crease
  · rw [Token.hasNewline, text_tidy_of_code hb, Token.hasNewline]
  · rw [Token.newlines, text_tidy_of_blank hb]
    exact count_crease
  · rw [Token.newlines, text_tidy_of_code hb, Token.newlines]

def inked (tokens : List Token) : List Form := (tokens.filter fun t => t.kind != .blank).map form

@[simp] lemma inked_nil : inked [] = [] := rfl

@[simp] lemma inked_append (as bs : List Token) : inked (as ++ bs) = inked as ++ inked bs := by
  simp [inked]

lemma inked_cons (t : Token) (ts : List Token) : inked (t :: ts) = inked [t] ++ inked ts := inked_append [t] ts

lemma inked_of_blank (h : ∀ t ∈ ts, t.kind = .blank) : inked ts = [] := by
  rw [inked, filter_eq_nil_iff.2 fun t ht => by simp [h t ht], map_nil]

lemma essences_eq_inked {tokens : List Token} (h : ∀ t ∈ tokens, t.isComment = false) :
    essences (tokens.map form) = inked tokens := by
  have hfo : inked tokens = (tokens.map form).filter fun f => f.kind != .blank := by
    rw [inked, filter_map]
    rfl
  rw [essences, hfo]
  conv_rhs => rw [← map_id ((tokens.map form).filter fun f => f.kind != .blank)]
  refine map_congr_left fun f hf => ?_
  obtain ⟨hm, hb⟩ := mem_filter.1 hf
  obtain ⟨t, ht, rfl⟩ := mem_map.1 hm
  have hc := h t ht
  simp only [Token.isComment] at hc
  have hfr : t.form.kind = t.kind := rfl
  rw [essence, hfr, hc]
  rfl

lemma essences_code_iff : (∀ e ∈ essences (ts.map form), e.isTrivia = false) ↔ ∀ t ∈ ts, t.isComment = false := by
  constructor
  · intro h t ht
    by_cases hb : t.kind = .blank
    · simp [Token.isComment, hb]
    · have hm : t.form.essence ∈ essences (ts.map form) :=
        mem_map_of_mem (mem_filter.2 ⟨mem_map_of_mem ht, by simpa [form] using hb⟩)
      have hco := h _ hm
      rw [Form.isTrivia_essence] at hco
      simp only [Form.isTrivia, form, or_eq_false_iff] at hco
      simp [Token.isComment, hco]
  · intro h e he
    obtain ⟨f, hf, rfl⟩ := mem_map.1 he
    obtain ⟨hf, hb⟩ := mem_filter.1 hf
    obtain ⟨t, ht, rfl⟩ := mem_map.1 hf
    have hc := h t ht
    rw [Form.isTrivia_essence]
    simp only [Token.isComment, or_eq_false_iff] at hc
    simpa [Form.isTrivia, form, hc] using hb

def Edged (tokens : List Token) : Prop := ∀ t ∈ tokens, t.kind ≠ .blank → InkEdged t.text.toList

lemma startsInk_charsOf (hp : Proper ((t :: ts).map form)) (ht : t.kind = .blank) : StartsInk (charsOf ts) := by
  have hin := hp.tail.startsInk (by simpa [show t.form.kind = .blank from ht] using (isChain_cons.1 hp.apart).1)
  rwa [flatMap_form] at hin

lemma folds_blank {u : Token} (hp : Proper ((t :: u :: ts).map form)) (ht : t.kind = .blank) :
    folds (charsOf (t :: u :: ts)) = crease t.text.toList ++ folds (charsOf (u :: ts)) := by
  have hg : IsGap t.text.toList := (hp.blank t.form (by simp) ht).2
  have hn : u.text.toList ≠ [] := hp.text_ne_nil (f := u.form) (by simp)
  rw [charsOf_cons]
  refine folds_gap_append hg (startsInk_charsOf hp ht) ?_
  simp [hn]

lemma eq_nil_of_no_code (hc : (ts.filter fun t => t.kind != .blank) = [])
    (hl : ts.getLast?.all (fun t => t.kind != .blank)) : ts = [] := by
  rcases eq_nil_or_concat' ts with rfl | ⟨fr, t, rfl⟩
  · rfl
  · rw [filter_eq_nil_iff] at hc
    have hc := hc t (by simp)
    rw [getLast?_concat, all_some] at hl
    exact absurd hl hc

lemma folds_ne {u : Token} {us : List Token} (hts : Proper ((t :: ts).map form)) (ht : t.kind = .blank)
    (hts' : ts ≠ []) (hus : Proper ((u :: us).map form)) (hu : u.kind ≠ .blank) :
    folds (charsOf (t :: ts)) ≠ folds (charsOf (u :: us)) := by
  intro heq
  obtain ⟨v, ts, rfl⟩ := exists_cons_of_ne_nil hts'
  obtain ⟨hn, hg⟩ := hts.blank t.form (by simp) ht
  obtain ⟨hn', hin⟩ := hus.ink u.form (by simp) hu
  have hs : StartsInk (charsOf (u :: us)) := by
    obtain ⟨c, a, ha⟩ := exists_cons_of_ne_nil (show u.text.toList ≠ [] from hn')
    rw [charsOf_cons, ha]
    rwa [show u.form.text = c :: a from ha] at hin
  have hfo := startsInk_folds hs
  rw [← heq, folds_blank hts ht] at hfo
  obtain ⟨c, a, ha⟩ := exists_cons_of_ne_nil (mt crease_eq_nil.1 (show t.text.toList ≠ [] from hn))
  have hc : isGap c := isGap_crease hg c (by rw [show t.form.text = t.text.toList from rfl, ha]; simp)
  rw [ha] at hfo
  simp [StartsInk, hc] at hfo

lemma map_tidy_of_folds {us : List Token} (hts : Proper (ts.map form)) (hus : Proper (us.map form)) (he : Edged ts)
    (hc : inked ts = inked us) (htl : ts.getLast?.all (fun t => t.kind != .blank))
    (hul : us.getLast?.all (fun t => t.kind != .blank)) (hfo : folds (charsOf ts) = folds (charsOf us)) :
    ts.map tidy = us.map tidy := by
  -- A blank at the front does not stand alone.
  have hm : ∀ {t : Token} {ts : List Token}, t.kind = .blank →
      (t :: ts).getLast?.all (fun t => t.kind != .blank) → ts ≠ [] := by
    rintro t ts ht hl rfl
    simp [ht] at hl
  have hd : ∀ {t : Token} {ts : List Token}, ts ≠ [] →
      (t :: ts).getLast?.all (fun t => t.kind != .blank) → ts.getLast?.all (fun t => t.kind != .blank) := by
    intro t ts hne hl
    obtain ⟨u, ts, rfl⟩ := exists_cons_of_ne_nil hne
    rwa [getLast?_cons_cons] at hl
  induction ts generalizing us with
  | nil =>
    have hn : (us.filter fun t => t.kind != .blank) = [] := map_eq_nil_iff.1 hc.symm
    rw [eq_nil_of_no_code hn hul]
  | cons t ts ih =>
    cases us with
    | nil =>
      have hn : ((t :: ts).filter fun t => t.kind != .blank) = [] := map_eq_nil_iff.1 hc
      rw [eq_nil_of_no_code hn htl]
    | cons u us =>
      obtain ⟨ht', he'⟩ := forall_mem_cons.1 he
      by_cases ht : t.kind = .blank
      · have hne := hm ht htl
        by_cases hu : u.kind = .blank
        · have hne' := hm hu hul
          rw [inked, inked, filter_cons_of_neg (by simp [ht]), filter_cons_of_neg (by simp [hu])] at hc
          obtain ⟨v, ts, rfl⟩ := exists_cons_of_ne_nil hne
          obtain ⟨w, us, rfl⟩ := exists_cons_of_ne_nil hne'
          rw [folds_blank hts ht, folds_blank hus hu] at hfo
          -- Both creases take all gaps at the front.
          have hle := takeWhile_dropWhile_gap (isGap_crease (hts.blank t.form (by simp) ht).2)
            (startsInk_folds (startsInk_charsOf hts ht))
          have hr := takeWhile_dropWhile_gap (isGap_crease (hus.blank u.form (by simp) hu).2)
            (startsInk_folds (startsInk_charsOf hus hu))
          rw [show t.form.text = t.text.toList from rfl, hfo, show u.text.toList = u.form.text from rfl, hr.1, hr.2] at hle
          have hti : t.tidy = u.tidy := by
            have hcr : crease t.text.toList = crease u.text.toList := hle.1.symm
            simp [tidy, ht, hu, hcr]
          have hre := ih hts.tail hus.tail he' hc (hd hne htl) (hd hne' hul) hle.2.symm
          exact congrArg₂ cons hti hre
        · exact absurd hfo (folds_ne hts ht hne hus hu)
      · by_cases hu : u.kind = .blank
        · exact absurd hfo.symm (folds_ne hus hu (hm hu hul) hts ht)
        · rw [inked, inked, filter_cons_of_pos (by simpa using ht), filter_cons_of_pos (by simpa using hu),
            map_cons, map_cons] at hc
          obtain ⟨hfr, hre⟩ := cons.inj hc
          obtain ⟨hk, hte⟩ : t.kind = u.kind ∧ t.text = u.text := by
            simpa [form, Form.mk.injEq, toList_inj] using hfr
          have hen := (ht' ht).endsInk
          rw [charsOf_cons, charsOf_cons, ← hte, folds_append hen, folds_append hen] at hfo
          have hti : t.tidy = u.tidy := by simp only [tidy, hk, hte]
          have hl : ∀ {t : Token} {ts : List Token}, (t :: ts).getLast?.all (fun t => t.kind != .blank) →
                ts.getLast?.all (fun t => t.kind != .blank) := by
            intro t ts h
            cases ts with
            | nil => rfl
            | cons v ts => exact hd (cons_ne_nil v ts) h
          rw [map_cons, map_cons, hti, ih hts.tail hus.tail he' hre (hl htl) (hl hul) (append_cancel_left hfo)]

lemma Node.exists_refillAll (f : Token → Token) (ns : List Node) {ts : List Token} (h : ts.map f = (tokensOf ns).map f) :
    ∃ ns' : List Node, tokensOf ns' = ts ∧ ns'.map (Node.map f) = ns.map (Node.map f) := by
  induction ns using Node.forest_induction generalizing ts with
  | nil =>
    rw [tokensOf_nil, map_nil, map_eq_nil_iff] at h
    exact ⟨[], by simp [h], rfl⟩
  | leaf t ns ih =>
    rw [tokensOf_cons, tokens_leaf, singleton_append, map_cons] at h
    obtain ⟨u, r, rfl, hu, hr⟩ := map_eq_cons_iff.1 h
    obtain ⟨ns', rfl, hm⟩ := ih hr
    exact ⟨.leaf u :: ns', by simp, by simp [hu, hm]⟩
  | group op ms cl ns ihm ih =>
    rw [tokensOf_cons, tokens_group, cons_append, append_assoc, singleton_append, map_cons, map_append, map_cons] at h
    obtain ⟨o, r, rfl, ho, hr⟩ := map_eq_cons_iff.1 h
    obtain ⟨mid, r, rfl, hm, hl⟩ := map_eq_append_iff.1 hr
    obtain ⟨c, r, rfl, hc, hb⟩ := map_eq_cons_iff.1 hl
    obtain ⟨ms', rfl, hma⟩ := ihm hm
    obtain ⟨ns', rfl, hn⟩ := ih hb
    exact ⟨.group o ms' c :: ns', by simp, by simp [ho, hc, hma, hn]⟩

lemma Gentle.balanced (hf : Gentle f) {n n' : Node} (h : n.Balanced) (hma : n'.map f = n.map f) : n'.Balanced := by
  induction h generalizing n' with
  | @leaf t ho hc =>
    cases n' with
    | group o ms c => simp at hma
    | leaf u =>
      have hu : f u = f t := by simpa using hma
      exact .leaf (by rw [← hf.isOpener, hu, hf.isOpener, ho]) (by rw [← hf.isCloser, hu, hf.isCloser, hc])
  | @group o c ms ho hc hin ih =>
    cases n' with
    | leaf u => simp at hma
    | group o' ms' c' =>
      simp only [map_group, Node.group.injEq] at hma
      obtain ⟨hop, hmp, hcl⟩ := hma
      have ho' : o'.isOpener := by rw [← hf.isOpener, hop, hf.isOpener, ho]
      have hp : ∀ t : Token, t.isOpener → (f t).text = t.text := by
        intro t ht
        simp only [Token.isOpener, and_eq_true, beq_iff_eq] at ht
        exact hf.text t (by simp [ht.1])
      have hte : o'.text = o.text := by rw [← hp o' ho', hop, hp o ho]
      refine .group ho' ?_ fun n hn => ?_
      · rw [hte, ← hf.isPunct, hcl, hf.isPunct, hc]
      · have hme : n.map f ∈ ms.map (Node.map f) := hmp ▸ mem_map_of_mem hn
        obtain ⟨m, hm, hnm⟩ := mem_map.1 hme
        exact ih m hm hnm.symm

lemma Gentle.exists_forest (hf : Gentle f) {ns : List Node} (hno : ∀ n ∈ ns, n.Balanced)
    (h : ts.map f = (tokensOf ns).map f) (src : String) :
    ∃ ns', forest src ts = .ok ns' ∧ ns'.map (Node.map f) = ns.map (Node.map f) := by
  obtain ⟨ns', rfl, hma⟩ := Node.exists_refillAll f ns h
  refine ⟨ns', forest_tokensOf src fun n hn => ?_, hma⟩
  have hme : n.map f ∈ ns.map (Node.map f) := hma ▸ mem_map_of_mem hn
  obtain ⟨m, hm, hnm⟩ := mem_map.1 hme
  exact hf.balanced (hno m hm) hnm.symm

def Line.map (f : Token → Token) (line : Line) : Line := ⟨line.blankBefore, line.tokens.map f⟩

lemma onLine_linesFrom {b : Bool} (hli : OnLine line) : ∀ l ∈ linesFrom b line ts, OnLine l.tokens := by
  have hd : ∀ line : List Token, OnLine line → OnLine (dropTrailingBlanks line.reverse) := by
    intro line hli t ht
    rw [Script.dropTrailingBlanks, reverse_reverse, mem_reverse] at ht
    exact hli t ((dropWhile_sublist _).subset ht)
  fun_induction linesFrom b line ts with
  | case1 => simp
  | case2 b line hn =>
    intro l hl
    obtain rfl := mem_singleton.1 hl
    exact hd line hli
  | case3 b line t ts hb hn ih | case5 b line t ts hbr hb ih => exact ih (by simp [OnLine])
  | case4 b line t ts hb hn ih =>
    exact forall_mem_cons.2 ⟨hd line hli, ih (by simp [OnLine])⟩
  | case6 b line t ts hbr hb ih =>
    exact ih (forall_mem_cons.2 ⟨of_not_eq_true hbr, hli⟩)

namespace Gentle

variable {f : Token → Token} (hf : Gentle f)

include hf

lemma dropTrailingBlanks (ts : List Token) :
    Script.dropTrailingBlanks (ts.map f) = (Script.dropTrailingBlanks ts).map f := by
  rw [Script.dropTrailingBlanks, ← map_reverse, dropWhile_map, ← map_reverse]
  simp only [comp_def, hf.kind]
  rfl

lemma linesFrom (b : Bool) (line ts : List Token) :
    Script.linesFrom b (line.map f) (ts.map f) = (Script.linesFrom b line ts).map (Line.map f) := by
  induction ts generalizing b line with
  | nil =>
    simp only [map_nil, Script.linesFrom, isEmpty_map, ← map_reverse, hf.dropTrailingBlanks]
    split <;> rfl
  | cons t ts ih =>
    have hn : ∀ b, Script.linesFrom b [] (ts.map f) = _ := fun b => ih b []
    have hc : Script.linesFrom b (f t :: line.map f) (ts.map f) = _ := ih b (t :: line)
    rw [map_cons]
    simp only [Script.linesFrom, hf.kind, hf.hasNewline, isEmpty_map, hn, hc, ← map_reverse,
      hf.dropTrailingBlanks, hf.newlines]
    split
    · split <;> rfl
    · split <;> rfl

lemma layoutLine (hl : OnLine line) (base : Nat) (st : List Nat) :
    Script.layoutLine base st (line.map f) = Script.layoutLine base st line := by
  refine layoutLine_map hf.kind (fun t ht => hf.text t (by simp [ht])) base st fun t ht => ?_
  rw [laidChars, laidChars, hf.kind, hf.hasNewline, hf.text t (hl t ht)]

lemma layoutLines {lines : List Line} (hl : ∀ l ∈ lines, OnLine l.tokens) (base : Nat) (st : List Nat) :
    Script.layoutLines base st (lines.map (Line.map f)) = Script.layoutLines base st lines := by
  induction lines generalizing st with
  | nil => rfl
  | cons line lines ih =>
    obtain ⟨hli, hl⟩ := forall_mem_cons.1 hl
    simp only [map_cons, Script.layoutLines, Line.map, hf.layoutLine hli, ih hl]

lemma layoutOf (lv : Nat) (tokens : List Token) : Script.layoutOf lv (tokens.map f) = Script.layoutOf lv tokens := by
  have ho : ∀ l ∈ Script.linesFrom false [] tokens, OnLine l.tokens := onLine_linesFrom (by simp [OnLine])
  have hl : Script.linesFrom false [] (tokens.map f) = _ := hf.linesFrom false [] tokens
  rw [Script.layoutOf, hl, Script.layoutOf]
  cases hc : Script.linesFrom false [] tokens with
  | nil => rfl
  | cons fst ls =>
    rw [hc] at ho
    obtain ⟨hfi, hr⟩ := forall_mem_cons.1 ho
    simp only [map_cons, Line.map, hf.layoutLine hfi, hf.layoutLines hr]

end Gentle

end CustomElement.Script
