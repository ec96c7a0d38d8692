import CustomElement.Proofs.Script.TokenEdges

/-!
# Joining texts

Two texts one behind the other are read as the tokens of the first and those of the second, when the second begins with
a neutral character and no line comment stands at the end of the first (`ReadsAs.append`). The other way round, a text
that is read as some tokens can be cut behind the ink of the first of them (`ReadsAs.split`).
-/

namespace CustomElement.Script

open List Text

variable {c : Char} {f : Form} {cs g x y r : List Char} {A B es fs : List Form} {rest : List Char}

def IsGap (cs : List Char) : Prop := ∀ c ∈ cs, isGap c = true

lemma isGap_cons : IsGap (c :: g) ↔ isGap c ∧ IsGap g := by
  simp [IsGap]

lemma IsGap.append {a b : List Char} (ha : IsGap a) (hb : IsGap b) : IsGap (a ++ b) := by
  intro c hc
  exact (mem_append.1 hc).elim (ha c) (hb c)

lemma IsGap.ink (h : IsGap g) : ink g = [] :=
  ink_eq_nil.2 (all_eq_true.2 h)

lemma isGap_of_ink (h : ink g = []) : IsGap g :=
  all_eq_true.1 (ink_eq_nil.1 h)

lemma isGap_takeWhile (cs : List Char) : IsGap (cs.takeWhile isGap) :=
  fun _ hc => mem_takeWhile_imp hc

def StartsInk (cs : List Char) : Prop := cs.head?.any isGap = false

lemma startsInk_dropWhile (cs : List Char) : StartsInk (cs.dropWhile isGap) :=
  head?_dropWhile_any isGap cs

lemma takeWhile_dropWhile_gap (hg : IsGap g) (hr : StartsInk rest) :
    (g ++ rest).takeWhile isGap = g ∧ (g ++ rest).dropWhile isGap = rest :=
  takeWhile_dropWhile_local (all_eq_true.2 hg) hr

variable {fresh slash : Bool}

lemma lexes_blank (hn : g ≠ []) (hg : IsGap g) (hr : StartsInk rest) : Lexes fresh slash (g ++ rest) ⟨.blank, g⟩ rest := by
  obtain ⟨c, g, rfl⟩ := exists_cons_of_ne_nil hn
  have hc := hg c (by simp)
  have ht : c ≠ '`' := by
    rintro rfl
    revert hc
    decide
  obtain ⟨h1, h2⟩ := takeWhile_dropWhile_gap (fun d hd => hg d (mem_cons_of_mem c hd)) hr
  refine (lexes_plain_iff ht).2 ⟨by rw [openingKind, if_pos hc], ?_⟩
  simp only [bodyOf, append_eq, h1, h2]

lemma Lexes.blank {rest : List Char} (h : Lexes fresh slash cs f rest) (hf : f.kind = .blank) :
    IsGap f.text ∧ StartsInk rest := by
  obtain ⟨c, a, ha, hk, hb⟩ := h.exists_body (by rw [hf]; decide)
  rw [hf] at hk hb
  obtain ⟨hal, hr⟩ := while_body hb
  refine ⟨?_, hr⟩
  have hc : isGap c := by
    have := opens_openingKind fresh slash c (a ++ rest).head?
    rwa [hk] at this
  rw [ha]
  intro d hd
  rcases mem_cons.1 hd with rfl | hd
  · exact hc
  · exact all_eq_true.1 hal d hd

lemma readsAs_gap_append (hne : g ≠ []) (hg : IsGap g) : ReadsAs fresh slash (g ++ r) es ↔ ReadsAs false slash r es := by
  have hs := takeWhile_append_dropWhile (p := isGap) (l := r)
  have hst := startsInk_dropWhile r
  have hr : ReadsAs false slash (r.dropWhile isGap) es ↔ ReadsAs false slash r es := by
    by_cases hn : r.takeWhile isGap = []
    · rw [hn, nil_append] at hs
      rw [hs]
    · have hb : Lexes false slash r ⟨.blank, r.takeWhile isGap⟩ (r.dropWhile isGap) := by
        have hl : Lexes false slash (r.takeWhile isGap ++ r.dropWhile isGap) _ _ := lexes_blank hn (isGap_takeWhile r) hst
        rwa [hs] at hl
      exact (readsAs_iff_of_blank hb rfl).symm
  have hb : Lexes fresh slash (g ++ r) ⟨.blank, g ++ r.takeWhile isGap⟩
      (r.dropWhile isGap) := by
    have hne' : g ++ r.takeWhile isGap ≠ [] := fun h => hne (append_eq_nil_iff.1 h).1
    have hl : Lexes fresh slash (g ++ r.takeWhile isGap ++ r.dropWhile isGap) _ _ :=
      lexes_blank hne' (hg.append (isGap_takeWhile r)) hst
    rwa [append_assoc, hs] at hl
  rw [readsAs_iff_of_blank hb rfl, hr]

lemma readsAs_gap_append_iff (hg : IsGap g) : ReadsAs false slash (g ++ r) es ↔ ReadsAs false slash r es := by
  by_cases hn : g = []
  · rw [hn, nil_append]
  · exact readsAs_gap_append hn hg

section

variable (slash : Bool)

def slashThrough (fs : List Form) : Bool := fs.foldl slashNext slash

@[simp] lemma slashThrough_nil : slashThrough slash [] = slash := rfl

@[simp] lemma slashThrough_cons (f : Form) (fs : List Form) :
    slashThrough slash (f :: fs) = slashThrough (f.slashNext slash) fs := rfl

@[simp] lemma slashThrough_append (fs gs : List Form) :
    slashThrough slash (fs ++ gs) = slashThrough (slashThrough slash fs) gs := foldl_append

lemma slashThrough_of_trivia (h : ∀ f ∈ fs, f.isTrivia) : slashThrough slash fs = slash := by
  induction fs with
  | nil => rfl
  | cons f fs ih =>
    obtain ⟨hf, hfs⟩ := forall_mem_cons.1 h
    rw [slashThrough_cons, slashNext, if_pos hf, ih hfs]

lemma slashThrough_essences (fs : List Form) : slashThrough slash (essences fs) = slashThrough slash fs := by
  induction fs generalizing slash with
  | nil => rfl
  | cons f fs ih =>
    by_cases hf : f.kind = .blank
    · rw [essences_cons_blank hf, ih, slashThrough_cons]
      simp [slashNext, Form.isTrivia, hf]
    · rw [essences_cons hf, slashThrough_cons, slashThrough_cons, ih, Form.slashNext_essence]

end

lemma find?_essences (fs : List Form) : (essences fs).find? (fun e => !e.isTrivia) = fs.find? fun f => !f.isTrivia := by
  induction fs with
  | nil => rfl
  | cons f fs ih =>
    by_cases hb : f.kind = .blank
    · have ht : f.isTrivia := by simp [Form.isTrivia, hb]
      rw [essences_cons_blank hb, ih, find?_cons_of_neg (by simp [ht])]
    · rw [essences_cons hb]
      by_cases ht : f.isTrivia
      · rw [find?_cons_of_neg (by simp [ht]), find?_cons_of_neg (by simp [ht]), ih]
      · rw [Form.essence_of_code (of_not_eq_true ht), find?_cons_of_pos (by simp [ht]), find?_cons_of_pos (by simp [ht])]

lemma Lexes.not_isDigit_of_dot (h : Lexes fresh slash cs f r) (hf : f.text = ['.']) : r.head?.any Char.isDigit = false := by
  have ht : f.kind ≠ .template := by
    intro hk
    obtain ⟨a, ha, -⟩ := h.getLast?_template hk
    simp [ha] at hf
  obtain ⟨c, a, ha, hk, -⟩ := h.exists_body ht
  obtain ⟨rfl, rfl⟩ : c = '.' ∧ a = [] := by simpa [hf, eq_comm] using ha
  by_contra hdi
  have hdi := of_not_eq_false hdi
  have hg : isGap '.' = false := by decide
  have hn : f.kind = .number := by
    rw [← hk]
    simp [openingKind, hg, hdi]
  have he := h.endsBefore
  obtain ⟨d, hd, hdi⟩ := (Option.any_eq_true _ _).1 hdi
  simp [Form.endsBefore, hn, hd, continuesNumber, Char.isAlphanum, hdi] at he

lemma Reads.split {gs : List Form} (h : Reads fresh slash cs (fs ++ gs)) : Reads fresh slash (fs.flatMap Form.text) fs ∧
      Reads (fresh && fs.isEmpty) (slashThrough slash fs) (gs.flatMap Form.text) gs := by
  induction fs generalizing fresh slash cs with
  | nil =>
    refine ⟨.nil _ _, ?_⟩
    rw [nil_append] at h
    simpa [h.flatMap_text] using h
  | cons f fs ih =>
    rw [cons_append] at h
    cases h with
    | cons fst more =>
      obtain ⟨hf, hg⟩ := ih more
      refine ⟨?_, by simpa using hg⟩
      have hr := more.flatMap_text
      rw [flatMap_append] at hr
      have he := fst.endsBefore
      rw [← hr] at he
      refine .cons (fst.before (Form.endsBefore_of_append he ?_)) hf
      intro (hd : fs.flatMap Form.text = ['.'])
      -- A lone point is a token of its own, and it was not read as the start of a number.
      cases fs with
      | nil => simp at hd
      | cons g fs =>
        rw [cons_append] at more
        cases more with
        | cons second more =>
          obtain ⟨d, a, ha⟩ := exists_cons_of_ne_nil second.text_ne_nil
          rw [flatMap_cons, ha, cons_append] at hd
          obtain ⟨rfl, hn⟩ := cons.inj hd
          obtain ⟨rfl, hm⟩ := append_eq_nil_iff.1 hn
          have hr' := more.flatMap_text
          rw [flatMap_append, hm, nil_append] at hr'
          rw [hr']
          exact second.not_isDigit_of_dot ha

lemma isEmpty_append_of_ne_nil (a : List Char) (hg : g ≠ []) : (a ++ g).isEmpty = false := by
  rw [isEmpty_eq_false_iff]
  simp [hg]

lemma Reads.isEmpty_eq (h : Reads fresh slash cs fs) : fs.isEmpty = cs.isEmpty := by
  cases h with
  | nil => rfl
  | cons fst more =>
    rw [← fst.append_eq]
    simp [fst.text_ne_nil]

def isLineEnd (c : Char) : Bool := c == '\n' || c == '\r'

/-- Texts are read together, if the second begins with a neutral character before which the first one ends. -/
lemma Reads.append {gs : List Form} (hx : Reads fresh slash x fs)
    (hy : Reads (fresh && fs.isEmpty) (slashThrough slash fs) y gs) (hn : y.head?.all isNeutral)
    (hl : ∀ f ∈ fs.getLast?, (f.kind = .lineComment → y.head?.all isLineEnd) ∧
      (f.kind = .blank → StartsInk y)) : Reads fresh slash (x ++ y) (fs ++ gs) := by
  induction hx with
  | nil fresh slash => simpa using hy
  | @cons fresh slash cs r f fs fst more ih =>
    have hm : Reads false (f.slashNext slash) (r ++ y) (fs ++ gs) := by
      refine ih (by simpa using hy) fun g hg => hl g ?_
      rw [Option.mem_def] at hg ⊢
      rw [getLast?_cons, hg, getD_some]
    have he : f.endsBefore fresh (r ++ y) := by
      cases y with
      | nil => simpa using fst.endsBefore
      | cons d y =>
        by_cases ho : r ≠ [] ∨ f.kind ≠ .blank ∧ f.kind ≠ .lineComment
        · exact Form.endsBefore_append_neutral fst.endsBefore (by simpa using hn) ho
        · -- The last token of the first text is a blank or a line comment, and what follows ends it.
          obtain ⟨rfl, hk⟩ := not_or.1 ho |>.imp_left not_not.1
          obtain rfl := (Reads.nil _ _).unique more
          obtain ⟨hli, hin⟩ := hl f rfl
          by_cases hb : f.kind = .blank
          · have hd : isGap d = false := by simpa [StartsInk] using hin hb
            simp [Form.endsBefore, hb, hd]
          · have hc : f.kind = .lineComment := by simpa [hb] using hk
            rw [nil_append, Form.endsBefore, hc]
            exact hli hc
    have hf := fst.before he
    rw [← append_assoc, fst.append_eq] at hf
    exact .cons hf hm

lemma isNeutral_of_isGap (h : isGap c) : isNeutral c := by
  have hm : isMark c = false := by
    refine any_eq_false.2 fun p hp hme => ?_
    rw [not_isGap_of_punctuator hp c (by simpa using hme)] at h
    cases h
  simp [isNeutral, hm, isWordPart_of_isGap h]

lemma readsAs_gap (hg : IsGap g) : ReadsAs fresh slash g [] := by
  by_cases hn : g = []
  · subst hn
    exact readsAs_nil_iff.2 rfl
  · rw [← append_nil g, readsAs_gap_append hn hg]
    exact readsAs_nil_iff.2 rfl

lemma isGap_of_isLineEnd (h : isLineEnd c) : isGap c := by
  simp only [isLineEnd, or_eq_true, beq_iff_eq] at h
  rcases h with rfl | rfl <;> decide

def LineCommentMark (fresh : Bool) (x : List Char) : Prop :=
  (∃ a, x = '/' :: '/' :: a) ∨ fresh = true ∧ ∃ a, x = '#' :: '!' :: a

lemma openingKind_eq_lineComment {next : Option Char} : openingKind fresh slash c next = .lineComment ↔
      c = '/' ∧ next = some '/' ∨ fresh ∧ c = '#' ∧ next = some '!' := by
  have hg : isGap '/' = false ∧ isGap '#' = false := by decide
  constructor
  · intro h
    unfold openingKind at h
    grind
  · rintro (⟨rfl, rfl⟩ | ⟨rfl, rfl, rfl⟩)
    · simp [openingKind, hg.1]
    · simp [openingKind, hg.2]

lemma Lexes.lineComment (h : Lexes fresh slash cs f r) (hf : f.kind = .lineComment) :
    LineCommentMark fresh f.text ∧ f.text.all (fun c => !isLineEnd c) ∧ r.head?.all isLineEnd := by
  have he : r.head?.all isLineEnd := by
    have := h.endsBefore
    rwa [Form.endsBefore, hf] at this
  obtain ⟨c, a, ha, hk, hb⟩ := h.exists_body (by rw [hf]; decide)
  rw [hf] at hk hb
  rw [ha]
  have hal := (while_body hb).1
  -- The second character belongs to the comment: what follows the comment is the end of its line.
  have hn : ∀ d, isLineEnd d = false → (a ++ r).head? = some d → a.head? = some d := by
    intro d hd hh
    cases a with
    | nil =>
      rw [nil_append] at hh
      simp [hh, hd] at he
    | cons e a => exact hh
  rcases openingKind_eq_lineComment.1 hk with ⟨rfl, hs⟩ | ⟨rfl, rfl, hba⟩
  · obtain ⟨a, rfl⟩ := head?_eq_some_iff.1 (hn '/' (by decide) hs)
    refine ⟨.inl ⟨a, rfl⟩, ?_, he⟩
    simpa [isLineEnd, bne] using hal
  · obtain ⟨a, rfl⟩ := head?_eq_some_iff.1 (hn '!' (by decide) hba)
    refine ⟨.inr ⟨rfl, a, rfl⟩, ?_, he⟩
    simpa [isLineEnd, bne] using hal

lemma lexes_lineComment (hm : LineCommentMark fresh x)
    (ha : x.all (fun c => !isLineEnd c)) (he : rest.head?.all isLineEnd) :
    Lexes fresh slash (x ++ rest) ⟨.lineComment, x⟩ rest := by
  have hb : ∀ c a, x = c :: a → bodyOf .lineComment c (a ++ rest) = some (a, rest) := by
    rintro c a rfl
    have hr : a.all (fun c => c != '\n' && c != '\r') := by
      simp only [all_cons, and_eq_true] at ha
      simpa [isLineEnd, bne] using ha.2
    have hs : rest.head?.any (fun c => c != '\n' && c != '\r') = false := by
      cases rest with
      | nil => rfl
      | cons d rest => simpa [isLineEnd, bne, or_iff_not_imp_left] using he
    obtain ⟨h1, h2⟩ := takeWhile_dropWhile_local hr hs
    simp only [bodyOf, h1, h2]
  rcases hm with ⟨a, rfl⟩ | ⟨rfl, a, rfl⟩
  · exact (lexes_plain_iff (by decide)).2 ⟨openingKind_eq_lineComment.2 (.inl ⟨rfl, rfl⟩), hb _ _ rfl⟩
  · exact (lexes_plain_iff (by decide)).2
      ⟨openingKind_eq_lineComment.2 (.inr ⟨rfl, rfl, rfl⟩), hb _ _ rfl⟩

lemma essence_lineComment_append (hg : IsGap g) : essence ⟨.lineComment, x ++ g⟩ = essence ⟨.lineComment, x⟩ := by
  simp [essence, hg.ink]

lemma LineCommentMark.append (h : LineCommentMark fresh x) (g : List Char) : LineCommentMark fresh (x ++ g) := by
  rcases h with ⟨a, rfl⟩ | ⟨rfl, a, rfl⟩
  · exact .inl ⟨a ++ g, rfl⟩
  · exact .inr ⟨rfl, a ++ g, rfl⟩

lemma LineCommentMark.of_append (h : LineCommentMark fresh (x ++ g)) (hn : x ≠ []) (hg : IsGap g) :
    LineCommentMark fresh x := by
  obtain ⟨c, x, rfl⟩ := exists_cons_of_ne_nil hn
  -- The second character of the mark is not blank, so it stands in `x`.
  have hs : ∀ d a, isGap d = false → x ++ g = d :: a → ∃ a, x = d :: a := by
    intro d a hd heq
    cases x with
    | nil =>
      obtain rfl : g = d :: a := heq
      rw [hg d (by simp)] at hd
      cases hd
    | cons e x =>
      obtain ⟨rfl, -⟩ := cons.inj heq
      exact ⟨x, rfl⟩
  rcases h with ⟨a, ha⟩ | ⟨rfl, a, ha⟩
  · obtain ⟨rfl, hm⟩ := cons.inj ha
    obtain ⟨a, rfl⟩ := hs '/' a (by decide) hm
    exact .inl ⟨a, rfl⟩
  · obtain ⟨rfl, hm⟩ := cons.inj ha
    obtain ⟨a, rfl⟩ := hs '!' a (by decide) hm
    exact .inr ⟨rfl, a, rfl⟩

lemma Lexes.readsAs_append_gap (h : Lexes fresh slash x ⟨.lineComment, x⟩ []) (hg : IsGap g) :
    ReadsAs fresh slash (x ++ g) (essences [⟨.lineComment, x⟩]) := by
  obtain ⟨hm, ha, -⟩ := h.lineComment rfl
  obtain ⟨u, v, rfl, hu, hv⟩ : ∃ u v, g = u ++ v ∧ u.all (fun c => !isLineEnd c) ∧ v.head?.all isLineEnd := by
    refine ⟨g.takeWhile fun c => !isLineEnd c, g.dropWhile fun c => !isLineEnd c,
      takeWhile_append_dropWhile.symm, all_takeWhile, ?_⟩
    have := head?_dropWhile_any (fun c => !isLineEnd c) g
    cases hh : (g.dropWhile fun c => !isLineEnd c).head? with
    | none => rfl
    | some d => simpa [hh] using this
  have hu' : IsGap u := fun c hc => hg c (mem_append_left v hc)
  have hv' : IsGap v := fun c hc => hg c (mem_append_right u hc)
  have hl : Lexes fresh slash (x ++ u ++ v) ⟨.lineComment, x ++ u⟩ v :=
    lexes_lineComment (hm.append u) (by rw [all_append, ha, hu]; rfl) hv
  have hr := ReadsAs.cons hl (readsAs_gap hv')
  rwa [append_nil, append_assoc, essences_cons (by simp), essence_lineComment_append hu', ← essences_cons (by simp)] at hr

lemma ReadsAs.append_gap (h : ReadsAs fresh slash x es) (hg : IsGap g) : ReadsAs fresh slash (x ++ g) es := by
  obtain ⟨fs, hfs, rfl⟩ := h
  induction hfs with
  | nil fresh slash => exact readsAs_gap hg
  | @cons fresh slash cs rs f fs fst more ih =>
    cases g with
    | nil => simpa using ⟨_, .cons fst more, rfl⟩
    | cons d g =>
      have hd := isNeutral_of_isGap (hg d (by simp))
      have he : essences (f :: fs) = essences [f] ++ essences fs := essences_append [f] fs
      rw [he]
      by_cases hl : rs ≠ [] ∨ f.kind ≠ .blank ∧ f.kind ≠ .lineComment
      · have hf := fst.before (Form.endsBefore_append_neutral (r := g) fst.endsBefore hd hl)
        rw [← append_assoc, fst.append_eq] at hf
        exact .cons hf ih
      · -- The last token is a blank or a line comment, and grows.
        obtain ⟨rfl, hk⟩ := not_or.1 hl |>.imp_left not_not.1
        rw [(Reads.nil _ _).unique more, essences_nil, append_nil]
        have hc := fst.append_eq
        rw [append_nil] at hc
        obtain ⟨kind, tx⟩ := f
        obtain rfl : tx = cs := hc
        by_cases hb : kind = .blank
        · subst hb
          exact readsAs_gap ((fst.blank rfl).1.append hg)
        · obtain rfl : kind = .lineComment := by simpa [hb] using hk
          exact fst.readsAs_append_gap hg

lemma ReadsAs.eq_nil_of_gap (h : ReadsAs fresh slash g es) (hg : IsGap g) : es = [] :=
  (readsAs_gap hg).unique h

lemma ReadsAs.of_append_gap (h : ReadsAs fresh slash (x ++ g) es) (hg : IsGap g) : ReadsAs fresh slash x es := by
  obtain ⟨fs, hf, rfl⟩ := h
  generalize hcs : x ++ g = cs at hf
  induction hf generalizing x with
  | nil fresh slash =>
    rw [(append_eq_nil_iff.1 hcs).1]
    exact readsAs_nil_iff.2 rfl
  | @cons fresh slash cs rest f fs fst more ih =>
    have hes : essences (f :: fs) = essences [f] ++ essences fs := essences_append [f] fs
    rw [hes]
    -- The first token stands in `x`, or it reaches into the gap.
    have hin : ∀ x', x = f.text ++ x' → rest = x' ++ g → ReadsAs fresh slash x (essences [f] ++ essences fs) := by
      rintro x' rfl hr
      have he := fst.endsBefore
      rw [hr] at he
      have hd : g.head?.any Char.isDigit = false := by
        cases g with
        | nil => rfl
        | cons d g => exact isDigit_of_isNeutral (isNeutral_of_isGap (hg d (by simp)))
      exact .cons (fst.before (Form.endsBefore_of_append he fun _ => hd)) (ih hr.symm)
    rw [← fst.append_eq, append_eq_append_iff] at hcs
    rcases hcs with ⟨a, ht, rfl⟩ | ⟨x', hx, hr⟩
    · by_cases han : a = []
      · subst han
        exact hin [] (by simpa using ht.symm) rfl
      have ha : IsGap a := fun c hc => hg c (mem_append_left rest hc)
      have hr : IsGap rest := fun c hc => hg c (mem_append_right a hc)
      have hn : essences fs = [] := ReadsAs.eq_nil_of_gap ⟨fs, more, rfl⟩ hr
      rw [hn, append_nil]
      by_cases hbl : f.kind = .blank
      · rw [essences_cons_blank hbl]
        refine readsAs_gap fun c hc => (fst.blank hbl).1 c ?_
        rw [ht]
        exact mem_append_left a hc
      by_cases hl : f.kind = .lineComment
      · obtain ⟨hm, hal, -⟩ := fst.lineComment hl
        obtain ⟨c, b, hb, hc⟩ := fst.exists_cons hbl
        have hne : x ≠ [] := by
          rintro rfl
          rw [hb, nil_append] at ht
          rw [ha c (by simp [← ht])] at hc
          cases hc
        rw [ht] at hm hal
        rw [all_append, and_eq_true] at hal
        have hle : Lexes fresh slash (x ++ []) ⟨.lineComment, x⟩ [] := lexes_lineComment (hm.of_append hne ha) hal.1 rfl
        rw [append_nil] at hle
        have hre := ReadsAs.cons hle (readsAs_nil_iff.2 rfl)
        obtain ⟨kind, tx⟩ := f
        obtain rfl : kind = .lineComment := hl
        obtain rfl : tx = x ++ a := ht
        rwa [append_nil, essences_cons (by simp), ← essence_lineComment_append ha, ← essences_cons (by simp)] at hre
      · obtain ⟨-, u, c, hu, hc⟩ := fst.inkEdged hbl hl
        obtain ⟨b, d, rfl⟩ := (eq_nil_or_concat a).resolve_left han
        rw [hu, concat_eq_append, ← append_assoc] at ht
        obtain rfl : c = d := by simpa using (append_inj' ht rfl).2
        rw [ha c (by simp)] at hc
        cases hc
    · exact hin x' hx hr

lemma ink_ink (cs : List Char) : ink (ink cs) = ink cs := by
  simp [ink]

lemma Form.ink_essence (f : Form) : ink f.essence.text = ink f.text := by
  unfold essence
  split
  · exact ink_ink f.text
  · rfl

lemma ReadsAs.ink_eq (h : ReadsAs fresh slash cs es) : ink cs = es.flatMap fun e => ink e.text := by
  obtain ⟨fs, hfs, rfl⟩ := h
  induction hfs with
  | nil => rfl
  | @cons fresh slash cs r f fs fst more ih =>
    rw [← fst.append_eq, ink_append, ih]
    by_cases hf : f.kind = .blank
    · rw [essences_cons_blank hf, (fst.blank hf).1.ink, nil_append]
    · rw [essences_cons hf, flatMap_cons, f.ink_essence]

/-- Two texts are read as both one behind the other, when the second begins with a neutral character, and with a line
break if a comment stands before it. -/
lemma ReadsAs.append (hx : ReadsAs fresh slash x A) (hy : ReadsAs (fresh && x.isEmpty) (slashThrough slash A) y B)
    (hn : y.head?.all isNeutral) (hli : A.getLast?.any (fun e => e.kind == .lineComment) → y.head?.all isLineEnd) :
    ReadsAs fresh slash (x ++ y) (A ++ B) := by
  cases y with
  | nil =>
    rw [readsAs_nil_iff.1 hy]
    simpa using hx
  | cons d y =>
    have hd : isNeutral d := by simpa using hn
    obtain ⟨fs, hfs, rfl⟩ := hx
    induction hfs with
    | nil fresh slash => simpa using hy
    | @cons fresh slash cs rs f fs fst more ih =>
      have hes : essences (f :: fs) = essences [f] ++ essences fs := essences_append [f] fs
      have hcs : cs.isEmpty = false := by
        rw [← fst.append_eq]
        simp [fst.text_ne_nil]
      rw [slashThrough_essences, slashThrough_cons, hcs, Bool.and_false] at hy
      rw [hes, append_assoc]
      by_cases hl : rs ≠ [] ∨ f.kind ≠ .blank ∧ f.kind ≠ .lineComment
      · have hf := fst.before (Form.endsBefore_append_neutral (r := y) fst.endsBefore hd hl)
        rw [← append_assoc, fst.append_eq] at hf
        refine .cons hf (ih (by rwa [slashThrough_essences, Bool.false_and]) fun hl => hli ?_)
        obtain ⟨e, he, hk⟩ := (Option.any_eq_true _ _).1 hl
        rw [hes, getLast?_append, he]
        exact hk
      · -- The last token is a blank, which grows, or a line comment, which a line break ends.
        obtain ⟨rfl, hk⟩ := not_or.1 hl |>.imp_left not_not.1
        obtain rfl := (Reads.nil _ _).unique more
        rw [essences_nil, nil_append]
        by_cases hb : f.kind = .blank
        · have hg := (fst.blank hb).1
          have hcs' := fst.append_eq
          rw [append_nil] at hcs'
          rw [essences_cons_blank hb, essences_nil, nil_append, ← hcs', readsAs_gap_append fst.text_ne_nil hg]
          simpa [slashNext, Form.isTrivia, hb] using hy
        · have hc : f.kind = .lineComment := by simpa [hb] using hk
          have hed : (d :: y).head?.all isLineEnd := hli (by simp [essences, essence, hc])
          have hen : f.endsBefore fresh (d :: y) := by rwa [Form.endsBefore, hc]
          have hf := fst.before hen
          rw [← fst.append_eq, append_nil]
          exact .cons hf hy

lemma exists_append_of_essences (h : essences fs = A ++ B) :
    ∃ fs' gs, fs = fs' ++ gs ∧ essences fs' = A ∧ essences gs = B := by
  obtain ⟨l, r, hf, rfl, rfl⟩ := map_eq_append_iff.1 h
  obtain ⟨fs', gs, rfl, rfl, rfl⟩ := filter_eq_append_iff.1 hf
  exact ⟨fs', gs, rfl, rfl, rfl⟩

lemma exists_cons_of_essences {e : Form} (h : essences fs = e :: es) :
    ∃ bs f gs, fs = bs ++ f :: gs ∧ essences bs = [] ∧ essences [f] = [e] ∧ essences gs = es := by
  obtain ⟨f, r, hfi, rfl, rfl⟩ := map_eq_cons_iff.1 h
  obtain ⟨bs, gs, rfl, hb, hf, rfl⟩ := filter_eq_cons_iff.1 hfi
  refine ⟨bs, f, gs, rfl, ?_, ?_, rfl⟩
  · rw [essences, filter_eq_nil_iff.2 hb, map_nil]
  · exact essences_cons (by simpa using hf) []

lemma ReadsAs.split (h : ReadsAs fresh slash (x ++ y) (A ++ B)) (hik : ink x = A.flatMap fun e => ink e.text) :
    ReadsAs fresh slash x A ∧ ReadsAs (fresh && x.isEmpty) (slashThrough slash A) y B := by
  obtain ⟨fs, hfs, hes⟩ := h
  obtain ⟨fs, gs, rfl, rfl, rfl⟩ := exists_append_of_essences hes
  obtain ⟨hf, hg⟩ := hfs.split
  have ht := hfs.flatMap_text
  rw [flatMap_append] at ht
  have hin := ReadsAs.ink_eq ⟨fs, hf, rfl⟩
  have he := hf.isEmpty_eq
  rw [← hik] at hin
  rw [slashThrough_essences]
  rcases append_eq_append_iff.1 ht with ⟨g, rfl, hr⟩ | ⟨g, hx, rfl⟩
  · -- Blanks at the end of `x` were read later.
    have hga : IsGap g := isGap_of_ink (by simpa using hin)
    refine ⟨ReadsAs.append_gap ⟨fs, hf, rfl⟩ hga, ?_⟩
    have hm : ReadsAs (fresh && fs.isEmpty) (slashThrough slash fs) (g ++ y) (essences gs) := ⟨gs, hr ▸ hg, rfl⟩
    by_cases hn : g = []
    · subst hn
      simpa [he] using hm
    · rw [isEmpty_append_of_ne_nil _ hn, Bool.and_false]
      exact (readsAs_gap_append hn hga).1 hm
  · -- Blanks at the beginning of `y` were read before.
    rw [hx] at hin hf he
    have hga : IsGap g := isGap_of_ink (by simpa using hin)
    refine ⟨ReadsAs.of_append_gap ⟨fs, hf, rfl⟩ hga, ?_⟩
    by_cases hn : g = []
    · subst hn
      rw [append_nil] at he
      exact ⟨gs, by simpa [he] using hg, rfl⟩
    · rw [readsAs_gap_append hn hga]
      rw [isEmpty_append_of_ne_nil _ hn] at he
      exact ⟨gs, by simpa [he] using hg, rfl⟩

def endsInLine (x : List Char) : Bool := !(x.reverse.takeWhile isGap).any isLineEnd

lemma not_isLineEnd_of_endsInLine {u : List Char} (h : endsInLine (u ++ g)) (hg : IsGap g) :
    ∀ c ∈ g, isLineEnd c = false := by
  have ha : ∀ c ∈ g.reverse, isGap c := fun c hc => hg c (mem_reverse.1 hc)
  rw [endsInLine, reverse_append, takeWhile_append_of_pos ha, any_append, not_eq_true', or_eq_false_iff, any_reverse] at h
  exact fun c hc => of_not_eq_true (any_eq_false.1 h.1 c hc)

def LastLineInked (x : List Char) : Prop :=
  ∃ a z, x = a ++ z ∧ (∃ c ∈ z, isGap c = false) ∧ ∀ c ∈ z, isLineEnd c = false

lemma LastLineInked.append_left (h : LastLineInked x) (y : List Char) : LastLineInked (y ++ x) := by
  obtain ⟨a, z, rfl, hin, hl⟩ := h
  exact ⟨y ++ a, z, by rw [append_assoc], hin, hl⟩

lemma LastLineInked.endsInLine (h : LastLineInked x) : endsInLine x := by
  obtain ⟨a, z, rfl, ⟨d, hd, hin⟩, hli⟩ := h
  have hlt : (z.reverse.takeWhile isGap).length ≠ z.reverse.length := by
    intro hl
    have ha := ( takeWhile_prefix isGap).eq_of_length hl
    have hg : isGap d := by
      refine mem_takeWhile_imp (l := z.reverse) ?_
      rw [ha]
      exact mem_reverse.2 hd
    rw [hg] at hin
    cases hin
  rw [CustomElement.Script.endsInLine, reverse_append, takeWhile_append, if_neg hlt, not_eq_true', any_eq_false]
  intro c hc
  have hm := ( takeWhile_prefix isGap).subset hc
  simp [hli c (mem_reverse.1 hm)]

lemma Lexes.lastLineInked (h : Lexes fresh slash cs f r) (hf : f.kind ≠ .blank) : LastLineInked f.text := by
  by_cases hl : f.kind = .lineComment
  · obtain ⟨c, a, ha, hc⟩ := h.exists_cons hf
    refine ⟨[], f.text, rfl, ⟨c, by simp [ha], hc⟩, ?_⟩
    simpa using (h.lineComment hl).2.1
  · obtain ⟨-, a, c, ha, hc⟩ := h.inkEdged hf hl
    refine ⟨a, [c], ha, ⟨c, by simp, hc⟩, fun d hd => ?_⟩
    obtain rfl := mem_singleton.1 hd
    by_contra he
    rw [isGap_of_isLineEnd (of_not_eq_false he)] at hc
    cases hc

lemma Reads.lastLineInked (h : Reads fresh slash cs fs) (hn : fs ≠ [])
    (hl : (fs.map Form.kind).getLast? ≠ some .blank) : LastLineInked cs := by
  obtain ⟨fs, f, rfl⟩ := (eq_nil_or_concat' fs).resolve_left hn
  obtain ⟨r, fst, -⟩ := h.split.2.uncons
  rw [← h.flatMap_text, flatMap_append, flatMap_singleton]
  exact (fst.lastLineInked (by simpa using hl)).append_left _

lemma ReadsAs.not_lineComment (h : ReadsAs fresh slash (x ++ c :: y) (A ++ B))
    (hin : ink x = A.flatMap fun e => ink e.text) (hx : endsInLine x) (hc : isGap c = false) :
    A.getLast?.any (fun e => e.kind == .lineComment) = false := by
  by_contra hba
  obtain ⟨e, he, hk⟩ := (Option.any_eq_true _ _).1 (of_not_eq_false hba)
  obtain ⟨A, rfl⟩ := getLast?_eq_some_iff.1 he
  obtain ⟨fs, hfs, hes⟩ := h
  rw [append_assoc] at hes
  obtain ⟨fs, gs, rfl, rfl, hgs⟩ := exists_append_of_essences hes
  obtain ⟨bs, f, gs, rfl, hbs, hf, rfl⟩ := exists_cons_of_essences hgs
  have hfk : f.kind = .lineComment := by
    have hb : f.kind ≠ .blank := fun hb => by simp [essences_cons_blank hb] at hf
    rw [essences_cons hb] at hf
    rw [← f.kind_essence, (cons.inj hf).1]
    simpa using hk
  -- The comment is read, and the line ends behind it.
  have hen : (gs.flatMap Form.text).head?.all isLineEnd := by
    obtain ⟨r, fst, more⟩ := hfs.split.2.split.2.uncons
    rw [more.flatMap_text]
    exact (fst.lineComment hfk).2.2
  have hs : fs ++ (bs ++ f :: gs) = (fs ++ bs ++ [f]) ++ gs := by simp
  rw [hs] at hfs
  have hin' : ink ((fs ++ bs ++ [f]).flatMap Form.text) = ink x := by
    rw [hin, ReadsAs.ink_eq ⟨_, hfs.split.1, rfl⟩]
    simp [hbs, hf]
  have ht := hfs.flatMap_text
  rw [flatMap_append] at ht
  generalize (fs ++ bs ++ [f]).flatMap Form.text = t at ht hin'
  rcases append_eq_append_iff.1 ht with ⟨g, rfl, hr⟩ | ⟨g, rfl, hr⟩
  · have hg : IsGap g := isGap_of_ink (by simpa using hin')
    rw [hr] at hen
    cases g with
    | nil =>
      rw [isGap_of_isLineEnd (by simpa using hen)] at hc
      cases hc
    | cons d g =>
      have hd := not_isLineEnd_of_endsInLine hx hg d (by simp)
      simp [hd] at hen
  · have hg : IsGap g := isGap_of_ink (by simpa using hin')
    cases g with
    | nil =>
      rw [nil_append] at hr
      rw [← hr] at hen
      rw [isGap_of_isLineEnd (by simpa using hen)] at hc
      cases hc
    | cons d g =>
      obtain ⟨rfl, -⟩ := cons.inj hr
      rw [hg c (by simp)] at hc
      cases hc

/-- Where a text stands matters only for a slash at its front, and for a number sign before an
exclamation mark. -/
lemma Reads.anywhere {fresh' slash' : Bool} (h : Reads fresh slash x fs) (hs : slash' = slash ∨
      (fs.find? fun f => !f.isTrivia).all (fun f => f.text.head? != some '/'))
    (hf : fresh' = fresh ∨ ∀ tl, x ≠ '#' :: '!' :: tl) : Reads fresh' slash' x fs := by
  induction h generalizing fresh' slash' with
  | nil => exact .nil _ _
  | @cons fresh slash cs r f fs fst more ih =>
    by_cases ht : f.isTrivia
    · have hn : f.slashNext slash' = slash' := by simp [slashNext, ht]
      have hm : Reads false slash' r fs := ih (by simpa [slashNext, ht] using hs) (.inl rfl)
      refine .cons (fst.anywhere (.inr ?_) hf) (hn.symm ▸ hm)
      simp only [Form.isTrivia, or_eq_true, beq_iff_eq] at ht
      rcases ht with (hb | hl) | hbl
      · obtain ⟨c, a, ha⟩ := exists_cons_of_ne_nil fst.text_ne_nil
        have hc := (fst.blank hb).1 c (by simp [ha])
        refine .inl ?_
        rw [ha, head?_cons]
        rintro ⟨⟩
        revert hc
        decide
      · exact .inr (.inl hl)
      · exact .inr (.inr hbl)
    · have hco := of_not_eq_true ht
      have hn : f.slashNext slash' = f.slashNext slash := by simp [slashNext, hco]
      refine .cons (fst.anywhere (hs.imp_right fun h => .inl ?_) hf) (hn.symm ▸ more)
      simpa [find?_cons, hco] using h

lemma ReadsAs.anywhere {fresh' slash' : Bool} (h : ReadsAs fresh slash x es) (hs : slash' = slash ∨
      (es.find? fun e => !e.isTrivia).all (fun e => e.text.head? != some '/'))
    (hf : fresh' = fresh ∨ ∀ tl, x ≠ '#' :: '!' :: tl) : ReadsAs fresh' slash' x es := by
  obtain ⟨fs, hfs, rfl⟩ := h
  rw [find?_essences] at hs
  exact ⟨fs, hfs.anywhere hs hf, rfl⟩

end CustomElement.Script
