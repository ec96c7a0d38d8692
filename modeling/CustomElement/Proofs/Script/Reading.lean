import CustomElement.Proofs.Script.Lookahead

/-!
# What a text is read as

`Reads fresh slash cs fs` says that the text `cs` is read as the tokens `fs`, without their places: of what stands in
front of the text only two things matter, whether it is the very beginning (`fresh`) and whether a slash would start a
regular expression (`slash`).
-/

namespace CustomElement.Script

open List Text

variable {fresh : Bool} {c : Char} {f : Form} {cs rest' : List Char} {es fs : List Form} {slash : Bool}

/-- The token `f` is read off the front of `cs`, and `rest` is left. -/
def Lexes (fresh slash : Bool) (cs : List Char) (f : Form) (rest : List Char) : Prop :=
  ∃ offset prev c tail, cs = c :: tail ∧ (offset == 0) = fresh ∧ regexAllowed prev = slash ∧
    outcome (lexeme offset prev c tail) = some (f.kind, f.text, rest)

namespace Lexes

variable {slash : Bool} {rest : List Char}

section

variable (h : Lexes fresh slash cs f rest)

include h

lemma append_eq : f.text ++ rest = cs := by
  obtain ⟨off, p, c, tl, rfl, -, -, h⟩ := h
  obtain ⟨a, ha, rfl⟩ := cons_of_outcome h
  rw [ha, cons_append]

lemma text_ne_nil : f.text ≠ [] := by
  obtain ⟨off, p, c, tl, rfl, -, -, h⟩ := h
  obtain ⟨a, ha, -⟩ := cons_of_outcome h
  rw [ha]
  exact cons_ne_nil c a

lemma endsBefore : f.endsBefore fresh rest := by
  obtain ⟨off, p, c, tl, rfl, rfl, -, h⟩ := h
  exact endsBefore_of_lexeme h

/-- From every place of the same sort the same token is read, also before another text that does
not continue it. -/
lemma outcome_eq {off : Nat} {p : Option Token} {tl : List Char}
    (hf : (off == 0) = fresh) (hs : regexAllowed p = slash) (he : f.endsBefore fresh rest')
    (hc : f.text ++ rest' = c :: tl) : outcome (lexeme off p c tl) = some (f.kind, f.text, rest') := by
  obtain ⟨off', p', d, tl', rfl, rfl, rfl, h⟩ := h
  obtain ⟨kind, x⟩ := f
  obtain ⟨a, rfl, -⟩ := cons_of_outcome h
  obtain ⟨rfl, rfl⟩ := cons.inj hc
  exact lexeme_local h hf hs he

lemma before (he : f.endsBefore fresh rest') : Lexes fresh slash (f.text ++ rest') f rest' := by
  obtain ⟨c, a, ha⟩ := exists_cons_of_ne_nil h.text_ne_nil
  obtain ⟨off, p, -, -, -, hf, hs, -⟩ := id h
  refine ⟨off, p, c, a ++ rest', by rw [ha]; rfl, hf, hs, ?_⟩
  exact h.outcome_eq hf hs he (by rw [ha]; rfl)

lemma unique {f' : Form} (h' : Lexes fresh slash cs f' rest') : f' = f ∧ rest' = rest := by
  obtain ⟨off, p, c, tl, hc, hf, hs, h'⟩ := h'
  have heq := h.outcome_eq hf hs h.endsBefore (h.append_eq.trans hc)
  rw [heq] at h'
  obtain ⟨kind, x⟩ := f
  obtain ⟨kind', x'⟩ := f'
  simp_all

end

end Lexes

lemma exists_offset (fresh : Bool) : ∃ off : Nat, (off == 0) = fresh := by
  cases fresh
  · exact ⟨1, rfl⟩
  · exact ⟨0, rfl⟩

lemma exists_previous (slash : Bool) : ∃ p : Option Token, regexAllowed p = slash := by
  cases slash
  · exact ⟨some ⟨.number, "", 0⟩, rfl⟩
  · exact ⟨none, rfl⟩

lemma lexes_plain_iff {a rest : List Char} {kind : Kind} (hc : c ≠ '`') : Lexes fresh slash (c :: cs) ⟨kind, c :: a⟩ rest ↔
      openingKind fresh slash c cs.head? = kind ∧ bodyOf kind c cs = some (a, rest) := by
  constructor
  · rintro ⟨off, p, d, tl, heq, rfl, rfl, h⟩
    obtain ⟨rfl, rfl⟩ := cons.inj heq
    rw [lexeme, if_neg hc] at h
    exact plainLexeme_eq_some.1 h
  · intro h
    obtain ⟨off, rfl⟩ := exists_offset fresh
    obtain ⟨p, rfl⟩ := exists_previous slash
    refine ⟨off, p, c, cs, rfl, rfl, rfl, ?_⟩
    rw [lexeme, if_neg hc]
    exact plainLexeme_eq_some.2 h

lemma lexes_template {rest : List Char} (h : Lexes fresh slash ('`' :: cs) f rest) :
    f.kind = .template ∧ ∀ fresh' slash', Lexes fresh' slash' ('`' :: cs) f rest := by
  obtain ⟨kind, x⟩ := f
  obtain ⟨off, p, c, tl, heq, -, -, h⟩ := h
  obtain ⟨rfl, rfl⟩ := cons.inj heq
  obtain ⟨a, rfl, rfl⟩ := cons_of_outcome h
  obtain ⟨rfl, hb⟩ := lexeme_template.1 h
  refine ⟨rfl, fun fresh' slash' => ?_⟩
  obtain ⟨off', rfl⟩ := exists_offset fresh'
  obtain ⟨p', rfl⟩ := exists_previous slash'
  refine ⟨off', p', '`', a ++ rest, rfl, rfl, rfl, lexeme_template.2 ⟨rfl, ?_⟩⟩
  exact lexeme_templateRest_interpolation_local.2.1 _ _ _ _ _ hb _ _ rest

namespace Lexes

variable {slash : Bool} {rest : List Char}

lemma exists_body (h : Lexes fresh slash cs f rest) (hf : f.kind ≠ .template) :
    ∃ c a, f.text = c :: a ∧ openingKind fresh slash c (a ++ rest).head? = f.kind ∧
      bodyOf f.kind c (a ++ rest) = some (a, rest) := by
  obtain ⟨kind, x⟩ := f
  obtain ⟨c, a, rfl⟩ := exists_cons_of_ne_nil h.text_ne_nil
  have hcs := h.append_eq
  rw [cons_append] at hcs
  subst hcs
  have hc : c ≠ '`' := by
    rintro rfl
    exact hf (lexes_template h).1
  exact ⟨c, a, rfl, (lexes_plain_iff hc).1 h⟩

/-- Only a slash that opens no comment is read by what stands before it, and only a shebang by its place. -/
lemma anywhere (h : Lexes fresh slash cs f rest) {fresh' slash' : Bool}
    (hs : slash' = slash ∨ f.text.head? ≠ some '/' ∨ f.kind = .lineComment ∨ f.kind = .blockComment)
    (hf : fresh' = fresh ∨ ∀ tl, cs ≠ '#' :: '!' :: tl) : Lexes fresh' slash' cs f rest := by
  obtain ⟨kind, x⟩ := f
  obtain ⟨c, a, rfl⟩ := exists_cons_of_ne_nil h.text_ne_nil
  have hcs := h.append_eq
  rw [cons_append] at hcs
  subst hcs
  by_cases hc : c = '`'
  · subst hc
    exact (lexes_template h).2 fresh' slash'
  · rw [lexes_plain_iff hc] at h ⊢
    obtain ⟨hk, hbo⟩ := h
    refine ⟨?_, hbo⟩
    have hm : (fresh' && c == '#' && (a ++ rest).head? == some '!') =
        (fresh && c == '#' && (a ++ rest).head? == some '!') := by
      rcases hf with rfl | hf
      · rfl
      · have hn : (c == '#' && (a ++ rest).head? == some '!') = false := by
          by_contra hb
          simp only [not_eq_false, and_eq_true, beq_iff_eq] at hb
          obtain ⟨tl, ht⟩ := head?_eq_some_iff.1 hb.2
          exact hf tl (by rw [hb.1, ht])
        rw [Bool.and_assoc, Bool.and_assoc, hn, Bool.and_false, Bool.and_false]
    have hr : openingKind fresh slash' c (a ++ rest).head? = kind := by
      rcases hs with rfl | hs
      · exact hk
      · unfold openingKind at hk ⊢
        simp only [head?_cons] at hs
        grind
    rw [← hr]
    simp only [openingKind, hm]

end Lexes

def Form.isTrivia (f : Form) : Bool :=
  f.kind == .blank || f.kind == .lineComment || f.kind == .blockComment

/-- Behind this token a slash starts a regular expression, if it did in front of trivia. -/
def Form.slashNext (slash : Bool) (f : Form) : Bool := if f.isTrivia then slash else f.slashAfter

inductive Reads : Bool → Bool → List Char → List Form → Prop
  | nil (fresh slash : Bool) : Reads fresh slash [] []
  | cons {fresh slash : Bool} {cs rest : List Char} {f : Form} {fs : List Form}
      (first : Lexes fresh slash cs f rest) (more : Reads false (f.slashNext slash) rest fs) :
      Reads fresh slash cs (f :: fs)

lemma Token.form_mk (kind : Kind) (x : List Char) (st : Nat) : (Token.mk kind (String.ofList x) st).form = ⟨kind, x⟩ := by
  simp [Token.form]

lemma regexAllowed_orPrevious_mk (kind : Kind) (x : List Char) (st : Nat) (p : Option Token) :
    regexAllowed (Token.orPrevious ⟨kind, String.ofList x, st⟩ p) = Form.slashNext (regexAllowed p) ⟨kind, x⟩ := by
  rw [regexAllowed_orPrevious, Token.form_mk]
  rfl

lemma reads_of_tokensFrom {off : Nat} {p : Option Token} {tokens : List Token} (h : tokensFrom off p cs = .ok tokens) :
    Reads (off == 0) (regexAllowed p) cs (tokens.map Token.form) := by
  fun_induction tokensFrom off p cs generalizing tokens with
  | case1 =>
    obtain rfl : [] = tokens := ok.inj h
    exact .nil _ _
  | case2 off p c cs ih =>
    obtain ⟨⟨kind, cut⟩, hle, h⟩ := bind_eq_ok.1 h
    obtain ⟨more, hm, h⟩ := bind_eq_ok.1 h
    obtain rfl : _ :: more = tokens := ok.inj h
    rw [map_cons, Token.form_mk]
    have hp : byteLength cut.head ≠ 0 := by
      obtain ⟨d, ds, hd⟩ := exists_cons_of_ne_nil cut.head_ne_nil
      have := d.utf8Size_pos
      rw [hd, byteLength_cons]
      omega
    have hr := ih kind cut hm
    have hl : (off + byteLength cut.head == 0) = false := by
      simp only [beq_eq_false_iff_ne]
      omega
    rw [hl, regexAllowed_orPrevious_mk] at hr
    exact .cons ⟨off, p, c, cs, rfl, rfl, rfl, outcome_eq_some.2 ⟨cut, hle, rfl, rfl⟩⟩ hr

lemma tokensFrom_of_reads (h : Reads fresh slash cs fs) (off : Nat) (p : Option Token)
    (hf : (off == 0) = fresh) (hs : regexAllowed p = slash) :
    ∃ ts, tokensFrom off p cs = .ok ts ∧ ts.map Token.form = fs := by
  induction h generalizing off p with
  | nil => exact ⟨[], by rw [tokensFrom], rfl⟩
  | @cons fresh slash cs rest f fs fst more ih =>
    obtain ⟨c, tail, hc⟩ : ∃ c tail, cs = c :: tail := by
      obtain ⟨-, -, c, tail, hc, -⟩ := fst
      exact ⟨c, tail, hc⟩
    have ho := fst.outcome_eq hf hs fst.endsBefore (fst.append_eq.trans hc)
    obtain ⟨cut, hle, hh, rfl⟩ := outcome_eq_some.1 ho
    have hp := fst.text_ne_nil
    have hl : (off + byteLength cut.head == 0) = false := by
      obtain ⟨d, ds, hd⟩ := exists_cons_of_ne_nil cut.head_ne_nil
      have := d.utf8Size_pos
      rw [hd, byteLength_cons, beq_eq_false_iff_ne]
      omega
    obtain ⟨ts, ht, rfl⟩ := ih (off + byteLength cut.head)
      (Token.orPrevious ⟨f.kind, String.ofList cut.head, off⟩ p)
      hl (by rw [regexAllowed_orPrevious_mk, hs, hh])
    refine ⟨⟨f.kind, String.ofList cut.head, off⟩ :: ts, ?_, ?_⟩
    · rw [hc, tokensFrom]
      exact bind_eq_ok.2 ⟨_, hle, bind_eq_ok.2 ⟨_, ht, rfl⟩⟩
    · rw [map_cons, Token.form_mk, hh]

lemma tokenize_eq_ok_iff {src : String} : (∃ ts, tokenize src = .ok ts ∧ ts.map Token.form = fs) ↔
      Reads true true src.toList fs := by
  constructor
  · rintro ⟨ts, ht, rfl⟩
    exact reads_of_tokensFrom (mapError_eq_ok.1 ht)
  · intro h
    obtain ⟨ts, ht, hf⟩ := tokensFrom_of_reads h 0 none rfl rfl
    exact ⟨ts, mapError_eq_ok.2 ht, hf⟩

lemma Token.eq_of_form {t u : Token} (h : t.form = u.form) (hs : t.start = u.start) : t = u := by
  obtain ⟨kind, x, st⟩ := t
  obtain ⟨kind', x', st'⟩ := u
  simp only [Token.form, Form.mk.injEq, toList_inj] at h
  simp only [Token.mk.injEq]
  exact ⟨h.1, h.2, hs⟩

def Token.shift (n : Nat) (t : Token) : Token := { t with start := t.start + n }

lemma TilesFrom.eq_map_shift {off n : Nat} {as bs as' bs' : List Token} {cs cs' : List Char}
    (h : TilesFrom (off + n) (as ++ bs) cs) (h' : TilesFrom off (as' ++ bs') cs')
    (hf : as.map Token.form = as'.map Token.form) : as = as'.map (Token.shift n) := by
  induction as generalizing off as' cs cs' with
  | nil => rw [map_eq_nil_iff.1 hf.symm, map_nil]
  | cons a as ih =>
    obtain ⟨a', as', rfl, hfo, hm⟩ := map_eq_cons_iff.1 hf.symm
    obtain ⟨hs, -, rest, -, hr⟩ := h
    obtain ⟨hs', -, rest', -, hr'⟩ := h'
    have ha : a = a'.shift n := Token.eq_of_form hfo.symm (hs.trans (by rw [Token.shift, hs']))
    have hst : a.stop = a'.stop + n := by
      rw [ha]
      exact Nat.add_right_comm ..
    rw [hst] at hr
    rw [map_cons, ← ha, ← ih hr hr' hm.symm]

lemma reads_iff_of_lexes {rest : List Char} (h : Lexes fresh slash cs f rest) :
    Reads fresh slash cs fs ↔ ∃ more, fs = f :: more ∧ Reads false (f.slashNext slash) rest more := by
  constructor
  · intro hr
    cases hr with
    | nil => exact absurd (append_eq_nil_iff.1 h.append_eq).1 h.text_ne_nil
    | cons fst more =>
      obtain ⟨rfl, rfl⟩ := h.unique fst
      exact ⟨_, rfl, more⟩
  · rintro ⟨more, rfl, hm⟩
    exact .cons h hm

namespace Reads

variable {slash : Bool}

lemma flatMap_text (h : Reads fresh slash cs fs) : fs.flatMap Form.text = cs := by
  induction h with
  | nil => rfl
  | cons fst more ih => rw [flatMap_cons, ih, fst.append_eq]

lemma uncons (h : Reads fresh slash cs (f :: fs)) :
    ∃ rest, Lexes fresh slash cs f rest ∧ Reads false (f.slashNext slash) rest fs := by
  cases h with
  | cons fst more => exact ⟨_, fst, more⟩

lemma unique (h : Reads fresh slash cs fs) {fs' : List Form} (h' : Reads fresh slash cs fs') : fs' = fs := by
  induction h generalizing fs' with
  | nil =>
    cases h' with
    | nil => rfl
    | cons fst more => exact absurd (append_eq_nil_iff.1 fst.append_eq).1 fst.text_ne_nil
  | cons fst more ih =>
    obtain ⟨more', rfl, hm'⟩ := (reads_iff_of_lexes fst).1 h'
    rw [ih hm']

end Reads

def ink (cs : List Char) : List Char := cs.filter fun c => !isGap c

@[simp] lemma ink_nil : ink [] = [] := rfl

@[simp] lemma ink_append (a b : List Char) : ink (a ++ b) = ink a ++ ink b := filter_append a b

lemma ink_cons_of_not_gap (h : isGap c = false) (cs : List Char) : ink (c :: cs) = c :: ink cs := by
  simp [ink, h]

lemma ink_eq_nil : ink cs = [] ↔ cs.all isGap := by
  simp [ink, filter_eq_nil_iff]

def Form.essence (f : Form) : Form :=
  if f.kind == .lineComment || f.kind == .blockComment then ⟨f.kind, ink f.text⟩ else f

export Form (slashNext essence)

@[simp] lemma Form.kind_essence (f : Form) : f.essence.kind = f.kind := by
  unfold essence
  split <;> rfl

@[simp] lemma Form.isTrivia_essence (f : Form) : f.essence.isTrivia = f.isTrivia := by
  simp [Form.isTrivia]

lemma Form.essence_of_code (h : f.isTrivia = false) : f.essence = f := by
  simp only [Form.isTrivia, or_eq_false_iff] at h
  simp [essence, h]

lemma Form.slashNext_essence (slash : Bool) (f : Form) : f.essence.slashNext slash = f.slashNext slash := by
  by_cases h : f.isTrivia
  · simp [slashNext, h]
  · rw [Form.essence_of_code (of_not_eq_true h)]

/-- The tokens that are not blank, without what is blank in comments. -/
def essences (fs : List Form) : List Form := (fs.filter fun f => f.kind != .blank).map essence

@[simp] lemma essences_nil : essences [] = [] := rfl

@[simp] lemma essences_append (a b : List Form) : essences (a ++ b) = essences a ++ essences b := by
  simp [essences]

lemma essences_cons_blank (h : f.kind = .blank) (fs : List Form) : essences (f :: fs) = essences fs := by
  simp [essences, h]

lemma essences_cons (h : f.kind ≠ .blank) (fs : List Form) : essences (f :: fs) = f.essence :: essences fs := by
  simp [essences, h]

/-- But for blanks, the text is read as these tokens. -/
def ReadsAs (fresh slash : Bool) (cs : List Char) (es : List Form) : Prop :=
  ∃ fs, Reads fresh slash cs fs ∧ essences fs = es

lemma readsAs_nil_iff : ReadsAs fresh slash [] es ↔ es = [] := by
  constructor
  · rintro ⟨fs, hf, rfl⟩
    rw [(Reads.nil fresh slash).unique hf]
    rfl
  · rintro rfl
    exact ⟨[], .nil _ _, rfl⟩

section

variable {slash : Bool} {rest : List Char}

lemma readsAs_iff_of_blank (h : Lexes fresh slash cs f rest)
    (hf : f.kind = .blank) : ReadsAs fresh slash cs es ↔ ReadsAs false slash rest es := by
  have hn : f.slashNext slash = slash := by simp [slashNext, Form.isTrivia, hf]
  constructor
  · rintro ⟨fs, hfs, rfl⟩
    obtain ⟨more, rfl, hm⟩ := (reads_iff_of_lexes h).1 hfs
    exact ⟨more, hn ▸ hm, (essences_cons_blank hf more).symm⟩
  · rintro ⟨fs, hfs, rfl⟩
    exact ⟨f :: fs, .cons h (hn.symm ▸ hfs), essences_cons_blank hf fs⟩

lemma readsAs_iff_of_lexes (h : Lexes fresh slash cs f rest) (hf : f.kind ≠ .blank) :
    ReadsAs fresh slash cs es ↔ ∃ more, es = f.essence :: more ∧ ReadsAs false (f.slashNext slash) rest more := by
  constructor
  · rintro ⟨fs, hfs, rfl⟩
    obtain ⟨more, rfl, hm⟩ := (reads_iff_of_lexes h).1 hfs
    exact ⟨essences more, essences_cons hf more, more, hm, rfl⟩
  · rintro ⟨more, rfl, fs, hfs, rfl⟩
    exact ⟨f :: fs, .cons h hfs, essences_cons hf fs⟩

lemma ReadsAs.cons (fst : Lexes fresh slash cs f rest)
    (more : ReadsAs false (f.slashNext slash) rest es) : ReadsAs fresh slash cs (essences [f] ++ es) := by
  obtain ⟨fs, hf, rfl⟩ := more
  exact ⟨f :: fs, .cons fst hf, essences_append [f] fs⟩

end

lemma ReadsAs.unique {es' : List Form} (h : ReadsAs fresh slash cs es) (h' : ReadsAs fresh slash cs es') : es' = es := by
  obtain ⟨fs, hf, rfl⟩ := h
  obtain ⟨fs', hf', rfl⟩ := h'
  rw [hf.unique hf']

end CustomElement.Script
