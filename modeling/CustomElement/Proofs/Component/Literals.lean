import CustomElement.Component.Render
import CustomElement.Proofs.Script.TokenEdges

/-!
# Markup as a template literal

The literal of a text without interpolations is read as one token, unless the text ends with an odd number of
backslashes (`templateLiteral_closed_iff`); in a text that is the content of a template literal already, the
expressions stay as they are exactly if no literal is nested in them (`interpolations_kept_iff`).
-/

namespace CustomElement.Component

open List Script Text

variable {cs : List Char}

def backslashes (cs : List Char) : Nat := (cs.reverse.takeWhile (· == '\\')).length

/-- Some backtick has an even number of backslashes before it. -/
def HasBareBacktick (cs : List Char) : Prop :=
  ∃ front back, cs = front ++ '`' :: back ∧ Even (backslashes front)

/-- An odd number of backslashes stands before what follows `cs`, if `escaped` says so of `cs`. -/
def escapedAfter (escaped : Bool) (cs : List Char) : Bool :=
  cs.foldl (fun escaped c => c == '\\' && !escaped) escaped

@[simp] lemma escapedAfter_nil (escaped : Bool) : escapedAfter escaped [] = escaped := rfl

@[simp] lemma escapedAfter_cons (escaped : Bool) (c : Char) (cs : List Char) :
    escapedAfter escaped (c :: cs) = escapedAfter (c == '\\' && !escaped) cs := rfl

lemma escapedAfter_append (escaped : Bool) (a b : List Char) :
    escapedAfter escaped (a ++ b) = escapedAfter (escapedAfter escaped a) b := foldl_append

lemma backslashes_concat (cs : List Char) (c : Char) :
    backslashes (cs ++ [c]) = if c = '\\' then backslashes cs + 1 else 0 := by
  by_cases hc : c = '\\' <;> simp [backslashes, hc]

lemma escapedAfter_eq_true : escapedAfter false cs ↔ Odd (backslashes cs) := by
  induction cs using reverseRecOn with
  | nil => simp [backslashes]
  | append_singleton cs c ih =>
    rw [escapedAfter_append, backslashes_concat, escapedAfter_cons, escapedAfter_nil]
    by_cases hc : c = '\\'
    · simp [hc, ← ih, Nat.odd_add_one, -Nat.not_odd_iff_even]
    · simp [hc]

lemma escapedAfter_eq_false : escapedAfter false cs = false ↔ Even (backslashes cs) := by
  rw [← Nat.not_odd_iff_even, ← escapedAfter_eq_true, Bool.not_eq_true]

lemma escapeFrom_eq_self {escaped : Bool} :
    escapeFrom escaped cs = cs ↔ ∀ fr back, cs = fr ++ '`' :: back → escapedAfter escaped fr := by
  induction cs generalizing escaped with
  | nil => simp [escapeFrom]
  | cons c cs ih =>
    rw [escapeFrom]
    split
    · rename_i hb
      obtain ⟨rfl, rfl⟩ : c = '`' ∧ escaped = false := by simpa using hb
      refine iff_of_false (by simp) fun h => ?_
      exact Bool.false_ne_true (h [] cs rfl)
    · rename_i hb
      rw [cons_inj_right, ih]
      constructor
      · rintro h (_ | ⟨d, fr⟩) back hc
        · obtain ⟨rfl, -⟩ := cons.inj hc
          simpa using hb
        · obtain ⟨rfl, rfl⟩ := cons.inj hc
          exact h fr back rfl
      · rintro h fr back rfl
        exact h (c :: fr) back rfl

lemma escapeFrom_eq_self_iff : escapeFrom false cs = cs ↔ ¬ HasBareBacktick cs := by
  rw [escapeFrom_eq_self, HasBareBacktick]
  simp only [not_exists, not_and, ← escapedAfter_eq_false, not_eq_false]

lemma escapeFrom_append_eq_self {escaped : Bool} {a b : List Char} : escapeFrom escaped (a ++ b) = a ++ b ↔
      escapeFrom escaped a = a ∧ escapeFrom (escapedAfter escaped a) b = b := by
  induction a generalizing escaped with
  | nil => simp [escapeFrom]
  | cons c a ih =>
    rw [cons_append, escapeFrom, escapeFrom, escapedAfter_cons]
    split
    · rename_i hb
      obtain ⟨rfl, rfl⟩ : c = '`' ∧ escaped = false := by simpa using hb
      simp
    · rw [cons_inj_right, cons_inj_right, ih]

lemma escapeFrom_escape (c : Char) (cs : List Char) :
    escapeFrom false ('\\' :: c :: cs) = '\\' :: c :: escapeFrom false cs := by
  simp [escapeFrom]

lemma escapeFrom_backtick (cs : List Char) : escapeFrom false ('`' :: cs) = '\\' :: '`' :: escapeFrom false cs := by
  simp [escapeFrom]

lemma escapeFrom_char {c : Char} (he : c ≠ '\\') (hb : c ≠ '`') (cs : List Char) :
    escapeFrom false (c :: cs) = c :: escapeFrom false cs := by
  rw [escapeFrom, if_neg (by simp [hb]), beq_eq_false_iff_ne.2 he]
  rfl

lemma head?_escapeFrom {c : Char} (h : (escapeFrom false cs).head? = some c) (hc : c ≠ '\\') : cs.head? = some c := by
  cases cs with
  | nil => cases h
  | cons d cs =>
    rw [escapeFrom] at h
    split at h
    · exact absurd (some.inj h).symm hc
    · exact h

def HasInterpolation (cs : List Char) : Prop := ['$', '{'] <:+: cs

instance (cs : List Char) : Decidable (HasInterpolation cs) := inferInstanceAs (Decidable (_ <:+: _))

lemma HasInterpolation.cons (c : Char) (h : HasInterpolation cs) : HasInterpolation (c :: cs) :=
  h.trans (suffix_cons c cs).isInfix

/-- Behind its opening backtick, the escaped text is read as far as the backtick that closes it. -/
lemma partsOf_templateRest_escapeFrom (h : ¬ HasInterpolation cs) (st off : Nat) {a b : List Char} :
    partsOf (templateRest st off (escapeFrom false cs ++ ['`'])) = some (a, b) ↔
      escapedAfter false cs = false ∧ a = escapeFrom false cs ++ ['`'] ∧ b = [] := by
  -- Two characters at a time behind a backslash, as literals are read.
  induction hn : cs.length using Nat.strong_induction_on generalizing cs off a with
  | _ n ih =>
    subst hn
    cases cs with
    | nil =>
      have hc : partsOf (templateRest st off ['`']) = some (['`'], []) := templateRest_close
      simp only [escapeFrom, nil_append, hc]
      simp [eq_comm]
    | cons c cs =>
      have hcs : ¬ HasInterpolation cs := fun hi => h (hi.cons c)
      by_cases he : c = '\\'
      · subst he
        cases cs with
        | nil =>
          refine iff_of_false (fun hre => ?_) (by simp)
          obtain ⟨a', -, hm⟩ := templateRest_escape.1 hre
          rw [templateRest.eq_def] at hm
          cases hm
        | cons c cs =>
          have hl : escapedAfter false ('\\' :: c :: cs) = escapedAfter false cs := by simp
          rw [escapeFrom_escape, cons_append, cons_append, templateRest_escape, hl]
          simp only [ih cs.length (by simp only [length_cons]; omega) (fun hi => hcs (hi.cons c)) _ rfl]
          grind
      · have hl : escapedAfter false (c :: cs) = escapedAfter false cs := by
          rw [escapedAfter_cons, beq_eq_false_iff_ne.2 he, Bool.false_and]
        have hr := fun off a' => ih cs.length (lt_succ_self _) hcs off (a := a') rfl
        by_cases hb : c = '`'
        · subst hb
          rw [escapeFrom_backtick, cons_append, cons_append, templateRest_escape, hl]
          simp only [hr]
          grind
        · have hma : c = '$' → (escapeFrom false cs ++ ['`']).head? ≠ some '{' := by
            rintro rfl hh
            have hbr : (escapeFrom false cs).head? = some '{' := by
              cases hni : escapeFrom false cs with
              | nil => simp [hni] at hh
              | cons d ds => simpa [hni] using hh
            obtain ⟨tl, rfl⟩ := head?_eq_some_iff.1 (head?_escapeFrom hbr (by decide))
            exact h ⟨[], tl, rfl⟩
          rw [escapeFrom_char he hb, cons_append, templateRest_char he hb hma, hl]
          simp only [hr]
          grind

lemma reads_template_iff {body : List Char} :
    Reads true true ('`' :: body) [⟨.template, '`' :: body⟩] ↔ partsOf (templateRest 0 1 body) = some (body, []) := by
  constructor
  · intro h
    obtain ⟨r, ⟨off, p, c, tl, hc, ho, -, hf⟩, hm⟩ := h.uncons
    obtain rfl : r = [] := by simpa using hm.flatMap_text.symm
    obtain ⟨rfl, rfl⟩ := cons.inj hc
    obtain rfl : off = 0 := by simpa using ho
    exact (lexeme_template.1 hf).2
  · intro h
    exact .cons ⟨0, none, '`', body, rfl, rfl, rfl, lexeme_template.2 ⟨rfl, h⟩⟩ (.nil _ _)

lemma tokenize_eq_template_iff {text : String} :
    tokenize text = .ok [⟨.template, text, 0⟩] ↔ Reads true true text.toList [⟨.template, text.toList⟩] := by
  rw [← tokenize_eq_ok_iff]
  constructor
  · exact fun h => ⟨_, h, rfl⟩
  · rintro ⟨ts, hto, hf⟩
    obtain ⟨t, rfl, ht⟩ := map_eq_singleton_iff.1 hf
    have hs : t.start = 0 := (tokenize_tiles hto).start_first t rfl
    obtain ⟨kind, tokenText, st⟩ := t
    obtain ⟨rfl, hte⟩ := Form.mk.inj ht
    obtain rfl : tokenText = text := toList_inj.1 hte
    obtain rfl : st = 0 := hs
    exact hto

def filled (literal : List Char) (f : Form) : Form := if f.kind = .template then ⟨.template, literal⟩ else f

/-- The texts are the same, or as far as some backtick. -/
def SameUpToBacktick (cs ds : List Char) : Prop :=
  cs = ds ∨ ∃ front, '`' ∈ front ∧ front <+: cs ∧ front <+: ds

lemma SameUpToBacktick.append {ds : List Char} (h : SameUpToBacktick cs ds) (x : List Char) :
    SameUpToBacktick (x ++ cs) (x ++ ds) := by
  obtain rfl | ⟨fr, hm, hc, hd⟩ := h
  · exact .inl rfl
  · exact .inr ⟨x ++ fr, mem_append_right x hm, (prefix_append_right_inj x).2 hc, (prefix_append_right_inj x).2 hd⟩

lemma SameUpToBacktick.endsBefore {ds : List Char} (h : SameUpToBacktick cs ds) (fr : Bool) (f : Form) :
    f.endsBefore fr cs = f.endsBefore fr ds := by
  obtain rfl | ⟨ft, hme, ⟨cs, rfl⟩, ⟨ds, rfl⟩⟩ := h
  · rfl
  · have hm : isMark '`' = false := by decide
    rw [endsBefore_append_of_mem cs hme hm, endsBefore_append_of_mem ds hme hm]

lemma slashNext_filled (literal : List Char) (slash : Bool) (f : Form) :
    (filled literal f).slashNext slash = f.slashNext slash := by
  unfold filled
  split
  · rename_i hf
    simp [slashNext, Form.isTrivia, slashAfter, regexAllowed, hf]
  · rfl

lemma reads_filled {literal : List Char} (hl : Reads true true literal [⟨.template, literal⟩])
    {fr sl : Bool} {fs : List Form} (h : Reads fr sl cs fs) :
    Reads fr sl ((fs.map (filled literal)).flatMap Form.text) (fs.map (filled literal)) ∧
      SameUpToBacktick cs ((fs.map (filled literal)).flatMap Form.text) := by
  obtain ⟨r, hle, -⟩ := hl.uncons
  induction h with
  | nil => exact ⟨.nil _ _, .inl rfl⟩
  | @cons fr sl cs r f fs fst more ih =>
    obtain ⟨hm, hs⟩ := ih
    rw [← fst.append_eq, map_cons, flatMap_cons]
    rw [← slashNext_filled literal] at hm
    by_cases hf : f.kind = .template
    · have hfi : filled literal f = ⟨.template, literal⟩ := if_pos hf
      obtain ⟨a, rfl, -⟩ := hle.getLast?_template rfl
      obtain ⟨b, hb, -⟩ := fst.getLast?_template hf
      rw [hfi] at hm ⊢
      refine ⟨.cons ((lexes_template (hle.before rfl)).2 fr sl) hm, .inr ⟨['`'], by simp, ?_, ?_⟩⟩
      · simp [hb]
      · simp
    · have hfi : filled literal f = f := if_neg hf
      rw [hfi] at hm ⊢
      have he := fst.endsBefore
      rw [hs.endsBefore] at he
      exact ⟨.cons (fst.before he) hm, hs.append f.text⟩

/-- A statement is read as `plain` is, with `literal` in place of every template literal. -/
def ReadsLike (literal statement plain : String) : Prop :=
  ∃ tokens plainTokens, tokenize statement = .ok tokens ∧ tokenize plain = .ok plainTokens ∧
    tokens.map form = plainTokens.map fun t => filled literal.toList t.form

lemma readsLike_of_tokenize {literal statement plain : String} (hl : tokenize literal = .ok [⟨.template, literal, 0⟩])
    (hp : ∃ ts, tokenize plain = .ok ts ∧ ts.flatMap (fun t => (filled literal.toList t.form).text) = statement.toList) :
    ReadsLike literal statement plain := by
  obtain ⟨plainTokens, hp, hte⟩ := hp
  have hr := tokenize_eq_ok_iff.1 ⟨plainTokens, hp, rfl⟩
  obtain ⟨hf, -⟩ := reads_filled (tokenize_eq_template_iff.1 hl) hr
  rw [map_map, flatMap_map] at hf
  have hs : Reads true true statement.toList (plainTokens.map (filled literal.toList ∘ form)) := by
    rw [← hte]
    exact hf
  obtain ⟨ts, ht, hfo⟩ := tokenize_eq_ok_iff.2 hs
  exact ⟨ts, plainTokens, ht, hp, hfo⟩

lemma exists_readsLike_renderLiteral {literal : String}
    (hl : tokenize literal = .ok [⟨.template, literal, 0⟩]) (engine : Engine) (target : Target) :
    ∃ statement plain others, renderLiteral literal engine target = statement :: others ∧
      renderLiteral "``" engine target = plain :: others ∧ ReadsLike literal statement plain := by
  have hc : ReadsLike literal ("const template = " ++ literal ++ ";") ("const template = " ++ "``" ++ ";") :=
    readsLike_of_tokenize hl ⟨_, by cbv, by simp [filled, form]⟩
  cases engine with
  | html | ejs => exact ⟨_, _, _, rfl, rfl, hc⟩
  | lit =>
    refine ⟨_, _, _, rfl, rfl, readsLike_of_tokenize hl ⟨_, by cbv, ?_⟩⟩
    simp [filled, form]
  | handlebars =>
    refine ⟨_, _, _, rfl, rfl, readsLike_of_tokenize hl ⟨_, by cbv, ?_⟩⟩
    simp [filled, form, openBrace, closeBrace]

/-- **The literal of a text without interpolations is closed** exactly if an even number of backslashes stands at the end
of the text. -/
theorem templateLiteral_closed_iff {content : String} (h : ¬ HasInterpolation content.toList) :
    (tokenize (templateLiteral content) = .ok [⟨.template, templateLiteral content, 0⟩] ↔
      Even (backslashes content.toList)) ∧
    (Even (backslashes content.toList) → ∀ engine target, ∃ statement plain others,
      renderBody content engine target = statement :: others ∧ renderBody "" engine target = plain :: others ∧
        ReadsLike (templateLiteral content) statement plain) := by
  have hclosed : tokenize (templateLiteral content) = .ok [⟨.template, templateLiteral content, 0⟩] ↔
      Even (backslashes content.toList) := by
    have htext : (templateLiteral content).toList = '`' :: (escapeFrom false content.toList ++ ['`']) := by
      simp [templateLiteral, escapeBackticks]
    rw [tokenize_eq_template_iff, htext, reads_template_iff, partsOf_templateRest_escapeFrom h, escapedAfter_eq_false]
    simp
  exact ⟨hclosed, fun heven => exists_readsLike_renderLiteral (hclosed.2 heven)⟩

theorem templateLiteral_closed_iff_backslashes :
    tokenize (templateLiteral "a\\\\`b\\`\\\\") = .ok [⟨.template, "`a\\\\\\`b\\`\\\\`", 0⟩] := by
  have hnone : ¬ HasInterpolation "a\\\\`b\\`\\\\".toList := by decide +kernel
  exact (templateLiteral_closed_iff hnone).1.2 (by decide +kernel)

lemma escapeFrom_content {off : Nat} {fr x : List Char} {subs : List Substitution} (h : Divided off x subs)
    (hf : byteLength fr = off) : ∃ ct, x = ct ++ ['`'] ∧ (escapeFrom false ct = ct ↔
      ∀ s ∈ subs, ∃ code, slice? (fr ++ x) s.span.start s.span.stop = some code ∧ escapeFrom false code = code) := by
  induction h generalizing fr with
  | close off => exact ⟨[], rfl, by simp [escapeFrom]⟩
  | @escape off c cs subs h ih =>
    have hl : byteLength (fr ++ ['\\', c]) = off + 1 + c.utf8Size := by
      simp [hf, Char.utf8Size, add_assoc]
    obtain ⟨ct, rfl, hk⟩ := ih hl
    refine ⟨'\\' :: c :: ct, rfl, ?_⟩
    rw [escapeFrom_escape]
    simpa using hk
  | @code off code cs ts subs hco h ih =>
    have ho : byteLength (fr ++ ['$', '{']) = off + 2 := by simp [hf, Char.utf8Size]
    have hl : byteLength (fr ++ ['$', '{'] ++ (code ++ ['}'])) = off + 2 + byteLength code + 1 := by
      rw [byteLength_append, ho, byteLength_append, ← add_assoc]
      rfl
    obtain ⟨ct, rfl, hk⟩ := ih hl
    refine ⟨'$' :: '{' :: (code ++ '}' :: ct), by simp, ?_⟩
    have hs := slice?_middle (fr ++ ['$', '{']) code ('}' :: (ct ++ ['`']))
    rw [ho, append_assoc, cons_append, cons_append, nil_append] at hs
    rw [append_assoc, append_assoc, append_assoc, cons_append, cons_append, nil_append, singleton_append] at hk
    rw [forall_mem_cons, hs, ← hk, escapeFrom_char (by decide) (by decide), escapeFrom_char (by decide) (by decide),
      cons_inj_right, cons_inj_right, escapeFrom_append_eq_self]
    simp [escapeFrom]
  | @char off c cs subs he hc hm h ih =>
    have hl : byteLength (fr ++ [c]) = off + c.utf8Size := by simp [hf]
    obtain ⟨ct, rfl, hk⟩ := ih hl
    refine ⟨c :: ct, rfl, ?_⟩
    rw [escapeFrom_char he hc, cons_inj_right]
    simpa using hk

lemma renderLiteral_inj {a b : String} {engine : Engine} {target : Target} :
    renderLiteral a engine target = renderLiteral b engine target ↔ a = b := by
  refine ⟨fun h => ?_, fun h => by rw [h]⟩
  cases engine <;>
    simpa [renderLiteral, ← toList_inj] using (cons.inj h).1

/-- **The interpolations of a template literal are kept exactly if no backtick stands bare in their code.** -/
theorem interpolations_kept_iff {content : String} {t : Token} (h : tokenize ("`" ++ content ++ "`") = .ok [t])
    (ht : t.kind = .template) :
    ∃ subs, templateSubstitutions ("`" ++ content ++ "`") = .ok subs ∧
      (escapeBackticks content = content ↔ ∀ s ∈ subs, ∃ code,
        s.span.slice? ("`" ++ content ++ "`") = some code ∧ ¬ HasBareBacktick code.toList) ∧
      ∀ engine target, renderBody content engine target = renderLiteral ("`" ++ content ++ "`") engine target ↔
        escapeBackticks content = content := by
  generalize hliteral : "`" ++ content ++ "`" = literal at h ⊢
  have htext : literal.toList = '`' :: (content.toList ++ ['`']) := by simp [← hliteral]
  have hform : t.form = ⟨.template, literal.toList⟩ := by
    rw [← (tokenize_tiles h).join, Token.form, ht]
    simp
  have hreads : Reads true true literal.toList [⟨.template, literal.toList⟩] :=
    tokenize_eq_ok_iff.1 ⟨_, h, by rw [List.map_singleton, hform]⟩
  rw [htext, reads_template_iff] at hreads
  obtain ⟨cut, subs, hrest, hhead, -⟩ := partsOf_eq_some.1 hreads
  have hdivided := divided_of_templateRest hrest
  rw [hhead] at hdivided
  have hfront : byteLength ['`'] = 1 := rfl
  obtain ⟨inner, hinner, hkept⟩ := escapeFrom_content hdivided hfront
  obtain rfl : inner = content.toList := (List.append_cancel_right hinner).symm
  refine ⟨subs, ?_, ?_, fun engine target => ?_⟩
  · rw [templateSubstitutions, htext]
    dsimp only
    have hsize : '`'.utf8Size = 1 := rfl
    rw [hsize, hrest]
  · rw [escapeBackticks, ← toList_inj, toList_ofList, hkept]
    refine forall₂_congr fun s _ => ?_
    simp only [Span.slice?, htext, map_eq_some_iff, List.singleton_append, ← escapeFrom_eq_self_iff,
      exists_exists_and_eq_and, toList_ofList]
  · rw [renderBody, renderLiteral_inj, ← hliteral, templateLiteral, ← toList_inj, ← toList_inj]
    simp

/-- The backticks of a nested literal are escaped, and its interpolation is not kept. -/
theorem interpolations_kept_iff_nested :
    tokenize ("`" ++ "a$\x7b`b`\x7d" ++ "`") = .ok [⟨.template, "`a$\x7b`b`\x7d`", 0⟩] ∧
      renderBody "a$\x7b`b`\x7d" .lit .host ≠ renderLiteral ("`" ++ "a$\x7b`b`\x7d" ++ "`") .lit .host := by
  have h : tokenize ("`" ++ "a$\x7b`b`\x7d" ++ "`") = .ok [⟨.template, "`a$\x7b`b`\x7d`", 0⟩] := by cbv
  obtain ⟨subs, -, -, hsame⟩ := interpolations_kept_iff h rfl
  exact ⟨h, fun hkept => absurd ((hsame .lit .host).1 hkept) (by decide +kernel)⟩

end CustomElement.Component
