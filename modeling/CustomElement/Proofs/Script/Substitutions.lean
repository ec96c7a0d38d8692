import CustomElement.Proofs.Script.Slices

/-!
# The expressions of a template literal

A template literal ends where it ended in the script, and has the same expressions in it, if it is read alone
(`templateRest_of_divided`).
-/

namespace CustomElement.Script

open List Text

variable {cs code : List Char} {offset n : Nat} {tokens tokens' : List Token} {subs : List Substitution}

lemma Form.endsBefore_paren {f : Form} {v r : List Char} (h : f.endsBefore false (v ++ '}' :: r)) :
    f.endsBefore false (v ++ [')']) := by
  by_cases hl : v = [] ∧ (f.kind = .blank ∨ f.kind = .lineComment)
  · obtain ⟨rfl, hk⟩ := hl
    obtain ⟨kind, x⟩ := f
    rcases hk with rfl | rfl
    · rfl
    · cases h
  · have hv : v ≠ [] ∨ f.kind ≠ .blank ∧ f.kind ≠ .lineComment := by tauto
    exact endsBefore_append_neutral (endsBefore_of_append h fun _ => rfl) (by decide) hv

lemma lexes_openParen (cs : List Char) : Lexes true true ('(' :: cs) ⟨.punct, ['(']⟩ cs := by
  have he : punctExtent '(' cs = 0 := by simp [punctExtent, punctuators, isPrefixOf]
  have hg : isGap '(' = false := by decide
  have hw : isWordStart '(' = false := by decide
  rw [lexes_plain_iff (by decide)]
  simp [openingKind, hg, hw, bodyOf, he]

lemma lexes_closeParen (sl : Bool) : Lexes false sl [')'] ⟨.punct, [')']⟩ [] := by
  rw [lexes_plain_iff (by decide)]
  cases sl with
  | false | true => exact ⟨by decide, by decide⟩

lemma reads_of_interpolation {st d : Nat} {p : Option Token} {cut : Cut cs} (ho : offset ≠ 0)
    (h : interpolation st offset d p cs = .ok (cut, tokens)) :
    ∃ code, cut.head = code ++ ['}'] ∧ TilesFrom offset tokens code ∧
      Reads false (regexAllowed p) (code ++ [')']) (tokens.map form ++ [⟨.punct, [')']⟩]) := by
  induction hn : cs.length using Nat.strong_induction_on generalizing offset d p cs tokens with
  | _ n ih =>
    subst hn
    cases cs with
    | nil =>
      rw [interpolation.eq_def] at h
      cases h
    | cons c cs =>
      rw [interpolation] at h
      obtain ⟨⟨kind, fst⟩, hf, h⟩ := bind_eq_ok.1 h
      dsimp only at h
      split at h
      · rename_i hc
        obtain ⟨rfl, rfl⟩ := Prod.mk.inj (ok.inj h)
        rw [Token.isPunct_mk, Form.isPunct, and_eq_true, and_eq_true, beq_iff_eq, beq_iff_eq] at hc
        exact ⟨[], hc.1.2, rfl, .cons (lexes_closeParen _) (.nil _ _)⟩
      · obtain ⟨⟨more, tokens⟩, hm, h⟩ := bind_eq_ok.1 h
        obtain ⟨rfl, rfl⟩ := Prod.mk.inj (ok.inj h)
        have hle := fst.length_rest_lt
        obtain ⟨code, hco, hti, hr⟩ := ih _ (by grind) (by omega) hm rfl
        have hl : Lexes false (regexAllowed p) (c :: cs) ⟨kind, fst.head⟩ (code ++ '}' :: more.rest) := by
          have hre := more.head_append_rest
          rw [hco, append_assoc] at hre
          exact ⟨offset, p, c, cs, rfl, by simpa using ho, rfl, outcome_eq_some.2 ⟨fst, hf, rfl, hre.symm⟩⟩
        have hp := hl.before (Form.endsBefore_paren hl.endsBefore)
        have ht : (String.ofList fst.head).toList = fst.head := toList_ofList
        refine ⟨fst.head ++ code, by simp [Cut.append, hco], ⟨rfl, ?_, code, by rw [ht], ?_⟩, ?_⟩
        · intro he
          exact fst.head_ne_nil (ht.symm.trans (congrArg String.toList he))
        · rwa [Token.stop, ht]
        · rw [map_cons, Token.form_mk, append_assoc, cons_append]
          rw [regexAllowed_orPrevious_mk] at hr
          exact .cons hp hr

lemma Interpolates.tokenize (h : Interpolates offset code tokens) (ho : offset ≠ 0) :
    ∃ inner, tokenize ("(" ++ String.ofList code ++ ")") =
        .ok (⟨.punct, "(", 0⟩ :: (inner ++ [⟨.punct, ")", 1 + byteLength code⟩])) ∧
      tokens = inner.map (Token.shift (offset - 1)) := by
  obtain ⟨st, cs, cut, hco, hh⟩ := h
  obtain ⟨x, hx, ht, hr⟩ := reads_of_interpolation ho hco
  obtain rfl : code = x := append_cancel_right (hh.symm.trans hx)
  have hte : ("(" ++ String.ofList code ++ ")").toList = '(' :: (code ++ [')']) := by simp
  obtain ⟨all, ha, hf⟩ := tokenize_eq_ok_iff.2 (hte ▸ Reads.cons (lexes_openParen _) hr)
  have hp := tokensFrom_tiles (mapError_eq_ok.1 ha)
  obtain ⟨o, r, rfl, hop, hf⟩ := map_eq_cons_iff.1 hf
  obtain ⟨inner, r', rfl, hin, hf⟩ := map_eq_append_iff.1 hf
  obtain ⟨c, rfl, hc⟩ := map_eq_singleton_iff.1 hf
  obtain ⟨hs, -, post, hb, hp⟩ := hp
  obtain rfl : o = ⟨.punct, "(", 0⟩ := Token.eq_of_form hop hs
  have hch : charsOf inner = code := by
    rw [← flatMap_form, hin, flatMap_form]
    exact ht.flatten_text
  obtain rfl : c = ⟨.punct, ")", 1 + byteLength code⟩ := by
    refine Token.eq_of_form (hc.trans (by simp [form])) ?_
    rw [hp.start_eq, hch]
    rfl
  refine ⟨inner, ha, ?_⟩
  have hon : 1 + (offset - 1) = offset := by omega
  rw [← hon, ← append_nil tokens] at ht
  exact ht.eq_map_shift hp hin.symm

def Substitution.shift (n : Nat) (sub : Substitution) : Substitution :=
  ⟨⟨sub.span.start + n, sub.span.stop + n⟩, sub.tokens.map (Token.shift n)⟩

lemma Interpolates.tokens_eq (h : Interpolates (offset + n) code tokens) (h' : Interpolates offset code tokens')
    (ho : offset ≠ 0) : tokens = tokens'.map (Token.shift n) := by
  obtain ⟨st, cs, cut, hc, hh⟩ := h
  obtain ⟨st', cs', cut', hc', hh'⟩ := h'
  obtain ⟨x, hx, ht, hr⟩ := reads_of_interpolation (by omega) hc
  obtain ⟨y, hy, ht', hr'⟩ := reads_of_interpolation ho hc'
  obtain rfl := append_cancel_right (hx.symm.trans hh)
  obtain rfl := append_cancel_right (hy.symm.trans hh')
  rw [← append_nil tokens] at ht
  rw [← append_nil tokens'] at ht'
  exact ht.eq_map_shift ht' (append_cancel_right (hr'.unique hr))

lemma templateRest_of_divided (h : Divided (offset + n) cs subs) (st : Nat) {r x : List Char}
    (ht : x = cs ++ r) : ∃ cut subs', templateRest st offset x = .ok (cut, subs') ∧ cut.head = cs ∧
      cut.rest = r ∧ subs = subs'.map (Substitution.shift n) := by
  generalize hp : offset + n = pl at h
  induction h generalizing offset x with
  | close pl =>
    subst ht
    rw [singleton_append, templateRest]
    exact ⟨_, _, rfl, rfl, rfl, rfl⟩
  | @escape pl c cs subs h ih =>
    subst ht
    obtain ⟨cut, subs', hre, hh, hr, hs⟩ := ih rfl (show offset + 1 + c.utf8Size + n = _ by omega)
    rw [cons_append, cons_append, templateRest, hre]
    exact ⟨_, _, rfl, by simp [Cut.cons, hh], hr, hs⟩
  | @code pl code cs tokens subs hco h ih =>
    obtain ⟨st₀, cs₀, cut₀, hco₀, hh₀⟩ := id hco
    have hl := (lexeme_templateRest_interpolation_local.2.2 _ _ _ _ _ _ _
      (partsOf_eq_some.2 ⟨cut₀, tokens, hco₀, hh₀, rfl⟩) (by omega)).2 st (offset + 2) none (cs ++ r) (by omega) rfl
    obtain ⟨fst, tokens', hf, hh', hr'⟩ := partsOf_eq_some.1 hl
    have hsi : byteLength fst.head = byteLength code + 1 := by
      rw [hh', byteLength_append]
      rfl
    obtain ⟨cut, subs', hre, hh, hr, rfl⟩ := ih hr' (show offset + 2 + byteLength fst.head + n = _ by omega)
    rw [← hp, Nat.add_right_comm] at hco
    have hto := hco.tokens_eq ⟨st, _, fst, hf, hh'⟩ (by omega)
    obtain rfl : x = '$' :: '{' :: (code ++ ['}'] ++ (cs ++ r)) := by simp [ht]
    rw [templateRest]
    refine ⟨_, _, bind_eq_ok.2 ⟨_, hf, bind_eq_ok.2 ⟨_, hre, rfl⟩⟩, by simp [Cut.cons, Cut.append, hh', hh], hr, ?_⟩
    rw [map_cons, hto]
    simp only [Substitution.shift, hsi, ← hp]
    congr 3 <;> omega
  | @char pl c cs subs he hcl hm h ih =>
    subst ht
    obtain ⟨cut, subs', hre, hh, hr, hs⟩ := ih rfl (show offset + c.utf8Size + n = _ by omega)
    have hm' : c = '$' → (cs ++ r).head? ≠ some '{' := by
      intro hc hb
      cases h with
      | _ => exact hm hc hb
    rw [cons_append, templateRest.eq_6 _ _ _ _ (fun h _ => he h) (fun _ _ h _ => he h) hcl
      (fun _ h hcs => hm' h (by rw [hcs]; rfl)), hre]
    exact ⟨_, _, rfl, by simp [Cut.cons, hh], hr, hs⟩

lemma exists_lexeme_of_tokensFrom {p : Option Token} (h : tokensFrom offset p cs = .ok tokens) :
    ∀ t ∈ tokens, ∃ pre c post p cut, cs = pre ++ c :: post ∧ t.start = offset + byteLength pre ∧
      lexeme t.start p c post = .ok (t.kind, cut) ∧ t.text = String.ofList cut.head := by
  fun_induction tokensFrom offset p cs generalizing tokens with
  | case1 offset p =>
    cases h
    simp
  | case2 offset p c cs ih =>
    obtain ⟨⟨kind, cut⟩, hc, h⟩ := bind_eq_ok.1 h
    obtain ⟨more, hm, h⟩ := bind_eq_ok.1 h
    cases h
    refine forall_mem_cons.2 ⟨⟨[], c, cs, p, cut, rfl, rfl, hc, rfl⟩, fun t ht => ?_⟩
    obtain ⟨pre, d, post, p', cut', hcs, hs, hl, hte⟩ := ih kind cut hm t ht
    refine ⟨cut.head ++ pre, d, post, p', cut', ?_, ?_, hl, hte⟩
    · rw [append_assoc, ← hcs, cut.head_append_rest]
    · rw [hs, byteLength_append, add_assoc]

/-- The template literal is read by itself, with these expressions in it, each a script of its own. -/
structure StandsAlone (template : String) (subs : List Substitution) : Prop where
  ends : ∃ cs cut, template.toList = '`' :: cs ∧ templateRest 0 1 cs = .ok (cut, subs) ∧ cut.rest = []
  substitutions : templateSubstitutions template = .ok subs
  ordered : subs.Pairwise fun a b => a.span.stop < b.span.start
  expression : ∀ sub ∈ subs, ∃ front expr back inner, template = front ++ "$\x7b" ++ expr ++ "\x7d" ++ back ∧
    sub.span.start = byteLength (front ++ "$\x7b").toList ∧ sub.span.stop = sub.span.start + byteLength expr.toList ∧
    tokenize ("(" ++ expr ++ ")") = .ok (⟨.punct, "(", 0⟩ :: (inner ++ [⟨.punct, ")", 1 + byteLength expr.toList⟩])) ∧
    sub.tokens = inner.map (Token.shift (sub.span.start - 1))

/-- **Template literals stand alone.** What is read in a template literal of a script is read in the text of the literal,
and the tokens of an expression are those that it has between parentheses. -/
theorem standsAlone_of_tokenize {src : String} {t : Token} (h : tokenize src = .ok tokens) (ht : t ∈ tokens)
    (hk : t.kind = .template) :
    ∃ pre cs cut seen subs, src.toList = pre ++ '`' :: cs ∧ byteLength pre = t.start ∧
      templateRest t.start (t.start + 1) cs = .ok (cut, seen) ∧ t.text.toList = '`' :: cut.head ∧
      seen = subs.map (Substitution.shift t.start) ∧ StandsAlone t.text subs := by
  obtain ⟨pre, c, cs, p, cut, hso, hst, hle, hte⟩ := exists_lexeme_of_tokensFrom (mapError_eq_ok.1 h) t ht
  have hc : c = '`' := by
    by_contra hc
    obtain ⟨a, ha, -⟩ := cons_of_outcome (outcome_eq_some.2 ⟨cut, hle, rfl, rfl⟩)
    have hp := outcome_eq_some.2 ⟨cut, hle, ha, rfl⟩
    rw [lexeme, if_neg hc, plainLexeme_eq_some, hk] at hp
    cases hp.2
  subst hc
  rw [lexeme, if_pos rfl] at hle
  obtain ⟨⟨r, seen⟩, hr, hle⟩ := bind_eq_ok.1 hle
  obtain ⟨-, rfl⟩ := Prod.mk.inj (ok.inj hle)
  have hl : t.text.toList = '`' :: r.head := by simp [hte, Cut.cons]
  have hd := divided_of_templateRest hr
  rw [add_comm] at hd
  obtain ⟨whole, subs, hw, hh, he, hse⟩ := templateRest_of_divided hd 0 (append_nil _).symm
  have hal : Divided 1 whole.head subs := divided_of_templateRest hw
  rw [hh] at hal
  refine ⟨pre, cs, r, seen, subs, hso, by rw [hst, zero_add], hr, hl, hse,
    ⟨r.head, whole, hl, hw, he⟩, ?_, hal.pairwise, fun sub hsu => ?_⟩
  · have hsi : '`'.utf8Size = 1 := rfl
    rw [templateSubstitutions, hl]
    dsimp only
    rw [hsi, hw]
  · obtain ⟨fr, code, back, hap, -, hs, hco⟩ := hal.exists_append sub hsu
    obtain ⟨inner, hto, htk⟩ := hco.tokenize (by rw [hs]; dsimp only; omega)
    refine ⟨String.ofList ('`' :: fr), String.ofList code, String.ofList back, inner, ?_, ?_, ?_, ?_, htk⟩
    · rw [← toList_inj, hl, hap]
      simp
    · rw [hs]
      simp [Char.utf8Size]
      omega
    · rw [hs, toList_ofList]
    · rw [toList_ofList]
      exact hto

theorem standsAlone_of_tokenize_nested :
    tokenize "`$\x7b/\x7d/\x7d$\x7b`$\x7bb\x7d`\x7d`" = .ok [⟨.template, "`$\x7b/\x7d/\x7d$\x7b`$\x7bb\x7d`\x7d`", 0⟩] ∧
      ∃ subs, StandsAlone "`$\x7b/\x7d/\x7d$\x7b`$\x7bb\x7d`\x7d`" subs ∧ subs.map Substitution.span = [⟨3, 6⟩, ⟨9, 15⟩] := by
  have h : tokenize "`$\x7b/\x7d/\x7d$\x7b`$\x7bb\x7d`\x7d`" =
      .ok [⟨.template, "`$\x7b/\x7d/\x7d$\x7b`$\x7bb\x7d`\x7d`", 0⟩] := by cbv
  have hs : (Substitution.span <$> ·) <$> templateSubstitutions "`$\x7b/\x7d/\x7d$\x7b`$\x7bb\x7d`\x7d`" =
      .ok [⟨3, 6⟩, ⟨9, 15⟩] := by cbv
  obtain ⟨-, -, -, -, subs, -, -, -, -, -, ha⟩ := standsAlone_of_tokenize h (mem_singleton_self _) rfl
  rw [ha.substitutions] at hs
  exact ⟨h, subs, ha, ok.inj hs⟩

end CustomElement.Script
