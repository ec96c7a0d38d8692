import CustomElement.Proofs.Script.Reading

/-!
# The parts of a template literal

Behind its opening backtick a template literal is a row of characters, escapes and interpolations, as far as the
closing backtick.
-/

namespace CustomElement.Script

open Text

variable {c : Char} {a b code cs : List Char} {offset start : Nat} {subs : List Substitution} {tokens : List Token}

lemma exists_code_of_interpolation {d : Nat} {p : Option Token}
    (h : partsOf (interpolation start offset d p cs) = some (a, b)) : ∃ code, a = code ++ ['}'] := by
  induction hn : cs.length using Nat.strong_induction_on generalizing offset d p cs a with
  | _ n ih =>
    subst hn
    cases cs with
    | nil =>
      rw [interpolation.eq_def] at h
      cases h
    | cons c cs =>
      obtain ⟨kind, x, r, hx, hs⟩ := interpolation_cons.1 h
      obtain ⟨w, rfl, rfl⟩ := cons_of_outcome hx
      split at hs
      · rename_i hc
        obtain ⟨rfl, rfl⟩ := hs
        simp only [Form.isPunct, and_eq_true, beq_iff_eq] at hc
        exact ⟨[], hc.1.2⟩
      · obtain ⟨y, rfl, hy⟩ := hs
        obtain ⟨code, rfl⟩ := ih r.length (by grind) hy rfl
        exact ⟨c :: w ++ code, by simp⟩

/-- At this offset the code is read as these tokens, up to the brace behind it. -/
def Interpolates (offset : Nat) (code : List Char) (tokens : List Token) : Prop :=
  ∃ start cs cut, interpolation start offset 0 none cs = .ok (cut, tokens) ∧ cut.head = code ++ ['}']

/-- The text, which starts at the offset, is the rest of a template literal with these expressions in it. -/
inductive Divided : Nat → List Char → List Substitution → Prop
  | close (offset : Nat) : Divided offset ['`'] []
  | escape {offset : Nat} {c : Char} {cs : List Char} {subs : List Substitution}
      (h : Divided (offset + 1 + c.utf8Size) cs subs) : Divided offset ('\\' :: c :: cs) subs
  | code {offset : Nat} {code cs : List Char} {tokens : List Token} {subs : List Substitution}
      (hcode : Interpolates (offset + 2) code tokens) (h : Divided (offset + 2 + byteLength code + 1) cs subs) :
    Divided offset ('$' :: '{' :: (code ++ '}' :: cs)) (⟨⟨offset + 2, offset + 2 + byteLength code⟩, tokens⟩ :: subs)
  | char {offset : Nat} {c : Char} {cs : List Char} {subs : List Substitution} (hescape : c ≠ '\\') (hclose : c ≠ '`')
      (hmark : c = '$' → cs.head? ≠ some '{') (h : Divided (offset + c.utf8Size) cs subs) : Divided offset (c :: cs) subs

lemma divided_of_templateRest {cut : Cut cs} (h : templateRest start offset cs = .ok (cut, subs)) :
    Divided offset cut.head subs := by
  induction hn : cs.length using Nat.strong_induction_on generalizing offset cs subs with
  | _ n ih =>
    subst hn
    rw [templateRest.eq_def] at h
    split at h
    · cases h
    · cases h
    · rename_i c cs
      obtain ⟨⟨more, subs⟩, hm, h⟩ := bind_eq_ok.1 h
      obtain ⟨rfl, rfl⟩ := Prod.mk.inj (ok.inj h)
      exact .escape (ih cs.length (by grind) hm rfl)
    · obtain ⟨rfl, rfl⟩ := Prod.mk.inj (ok.inj h)
      exact .close offset
    · rename_i cs
      obtain ⟨⟨code, tokens⟩, hco, h⟩ := bind_eq_ok.1 h
      obtain ⟨⟨more, subs⟩, hm, h⟩ := bind_eq_ok.1 h
      obtain ⟨rfl, rfl⟩ := Prod.mk.inj (ok.inj h)
      obtain ⟨ms, hin⟩ := exists_code_of_interpolation (partsOf_eq_some.2 ⟨code, tokens, hco, rfl, rfl⟩)
      have hl := code.length_rest_lt
      have hs : byteLength code.head = byteLength ms + 1 := by
        rw [hin, byteLength_append]
        rfl
      have hr := ih code.rest.length (by grind) hm rfl
      dsimp only [Cut.cons, Cut.append]
      rw [hs, ← add_assoc] at hr ⊢
      rw [hin, List.append_assoc]
      exact .code ⟨start, cs, code, hco, hin⟩ hr
    · rename_i c cs ho htw hcl hco
      obtain ⟨⟨more, subs⟩, hm, h⟩ := bind_eq_ok.1 h
      obtain ⟨rfl, rfl⟩ := Prod.mk.inj (ok.inj h)
      refine .char (ne_escape ho htw) hcl (fun hc hh => ?_) (ih cs.length (by simp) hm rfl)
      obtain ⟨tl, ht⟩ := List.head?_eq_some_iff.1 hh
      have hcs := more.head_append_rest
      rw [ht] at hcs
      exact hco (tl ++ more.rest) hc hcs.symm

namespace Divided

lemma getLast? (h : Divided offset cs subs) : cs.getLast? = some '`' := by
  induction h with
  | close offset => rfl
  | escape h ih | code hco h ih | char he hc hm h ih => simp [List.getLast?_cons, ih]

lemma exists_append (h : Divided offset cs subs) : ∀ sub ∈ subs, ∃ pre code post,
    cs = pre ++ '$' :: '{' :: (code ++ '}' :: post) ∧ post ≠ [] ∧
      sub.span = ⟨offset + byteLength pre + 2, offset + byteLength pre + 2 + byteLength code⟩ ∧
      Interpolates sub.span.start code sub.tokens := by
  have hsi : '\\'.utf8Size = 1 ∧ '$'.utf8Size = 1 ∧ '{'.utf8Size = 1 ∧ '}'.utf8Size = 1 := by decide
  induction h with
  | close offset => exact fun sub hsu => nomatch hsu
  | @escape offset c cs subs h ih =>
    intro sub hsu
    obtain ⟨pre, code, post, rfl, hb, hs, hc⟩ := ih sub hsu
    refine ⟨'\\' :: c :: pre, code, post, rfl, hb, ?_, hc⟩
    rw [hs, Span.mk.injEq]
    simp only [byteLength_cons]
    omega
  | @code offset code cs tokens subs hc h ih =>
    have hn : cs ≠ [] := by
      rintro rfl
      cases h
    refine List.forall_mem_cons.2 ⟨⟨[], code, cs, rfl, hn, rfl, hc⟩, fun sub hsu => ?_⟩
    obtain ⟨pre, code', post, rfl, hb, hs, hc'⟩ := ih sub hsu
    refine ⟨'$' :: '{' :: (code ++ '}' :: pre), code', post, by simp, hb, ?_, hc'⟩
    rw [hs, Span.mk.injEq]
    simp only [byteLength_append, byteLength_cons]
    omega
  | @char offset c cs subs he hcl hm h ih =>
    intro sub hsu
    obtain ⟨pre, code, post, rfl, hb, hs, hc⟩ := ih sub hsu
    refine ⟨c :: pre, code, post, rfl, hb, ?_, hc⟩
    rw [hs, Span.mk.injEq]
    simp only [byteLength_cons]
    omega

lemma pairwise (h : Divided offset cs subs) : subs.Pairwise fun a b => a.span.stop < b.span.start := by
  induction h with
  | close offset => exact .nil
  | escape h ih => exact ih
  | code hco h ih =>
    refine List.pairwise_cons.2 ⟨fun sub hsu => ?_, ih⟩
    obtain ⟨pre, code', post, -, -, hs, -⟩ := h.exists_append sub hsu
    rw [hs]
    dsimp only
    omega
  | char he hc hm h ih => exact ih

end Divided

end CustomElement.Script
