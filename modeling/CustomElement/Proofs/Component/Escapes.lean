import CustomElement.Component.Compile
import CustomElement.Proofs.Component.Literals
import CustomElement.Proofs.Script.StringValues

/-!
# Escaped texts

Escaping backticks puts a backslash where one is missing and does nothing the second time (`escapeBackticks_exact`).
An escaped selector is one string literal on one line that stands for the selector (`selectorLiteral_exact`).
-/

namespace CustomElement.Component

open List Script Text

lemma escapeFrom_escapeFrom (escaped : Bool) (cs : List Char) :
    escapeFrom escaped (escapeFrom escaped cs) = escapeFrom escaped cs := by
  induction cs generalizing escaped with
  | nil => rfl
  | cons c cs ih =>
    rw [escapeFrom]
    split
    · rename_i hb
      obtain ⟨rfl, rfl⟩ : c = '`' ∧ escaped = false := by simpa using hb
      rw [escapeFrom_escape, ih]
    · rename_i hb
      rw [escapeFrom, if_neg hb, ih]

/-- A character with a backslash before it, if it is a backtick and needs one behind `front`. -/
def escapedBehind (front : List Char) (c : Char) : List Char :=
  if c = '`' ∧ Even (backslashes front) then ['\\', c] else [c]

lemma escapeFrom_eq_flatten (front cs : List Char) : escapeFrom (escapedAfter false front) cs =
    (cs.mapIdx fun i c => escapedBehind (front ++ cs.take i) c).flatten := by
  induction cs generalizing front with
  | nil => rfl
  | cons c cs ih =>
    have hf : escapedAfter false (front ++ [c]) = (c == '\\' && !escapedAfter false front) := escapedAfter_append _ _ _
    have ht := ih (front ++ [c])
    rw [hf] at ht
    simp only [append_assoc, singleton_append] at ht
    rw [mapIdx_cons, flatten_cons, take_zero, append_nil, escapeFrom, escapedBehind]
    simp only [take_succ_cons, ← ht]
    by_cases hc : c = '`'
    · subst hc
      by_cases he : escapedAfter false front = false
      · simp [he, escapedAfter_eq_false.1 he]
      · simp [he, escapedAfter_eq_false.not.1 he]
    · simp [hc]

/-- **Backticks are escaped where they have to be**: the escaped text is the text with a backslash before each backtick
that has an even number of them before it, and escaping it again changes nothing. -/
theorem escapeBackticks_exact (text : String) :
    (∀ front back, (escapeBackticks text).toList = front ++ '`' :: back → Odd (backslashes front)) ∧
      (escapeBackticks text).toList = (text.toList.mapIdx fun i c => escapedBehind (text.toList.take i) c).flatten ∧
      escapeBackticks (escapeBackticks text) = escapeBackticks text := by
  have hagain := escapeFrom_escapeFrom false text.toList
  refine ⟨fun front back h => ?_, ?_, ?_⟩
  · rw [escapeBackticks, toList_ofList] at h
    refine Nat.not_even_iff_odd.1 fun he => escapeFrom_eq_self_iff.1 hagain ⟨front, back, h, he⟩
  · rw [escapeBackticks, toList_ofList]
    exact escapeFrom_eq_flatten [] text.toList
  · rw [escapeBackticks, escapeBackticks, toList_ofList, hagain]

def utf16 (cs : List Char) : List UInt16 := cs.flatMap fun c => codeUnits c.toNat

lemma codeUnits_append_inj {c d : Char} {u v : List UInt16}
    (h : codeUnits c.toNat ++ u = codeUnits d.toNat ++ v) : c = d ∧ u = v := by
  have hc : ∀ c : Char, c.toNat < 0xD800 ∨ 0xDFFF < c.toNat ∧ c.toNat < 0x110000 := fun c => c.valid
  have hcd : c.toNat = d.toNat ∧ u = v := by
    have h₁ := hc c
    have h₂ := hc d
    unfold codeUnits at h
    split_ifs at h <;>
      simp only [cons_append, nil_append, cons.injEq, ← UInt16.toNat_inj, UInt16.toNat_ofNat'] at h
    · exact ⟨by omega, h.2⟩
    · omega
    · omega
    · exact ⟨by omega, h.2.2⟩
  exact ⟨Char.toNat_inj.1 hcd.1, hcd.2⟩

lemma utf16_injective : Function.Injective utf16 := by
  have hn : ∀ c : Char, codeUnits c.toNat ≠ [] := by
    intro c
    unfold codeUnits
    split <;> simp
  intro a b h
  induction a generalizing b with
  | nil =>
    cases b with
    | nil => rfl
    | cons d b => exact absurd (append_eq_nil_iff.1 h.symm).1 (hn d)
  | cons c a ih =>
    cases b with
    | nil => exact absurd (append_eq_nil_iff.1 h).1 (hn c)
    | cons d b =>
      obtain ⟨rfl, ht⟩ := codeUnits_append_inj h
      rw [ih ht]

def lineTerminators : List Char := ['\n', '\r', '\u2028', '\u2029']

lemma quotedChar_cases (c : Char) : (quotedChar c = [c] ∧ c ≠ '\\' ∧ c ≠ '\'' ∧ c ∉ lineTerminators) ∨
    (∃ d, quotedChar c = ['\\', d] ∧ readEscaped d = (codeUnits c.toNat, .text)) ∨
    ∃ d, quotedChar c = ['\\', 'u', '2', '0', '2', d] ∧ d.isAlphanum ∧
      readDigit 1 0x202 d = some (codeUnits c.toNat, .text) := by
  unfold quotedChar
  split_ifs with h₁ h₂ h₃ h₄ h₅ h₆
  · cases beq_iff_eq.1 h₁
    exact .inr (.inl ⟨_, rfl, rfl⟩)
  · cases beq_iff_eq.1 h₂
    exact .inr (.inl ⟨_, rfl, rfl⟩)
  · cases beq_iff_eq.1 h₃
    exact .inr (.inl ⟨_, rfl, rfl⟩)
  · cases beq_iff_eq.1 h₄
    exact .inr (.inl ⟨_, rfl, rfl⟩)
  · cases beq_iff_eq.1 h₅
    exact .inr (.inr ⟨_, rfl, by decide, rfl⟩)
  · cases beq_iff_eq.1 h₆
    exact .inr (.inr ⟨_, rfl, by decide, rfl⟩)
  · rw [beq_iff_eq] at h₁ h₂ h₃ h₄ h₅ h₆
    exact .inl ⟨rfl, h₁, h₂, by simp only [lineTerminators, mem_cons, not_mem_nil, not_or]; tauto⟩

lemma stringRest_quotedChar {x a b : List Char} (c : Char) (h : (stringRest '\'' x).map parts = some (a, b)) :
    (stringRest '\'' (quotedChar c ++ x)).map parts = some (quotedChar c ++ a, b) := by
  have hd : ∀ {d : Char} {y a : List Char}, d.isAlphanum → (stringRest '\'' y).map parts = some (a, b) →
      (stringRest '\'' (d :: y)).map parts = some (d :: a, b) := by
    intro d y a hd
    refine stringRest_char ?_ ?_ ?_ <;> rintro rfl <;> cases hd
  rcases quotedChar_cases c with ⟨hq, he, hs, hl⟩ | ⟨d, hq, -⟩ | ⟨d, hq, ha, -⟩ <;> rw [hq]
  · exact stringRest_char he (fun hn => hl (by simp [lineTerminators, hn])) hs h
  · exact stringRest_escape h
  · exact stringRest_escape (hd rfl (hd rfl (hd rfl (hd ha h))))

lemma stringRest_flatMap_quotedChar (cs rest : List Char) :
    (stringRest '\'' (cs.flatMap quotedChar ++ '\'' :: rest)).map parts = some (cs.flatMap quotedChar ++ ['\''], rest) := by
  induction cs with
  | nil => rfl
  | cons c cs ih =>
    rw [flatMap_cons, append_assoc, append_assoc]
    exact stringRest_quotedChar c ih

lemma valueFrom_quotedChar (c : Char) (x : List Char) :
    valueFrom .text (quotedChar c ++ x) = (valueFrom .text x).map (codeUnits c.toNat ++ ·) := by
  rcases quotedChar_cases c with ⟨hq, he, -, hl⟩ | ⟨d, hq, hd⟩ | ⟨d, hq, -, hd⟩ <;> rw [hq]
  · have hp : readPlain c = some (codeUnits c.toNat, .text) := by
      rw [readPlain, if_neg he, if_neg fun hn => hl (by rcases hn with rfl | rfl <;> decide)]
    rw [singleton_append, valueFrom, LiteralState.step, hp]
    rfl
  · simp [valueFrom, LiteralState.step, readPlain, hd, comp_def]
  · have hu : ∀ cs, valueFrom .text ('\\' :: 'u' :: '2' :: '0' :: '2' :: cs) = valueFrom (.unit 1 0x202) cs := by
      intro cs
      simp [valueFrom, LiteralState.step, readPlain, readEscaped, readDigit, hexDigit?, comp_def]
    rw [cons_append, cons_append, cons_append, cons_append, cons_append, hu, singleton_append, valueFrom,
      LiteralState.step, hd]
    rfl

lemma valueFrom_flatMap_quotedChar (cs : List Char) : valueFrom .text (cs.flatMap quotedChar) = some (utf16 cs) := by
  induction cs with
  | nil => rfl
  | cons c cs ih =>
    rw [flatMap_cons, valueFrom_quotedChar, ih]
    rfl

lemma not_mem_quotedChar {c : Char} (h : c ∈ lineTerminators) (d : Char) : c ∉ quotedChar d := by
  simp only [lineTerminators, mem_cons, not_mem_nil, or_false] at h
  intro hm
  unfold quotedChar at hm
  rcases h with rfl | rfl | rfl | rfl <;> split_ifs at hm <;> simp_all <;> subst hm <;> contradiction

lemma toList_selectorLiteral (selector : String) :
    (selectorLiteral selector).toList = '\'' :: (selector.toList.flatMap quotedChar ++ ['\'']) := by
  simp [selectorLiteral, escapeSingleQuoted]

lemma tokenize_selectorLiteral (selector : String) :
    tokenize (selectorLiteral selector) = .ok [⟨.string, selectorLiteral selector, 0⟩] := by
  have hl := toList_selectorLiteral selector
  have hr : Reads true true (selectorLiteral selector).toList [⟨.string, (selectorLiteral selector).toList⟩] := by
    rw [hl]
    refine .cons ((lexes_plain_iff (by decide)).2 ⟨?_, ?_⟩) (.nil _ _)
    · simp [openingKind, show isGap '\'' = false from by decide]
    · exact stringRest_flatMap_quotedChar _ []
  obtain ⟨tokens, ht, hf⟩ := tokenize_eq_ok_iff.2 hr
  obtain ⟨t, rfl, hform⟩ := map_eq_singleton_iff.1 hf
  obtain ⟨hk, hx⟩ := Form.mk.inj hform
  obtain ⟨hs, -⟩ := tokensFrom_tiles (mapError_eq_ok.1 ht)
  rw [ht, ← hk, ← String.toList_injective hx, ← hs]

lemma selector_eq_of_registration {v w n m : String} (h : registration v n = registration w m) : v = w := by
  have hl : ∀ u front behind : String, (front ++ (selectorLiteral u ++ behind)).toList = front.toList ++
      '\'' :: (u.toList.flatMap quotedChar ++ '\'' :: behind.toList) := by
    intro u front behind
    simp [toList_selectorLiteral]
  unfold registration at h
  generalize "customElements.define(" = front at h
  simp only [String.append_assoc] at h
  have hs := congrArg String.toList h
  rw [hl, hl, append_cancel_left_eq, cons_inj_right] at hs
  -- both literals end at the first quote that is not escaped
  have hr := stringRest_flatMap_quotedChar v.toList (", " ++ (n ++ ");")).toList
  rw [hs, stringRest_flatMap_quotedChar] at hr
  have hq := append_cancel_right (Prod.mk.inj (some.inj hr)).1
  have hv := congrArg (valueFrom .text) hq
  rw [valueFrom_flatMap_quotedChar, valueFrom_flatMap_quotedChar] at hv
  exact (String.toList_injective (utf16_injective (some.inj hv))).symm

/-- **A selector survives its registration.** It is written as one string literal on one line, which stands for the
selector and for no other text. -/
theorem selectorLiteral_exact (selector : String) :
    tokenize (selectorLiteral selector) = .ok [⟨.string, selectorLiteral selector, 0⟩] ∧
      (∀ c ∈ lineTerminators, c ∉ (selectorLiteral selector).toList) ∧
      (∀ text : String, literalValue (selectorLiteral selector) = some (utf16 text.toList) ↔ text = selector) ∧
      ∀ other name name', other ≠ selector → registration selector name ≠ registration other name' := by
  have hlist := toList_selectorLiteral selector
  refine ⟨tokenize_selectorLiteral selector, fun c hc hmem => ?_, fun text => ?_, fun other name name' hne h => ?_⟩
  · have hquote : c ≠ '\'' := by
      rintro rfl
      simp [lineTerminators] at hc
    rw [hlist, mem_cons, mem_append, mem_singleton] at hmem
    obtain ⟨d, -, hd⟩ := mem_flatMap.1 ((hmem.resolve_left hquote).resolve_right hquote)
    exact not_mem_quotedChar hc d hd
  · rw [literalValue, betweenQuotes_eq hlist, valueFrom_flatMap_quotedChar, some.injEq, utf16_injective.eq_iff,
      toList_inj, eq_comm]
  · exact hne (selector_eq_of_registration h).symm

end CustomElement.Component
