import CustomElement.Proofs.Script.Templates

/-!
# Where tokens begin and end

A token that is not blank begins with a character that is not blank, and unless it is a line comment it ends with one
(`Lexes.inkEdged`).
-/

namespace CustomElement.Script

open List Text

variable {c d : Char} {a b cs r : List Char} {p : String}

lemma isWordPart_of_isGap (h : isGap c) : isWordPart c = false := by
  rcases or_eq_true _ _ ▸ h with h | h
  · have hn : ∀ d, isBlank d = false → (c == d) = false := by
      intro d hd
      rw [beq_eq_false_iff_ne]
      rintro rfl
      simp [hd] at h
    simp [isWordPart, isAlphanumeric_of_isBlank h, hn '_' (by decide), hn '$' (by decide),
      hn '\\' (by decide), hn '\u200c' (by decide), hn '\u200d' (by decide)]
  · obtain rfl := beq_iff_eq.1 h
    decide +kernel

lemma isWordPart_of_isAlphanum (h : c.isAlphanum) : isWordPart c := by
  have ha : c.toNat < 0x80 := by
    simp only [Char.isAlphanum, Char.isAlpha, Char.isUpper, Char.isLower, Char.isDigit,
      or_eq_true, decide_eq_true_eq, and_eq_true] at h
    have hv : c.toNat = c.val.toNat := rfl
    simp only [ge_iff_le, UInt32.le_iff_toNat_le] at h
    have hz : 'z'.val.toNat = 122 := rfl
    have hZ : 'Z'.val.toNat = 90 := rfl
    have h9 : '9'.val.toNat = 57 := rfl
    omega
  simp [isWordPart, isAlphanumeric, ha, h]

lemma not_isGap_of_isAlphanum (h : c.isAlphanum) : isGap c = false := by
  by_contra hg
  have hp := isWordPart_of_isGap (of_not_eq_false hg)
  rw [isWordPart_of_isAlphanum h] at hp
  cases hp

lemma not_isGap_of_continuesNumber {hex : Bool} {last : Char} (h : continuesNumber hex last c) : isGap c = false := by
  simp only [continuesNumber, or_eq_true, and_eq_true, beq_iff_eq] at h
  rcases h with ((h | rfl) | rfl) | ⟨⟨rfl | rfl, -⟩, -⟩
  · exact not_isGap_of_isAlphanum h
  all_goals decide

lemma not_isGap_of_numberExtent {hex : Bool} {last : Char} (h : numberExtent hex last a = a.length) :
    ∀ c ∈ a, isGap c = false := by
  induction a generalizing last with
  | nil => simp
  | cons d a ih =>
    rw [numberExtent] at h
    split at h
    · rename_i hd
      intro c hc
      rcases mem_cons.1 hc with rfl | hc
      · exact not_isGap_of_continuesNumber hd
      · exact ih (by simpa using h) c hc
    · simp at h

lemma not_isGap_of_punctuator (hp : p ∈ punctuators) : ∀ c ∈ p.toList, isGap c = false := by
  have ha : punctuators.all (fun p => p.toList.all fun c => !isGap c) := by decide
  intro c hc
  simpa using all_eq_true.1 (all_eq_true.1 ha p hp) c hc

lemma not_isGap_of_punctExtent : ∀ d ∈ cs.take (punctExtent c cs), isGap d = false := by
  intro d hd
  unfold punctExtent at hd
  dsimp only at hd
  split at hd
  · rename_i p hp
    have hf := find?_some hp
    rw [and_eq_true] at hf
    obtain ⟨more, hm⟩ := isPrefixOf_iff_prefix.1 hf.1
    refine not_isGap_of_punctuator (mem_of_find?_eq_some hp) d ?_
    have ht : (c :: cs).take p.length = p.toList := by
      rw [← hm, ← length_toList, take_left]
    have hl : p.length = p.length - 1 + 1 := by
      have hpo : ∀ p ∈ punctuators, 0 < p.length := by decide
      have := hpo p (mem_of_find?_eq_some hp)
      omega
    rw [← ht, hl, take_succ_cons]
    exact mem_cons_of_mem c hd
  · simp at hd

/-- A text that neither begins nor ends with a blank. -/
def InkEdged (cs : List Char) : Prop :=
  (∃ c a, cs = c :: a ∧ isGap c = false) ∧ ∃ a c, cs = a ++ [c] ∧ isGap c = false

lemma inkEdged_of_getLast? (hc : isGap c = false) (hd : (c :: a).getLast? = some d) (hg : isGap d = false) :
    InkEdged (c :: a) := by
  refine ⟨⟨c, a, rfl, hc⟩, ?_⟩
  obtain ⟨ys, hy⟩ := getLast?_eq_some_iff.1 hd
  exact ⟨ys, d, hy, hg⟩

lemma inkEdged_of_forall (hc : isGap c = false) (ha : ∀ d ∈ a, isGap d = false) : InkEdged (c :: a) := by
  have hn := cons_ne_nil c a
  refine inkEdged_of_getLast? hc (getLast?_eq_some_getLast hn) ?_
  rcases mem_cons.1 (getLast_mem hn) with h | h
  · rw [h, hc]
  · exact ha _ h

namespace Lexes

variable {fresh slash : Bool} {rest : List Char} {f : Form}

section

variable (h : Lexes fresh slash cs f rest)

include h

lemma getLast?_template (hf : f.kind = .template) : ∃ a, f.text = '`' :: a ∧ a.getLast? = some '`' := by
  obtain ⟨kind, x⟩ := f
  obtain ⟨off, pv, c, tl, -, -, -, h⟩ := h
  obtain ⟨a, rfl, rfl⟩ := cons_of_outcome h
  obtain rfl : kind = .template := hf
  by_cases hc : c = '`'
  · subst hc
    obtain ⟨cut, subs, hr, hh, -⟩ := partsOf_eq_some.1 (lexeme_template.1 h).2
    exact ⟨a, rfl, hh ▸ (divided_of_templateRest hr).getLast?⟩
  · rw [lexeme, if_neg hc, plainLexeme_eq_some] at h
    simp [bodyOf] at h

lemma exists_quotes (hf : f.kind = .string) : ∃ q x, f.text = q :: (x ++ [q]) ∧ (q = '\'' ∨ q = '"') := by
  obtain ⟨q, a, ha, ho, hb⟩ := h.exists_body (by rw [hf]; nofun)
  have hq := opens_openingKind fresh slash q (a ++ rest).head?
  rw [hf] at ho hb
  rw [ho] at hq
  obtain ⟨x, rfl⟩ := getLast?_eq_some_iff.1 (stringRest_local hb []).2
  exact ⟨q, x, ha, hq⟩

lemma exists_cons (hb : f.kind ≠ .blank) : ∃ c a, f.text = c :: a ∧ isGap c = false := by
  by_cases hf : f.kind = .template
  · obtain ⟨a, ha, -⟩ := h.getLast?_template hf
    exact ⟨'`', a, ha, by decide⟩
  · obtain ⟨c, a, ha, hk, -⟩ := h.exists_body hf
    refine ⟨c, a, ha, ?_⟩
    by_contra hg
    rw [openingKind, if_pos (Bool.of_not_eq_false hg)] at hk
    exact hb hk.symm

lemma inkEdged (hbl : f.kind ≠ .blank) (hli : f.kind ≠ .lineComment) : InkEdged f.text := by
  obtain ⟨c, a, ha, hg⟩ := h.exists_cons hbl
  by_cases hf : f.kind = .template
  · obtain ⟨b, hb, hl⟩ := h.getLast?_template hf
    obtain ⟨rfl, rfl⟩ := List.cons.inj (ha.symm.trans hb)
    rw [ha]
    exact inkEdged_of_getLast? hg (by simp [getLast?_cons, hl]) hg
  · obtain ⟨d, b, hb, -, hbo⟩ := h.exists_body hf
    obtain ⟨rfl, rfl⟩ := List.cons.inj (ha.symm.trans hb)
    rw [ha]
    obtain ⟨kind, text⟩ := f
    cases kind with
    | blank => exact absurd rfl hbl
    | lineComment => exact absurd rfl hli
    | template => exact absurd rfl hf
    | blockComment =>
      cases ht : a ++ rest with
      | nil => simp [ht, bodyOf] at hbo
      | cons star cs =>
        rw [ht] at hbo
        obtain ⟨x, rfl, hr⟩ := map_cons_parts.1 hbo
        have hl := (blockCommentRest_local hr []).2
        have hs : isGap '/' = false := by decide
        exact inkEdged_of_getLast? hg (by simp [getLast?_cons, hl]) hs
    | string =>
      have hl := (stringRest_local hbo []).2
      exact inkEdged_of_getLast? hg (by simp [getLast?_cons, hl]) hg
    | number => exact inkEdged_of_forall hg (not_isGap_of_numberExtent (number_body hbo).1)
    | word =>
      refine inkEdged_of_forall hg fun d hd => ?_
      by_contra hg
      have hp := List.all_eq_true.1 (while_body hbo).1 d hd
      rw [isWordPart_of_isGap (Bool.of_not_eq_false hg)] at hp
      cases hp
    | regex =>
      obtain ⟨⟨x, y⟩, hr, he⟩ := Option.map_eq_some_iff.1 hbo
      obtain ⟨rfl, -⟩ := Prod.mk.inj he
      have hl := (regexRest_local hr []).2
      cases hfl : (y.takeWhile Char.isAlpha).getLast? with
      | none =>
        have hs : isGap '/' = false := by decide
        exact inkEdged_of_getLast? hg (by simp [getLast?_cons, hl, hfl]) hs
      | some d =>
        have hd : d.isAlpha := mem_takeWhile_imp (mem_of_getLast? hfl)
        have hd : isGap d = false := not_isGap_of_isAlphanum (by simp [Char.isAlphanum, hd])
        exact inkEdged_of_getLast? hg (by simp [getLast?_cons, hfl]) hd
    | punct =>
      have hex : a = (a ++ rest).take (punctExtent c (a ++ rest)) := by
        simp only [bodyOf, Option.some.injEq, Prod.mk.injEq] at hbo
        exact hbo.1.symm
      refine inkEdged_of_forall hg ?_
      rw [hex]
      exact not_isGap_of_punctExtent

end

end Lexes

lemma find?_of_imp {α : Type} {p q : α → Bool} {l : List α} (him : ∀ x ∈ l, q x → p x)
    {a : α} (h : l.find? p = some a) (ha : q a) : l.find? q = some a := by
  induction l with
  | nil => simp at h
  | cons x l ih =>
    by_cases hq : q x
    · have hp := him x (by simp) hq
      rw [find?_cons_of_pos hp] at h
      rw [find?_cons_of_pos hq, h]
    · rw [find?_cons_of_neg hq]
      by_cases hp : p x
      · rw [find?_cons_of_pos hp] at h
        exact absurd (Option.some.inj h ▸ ha) hq
      · rw [find?_cons_of_neg hp] at h
        exact ih (fun y hy => him y (mem_cons_of_mem x hy)) h

def fitsAt (c : Char) (v : List Char) (p : String) : Bool :=
  p.toList.isPrefixOf (c :: v) && !(p == "?." && (v.drop 1).head?.any Char.isDigit)

lemma punctExtent_eq (c : Char) (v : List Char) : punctExtent c v = match punctuators.find? (fitsAt c v) with
      | some p => p.length - 1
      | none => 0 := rfl

lemma fitsAt_append {v : List Char} (h : fitsAt c v p) (hdo : v = ['.'] → r.head?.any Char.isDigit = false) :
    fitsAt c (v ++ r) p := by
  simp only [fitsAt, Bool.and_eq_true, isPrefixOf_iff_prefix, Bool.not_eq_true',
    Bool.and_eq_false_iff, beq_eq_false_iff_ne] at h ⊢
  obtain ⟨hf, hd⟩ := h
  refine ⟨hf.trans (prefix_append (c :: v) r), ?_⟩
  by_cases hp : p = "?."
  · subst hp
    obtain ⟨w, hw⟩ := hf
    obtain ⟨rfl, rfl⟩ : c = '?' ∧ v = '.' :: w := by simpa [eq_comm] using hw
    refine .inr ?_
    cases w with
    | nil => exact hdo rfl
    | cons d w => simpa using hd
  · exact .inl hp

lemma toList_of_fitsAt {w : List Char} (hm : p ∈ punctuators) (h : fitsAt c (cs ++ w) p)
    (hl : p.length - 1 = cs.length) : p.toList = c :: cs := by
  have hpo : ∀ p ∈ punctuators, 0 < p.length := by decide
  have hp := hpo p hm
  simp only [fitsAt, Bool.and_eq_true, isPrefixOf_iff_prefix] at h
  have ht := prefix_iff_eq_take.1 h.1
  have hs : p.toList.length = cs.length + 1 := by
    rw [String.length_toList]
    omega
  rw [ht, hs, take_succ_cons, take_left]

/-- Cutting off what comes later leaves a punctuator as it is, unless a digit behind `?.` is lost. -/
lemma punctExtent_of_append {v : List Char} (h : punctExtent c (cs ++ (v ++ r)) = cs.length)
    (hdo : v = ['.'] → r.head?.any Char.isDigit = false) : punctExtent c (cs ++ v) = cs.length := by
  rw [punctExtent_eq] at h ⊢
  cases hfi : punctuators.find? (fitsAt c (cs ++ (v ++ r))) with
  | none =>
    rw [hfi] at h
    obtain rfl := length_eq_zero_iff.1 h.symm
    have hn : punctuators.find? (fitsAt c ([] ++ v)) = none := by
      rw [find?_eq_none] at hfi ⊢
      intro p hp hf
      exact hfi p hp (by simpa using fitsAt_append hf hdo)
    rw [hn]
    rfl
  | some p =>
    rw [hfi] at h
    have hm := mem_of_find?_eq_some hfi
    have hf := find?_some hfi
    have hp := toList_of_fitsAt hm hf h
    have hf' : fitsAt c (cs ++ v) p := by
      simp only [fitsAt, hp, Bool.and_eq_true, isPrefixOf_iff_prefix, Bool.not_eq_true',
        Bool.and_eq_false_iff, beq_eq_false_iff_ne] at hf ⊢
      refine ⟨prefix_append (c :: cs) v, hf.2.imp_right fun hd => ?_⟩
      rw [← append_assoc] at hd
      generalize cs ++ v = u at hd ⊢
      rcases u with _ | ⟨a, _ | ⟨b, w⟩⟩
      · rfl
      · rfl
      · simpa using hd
    have hdo' : cs ++ v = ['.'] → r.head?.any Char.isDigit = false := by
      intro heq
      cases cs with
      | nil => exact hdo heq
      | cons d cs =>
        -- Only one punctuator ends with a single point, and it does not stand before a digit.
        obtain ⟨rfl, hni⟩ : d = '.' ∧ cs ++ v = [] := by simpa using heq
        obtain ⟨rfl, rfl⟩ := append_eq_nil_iff.1 hni
        have ho : ∀ p ∈ punctuators, p.toList.drop 1 = ['.'] → p = "?." := by decide
        obtain rfl := ho p hm (by rw [hp]; rfl)
        simpa [fitsAt, hp] using hf
    have him : ∀ q ∈ punctuators, fitsAt c (cs ++ v) q → fitsAt c (cs ++ (v ++ r)) q := by
      intro q _ hq
      rw [← append_assoc]
      exact fitsAt_append hq hdo'
    rw [find?_of_imp him hfi hf']
    exact h

/-- A character that is drawn into no token but a comment. -/
def isNeutral (d : Char) : Bool := !isMark d && !isWordPart d

lemma isDigit_of_isNeutral (h : isNeutral d) : d.isDigit = false := by
  by_contra hd
  have := isWordPart_of_isAlphanum (c := d) (by simp [Char.isAlphanum, Bool.of_not_eq_false hd])
  simp [isNeutral, this] at h

lemma isPrefixOf_append_cons {p x : List Char} (hp : d ∉ p) : p.isPrefixOf (x ++ d :: r) = p.isPrefixOf x := by
  induction p generalizing x with
  | nil => cases x <;> rfl
  | cons a p ih =>
    cases x with
    | nil =>
      have hn : (a == d) = false := by
        rw [beq_eq_false_iff_ne]
        rintro rfl
        simp at hp
      simp [isPrefixOf, hn]
    | cons b x => simp only [cons_append, isPrefixOf, ih fun h => hp (mem_cons_of_mem a h)]

lemma punctExtent_append_neutral (v r : List Char) (h : isNeutral d) : punctExtent c (v ++ d :: r) = punctExtent c v := by
  have hd := isDigit_of_isNeutral h
  have hf : ∀ p ∈ punctuators, fitsAt c (v ++ d :: r) p = fitsAt c v p := by
    intro p hp
    have hn : d ∉ p.toList := by
      intro hm
      have : isMark d := any_eq_true.2 ⟨p, hp, by simpa using hm⟩
      simp [isNeutral, this] at h
    rw [fitsAt, fitsAt, ← cons_append, isPrefixOf_append_cons hn]
    rcases v with _ | ⟨a, _ | ⟨b, v⟩⟩
    · -- Without a second character there is no `?.`.
      by_cases hp : p = "?."
      · subst hp
        simp
      · simp [hp]
    · simp [hd]
    · rfl
  rw [punctExtent_eq, punctExtent_eq, find?_congr hf]

namespace Form

variable {fresh : Bool} {f : Form} {v : List Char}

lemma endsBefore_of_append (h : f.endsBefore fresh (v ++ r))
    (hd : v = ['.'] → r.head?.any Char.isDigit = false) : f.endsBefore fresh v := by
  obtain ⟨kind, x⟩ := f
  have hh : v = [] ∨ (v ++ r).head? = v.head? := by
    cases v with
    | nil => exact .inl rfl
    | cons d v => exact .inr rfl
  cases kind with
  | punct =>
    cases x with
    | nil => simp [endsBefore] at h
    | cons c cs =>
      simp only [endsBefore, and_eq_true, beq_iff_eq] at h
      have he := punctExtent_of_append h.1.1 hd
      rcases hh with rfl | hh
      · simpa [endsBefore] using he
      · rw [hh] at h
        simp only [endsBefore, and_eq_true, beq_iff_eq]
        exact ⟨⟨he, h.1.2⟩, h.2⟩
  | blockComment => rfl
  | string => rfl
  | template => rfl
  | _ =>
    rcases hh with rfl | hh
    · simp [endsBefore]
    · simpa only [endsBefore, hh] using h

lemma endsBefore_append_neutral (h : f.endsBefore fresh v) (hd : isNeutral d)
    (hv : v ≠ [] ∨ f.kind ≠ .blank ∧ f.kind ≠ .lineComment) : f.endsBefore fresh (v ++ d :: r) := by
  obtain ⟨kind, text⟩ := f
  have hn : ∀ e, isNeutral e = false → d ≠ e := by
    rintro e he rfl
    simp [hd] at he
  have hp : isWordPart d = false := by
    simp only [isNeutral, and_eq_true, not_eq_true'] at hd
    exact hd.2
  have ha : d.isAlphanum = false := by
    by_contra hb
    rw [isWordPart_of_isAlphanum (of_not_eq_false hb)] at hp
    cases hp
  cases v with
  | nil =>
    cases kind with
    | blank => simp at hv
    | lineComment => simp at hv
    | blockComment => rfl
    | string => rfl
    | template => rfl
    | number =>
      simp [endsBefore, continuesNumber, ha, hn '_' (by decide), hn '.' (by decide), hn '+' (by decide), hn '-' (by decide)]
    | word => simp [endsBefore, hp, hn '!' (by decide)]
    | regex =>
      have hal : d.isAlpha = false := by
        rw [Char.isAlphanum, or_eq_false_iff] at ha
        exact ha.1
      simp [endsBefore, hal]
    | punct =>
      cases text with
      | nil => simp [endsBefore] at h
      | cons c cs =>
        simp only [endsBefore, append_nil, nil_append, head?_nil, and_eq_true, beq_iff_eq] at h ⊢
        rw [punctExtent_append_neutral _ _ hd]
        simp [h.1.1, isDigit_of_isNeutral hd, hn '/' (by decide), hn '*' (by decide)]
  | cons e v =>
    cases kind with
    | punct =>
      cases text with
      | nil => simp [endsBefore] at h
      | cons c cs =>
        have hex : punctExtent c (cs ++ (e :: v ++ d :: r)) = punctExtent c (cs ++ e :: v) := by
          rw [← append_assoc, punctExtent_append_neutral _ _ hd]
        simp only [endsBefore, hex]
        exact h
    | _ => exact h

end Form

end CustomElement.Script
