import CustomElement.Proofs.Script.LiteralCommas
import CustomElement.Proofs.Script.TypeForms
import CustomElement.Proofs.Script.Untouched

/-!
# The values of enumeration members

`EnumBody` is the body of an enumeration on tokens: members with commas between them, each given nothing, a string or
an integer literal. `memberLines` are the lines that they become (`Stream.enumLines_exact`). The value of the next
member is kept as a text that is read anew, so what is carried along the members is that the text is read as its
integer (`Value.Known`).
-/

namespace CustomElement.Script

open List Text

/-- The character is the digit `v` of a base. -/
def IsDigit (base v : Nat) (c : Char) : Prop := v < base ∧ c ∈ [v.digitChar, v.digitChar.toUpper]

/-- The digits of `n` in a base. Between two digits a low line may stand. -/
inductive Digits (base : Nat) : List Char → Nat → Prop
  | one {v c} (h : IsDigit base v c) : Digits base [c] v
  | more {cs gap n v c} (hdigits : Digits base cs n) (hgap : gap = [] ∨ gap = ['_']) (h : IsDigit base v c) :
      Digits base (cs ++ (gap ++ [c])) (n * base + v)

/-- An integer literal, and the integer. -/
inductive IntegerText : List Char → Int → Prop
  | decimal {cs n} (h : Digits 10 cs n) : IntegerText cs n
  | negative {cs n} (h : Digits 10 cs n) : IntegerText ('-' :: cs) (-n)
  | hexadecimal {cs n} (h : Digits 16 cs n) : IntegerText ('0' :: 'x' :: cs) n

/-- The integer fits a signed word of 64 bits. -/
def inWord (i : Int) : Bool := -wordBound ≤ i && i < wordBound

variable {cs r : List Char} {c : Char} {base n v : Nat} {i : Int}

lemma IsDigit.facts (hb : base = 10 ∨ base = 16) (h : IsDigit base v c) :
    digitValue? base c = some v ∧ c ≠ '_' ∧ c.isAlphanum ∧ (base = 10 → c.isDigit) := by
  have hd : ∀ v < 16, [v.digitChar, v.digitChar.toUpper].all fun c => digitValue? 16 c == some v && c != '_' &&
      c.isAlphanum && (!decide (v < 10) || digitValue? 10 c == some v && c.isDigit) := by decide
  obtain ⟨hv, hc⟩ := h
  have h := all_eq_true.1 (hd v (by omega)) c hc
  rcases hb with rfl | rfl <;> simp_all

namespace Digits

lemma forall_mem {P : Char → Prop} (h : Digits base cs n) (hl : P '_') (hd : ∀ v c, IsDigit base v c → P c) :
    ∀ c ∈ cs, P c := by
  induction h with
  | one h => simpa using hd _ _ h
  | more _ hg h ih =>
    have hd := hd _ _ h
    rcases hg with rfl | rfl <;> simpa [or_imp, forall_and, hl, hd] using ih

lemma exists_first (h : Digits base cs n) : ∃ v c r, cs = c :: r ∧ IsDigit base v c := by
  induction h with
  | one h => exact ⟨_, _, [], rfl, h⟩
  | more _ _ _ ih =>
    obtain ⟨v, c, r, rfl, h⟩ := ih
    exact ⟨v, c, _, rfl, h⟩

lemma toDigits (n : Nat) : Digits 10 (Nat.toDigits 10 n) n := by
  induction n using Nat.strong_induction_on with
  | _ n ih =>
    by_cases hn : n < 10
    · rw [Nat.toDigits_of_lt_base hn]
      exact .one ⟨hn, mem_cons_self⟩
    · have hd : n % 10 < 10 := Nat.mod_lt n (by decide)
      have ha := Nat.toDigits_append_toDigits (b := 10) (by decide) (show 0 < n / 10 by omega) hd
      rw [Nat.toDigits_of_lt_base hd, Nat.div_add_mod] at ha
      have hm := (ih (n / 10) (by omega)).more (.inl rfl) ⟨hd, mem_cons_self⟩
      rwa [nil_append, ha, Nat.div_add_mod'] at hm

variable (h : Digits base cs n) (hb : base = 10 ∨ base = 16)

include h hb

lemma natural? : ∃ c ds, cs.filter (· != '_') = c :: ds ∧ c.isAlphanum ∧ Text.natural? base (c :: ds) = some n := by
  have ha : ∀ {v ds es}, digitsValue? base v (ds ++ es) = (digitsValue? base v ds).bind fun v => digitsValue? base v es := by
    intro v ds es
    induction ds generalizing v with
    | nil => rfl
    | cons c ds ih =>
      rw [cons_append, digitsValue?, digitsValue?]
      cases digitValue? base c with
      | none => rfl
      | some d => exact ih
  induction h with
  | @one v c h =>
    obtain ⟨hd, hn, hal, -⟩ := h.facts hb
    exact ⟨c, [], by simp [hn], hal, by simp [Text.natural?, digitsValue?, hd]⟩
  | @more cs gap n v c _ hg h ih =>
    obtain ⟨hd, hn, -⟩ := h.facts hb
    obtain ⟨e, ds, hf, he, hna⟩ := ih
    refine ⟨e, ds ++ [c], ?_, he, ?_⟩
    · rcases hg with rfl | rfl <;> simp [hf, hn]
    · change digitsValue? base 0 _ = _ at hna ⊢
      rw [← cons_append, ha, hna]
      simp [digitsValue?, hd]

lemma int64? : Text.int64? base (cs.filter (· != '_')) = (some (n : Int)).filter inWord ∧
    Text.int64? base ('-' :: cs.filter (· != '_')) = (some (-n : Int)).filter inWord := by
  obtain ⟨c, ds, hf, hc, hna⟩ := h.natural? hb
  rw [hf, Text.int64?, Text.int64?, hna]
  · exact ⟨rfl, rfl⟩
  · rintro _ ⟨⟩
    cases hc
  · rintro _ ⟨⟩
    cases hc

end Digits

/-- A number, with a minus before it or none. -/
def IsNumber (x : List Char) : Prop :=
  ∃ sign c r, (sign = [] ∨ sign = ['-']) ∧ x = sign ++ c :: r ∧ c.isDigit ∧ ∀ d ∈ r, d.isAlphanum || d == '_'

lemma IntegerText.isNumber (h : IntegerText cs i) : IsNumber cs := by
  have ha : ∀ {base cs n}, base = 10 ∨ base = 16 → Digits base cs n → ∀ c ∈ cs, c.isAlphanum || c == '_' :=
    fun hb h => h.forall_mem rfl fun v c h => by simp [(h.facts hb).2.2.1]
  have hf : ∀ {sign cs n}, sign = [] ∨ sign = ['-'] → Digits 10 cs n → IsNumber (sign ++ cs) := by
    intro sign cs n hs h
    obtain ⟨v, c, r, rfl, hd⟩ := h.exists_first
    exact ⟨sign, c, r, hs, rfl, (hd.facts (.inl rfl)).2.2.2 rfl, (forall_mem_cons.1 (ha (.inl rfl) h)).2⟩
  cases h with
  | decimal h => exact hf (.inl rfl) h
  | negative h => exact hf (.inr rfl) h
  | hexadecimal h => exact ⟨[], '0', _, .inl rfl, rfl, rfl, forall_mem_cons.2 ⟨rfl, ha (.inr rfl) h⟩⟩

/-- The integer that the text of a value is read as. -/
def integer? (x : String) : Option Int :=
  match (trimList x.toList).filter (· != '_') with
  | '0' :: 'x' :: hex => int64? 16 hex
  | '0' :: 'X' :: hex => int64? 16 hex
  | digits => int64? 10 digits

lemma IntegerText.integer? (h : IntegerText cs i) : Script.integer? (String.ofList cs) = (some i).filter inWord := by
  have hc : ∀ c ∈ cs, isBlank c = false := by
    obtain ⟨sign, c, r, hs, rfl, hc, hr⟩ := h.isNumber
    have ha : ∀ c : Char, c.isAlphanum || c == '_' → isBlank c = false := by
      intro c hc
      simp only [or_eq_true, beq_iff_eq] at hc
      rcases hc with hc | rfl
      · exact (Bool.or_eq_false_iff.1 (not_isGap_of_isAlphanum hc)).1
      · decide
    have hm : isBlank '-' = false := by decide
    have hc := ha c (by simp [Char.isAlphanum, hc])
    have hr := fun d hd => ha d (hr d hd)
    rcases hs with rfl | rfl <;> simpa [hm, hc] using hr
  have hd : ∀ {cs : List Char}, (∀ c ∈ cs, isBlank c = false) → cs.dropWhile isBlank = cs := by
    intro cs h
    cases cs with
    | nil => rfl
    | cons c cs => rw [dropWhile_cons_of_neg (by simp [h])]
  rw [Script.integer?, toList_ofList, trimList, trimEndList, trimStartList, hd hc, hd (by simpa using hc), reverse_reverse]
  cases h with
  | decimal h =>
    have hx : ∀ c, c = 'x' ∨ c = 'X' → c ∉ cs.filter (· != '_') := by
      intro c hc hm
      have hd := h.forall_mem (P := fun c => c = '_' ∨ c.isDigit) (.inl rfl)
        (fun v c h => .inr ((h.facts (.inl rfl)).2.2.2 rfl)) c (mem_filter.1 hm).1
      rcases hc with rfl | rfl <;> revert hd <;> decide
    split
    · rename_i heq
      exact absurd (heq ▸ mem_cons_of_mem _ mem_cons_self) (hx 'x' (.inl rfl))
    · rename_i heq
      exact absurd (heq ▸ mem_cons_of_mem _ mem_cons_self) (hx 'X' (.inr rfl))
    · exact (h.int64? (.inl rfl)).1
  | negative h => exact (h.int64? (.inl rfl)).2
  | hexadecimal h => exact (h.int64? (.inr rfl)).1

/-- Where a bracket stands no integer is read. -/
lemma integer?_of_mem {x : String} (h : '[' ∈ x.toList) : integer? x = none := by
  have hv : ∀ {base v cs}, '[' ∈ cs → digitsValue? base v cs = none := by
    intro base v cs h
    induction cs generalizing v with
    | nil => cases h
    | cons c cs ih =>
      rw [digitsValue?]
      rcases mem_cons.1 h with rfl | h
      · rfl
      · cases digitValue? base c with
        | none => rfl
        | some d => exact ih h
  have hi : ∀ {base cs}, '[' ∈ cs → int64? base cs = none := by
    intro base cs h
    have hn : ∀ {cs}, '[' ∈ cs → natural? base cs = none := by
      intro cs h
      cases cs with
      | nil => rfl
      | cons c cs => exact hv h
    rw [int64?.eq_def]
    split
    · simp [hn (mem_of_ne_of_mem (by decide) h)]
    · simp [hn (mem_of_ne_of_mem (by decide) h)]
    · simp [hn h]
  obtain ⟨a, b, hab⟩ := append_of_mem h
  have hm : '[' ∈ (trimList x.toList).filter (· != '_') := by
    rw [hab, trimList_append (by decide)]
    simp
  rw [integer?]
  split
  · rename_i heq
    exact hi (mem_of_ne_of_mem (by decide) (mem_of_ne_of_mem (by decide) (heq ▸ hm)))
  · rename_i heq
    exact hi (mem_of_ne_of_mem (by decide) (mem_of_ne_of_mem (by decide) (heq ▸ hm)))
  · exact hi hm

/-- The value of a member: its text, and the integer that the text is, if it is a numeral. -/
structure Value where
  text : String
  integer : Option Int

namespace Value

/-- The value after that of the member `key`. -/
def next (name key : String) (v : Value) : Value :=
  match v.integer.filter fun i => inWord i && inWord (i + 1) with
  | some i => ⟨toString (i + 1), some (i + 1)⟩
  | none => ⟨name ++ "[" ++ key ++ "] + 1", none⟩

/-- The text is read as the integer. -/
def Known (v : Value) : Prop := integer? v.text = v.integer.filter inWord

lemma known_toString (i : Int) : Known ⟨toString i, some i⟩ := by
  have h : IntegerText (toString i).toList i := by
    cases i with
    | ofNat n => exact Nat.toList_repr (n := n) ▸ .decimal (Digits.toDigits n)
    | negSucc n =>
      change IntegerText ("-" ++ (n + 1).repr).toList (-(n + 1 : Nat))
      rw [toList_append, Nat.toList_repr]
      exact .negative (Digits.toDigits (n + 1))
  have h := h.integer?
  rwa [ofList_toList] at h

variable {v : Value} (name key : String)

lemma known_next : (v.next name key).Known := by
  rw [next]
  split
  · exact known_toString _
  · exact integer?_of_mem (by simp)

lemma Known.nextEnumValue (h : v.Known) : nextEnumValue v.text name key = (v.next name key).text := by
  have heq : Script.nextEnumValue v.text name key = match integer? v.text with
    | some n => if n + 1 < wordBound then toString (n + 1) else name ++ "[" ++ key ++ "] + 1"
    | none => name ++ "[" ++ key ++ "] + 1" := rfl
  rw [heq, h, next]
  cases v.integer with
  | none => rfl
  | some i =>
    cases hi : inWord i with
    | false => simp [Option.filter, hi]
    | true =>
      have hn : inWord (i + 1) = decide (i + 1 < wordBound) := by
        simp only [inWord, and_eq_true, decide_eq_true_eq] at hi
        simp only [inWord, Bool.and_eq_right_iff_imp, decide_eq_true_eq]
        omega
      by_cases hl : i + 1 < wordBound <;> simp [Option.filter, hi, hn, hl]

end Value

lemma lexes_number {fresh slash : Bool} (hc : c.isDigit) (hcs : ∀ d ∈ cs, d.isAlphanum || d == '_')
    (hr : r = [] ∨ r = [')']) : Lexes fresh slash (c :: (cs ++ r)) ⟨.number, c :: cs⟩ r := by
  have hg : isGap c = false := not_isGap_of_isAlphanum (by simp [Char.isAlphanum, hc])
  have hne : ∀ d : Char, d.isDigit = false → c ≠ d := by
    rintro d hd rfl
    simp [hc] at hd
  refine (lexes_plain_iff (hne _ (by decide))).2 ⟨?_, ?_⟩
  · simp [openingKind, hg, hc, hne '/' (by decide), hne '#' (by decide), hne '\'' (by decide), hne '"' (by decide)]
  · have hn : ∀ {hex last}, numberExtent hex last (cs ++ r) = cs.length := by
      intro hex last
      refine numberExtent_append.2 ⟨?_, ?_⟩
      · clear hc hg hne hr
        induction cs generalizing last with
        | nil => rfl
        | cons d cs ih =>
          obtain ⟨hd, hm⟩ := forall_mem_cons.1 hcs
          simp only [or_eq_true, beq_iff_eq] at hd
          rcases hd with hd | rfl <;> simp [numberExtent, ih hm, *]
      · have hcl : Char.isAlphanum ')' = false := by decide
        rcases hr with rfl | rfl <;> simp [continuesNumber, hcl]
    simp [bodyOf, hn]

lemma isPunct_of_form {t : Token} {x : String} (h : t.form = ⟨.punct, x.toList⟩) : t.isPunct x :=
  isPunct_iff.2 ⟨congrArg Form.kind h, toList_inj.1 (congrArg Form.text h)⟩

/-- A token of a number with its sign. -/
def Token.isNumeric (t : Token) : Bool := t.kind == .number || t.isPunct "-"

lemma Token.plain_of_isNumeric {t : Token} (h : t.isNumeric) :
    t.isTrivia = false ∧ t.isOpener = false ∧ t.isCloser = false ∧ t.kind ≠ .word ∧ t.isPunct "," = false := by
  obtain ⟨kind, x, st⟩ := t
  simp only [isNumeric, Token.isPunct, or_eq_true, and_eq_true, beq_iff_eq] at h
  rcases h with rfl | ⟨rfl, rfl⟩ <;> exact ⟨rfl, rfl, rfl, by simp, rfl⟩

lemma IsNumber.reads {x : List Char} (h : IsNumber x) (hr : r = [] ∨ r = [')']) (fresh slash : Bool) :
    ∃ fs, Reads fresh slash (x ++ r) (fs ++ r.map fun c => ⟨.punct, [c]⟩) ∧ ∀ t : Token, t.form ∈ fs → t.isNumeric := by
  obtain ⟨sign, c, cs, hs, rfl, hc, hcs⟩ := h
  have hm : ∀ sl, Reads false sl r (r.map fun c => ⟨.punct, [c]⟩) := by
    intro sl
    rcases hr with rfl | rfl
    · exact .nil _ _
    · exact .cons (lexes_closeParen sl) (.nil _ _)
  have hn : ∀ fresh slash, Reads fresh slash (c :: (cs ++ r)) (⟨.number, c :: cs⟩ :: r.map fun c => ⟨.punct, [c]⟩) :=
    fun _ _ => .cons (lexes_number hc hcs hr) (hm _)
  have hnu : ∀ t : Token, t.form = ⟨.number, c :: cs⟩ → t.isNumeric := by
    intro t ht
    simp [Token.isNumeric, show t.kind = _ from congrArg Form.kind ht]
  rcases hs with rfl | rfl
  · exact ⟨[⟨.number, c :: cs⟩], hn _ _, by simpa using hnu⟩
  · refine ⟨[⟨.punct, ['-']⟩, ⟨.number, c :: cs⟩], .cons ?_ (hn _ _), fun t ht => ?_⟩
    · have hne : '-' ≠ c ∧ '=' ≠ c := by constructor <;> rintro rfl <;> cases hc
      have he : punctExtent '-' (c :: (cs ++ r)) = 0 := by simp [punctExtent, punctuators, isPrefixOf, hne]
      have hg : isGap '-' = false ∧ isWordStart '-' = false := by decide
      exact (lexes_plain_iff (by decide)).2 ⟨by simp [openingKind, hg], by simp [bodyOf, he]⟩
    · rcases mem_cons.1 ht with ht | ht
      · rw [Token.isNumeric, isPunct_of_form (x := "-") ht, Bool.or_true]
      · exact hnu t (mem_singleton.1 ht)

lemma Stream.scan_numeric {s : Stream} {erase : String → Except Fault String} {p : Progress} {hi j : Nat}
    (h : ∀ k, j ≤ k → k < hi → (s.tok k).isNumeric) (hp : p.heritage = false) : s.scan erase .paren p hi j = .ok [] := by
  change s.scanAt erase ⟨.paren, p, hi, j⟩ = .ok []
  induction hn : hi - j generalizing j p with
  | zero => exact scanAt_eq_ok_iff.2 (.inl ⟨show ¬ j < hi by omega, rfl⟩)
  | succ n ih =>
    have hs : s.step erase .paren p hi j = .ok (s.keep p j) := by
      have hk := h j le_rfl (by omega)
      simp only [Token.isNumeric, Token.isPunct, or_eq_true, and_eq_true, beq_iff_eq] at hk
      rcases hk with hk | hk
      · simp [step, hp, tokenStep, Token.isWord, hk]
        rfl
      · simp [step, hp, tokenStep, Token.isWord, hk, punctStep]
        rfl
    have hr := @ih (s.keep p j).progress (j + 1) (fun k hk => h k (by omega)) hp (by omega)
    refine scanAt_eq_ok_iff.2 (.inr ⟨show j < hi by omega, s.keep p j, [], [], hs, rfl, ?_, rfl⟩)
    rw [← hr]
    simp [Site.onward, keep]

namespace IsNumber

variable {x : List Char} (h : IsNumber x)

include h

lemma qualifyMembers (name : String) (ms : List String) :
    Script.qualifyMembers (String.ofList x) name ms = .ok (String.ofList x) := by
  obtain ⟨fs, hr, hf⟩ := h.reads (.inl rfl) true true
  simp only [append_nil, map_nil] at hr
  obtain ⟨ts, ht, rfl⟩ := tokenize_eq_ok_iff.2 ((toList_ofList (l := x)).symm ▸ hr)
  have hq : ∀ {us last}, us ⊆ ts → qualifyTokens name ms last us = String.ofList (charsOf us) := by
    intro us last hu
    induction us generalizing last with
    | nil => rfl
    | cons t us ih =>
      obtain ⟨hm, hu⟩ := cons_subset.1 hu
      have hk := (Token.plain_of_isNumeric (hf t (mem_map_of_mem hm))).2.2.2.1
      simp [qualifyTokens, hk, ih hu, charsOf_cons]
  have hc : charsOf ts = x := (tokensFrom_tiles (mapError_eq_ok.1 ht)).flatten_text.trans toList_ofList
  rw [Script.qualifyMembers, ht]
  exact congrArg Except.ok ((hq (Subset.refl ts)).trans (by rw [hc]))

lemma exists_read : ∃ s o inner c, Stream.read ("(" ++ String.ofList x ++ ")") = .ok s ∧
    s.tokens = (o :: (inner ++ [c])).toArray ∧ ∀ t ∈ inner, t.isNumeric := by
  obtain ⟨fs, hr, hf⟩ := h.reads (.inr rfl) false true
  have hte : ("(" ++ String.ofList x ++ ")").toList = '(' :: (x ++ [')']) := by simp
  obtain ⟨all, ha, hall⟩ := tokenize_eq_ok_iff.2 (hte ▸ Reads.cons (lexes_openParen _) hr)
  obtain ⟨o, r, rfl, ho, hr⟩ := map_eq_cons_iff.1 hall
  obtain ⟨inner, r', rfl, rfl, hr'⟩ := map_eq_append_iff.1 hr
  obtain ⟨c, rfl, hc⟩ := map_eq_singleton_iff.1 hr'
  have ho := isPunct_of_form (x := "(") ho
  have hc := isPunct_of_form (x := ")") hc
  have hin : ∀ t ∈ inner, t.isNumeric := fun t ht => hf t (mem_map_of_mem ht)
  have hcode : (o :: (inner ++ [c])).filter (fun t => !t.isTrivia) = o :: (inner ++ [c]) :=
    filter_eq_self.2 (forall_mem_cons.2 ⟨by simp [isTrivia_of_isPunct ho], forall_mem_append.2
      ⟨fun t ht => by simp [Token.plain_of_isNumeric (hin t ht)], by simp [isTrivia_of_isPunct hc]⟩⟩)
  have hb : (Node.group o (inner.map .leaf) c).Balanced := by
    rw [isPunct_iff] at ho
    refine .group (by simp [Token.isOpener, ho]) (by rwa [ho.2]) fun n hn => ?_
    obtain ⟨t, ht, rfl⟩ := mem_map.1 hn
    obtain ⟨-, hop, hcl, -⟩ := Token.plain_of_isNumeric (hin t ht)
    exact .leaf hop hcl
  have hfo := forest_tokensOf ("(" ++ String.ofList x ++ ")") (forall_mem_singleton.2 hb)
  simp only [tokensOf_cons, tokensOf_nil, tokens_group, Node.tokensOf_leaves, append_nil] at hfo
  rw [← hcode] at hfo
  exact ⟨_, o, inner, c, bind_eq_ok.2 ⟨_, ha, bind_eq_ok.2 ⟨_, bind_eq_ok.2 ⟨_, hfo, rfl⟩, rfl⟩⟩, congrArg _ hcode, hin⟩

/-- A number is no expression that types could be erased from. -/
lemma eraseExpression (d : Nat) : Script.eraseExpression d (String.ofList x) = .ok (String.ofList x) := by
  cases d with
  | zero => rfl
  | succ d =>
    obtain ⟨s, o, inner, c, hs, hto, hin⟩ := h.exists_read
    obtain ⟨-, -, -, -, hso, -⟩ := Stream.exists_of_read hs
    rw [Script.eraseExpression, hs]
    change (s.scan _ _ _ _ _ >>= _) = _
    rw [Stream.scan_numeric (fun k hk hl => ?_) rfl]
    · change Except.ok (withoutParentheses (applyEdits s.source [])) = _
      have hte : ("(" ++ String.ofList x ++ ")").toList = ['('] ++ (x ++ [')']) := by simp
      have hl : byteLength (['('] ++ (x ++ [')'])) - 1 = byteLength ['('] + byteLength x := by
        rw [byteLength_append, byteLength_append]
        rfl
      rw [applyEdits_nil, hso, withoutParentheses, Span.slice?, hte, hl]
      exact congrArg (fun o => Except.ok ((Option.map String.ofList o).getD "")) (slice?_middle ['('] x [')'])
    · obtain ⟨k, rfl⟩ := Nat.exists_eq_add_of_le' hk
      have hsz : k < inner.length := by
        simp only [Stream.size, hto, size_toArray, length_cons, length_append, length_nil] at hl
        omega
      have ht : s.tok (k + 1) = inner[k] := by
        rw [Stream.tok, Array.getD_eq_getD_getElem?, hto, getElem?_toArray, getElem?_cons_succ, getElem?_append_left hsz,
          getElem?_eq_getElem hsz, getD_some]
      exact ht ▸ hin _ (getElem_mem hsz)

end IsNumber

/-- The tokens of an integer literal: a number, which may have a minus directly before it. -/
inductive Numeral : List Token → Int → Prop
  | number {t i} (ht : t.kind = .number) (h : IntegerText (charsOf [t]) i) : Numeral [t] i
  | negative {minus t i} (hminus : minus.isPunct "-") (hnext : minus.stop = t.start) (ht : t.kind = .number)
      (h : IntegerText (charsOf [minus, t]) i) : Numeral [minus, t] i

/-- What a member of an enumeration is given. -/
inductive Initial where
  | absent
  | string (text : String)
  | integer (text : String) (value : Int)

/-- A member: its key, as it is written between brackets, and what it is given. -/
structure EnumMember where
  key : String
  initial : Initial

inductive Initial.Spells : Initial → List Token → Prop
  | absent : Spells .absent []
  | string {mark t} (hmark : mark.isPunct "=") (ht : t.kind = .string) : Spells (.string t.text) [mark, t]
  | integer {mark ts value} (hmark : mark.isPunct "=") (hts : Numeral ts value) :
      Spells (.integer (String.ofList (charsOf ts)) value) (mark :: ts)

inductive EnumMember.Spells : EnumMember → List Token → Prop
  | word {t initial ts} (ht : t.kind = .word) (hts : initial.Spells ts) : Spells ⟨"'" ++ t.text ++ "'", initial⟩ (t :: ts)
  | string {t initial ts} (ht : t.kind = .string) (hts : initial.Spells ts) : Spells ⟨t.text, initial⟩ (t :: ts)

/-- Members with commas between them, and possibly one behind the last. -/
inductive EnumBody : List EnumMember → List Token → Prop
  | nil : EnumBody [] []
  | last {e ts} (h : e.Spells ts) : EnumBody [e] ts
  | cons {e es comma ts us} (h : e.Spells ts) (hcomma : comma.isPunct ",") (hmore : EnumBody es us) :
      EnumBody (e :: es) (ts ++ comma :: us)

/-- The lines for members; one without initializer has the value `v?`, and there is none behind a string. -/
def memberLines (name : String) (v? : Option Value) : List EnumMember → Option (List String)
  | [] => some []
  | ⟨key, initial⟩ :: es =>
    let numbered (v : Value) := (memberLines name (some (v.next name key)) es).map
      (cons (name ++ "[" ++ (name ++ "[" ++ key ++ "]") ++ " = " ++ v.text ++ "] = " ++ key ++ ";"))
    match initial with
    | .string x => (memberLines name none es).map (cons (name ++ "[" ++ key ++ "]" ++ " = " ++ x ++ ";"))
    | .integer x i => numbered ⟨x, some i⟩
    | .absent => v?.bind numbered

lemma Numeral.facts {ts : List Token} (h : Numeral ts i) : ts ≠ [] ∧ (∀ t ∈ ts, t.isNumeric) ∧ IntegerText (charsOf ts) i := by
  cases h with
  | number ht h => exact ⟨cons_ne_nil _ _, by simp [Token.isNumeric, ht], h⟩
  | negative hm _ ht h => exact ⟨cons_ne_nil _ _, by simp [Token.isNumeric, ht, hm], h⟩

/-- What a member is given, as it is written. -/
def Initial.value? : Initial → Option EnumValue
  | .absent => none
  | .string x => some ⟨x, true⟩
  | .integer x _ => some ⟨x, false⟩

namespace Stream

variable {s : Stream} {source name : String} {hi j m d : Nat} {t mark : Token} {ts us : List Token} {ms : List String}
  {initial : Initial}

lemma exists_source_of_holds (hs : Stream.read source = .ok s) (h : s.Holds j (t :: ts)) :
    ∃ a b, s.source.toList = a ++ (t.text.toList ++ b) ∧ byteLength a = t.start := by
  obtain ⟨pre, post, heq, rfl⟩ := h.exists_split
  have he := exists_source_tok hs (show pre.length < s.size by simp [size, ← Array.length_toList, heq])
  rwa [h.tok_eq] at he

/-- The text of a numeral in the script. -/
lemma slice_numeral (hs : Stream.read source = .ok s) {i : Int} (hn : Numeral us i) (h : s.Holds j us) :
    takeBytes ((s.tok (j + us.length - 1)).stop - (s.tok j).start) (dropBytes (s.tok j).start s.source.toList) = charsOf us := by
  cases hn with
  | number =>
    obtain ⟨a, b, hab, ha⟩ := exists_source_of_holds hs h
    rw [length_singleton, Nat.add_sub_cancel, h.tok_eq, Token.stop, Nat.add_sub_cancel_left, hab, ← ha, dropBytes_byteLength,
      takeBytes_byteLength]
    simp
  | @negative minus u _ _ hn =>
    obtain ⟨a, b, hab, ha⟩ := exists_source_of_holds hs h
    obtain ⟨a', b', hab', ha'⟩ := exists_source_of_holds hs h.tail
    have hb : b = u.text.toList ++ b' := by
      have hst : minus.stop = byteLength (a ++ minus.text.toList) := by rw [byteLength_append, ha, Token.stop]
      rw [← dropBytes_byteLength (a ++ minus.text.toList) b, append_assoc, ← hab, ← hst, hn, hab', ← ha', dropBytes_byteLength]
    have hl : u.stop - minus.start = byteLength (minus.text.toList ++ u.text.toList) := by
      rw [Token.stop, ← hn, Token.stop, byteLength_append]
      omega
    change takeBytes ((s.tok (j + 1)).stop - _) _ = _
    rw [h.tok_eq, h.tail.tok_eq, hl, hab, hb, ← append_assoc minus.text.toList, ← ha, dropBytes_byteLength, takeBytes_byteLength]
    simp

lemma is_eq {x : String} (h : s.Holds j (t :: ts)) : s.is j x = t.isOneOf [x] := by
  simp [is, h.tok_eq, Token.isOneOf, Bool.beq_eq_decide_eq]

lemma initializerEnd_of_holds (h : s.Holds j ts) (ht : ∀ t ∈ ts, t.isOpener = false ∧ t.isOneOf [","] = false)
    (hl : j + ts.length ≤ hi) (hstop : j + ts.length = hi ∨ s.is (j + ts.length) ",") :
    s.initializerEnd hi j = j + ts.length := by
  induction ts generalizing j with
  | nil =>
    rw [initializerEnd, if_neg]
    · rfl
    · rcases hstop with rfl | hstop
      · simp
      · simp [show s.is j "," from hstop]
  | cons t ts ih =>
    obtain ⟨⟨ho, hc⟩, ht⟩ := forall_mem_cons.1 ht
    simp only [length_cons] at hl hstop ⊢
    rw [initializerEnd, if_pos ⟨by omega, by simp [is_eq h, hc]⟩, skip, h.tok_eq, ho, if_neg Bool.false_ne_true,
      ih h.tail ht (by omega) (by rwa [add_assoc, add_comm 1])]
    omega

lemma memberValue_assigned (h : s.Holds m (t :: mark :: us)) (hmark : mark.isPunct "=")
    (hus : ∀ t ∈ us, t.isOpener = false ∧ t.isOneOf [","] = false) (hne : us ≠ []) (hl : m + (us.length + 2) ≤ hi)
    (hstop : m + (us.length + 2) = hi ∨ s.is (m + (us.length + 2)) ",") (erase : String → Except Fault String) :
    s.memberStop hi m = m + (us.length + 2) ∧
      s.memberValue erase name hi m ms = some <$> s.enumInitializer erase (m + 2) (m + (us.length + 2)) name ms := by
  have hp := length_pos_iff.2 hne
  have ha : s.assigned hi m = true := by
    rw [isPunct_iff] at hmark
    simp [assigned, is_eq h.tail, Token.isOneOf, hmark]
    omega
  have hst : s.memberStop hi m = m + (us.length + 2) := by
    rw [add_comm us.length, ← add_assoc] at hl hstop ⊢
    rw [memberStop, if_pos ha, initializerEnd_of_holds h.tail.tail hus hl hstop]
  exact ⟨hst, by rw [memberValue, if_pos ha, hst, if_neg (by omega)]⟩

lemma memberValue_of_spells (hs : Stream.read source = .ok s) (hi' : initial.Spells ts) (h : s.Holds m (t :: ts))
    (hl : m + (ts.length + 1) ≤ hi) (hstop : m + (ts.length + 1) = hi ∨ s.is (m + (ts.length + 1)) ",") :
    s.memberStop hi m = m + (ts.length + 1) ∧
      s.memberValue (eraseExpression d) name hi m ms = .ok initial.value? := by
  cases hi' with
  | absent =>
    have ha : s.assigned hi m = false := by
      rcases hstop with rfl | hc
      · simp [assigned]
      · have hc : s.is (m + 1) "," := hc
        simp only [is, and_eq_true, beq_iff_eq] at hc
        simp [assigned, is, hc]
    exact ⟨by simp [memberStop, ha], by simp [memberValue, ha]; rfl⟩
  | @string mark x hm hx =>
    obtain ⟨hst, hv⟩ := memberValue_assigned h hm (by simp [Token.isOpener, Token.isOneOf, hx]) (cons_ne_nil _ _) hl hstop
      (eraseExpression d)
    refine ⟨hst, hv.trans ?_⟩
    obtain ⟨a, b, hab, ha⟩ := exists_source_of_holds hs h.tail.tail
    have hto : s.tok (m + 2) = x := h.tail.tail.tok_eq
    change some <$> s.enumInitializer _ (m + 2) (m + 2 + 1) name ms = _
    rw [enumInitializer, Nat.add_sub_cancel, hto, Token.stop, Nat.add_sub_cancel_left, hab, ← ha, dropBytes_byteLength,
      takeBytes_byteLength, ofList_toList, hx, beq_self_eq_true]
    rfl
  | @integer mark us i hm hn =>
    obtain ⟨hne, hnu, htx⟩ := hn.facts
    have hus : ∀ t ∈ us, t.isOpener = false ∧ t.isOneOf [","] = false := fun t ht => by
      obtain ⟨-, ho, -, hw, hc⟩ := Token.plain_of_isNumeric (hnu t ht)
      exact ⟨ho, by simpa [Token.isOneOf, hw, Token.isPunct] using hc⟩
    obtain ⟨hst, hv⟩ := memberValue_assigned h hm hus hne hl hstop (eraseExpression d)
    refine ⟨hst, hv.trans ?_⟩
    have hsl : takeBytes ((s.tok (m + (us.length + 2) - 1)).stop - _) _ = _ :=
      (show m + 1 + 1 + us.length = m + (us.length + 2) by omega) ▸ slice_numeral hs hn h.tail.tail
    have hk : (m + (us.length + 2) == m + 2 + 1 && ((s.tok (m + 2)).kind == .string ||
        ((s.tok (m + 2)).kind == .template && !hasInterpolation (charsOf us)))) = false := by
      obtain ⟨u, us, rfl⟩ := exists_cons_of_ne_nil hne
      have hu := hnu u mem_cons_self
      have hto : s.tok (m + 2) = u := h.tail.tail.tok_eq
      simp only [Token.isNumeric, Token.isPunct, or_eq_true, and_eq_true, beq_iff_eq] at hu
      rcases hu with hu | hu <;> simp [hto, hu]
    rw [enumInitializer, hsl, hk, htx.isNumber.eraseExpression]
    change (fun v => some v) <$> (Script.qualifyMembers _ _ _ >>= _) = _
    rw [htx.isNumber.qualifyMembers]
    rfl

variable {e : EnumMember} {es : List EnumMember} {v? : Option Value}

lemma memberStep_of_spells (hs : Stream.read source = .ok s) (he : e.Spells ts) (h : s.Holds m ts) (hl : m + ts.length ≤ hi)
    (hstop : m + ts.length = hi ∨ s.is (m + ts.length) ",") (d : Nat) (name : String) (ms : List String) :
    m < hi ∧ s.memberStop hi m = m + ts.length ∧ (∃ member, s.enumKey m = .ok (e.key, member)) ∧
      s.memberValue (eraseExpression d) name hi m ms = .ok e.initial.value? ∧
      ∀ x i, e.initial = .integer x i → Value.Known ⟨x, some i⟩ := by
  cases he with
  | word ht hts | string ht hts =>
    obtain ⟨hst, hv⟩ := memberValue_of_spells hs hts h hl hstop
    rw [length_cons] at hl
    refine ⟨by omega, hst, ⟨_, by rw [enumKey, h.tok_eq, ht]⟩, hv, ?_⟩
    rintro x i rfl
    cases hts with
    | integer _ hn => exact hn.facts.2.2.integer?

variable (s) in
/-- The lines are those that are expected; where none are expected, a member without initializer stops them. -/
def Answers (answer : Except Fault (List String)) : Option (List String) → Prop
  | some ls => answer = .ok ls
  | none => ∃ j, answer = .error (s.unsupported j "enum member without initializer")

lemma Answers.cons {answer : Except Fault (List String)} {o : Option (List String)} (h : s.Answers answer o) (line : String) :
    s.Answers (answer >>= fun ls => return line :: ls) (o.map (List.cons line)) := by
  cases o with
  | none =>
    obtain ⟨j, rfl⟩ := h
    exact ⟨j, rfl⟩
  | some ls =>
    obtain rfl : answer = .ok ls := h
    rfl

lemma enumLines_step (hs : Stream.read source = .ok s) (he : e.Spells ts) (h : s.Holds m ts) (hl : m + ts.length ≤ hi)
    (hstop : m + ts.length = hi ∨ s.is (m + ts.length) ",") (hv : ∀ v ∈ v?, v.Known)
    (hmore : ∀ (v? : Option Value) ms, (∀ v ∈ v?, v.Known) → s.Answers
      (s.enumLines (eraseExpression d) name hi (max (s.nextMember hi m) (m + 1)) ms (v?.map Value.text)) (memberLines name v? es)) :
    s.Answers (s.enumLines (eraseExpression d) name hi m ms (v?.map Value.text)) (memberLines name v? (e :: es)) := by
  obtain ⟨hlt, hst, ⟨member, hk⟩, hva, hkn⟩ := memberStep_of_spells hs he h hl hstop d name ms
  obtain ⟨key, initial⟩ := e
  rw [enumLines_eq, if_pos hlt, hk, hva]
  have hnum : ∀ v : Value, v.Known → s.Answers (s.enumLines (eraseExpression d) name hi (max (s.nextMember hi m) (m + 1))
      (ms ++ [member]) (some (nextEnumValue v.text name key))) (memberLines name (some (v.next name key)) es) := by
    intro v hv
    rw [hv.nextEnumValue]
    exact hmore (some _) _ (by simpa using v.known_next name key)
  cases initial with
  | string x => exact (hmore none _ nofun).cons _
  | integer x i => exact (hnum _ (hkn x i rfl)).cons _
  | absent =>
    cases v? with
    | none => exact ⟨m, rfl⟩
    | some v => exact (hnum v (hv v rfl)).cons _

lemma enumLines_of_body (hs : Stream.read source = .ok s) (hb : EnumBody es ts) (h : s.Holds m ts) (hi' : m + ts.length = hi)
    (hv : ∀ v ∈ v?, v.Known) :
    s.Answers (s.enumLines (eraseExpression d) name hi m ms (v?.map Value.text)) (memberLines name v? es) := by
  induction hb generalizing m ms v? with
  | nil =>
    rw [enumLines_eq, if_neg (by simp [← hi'])]
    rfl
  | last he =>
    refine enumLines_step hs he h hi'.le (.inl hi') hv fun v? ms hv => ?_
    rw [enumLines_eq, if_neg]
    · rfl
    · obtain ⟨hlt, hst, -⟩ := memberStep_of_spells hs he h hi'.le (.inl hi') d name ms
      simp [nextMember, hst, hi']
  | @cons e es comma ts us he hc hmore ih =>
    have hco : s.is (m + ts.length) "," := by
      rw [isPunct_iff] at hc
      simp [is_eq h.right, Token.isOneOf, hc]
    have hle : m + ts.length + 1 + us.length = hi := by
      rw [← hi', length_append, length_cons]
      omega
    obtain ⟨hlt, hst, -⟩ := memberStep_of_spells hs he h.left (show m + ts.length ≤ hi by omega) (.inr hco) d name ms
    have hne : max (s.nextMember hi m) (m + 1) = m + ts.length + 1 := by
      rw [nextMember, hst, hco, decide_eq_true (by omega), Bool.and_self, if_pos rfl]
      exact max_eq_left (by omega)
    refine enumLines_step hs he h.left (by omega) (.inr hco) hv fun v? ms hv => ?_
    rw [hne]
    exact ih h.right.tail hle hv

end Stream

/-- A member without initializer directly behind one that is given a string. -/
def LacksValue (es : List EnumMember) : Prop := ∃ key x key', [⟨key, .string x⟩, ⟨key', .absent⟩] <:+: es

lemma memberLines_eq_none_iff {name : String} {v? : Option Value} {es : List EnumMember} : memberLines name v? es = none ↔
    LacksValue es ∨ v? = none ∧ ∃ key, [⟨key, .absent⟩] <+: es := by
  induction es generalizing v? with
  | nil => simp [memberLines, LacksValue]
  | cons e es ih =>
    obtain ⟨key, initial⟩ := e
    cases initial with
    | string x => simp [memberLines, ih, LacksValue, infix_cons_iff, cons_prefix_cons, exists_or, or_comm]
    | integer x i => simp [memberLines, ih, LacksValue, infix_cons_iff, cons_prefix_cons]
    | absent => cases v? <;> simp [memberLines, ih, LacksValue, infix_cons_iff, cons_prefix_cons]

/-- **The members of an enumeration get their values.** Each member gets its line, unless one without initializer stands
directly behind one that is given a string. -/
theorem Stream.enumLines_exact {source : String} {s : Stream} {lo : Nat} {members : List EnumMember} {ts : List Token}
    (hread : Stream.read source = .ok s) (hbody : EnumBody members ts) (hholds : s.Holds lo ts) (name : String) (depth : Nat) :
    (¬ LacksValue members ∧ ∃ ls, memberLines name (some ⟨"0", some 0⟩) members = some ls ∧
      s.enumLines (eraseExpression depth) name (lo + ts.length) lo [] (some "0") = .ok ls) ∨
    LacksValue members ∧ ∃ j, s.enumLines (eraseExpression depth) name (lo + ts.length) lo [] (some "0") =
      .error (s.unsupported j "enum member without initializer") := by
  have hanswers := @enumLines_of_body s source name _ lo depth ts [] members (some ⟨"0", some 0⟩) hread hbody hholds rfl
    (by rintro _ ⟨⟩; exact Value.known_toString 0)
  cases hlines : memberLines name (some ⟨"0", some 0⟩) members with
  | some ls =>
    rw [hlines] at hanswers
    refine .inl ⟨fun hlacks => ?_, ls, rfl, hanswers⟩
    rw [memberLines_eq_none_iff.2 (.inl hlacks)] at hlines
    cases hlines
  | none =>
    rw [hlines] at hanswers
    exact .inr ⟨(memberLines_eq_none_iff.1 hlines).resolve_right nofun, hanswers⟩

theorem Stream.enumLines_exact_successor : ∃ s members ts, Stream.read "enum N \x7b B = -1, 'c' \x7d" = .ok s ∧
    EnumBody members ts ∧ s.Holds 3 ts ∧ s.enumLines (eraseExpression 1) "N" (3 + ts.length) 3 [] (some "0") =
      .ok ["N[N['B'] = -1] = 'B';", "N[N['c'] = 0] = 'c';"] := by
  have hread : ∃ s, Stream.read "enum N \x7b B = -1, 'c' \x7d" = .ok s ∧ s.Holds 3 ([⟨.word, "B", 9⟩, ⟨.punct, "=", 11⟩,
      ⟨.punct, "-", 13⟩, ⟨.number, "1", 14⟩] ++ ⟨.punct, ",", 15⟩ :: [⟨.string, "'c'", 17⟩]) :=
    ⟨_, by cbv, ⟨[⟨.punct, "\x7d", 21⟩], by cbv⟩⟩
  obtain ⟨s, hs, hholds⟩ := hread
  have hnumber : Numeral [⟨.punct, "-", 13⟩, ⟨.number, "1", 14⟩] (-(1 : Nat)) :=
    .negative rfl rfl rfl (.negative (.one ⟨by decide, by decide⟩))
  have hbody : EnumBody _ ([⟨.word, "B", 9⟩, ⟨.punct, "=", 11⟩, ⟨.punct, "-", 13⟩, ⟨.number, "1", 14⟩] ++
      ⟨.punct, ",", 15⟩ :: [⟨.string, "'c'", 17⟩]) :=
    .cons (.word rfl (.integer rfl hnumber)) rfl (.last (.string rfl .absent))
  refine ⟨s, _, _, hs, hbody, hholds, ?_⟩
  rcases Stream.enumLines_exact hs hbody hholds "N" 1 with ⟨-, ls, hls, h⟩ | ⟨⟨k, x, k', h⟩, -⟩
  · rw [h]
    cases hls
    rfl
  · revert h
    simp [infix_cons_iff, cons_prefix_cons]

end CustomElement.Script
