import CustomElement.Proofs.Script.Fusion
import CustomElement.Proofs.Script.Properties

/-!
# The forms of types

The grammar of types, on tokens (`TypeForm`): unions and intersections of operands, an operand being a name with
arguments, a literal, a bracketed type or a function type, behind operators and before square brackets. A type of the
grammar is skipped exactly (`typeEnd_eq_of_typeForm`).
-/

namespace CustomElement.Script

open List Text

variable {ts : List Token} {m : Nat} {n : Node} {t : Token} {br x : String}

def Node.Opens (n : Node) (bracket : String) : Prop :=
  n.Balanced ∧ ∃ opener inside closer, n = .group opener inside closer ∧ opener.text = bracket

/-- What may stand between angles: balanced groups and angles, and punctuators that a list of types can hold. -/
inductive AngleBody : List Token → Prop
  | nil : AngleBody []
  | token {t : Token} {ts : List Token} (hopen : t.isOpener = false) (hclose : t.isCloser = false)
      (hless : t.isPunct "<" = false) (hgreater : t.isPunct ">" = false)
      (hallowed : (t.kind == .punct && Stream.notInTypes.contains t.text) = false) (hmore : AngleBody ts) :
      AngleBody (t :: ts)
  | group {n : Node} {bracket : String} {ts : List Token} (hgroup : n.Opens bracket) (hmore : AngleBody ts) :
      AngleBody (n.tokens ++ ts)
  | angles {less greater : Token} {inside ts : List Token} (hless : less.isPunct "<" = true) (hinside : AngleBody inside)
      (hgreater : greater.isPunct ">" = true) (hmore : AngleBody ts) : AngleBody (less :: (inside ++ greater :: ts))

/-- No angles, or a pair of them and what may stand between them. -/
inductive OptionalAngles : List Token → Prop
  | none : OptionalAngles []
  | some {less greater : Token} {inside : List Token} (hless : less.isPunct "<" = true) (hinside : AngleBody inside)
      (hgreater : greater.isPunct ">" = true) : OptionalAngles (less :: (inside ++ [greater]))

inductive DottedPath : List Token → Prop
  | nil : DottedPath []
  | cons {point name : Token} {ts : List Token} (hpoint : point.isPunct "." = true) (hname : name.kind = .word)
      (hmore : DottedPath ts) : DottedPath (point :: name :: ts)

/-- What may stand before a function type to make it the type of a constructor. -/
inductive ConstructorMark : List Token → Prop
  | none : ConstructorMark []
  | new {mark : Token} (hmark : mark.isWord "new" = true) : ConstructorMark [mark]
  | abstractNew {adjective mark : Token} (hadjective : adjective.isWord "abstract" = true)
      (hmark : mark.isWord "new" = true) : ConstructorMark [adjective, mark]

/-- The bars and ampersands between the operands of a type. -/
def Token.joinsTypes (t : Token) : Bool := t.isPunct "|" || t.isPunct "&"

def wordsOfTypes : List String := Stream.typeOperators ++ ["abstract", "new", "in", "of", "instanceof"]

/-- The operands without parts that are types themselves. -/
inductive SimpleForm : List Token → Prop
  | name {first : Token} {path arguments : List Token} (hword : first.kind = .word)
      (hfree : wordsOfTypes.contains first.text = false) (hpath : DottedPath path) (harguments : OptionalAngles arguments) :
      SimpleForm (first :: (path ++ arguments))
  | literal {t : Token} (hkind : t.kind = .string ∨ t.kind = .number ∨ t.kind = .template) : SimpleForm [t]
  | negative {minus number : Token} (hminus : minus.isPunct "-" = true) (hnumber : number.kind = .number) :
      SimpleForm [minus, number]
  | group {n : Node} {bracket : String} (hgroup : n.Opens bracket) : SimpleForm n.tokens

inductive TypePart where
  | primary
  | operand
  | union
  /-- A union that may begin with a bar or an ampersand. -/
  | whole

/-- **The grammar of types**: the tokens spell a type, or a part of one. -/
inductive TypeForm : TypePart → List Token → Prop
  | simple {ts : List Token} (h : SimpleForm ts) : TypeForm .primary ts
  | function {mark parameters result : List Token} {n : Node} {arrow : Token} (hmark : ConstructorMark mark)
      (hparameters : OptionalAngles parameters) (hlist : n.Opens "(") (harrow : arrow.isPunct "=>" = true)
      (hresult : TypeForm .whole result) :
      TypeForm .primary (mark ++ (parameters ++ (n.tokens ++ arrow :: result)))
  | operand {operators primary : List Token} {suffixes : List Node}
      (hoperators : ∀ t ∈ operators, t.kind = .word ∧ Stream.typeOperators.contains t.text = true)
      (hprimary : TypeForm .primary primary) (hsuffixes : ∀ n ∈ suffixes, n.Opens "[") :
      TypeForm .operand (operators ++ (primary ++ Node.tokensOf suffixes))
  | single {ts : List Token} (hoperand : TypeForm .operand ts) : TypeForm .union ts
  | join {ts more : List Token} {mark : Token} (hoperand : TypeForm .operand ts) (hmark : mark.joinsTypes = true)
      (hmore : TypeForm .union more) : TypeForm .union (ts ++ mark :: more)
  | plain {ts : List Token} (hunion : TypeForm .union ts) : TypeForm .whole ts
  | led {ts : List Token} {mark : Token} (hmark : mark.joinsTypes = true) (hunion : TypeForm .union ts) :
      TypeForm .whole (mark :: ts)

def Token.beginsOperand (t : Token) : Bool :=
  match t.kind with
  | .word => !(["in", "of", "instanceof"].contains t.text)
  | .punct => ["(", "[", openBrace, "<", "-"].contains t.text
  | .string | .number | .template => true
  | _ => false

export Token (beginsOperand)

lemma Node.Opens.exists_first {bracket : String} (h : n.Opens bracket) :
    ∃ t r, n.tokens = t :: r ∧ t.isOpener ∧ t.text = bracket := by
  obtain ⟨hb, o, ms, c, rfl, rfl⟩ := h
  cases hb with
  | group ho _ _ => exact ⟨o, _, tokens_group o ms c, ho, rfl⟩

lemma Node.Opens.length_pos (h : n.Opens br) : 0 < n.tokens.length := by
  obtain ⟨t, r, heq, -⟩ := h.exists_first
  simp [heq]

lemma Token.beginsOperand_of_isOpener (h : t.isOpener) : t.beginsOperand := by
  simp only [Token.isOpener, and_eq_true, or_eq_true, beq_iff_eq] at h
  rw [beginsOperand, h.1]
  rcases h.2 with (h | h) | h <;> rw [h] <;> decide

lemma OptionalAngles.exists_first {angles : List Token} (h : OptionalAngles angles)
    (ht : ∃ t r, ts = t :: r ∧ t.beginsOperand) : ∃ t r, angles ++ ts = t :: r ∧ t.beginsOperand := by
  cases h with
  | none => exact ht
  | @some less greater ms hl hin hg =>
    refine ⟨less, _, rfl, ?_⟩
    rw [isPunct_iff] at hl
    rw [beginsOperand, hl.1, hl.2]
    decide

lemma Token.beginsOperand_of_isWord (h : t.isWord x) (ht : ["in", "of", "instanceof"].contains x = false) :
    t.beginsOperand := by
  simp only [Token.isWord, and_eq_true, beq_iff_eq] at h
  rw [beginsOperand, h.1, h.2, ht]
  rfl

lemma contains_eq_false_of_subset {xs ys : List String} {a : String} (h : xs ⊆ ys) (hy : ys.contains a = false) :
    xs.contains a = false := by
  rw [contains_eq_mem, decide_eq_false_iff_not] at hy ⊢
  exact fun hm => hy (h hm)

lemma SimpleForm.exists_first (h : SimpleForm ts) : ∃ t r, ts = t :: r ∧ t.beginsOperand := by
  cases h with
  | @name fst path arguments hw hf hp ha =>
    refine ⟨fst, _, rfl, ?_⟩
    rw [beginsOperand, hw, contains_eq_false_of_subset (by decide) hf]
    rfl
  | @literal t hk =>
    refine ⟨t, [], rfl, ?_⟩
    rw [beginsOperand]
    rcases hk with h | h | h <;> rw [h]
  | @negative minus number hm hn =>
    refine ⟨minus, _, rfl, ?_⟩
    rw [isPunct_iff] at hm
    rw [beginsOperand, hm.1, hm.2]
    decide
  | group hg =>
    obtain ⟨t, r, heq, ho, -⟩ := hg.exists_first
    exact ⟨t, r, heq, t.beginsOperand_of_isOpener ho⟩

lemma TypeForm.exists_first {part : TypePart} (h : TypeForm part ts) (hpa : part ≠ .whole) :
    ∃ t r, ts = t :: r ∧ t.beginsOperand := by
  induction h with
  | simple h => exact h.exists_first
  | @function mark parameters result n arrow hm hp hl har hr _ =>
    obtain ⟨t, r, heq, hon, -⟩ := hl.exists_first
    have hl' : ∃ t r, n.tokens ++ arrow :: result = t :: r ∧ t.beginsOperand :=
      ⟨t, r ++ arrow :: result, by rw [heq]; rfl, t.beginsOperand_of_isOpener hon⟩
    have hf := hp.exists_first hl'
    cases hm with
    | none => exact hf
    | new hm => exact ⟨_, _, rfl, Token.beginsOperand_of_isWord hm (by decide)⟩
    | abstractNew ha hm => exact ⟨_, _, rfl, Token.beginsOperand_of_isWord ha (by decide)⟩
  | @operand ops primary sfx ho hpr hsu ih =>
    obtain ⟨t, r, rfl, hb⟩ := ih nofun
    cases ops with
    | nil => exact ⟨t, _, rfl, hb⟩
    | cons operator ops =>
      obtain ⟨hw, hop⟩ := ho operator mem_cons_self
      refine ⟨operator, _, rfl, ?_⟩
      have hn : ∀ w ∈ Stream.typeOperators, ["in", "of", "instanceof"].contains w = false := by decide
      rw [beginsOperand, hw, hn _ (contains_iff_mem.1 hop)]
      rfl
  | single hoe ih => exact ih nofun
  | join hoe hm hmo ih _ =>
    obtain ⟨t, r, rfl, hb⟩ := ih nofun
    exact ⟨t, _, rfl, hb⟩
  | plain => exact absurd rfl hpa
  | led => exact absurd rfl hpa

namespace Stream

variable (s : Stream)

def Holds (j : Nat) (ts : List Token) : Prop := ts <+: s.tokens.toList.drop j

variable {s} {source : String} {j k hi : Nat} {us : List Token}

namespace Holds

lemma left (h : s.Holds j (ts ++ us)) : s.Holds j ts := (prefix_append ts us).trans h

lemma right (h : s.Holds j (ts ++ us)) : s.Holds (j + ts.length) us := by
  obtain ⟨post, heq⟩ := h
  refine ⟨post, ?_⟩
  rw [← drop_drop, ← heq, append_assoc, drop_left]

lemma tail (h : s.Holds j (t :: ts)) : s.Holds (j + 1) ts :=
  right (show s.Holds j ([t] ++ ts) from h)

lemma exists_split (h : s.Holds j (t :: ts)) : ∃ pre post, s.tokens.toList = pre ++ t :: (ts ++ post) ∧ pre.length = j := by
  obtain ⟨post, heq⟩ := h
  have hl : j < s.tokens.toList.length := by
    by_contra hle
    rw [drop_eq_nil_of_le (not_lt.1 hle)] at heq
    cases heq
  refine ⟨s.tokens.toList.take j, post, ?_, length_take_of_le hl.le⟩
  rw [← cons_append, heq, take_append_drop]

lemma tok_eq (h : s.Holds j (t :: ts)) : s.tok j = t := by
  obtain ⟨pre, post, heq, rfl⟩ := h.exists_split
  rw [tok, Array.getD_eq_getD_getElem?, ← Array.getElem?_toList, heq, getElem?_append_right le_rfl, Nat.sub_self]
  rfl

end Holds

lemma close_of_holds (hs : Stream.read source = .ok s) {o c : Token} {ms : List Node}
    (hg : (Node.group o ms c).Balanced) (h : s.Holds j (Node.group o ms c).tokens)
    (hl : j + (Node.group o ms c).tokens.length ≤ hi) : s.close hi j + 1 = j + (Node.group o ms c).tokens.length := by
  rw [tokens_group] at h hl ⊢
  obtain ⟨pre, post, heq, rfl⟩ := h.exists_split
  obtain ⟨p, hp, hm, hp'⟩ : ∃ p, s.partners[pre.length]? = some (some p) ∧ Mates s.tokens.toList pre.length p ∧
      p = pre.length + 1 + (tokensOf ms).length := by
    cases hg with
    | group ho hc hin =>
      obtain ⟨p, hp, hm⟩ := exists_mates hs (show (s.tok pre.length).isOpener by rwa [h.tok_eq])
      exact ⟨p, hp, hm, hm.unique ⟨pre, o, ms, c, post, by simp [heq], ho, hc, hin, rfl, rfl⟩⟩
  simp only [length_cons, length_append, length_nil] at hl ⊢
  rw [close, Array.getD_eq_getD_getElem?, hp]
  simp only [getD_some]
  rw [if_pos ⟨by omega, by omega⟩]
  omega

section Parts

variable (hs : Stream.read source = .ok s)

lemma Holds.opener {bracket : String} (hn : n.Opens bracket) (h : s.Holds j n.tokens) :
    (s.tok j).isOpener ∧ (s.tok j).text = bracket := by
  obtain ⟨hb, opener, ms, c, rfl, rfl⟩ := hn
  rw [tokens_group] at h
  rw [h.tok_eq]
  cases hb with
  | group ho _ _ => exact ⟨ho, rfl⟩

lemma isPunct_of_isOpener (h : t.isOpener) (ht : ¬ [openBrace, "(", "["].contains x) : t.isPunct x = false := by
  rw [eq_false_iff]
  intro hp
  simp only [Token.isPunct, Token.isOpener, and_eq_true, or_eq_true, beq_iff_eq] at h hp
  refine ht ?_
  rw [← hp.2]
  rcases h.2 with (h | h) | h <;> rw [h] <;> decide

lemma is_of_isOpener (h : (s.tok j).isOpener) (ht : (s.tok j).text = x) : s.is j x := by
  simp only [Token.isOpener, and_eq_true] at h
  simp [is, h.1, ht]

include hs

lemma Holds.close (hn : n.Opens br) (h : s.Holds j n.tokens) (hl : j + n.tokens.length ≤ hi) :
    s.close hi j + 1 = j + n.tokens.length := by
  obtain ⟨hb, o, ms, c, rfl, rfl⟩ := hn
  exact close_of_holds hs hb h hl

lemma angleStop_body {d : Nat} (hb : AngleBody ts) (h : s.Holds m ts) (hle : m + ts.length ≤ hi)
    (hd : 0 < d) : s.angleStop hi d m = s.angleStop hi d (m + ts.length) := by
  induction hb generalizing d m with
  | nil => rfl
  | @token t ts ho hc hl hg ha hm ih =>
    rw [length_cons] at hle ⊢
    rw [angleStop_eq, h.tok_eq, ho, hl, hg, ha, if_pos (by omega), ih h.tail (by omega) hd]
    simp only [false_eq_true, if_false]
    congr 1
    omega
  | @group n br ts hgr hm ih =>
    rw [length_append] at hle ⊢
    have ho := (h.left.opener hgr).1
    have hp := hgr.length_pos
    rw [angleStop_eq, if_pos (by omega), isPunct_of_isOpener ho (by decide), isPunct_of_isOpener ho (by decide), ho,
      h.left.close hs hgr (by omega)]
    simp only [false_eq_true, if_false, if_true]
    rw [ih h.right (by omega) hd, add_assoc]
  | @angles less greater ms ts hl hin hg hm ihinside ihmore =>
    simp only [length_cons, length_append] at hle ⊢
    have hin := h.tail.left
    have hg' := h.tail.right
    have hn : greater.isPunct "<" = false := by
      rw [isPunct_iff] at hg
      simp [Token.isPunct, hg.2]
    rw [angleStop_eq, if_pos (by omega), h.tok_eq, if_pos hl, ihinside hin (by omega) (show 0 < d + 1 by omega),
      angleStop_eq, if_pos (by omega), hg'.tok_eq, hn, hg]
    simp only [false_eq_true, if_false, if_true]
    rw [if_neg (by omega), Nat.add_sub_cancel, ihmore hg'.tail (by omega) hd]
    congr 1
    omega

lemma angleStop_of_holds {less greater : Token} {ms : List Token} (hl : less.isPunct "<")
    (hin : AngleBody ms) (hg : greater.isPunct ">")
    (h : s.Holds m (less :: (ms ++ [greater]))) (hle : m + ms.length + 2 ≤ hi) :
    s.angleStop hi 0 m = some (m + ms.length + 1) := by
  have hn : greater.isPunct "<" = false := by
    rw [isPunct_iff] at hg
    simp [Token.isPunct, hg.2]
  rw [angleStop_eq, if_pos (by omega), h.tok_eq, if_pos hl, angleStop_body hs hin h.tail.left (by omega) Nat.one_pos,
    angleStop_eq, if_pos (by omega), h.tail.right.tok_eq, hn, hg]
  simp only [false_eq_true, if_false, if_true, le_refl]
  congr 1
  omega

omit hs in
lemma dottedEnd_of_holds (hpa : DottedPath ts) (h : s.Holds m ts) (hl : m + ts.length ≤ hi)
    (hb : m + ts.length < hi → s.is (m + ts.length) "." = false) : (s.dottedEnd hi m).1 = m + ts.length := by
  induction hpa generalizing m with
  | nil =>
    rw [dottedEnd, if_neg]
    · rfl
    · rintro ⟨hlt, hp, -⟩
      have hno : s.is m "." = false := hb (Nat.lt_of_succ_lt hlt)
      simp [hno] at hp
  | @cons point name ts hp hn hm ih =>
    simp only [length_cons] at hl hb ⊢
    have hp' : s.is m "." := is_of_isPunct (by rw [h.tok_eq]; exact hp)
    have hw : s.isWord (m + 1) := by rw [isWord, h.tail.tok_eq, hn]; rfl
    have he : m + 2 + ts.length = m + (ts.length + 1 + 1) := by omega
    rw [dottedEnd, if_pos ⟨by omega, hp', hw⟩]
    refine (ih h.tail.tail (by omega) ?_).trans he
    rwa [he]

lemma suffixStop_of_holds {sfx : List Node} (hsu : ∀ n ∈ sfx, n.Opens "[")
    (h : s.Holds m (tokensOf sfx)) (hl : m + (tokensOf sfx).length ≤ hi)
    (hb : ∀ i, m ≤ i → i < m + (tokensOf sfx).length → s.is i "[" → s.breakBefore i = false) :
    s.suffixStop hi m = s.suffixStop hi (m + (tokensOf sfx).length) := by
  induction sfx generalizing m with
  | nil => rfl
  | cons n sfx ih =>
    obtain ⟨hn, hm⟩ := forall_mem_cons.1 hsu
    rw [tokensOf_cons] at h
    rw [tokensOf_cons, length_append] at hl hb ⊢
    obtain ⟨ho, ht⟩ := h.left.opener hn
    have hp := hn.length_pos
    have hbr : s.is m "[" := is_of_isOpener ho ht
    rw [suffixStop_eq, if_pos ⟨by omega, hbr, by simp [hb m le_rfl (by omega) hbr]⟩,
      h.left.close hs hn (by omega), ih hm h.right (by omega) fun i hi' hlt => hb i (by omega) (by omega),
      add_assoc]

end Parts

lemma text_of_isWord {text : String} (h : t.isWord text) : t.text = text := by
  simp only [Token.isWord, and_eq_true, beq_iff_eq] at h
  exact h.2

lemma text_of_isPunct {text : String} (h : t.isPunct text) : t.text = text := (Token.isPunct_iff.1 h).2

lemma is_of_isWord (h : (s.tok j).isWord x) : s.is j x := by
  simp only [Token.isWord, and_eq_true] at h
  simp [is, h.1, h.2]

lemma is_eq_false_of_isWord {other : String} (h : (s.tok j).isWord x) (hn : x ≠ other) : s.is j other = false := by
  simp only [Token.isWord, and_eq_true, beq_iff_eq] at h
  simp [is, h.2, hn]

lemma isAny_eq (j : Nat) (texts : List String) : s.isAny j texts = (s.tok j).isOneOf texts := by
  have his : s.is j = fun text => ((s.tok j).kind == .word || (s.tok j).kind == .punct) && (s.tok j).text == text := rfl
  rw [isAny, his, isOneOf]
  cases (s.tok j).kind == .word || (s.tok j).kind == .punct with
  | false => simp
  | true => simp only [Bool.true_and, contains_eq_any_beq]

lemma isOneOf_eq_false {texts : List String} (h : texts.contains t.text = false) : t.isOneOf texts = false := by
  rw [isOneOf, h, Bool.and_false]

lemma skipTypeOperators_eq_self (h : s.isAny j typeOperators = false) : (s.skipTypeOperators hi j).1 = j := by
  rw [skipTypeOperators, if_neg]
  rintro ⟨-, ho, -⟩
  simp [h] at ho

lemma operandStart_eq (hi j : Nat) : (s.operandStart hi j).1 = let a := (s.skipTypeOperators hi j).1
    let b := if a + 1 < hi && s.is a "abstract" && s.is (a + 1) "new" then a + 1 else a
    if b + 1 < hi && s.is b "new" then b + 1 else b := rfl

lemma operandStart_eq_self (h : (s.tok j).isOneOf (typeOperators ++ ["abstract", "new"]) = false) :
    (s.operandStart hi j).1 = j := by
  have hn : ∀ x ∈ typeOperators ++ ["abstract", "new"], s.is j x = false := by
    rw [← isAny_eq, isAny, any_eq_false] at h
    exact fun x hm => eq_false_iff.2 (h x hm)
  have ho : s.isAny j typeOperators = false := by
    rw [isAny, any_eq_false]
    exact fun x hm => eq_false_iff.1 (hn x (mem_append_left _ hm))
  rw [operandStart_eq, skipTypeOperators_eq_self ho]
  simp [hn "abstract" (by decide), hn "new" (by decide)]


lemma typeStarts_of_beginsOperand (h : (s.tok j).beginsOperand) : s.typeStarts j := by
  have hsu : ["(", "[", openBrace, "<", "-"] ⊆ ["(", "[", openBrace, "<", "-", "|", "&"] := by decide
  unfold beginsOperand at h
  unfold typeStarts
  dsimp only
  cases hk : (s.tok j).kind with
  | punct =>
    rw [hk] at h
    exact contains_iff_mem.2 (hsu (contains_iff_mem.1 h))
  | _ => simp_all

lemma not_joins_of_beginsOperand (hs : Stream.read source = .ok s) (h : (s.tok j).beginsOperand) :
    s.isAny j ["|", "&"] = false := by
  rw [isAny_eq, isOneOf]
  unfold beginsOperand at h
  cases hk : (s.tok j).kind with
  | punct =>
    rw [hk] at h
    have hn : ∀ x ∈ ["(", "[", openBrace, "<", "-"], ["|", "&"].contains x = false := by decide
    rw [hn _ (contains_iff_mem.1 h), Bool.and_false]
  | word =>
    obtain ⟨c, cs, ht, hst⟩ := exists_wordStart_tok hs hk
    rw [contains_of_isWordStart ht hst (by decide), Bool.and_false]
  | _ => rfl

lemma operandStart_of_operators {ops : List Token}
    (hop : ∀ t ∈ ops, t.kind = .word ∧ typeOperators.contains t.text) (h : s.Holds j ops)
    (hl : j + ops.length < hi) (hb : (s.tok (j + ops.length)).beginsOperand) :
    (s.operandStart hi j).1 = (s.operandStart hi (j + ops.length)).1 := by
  have hsk : (s.skipTypeOperators hi j).1 = (s.skipTypeOperators hi (j + ops.length)).1 := by
    induction ops generalizing j with
    | nil => rfl
    | cons operator ops ih =>
      obtain ⟨⟨hw, ho⟩, hm⟩ := forall_mem_cons.1 hop
      rw [length_cons] at hl hb ⊢
      have he : j + 1 + ops.length = j + (ops.length + 1) := by omega
      have hf : s.isAny j typeOperators := by
        rw [isAny_eq, h.tok_eq, isOneOf, hw, ho]
        rfl
      have hn : s.typeStarts (j + 1) := by
        cases ops with
        | nil => exact typeStarts_of_beginsOperand hb
        | cons operator' ops =>
          obtain ⟨hw', ho'⟩ := hm operator' mem_cons_self
          have hno : ∀ w ∈ typeOperators, ["in", "of", "instanceof"].contains w = false := by decide
          rw [typeStarts, h.tail.tok_eq, hw', hno _ (contains_iff_mem.1 ho')]
          rfl
      rw [skipTypeOperators, if_pos ⟨by omega, hf, hn⟩, ← he]
      exact ih hm h.tail (by omega) (by rwa [he])
  rw [operandStart_eq, operandStart_eq, hsk]

lemma operandStart_of_mark {mark : List Token} (hm : ConstructorMark mark) (h : s.Holds j mark) (hl : j + mark.length < hi)
    (hb : (s.tok (j + mark.length)).isOneOf (typeOperators ++ ["abstract", "new"]) = false) :
    (s.operandStart hi j).1 = j + mark.length := by
  have ho {i : Nat} {x : String} (hw : (s.tok i).isWord x)
      (ht : typeOperators.contains x = false) : s.isAny i typeOperators = false := by
    rw [isAny_eq, isOneOf, text_of_isWord hw, ht, Bool.and_false]
  cases hm with
  | none => exact operandStart_eq_self hb
  | new hm =>
    have hn : (s.tok j).isWord "new" := by rw [h.tok_eq]; exact hm
    simp only [length_cons, length_nil, zero_add] at hl ⊢
    rw [operandStart_eq, skipTypeOperators_eq_self (ho hn (by decide))]
    simp [is_of_isWord hn, is_eq_false_of_isWord hn (show "new" ≠ "abstract" by decide), hl]
  | abstractNew had hm =>
    have ha : (s.tok j).isWord "abstract" := by rw [h.tok_eq]; exact had
    have hn : (s.tok (j + 1)).isWord "new" := by rw [h.tail.tok_eq]; exact hm
    simp only [length_cons, length_nil, zero_add] at hl ⊢
    rw [operandStart_eq, skipTypeOperators_eq_self (ho ha (by decide))]
    simp [is_of_isWord ha, is_of_isWord hn, show j + 1 < hi by omega, show j + 1 + 1 < hi by omega]

variable (s) in
/-- Nothing at `k` carries on the operand before it, square brackets apart. -/
def Calm (hi k : Nat) : Prop := k < hi → s.isAny k [".", "<", "is", "=>"] = false

variable (s) in
/-- No line break stands before an angle or a square bracket between the two positions. -/
def Unbroken (j k : Nat) : Prop := ∀ i < k, j < i → s.isAny i ["<", "["] = true → s.breakBefore i = false

lemma Unbroken.mono {j' k' : Nat} (h : s.Unbroken j k) (hj : j ≤ j') (hk : k' ≤ k) : s.Unbroken j' k' :=
  fun i hl hi => h i (by omega) (by omega)

lemma Calm.is_eq_false (h : s.Calm hi k) (x : String) (ht : x ∈ [".", "<", "is", "=>"]) (hl : k < hi) :
    s.is k x = false := by
  have hn := h hl
  rw [isAny, any_eq_false] at hn
  exact eq_false_iff.2 (hn x ht)

lemma calm_of_tok (h : s.tok k = t) (ht : [".", "<", "is", "=>"].contains t.text = false) : s.Calm hi k := by
  intro _
  rw [isAny_eq, h]
  exact isOneOf_eq_false ht

lemma text_of_joinsTypes (h : t.joinsTypes) : t.text ∈ ["|", "&"] := by
  simp only [Token.joinsTypes, Token.isPunct, or_eq_true, and_eq_true, beq_iff_eq] at h
  rcases h with h | h <;> simp [h.2]

lemma isAny_of_joinsTypes (h : (s.tok j).joinsTypes) : s.isAny j ["|", "&"] := by
  simp only [Token.joinsTypes, or_eq_true] at h
  rcases h with h | h <;> simp [isAny, is_of_isPunct h]

lemma calm_of_joinsTypes (h : (s.tok k).joinsTypes) : s.Calm hi k := by
  have hn : ∀ x ∈ ["|", "&"], [".", "<", "is", "=>"].contains x = false := by decide
  exact calm_of_tok rfl (hn _ (text_of_joinsTypes h))

lemma suffixStop_of_joinsTypes (h : (s.tok k).joinsTypes) : s.suffixStop hi k = k := by
  have hn : ∀ x ∈ ["|", "&"], x ≠ "[" := by decide
  rw [suffixStop_eq, if_neg]
  rintro ⟨-, hb, -⟩
  simp only [is, and_eq_true, beq_iff_eq] at hb
  exact hn _ (text_of_joinsTypes h) hb.2

lemma tailStop_of_primaryStop {i : Nat} (hst : (s.operandStart hi j).1 = i) (h : s.primaryStop hi i = .ok k) :
    (s.operandStop hi j >>= s.tailStop hi) = s.tailStop hi (s.suffixStop hi k) := by
  rw [operandStop_eq, hst, h]
  rfl

lemma operandStop_of_greedy {i : Nat} (hst : (s.operandStart hi j).1 = i)
    (h : s.primaryStop hi i = s.tailStop hi (s.suffixStop hi k)) :
    s.operandStop hi j = s.tailStop hi (s.suffixStop hi k) := by
  rw [operandStop_eq, hst, h]
  cases ht : s.tailStop hi (s.suffixStop hi k) with
  | error fault => rfl
  | ok e => exact congrArg Except.ok (tailStop_settled (suffixStop_suffixStop hi k) ht).1

lemma tailStop_of_greedy (h : s.operandStop hi j = s.tailStop hi (s.suffixStop hi k)) :
    (s.operandStop hi j >>= s.tailStop hi) = s.tailStop hi (s.suffixStop hi k) := by
  rw [h]
  cases ht : s.tailStop hi (s.suffixStop hi k) with
  | error fault => rfl
  | ok e => exact (tailStop_settled (suffixStop_suffixStop hi k) ht).2

variable (s) in
/-- The position to which a part of a type is read that starts at `j`, with all that follows it. -/
def partStop (hi j : Nat) : TypePart → Except Fault Nat
  | .whole => s.typeStop hi j
  | _ => s.operandStop hi j >>= s.tailStop hi

section Reading

variable (hs : Stream.read source = .ok s)

include hs

lemma argumentsStop_of_holds {arguments : List Token} (ha : OptionalAngles arguments)
    (h : s.Holds m arguments) (hle : m + arguments.length ≤ hi)
    (hb : m < m + arguments.length → s.isAny m ["<", "["] → s.breakBefore m = false)
    (hc : s.Calm hi (m + arguments.length)) : s.argumentsStop hi m = .ok (m + arguments.length) := by
  unfold argumentsStop
  cases ha with
  | none =>
    rw [if_neg]
    · rfl
    · simp only [and_eq_true, decide_eq_true_eq, not_and, and_imp]
      intro hlt hl
      exact absurd hl (eq_false_iff.1 (hc.is_eq_false "<" (by decide) hlt))
  | @some less greater ms hl hin hg =>
    simp only [length_cons, length_append, length_nil] at hle hb ⊢
    have hp : s.is m "<" := is_of_isPunct (by rw [h.tok_eq]; exact hl)
    have hb' : s.breakBefore m = false := hb (by omega) (by simp [isAny, hp])
    rw [if_pos (by simp [hp, hb']; omega), angleStop_of_holds hs hl hin hg h (by omega)]
    rfl

lemma primaryStop_name {fst : Token} {path arguments : List Token} (hw : fst.kind = .word)
    (hp : DottedPath path) (ha : OptionalAngles arguments) (h : s.Holds j (fst :: (path ++ arguments)))
    (hle : j + (fst :: (path ++ arguments)).length ≤ hi) (hb : s.Unbroken j (j + (fst :: (path ++ arguments)).length))
    (hc : s.Calm hi (j + (fst :: (path ++ arguments)).length)) :
    s.primaryStop hi j = .ok (j + (fst :: (path ++ arguments)).length) := by
  have he : j + 1 + path.length + arguments.length = j + (fst :: (path ++ arguments)).length := by
    simp only [length_cons, length_append]
    omega
  rw [← he] at hle hb hc ⊢
  have ha' : s.Holds (j + 1 + path.length) arguments := h.tail.right
  have hd : (s.dottedEnd hi (j + 1)).1 = j + 1 + path.length := by
    refine dottedEnd_of_holds hp h.tail.left (by omega) fun hlt => ?_
    cases ha with
    | none => exact hc.is_eq_false "." (by decide) hlt
    | some hl _ _ => simp [is, ha'.tok_eq, text_of_isPunct hl]
  have hst := argumentsStop_of_holds hs ha ha' hle (fun hlt => hb _ (by omega) (by omega)) hc
  rw [primaryStop, if_pos (by omega), h.tok_eq, hw]
  dsimp only
  rw [hd, hst]
  change s.predicateStop hi _ = _
  rw [predicateStop, if_neg]
  · rfl
  · simp only [and_eq_true, decide_eq_true_eq, not_and, and_imp]
    intro hlt his
    rw [hc.is_eq_false "is" (by decide) hlt] at his
    cases his

lemma primaryStop_group (hg : n.Opens br) (h : s.Holds j n.tokens) (hl : j + n.tokens.length ≤ hi)
    (hca : s.Calm hi (j + n.tokens.length)) : s.primaryStop hi j = .ok (j + n.tokens.length) := by
  have ho := (h.opener hg).1
  have hc := h.close hs hg hl
  have hp := hg.length_pos
  have hn : ¬ ((decide (s.close hi j + 1 < hi) && s.is (s.close hi j + 1) "=>")) := by
    rw [hc, and_eq_true, decide_eq_true_eq]
    rintro ⟨hlt, ha⟩
    rw [hca.is_eq_false "=>" (by decide) hlt] at ha
    cases ha
  simp only [Token.isOpener, and_eq_true, or_eq_true, beq_iff_eq] at ho
  rw [primaryStop, if_pos (by omega), ho.1]
  dsimp only
  rw [if_neg hn, hc]
  rcases ho.2 with (ht | ht) | ht <;> rw [ht] <;> rfl

lemma primaryStop_simple (h : SimpleForm ts) (hat : s.Holds j ts) (hl : j + ts.length ≤ hi)
    (hb : s.Unbroken j (j + ts.length)) (hc : s.Calm hi (j + ts.length)) :
    (s.operandStart hi j).1 = j ∧ s.primaryStop hi j = .ok (j + ts.length) := by
  cases h with
  | @name fst path arguments hw hf hp ha =>
    refine ⟨operandStart_eq_self ?_, primaryStop_name hs hw hp ha hat hl hb hc⟩
    rw [hat.tok_eq]
    exact isOneOf_eq_false (contains_eq_false_of_subset (by decide) hf)
  | @literal t hk =>
    simp only [length_cons, length_nil] at hl ⊢
    refine ⟨operandStart_eq_self ?_, ?_⟩
    · rw [hat.tok_eq, isOneOf]
      rcases hk with hk | hk | hk <;> rw [hk] <;> rfl
    · rw [primaryStop, if_pos (by omega), hat.tok_eq]
      rcases hk with hk | hk | hk <;> rw [hk] <;> rfl
  | @negative minus number hm hn =>
    simp only [length_cons, length_nil] at hl ⊢
    obtain ⟨hk, ht⟩ : minus.kind = .punct ∧ minus.text = "-" := by simpa [Token.isPunct] using hm
    refine ⟨operandStart_eq_self ?_, ?_⟩
    · rw [hat.tok_eq]
      exact isOneOf_eq_false (by rw [ht]; decide)
    · rw [primaryStop, if_pos (by omega), hat.tok_eq, hk, ht, hat.tail.tok_eq, hn]
      rfl
  | @group n br hg =>
    refine ⟨operandStart_eq_self (isOneOf_eq_false ?_), primaryStop_group hs hg hat hl hc⟩
    obtain ⟨ho, -⟩ := hat.opener hg
    simp only [Token.isOpener, and_eq_true, or_eq_true, beq_iff_eq] at ho
    rcases ho.2 with (ht | ht) | ht <;> rw [ht] <;> decide

lemma functionStop_of_holds {arrow : Token} {result : List Token} (hl : n.Opens "(")
    (ha : arrow.isPunct "=>") (h : s.Holds j (n.tokens ++ arrow :: result))
    (hlt : j + n.tokens.length < hi) : s.functionStop hi j = s.typeStop hi (j + n.tokens.length + 1) := by
  obtain ⟨ho, ht⟩ := h.left.opener hl
  have hc := h.left.close hs hl hlt.le
  have hp := hl.length_pos
  have hb : s.is j "(" := is_of_isOpener ho ht
  have ha' : s.is (j + n.tokens.length) "=>" := is_of_isPunct (by rw [h.right.tok_eq]; exact ha)
  rw [functionStop_eq, if_pos ⟨by omega, hb⟩, hc, if_pos (by simp [ha', hlt]),
    show s.close hi j + 2 = j + n.tokens.length + 1 by omega]

lemma primaryStop_function {parameters result : List Token} {arrow : Token}
    (hp : OptionalAngles parameters) (hl : n.Opens "(") (ha : arrow.isPunct "=>")
    (h : s.Holds j (parameters ++ (n.tokens ++ arrow :: result))) (hlt : j + parameters.length + n.tokens.length < hi) :
    s.primaryStop hi j = s.typeStop hi (j + parameters.length + n.tokens.length + 1) := by
  have hf := functionStop_of_holds hs hl ha h.right hlt
  cases hp with
  | none =>
    simp only [length_nil, Nat.add_zero, nil_append] at hlt h ⊢
    obtain ⟨ho, ht⟩ := h.left.opener hl
    have hc := h.left.close hs hl hlt.le
    have hpo := hl.length_pos
    have ha' : s.is (j + n.tokens.length) "=>" := is_of_isPunct (by rw [h.right.tok_eq]; exact ha)
    simp only [Token.isOpener, and_eq_true, beq_iff_eq] at ho
    rw [primaryStop, if_pos (by omega), ho.1]
    dsimp only
    rw [ht, hc, if_pos (show (decide (j + n.tokens.length < hi) && _) by simp [ha', hlt]),
      show s.close hi j + 2 = j + n.tokens.length + 1 by omega]
    rfl
  | @some less greater ms hle hin hg =>
    have hlt' := hlt
    simp only [length_cons, length_append, length_nil] at hlt'
    have han := angleStop_of_holds hs hle hin hg h.left (show j + ms.length + 2 ≤ hi by omega)
    have hk : less.kind = .punct := (Token.isPunct_iff.1 hle).1
    rw [primaryStop, if_pos (by omega), (show s.tok j = less from h.tok_eq), hk, text_of_isPunct hle, han]
    refine Eq.trans ?_ hf
    change s.functionStop hi (j + ms.length + 1 + 1) = _
    congr 1
    simp only [length_cons, length_append, length_nil]
    omega

omit hs in
lemma operandStart_function {mark parameters r : List Token} (hm : ConstructorMark mark)
    (hp : OptionalAngles parameters) (hl : n.Opens "(")
    (h : s.Holds j (mark ++ (parameters ++ (n.tokens ++ r)))) (hlt : j + mark.length < hi) :
    (s.operandStart hi j).1 = j + mark.length := by
  refine operandStart_of_mark hm h.left hlt ?_
  cases hp with
  | none =>
    have ht : (s.tok (j + mark.length)).text = "(" := (h.right.right.left.opener hl).2
    exact isOneOf_eq_false (by rw [ht]; decide)
  | some hle _ _ =>
    have hto : s.tok (j + mark.length) = _ := h.right.tok_eq
    exact isOneOf_eq_false (by rw [hto, text_of_isPunct hle]; decide)

lemma operandStop_parts {ops primary : List Token} {sfx : List Node}
    (ho : ∀ t ∈ ops, t.kind = .word ∧ typeOperators.contains t.text)
    (hp : TypeForm .primary primary) (hsu : ∀ n ∈ sfx, n.Opens "[") (h : s.Holds j (ops ++ (primary ++ tokensOf sfx)))
    (hl : j + ops.length + primary.length + (tokensOf sfx).length ≤ hi)
    (hbr : s.Unbroken j (j + ops.length + primary.length + (tokensOf sfx).length))
    (hc : s.Calm hi (j + ops.length + primary.length + (tokensOf sfx).length)) :
    s.operandStop hi j = s.operandStop hi (j + ops.length) ∧ s.Calm hi (j + ops.length + primary.length) ∧
      s.suffixStop hi (j + ops.length + primary.length) =
        s.suffixStop hi (j + ops.length + primary.length + (tokensOf sfx).length) := by
  obtain ⟨t, r, hp', hbe⟩ := hp.exists_first nofun
  have hpo : 0 < primary.length := by simp [hp']
  refine ⟨?_, ?_, suffixStop_of_holds hs hsu h.right.right hl fun i hi' hlt hb =>
    hbr i (by omega) (by omega) (by simp [isAny, hb])⟩
  · have hf := h.right.left
    rw [hp'] at hf
    rw [operandStop_eq, operandStop_eq, operandStart_of_operators ho h.left (by omega) (by rw [hf.tok_eq]; exact hbe)]
  · cases sfx with
    | nil => exact hc
    | cons n sfx =>
      have hsf := h.right.right
      rw [tokensOf_cons] at hsf
      have ht := (hsf.left.opener (hsu n mem_cons_self)).2
      exact calm_of_tok rfl (by rw [ht]; decide)

/-- **A form is read, and then what follows it**: from its beginning one comes to where one comes from its end. -/
lemma partStop_of_typeForm {part : TypePart} (h : TypeForm part ts) {j : Nat} (ha : s.Holds j ts)
    (hl : j + ts.length ≤ hi) (hb : s.Unbroken j (j + ts.length)) (hc : s.Calm hi (j + ts.length)) :
    s.partStop hi j part = s.tailStop hi (s.suffixStop hi (j + ts.length)) := by
  induction h generalizing j with
  | simple h =>
    obtain ⟨hst, hso⟩ := primaryStop_simple hs h ha hl hb hc
    exact tailStop_of_primaryStop hst hso
  | @function mark parameters result n arrow hm hp hli har hr ih =>
    have he : j + mark.length + parameters.length + n.tokens.length + 1 + result.length =
        j + (mark ++ (parameters ++ (n.tokens ++ arrow :: result))).length := by
      simp only [length_append, length_cons]
      omega
    rw [← he] at hl hb hc ⊢
    have hst : (s.operandStart hi j).1 = j + mark.length := operandStart_function hm hp hli ha (by omega)
    have hr := ih ha.right.right.right.tail hl (hb.mono (by omega) le_rfl) hc
    refine tailStop_of_greedy (operandStop_of_greedy hst ?_)
    rw [primaryStop_function hs hp hli har ha.right (by omega)]
    exact hr
  | @operand ops primary sfx ho hpr hsu ih =>
    have he : j + ops.length + primary.length + (tokensOf sfx).length = j + (ops ++ (primary ++ tokensOf sfx)).length := by
      simp only [length_append]
      omega
    rw [← he] at hl hb hc ⊢
    obtain ⟨hsk, hc', hsf⟩ := operandStop_parts hs ho hpr hsu ha hl hb hc
    have hre := ih ha.right.left (by omega) (hb.mono (by omega) (by omega)) hc'
    rw [hsf] at hre
    rw [← hre]
    change (s.operandStop hi j >>= s.tailStop hi) = (s.operandStop hi (j + ops.length) >>= s.tailStop hi)
    rw [hsk]
  | single hop ih => exact ih ha hl hb hc
  | @join ts more mark hop hm hmo ihoperand ihmore =>
    have he : j + ts.length + 1 + more.length = j + (ts ++ mark :: more).length := by
      simp only [length_append, length_cons]
      omega
    rw [← he] at hl hb hc ⊢
    obtain ⟨ht, hj⟩ : s.tok (j + ts.length) = mark ∧ s.isAny (j + ts.length) ["|", "&"] :=
      ⟨ha.right.tok_eq, isAny_of_joinsTypes (by rw [ha.right.tok_eq]; exact hm)⟩
    have hre := ihoperand ha.left (by omega) (hb.mono le_rfl (by omega)) (calm_of_joinsTypes (ht ▸ hm))
    refine hre.trans ?_
    rw [suffixStop_of_joinsTypes (ht ▸ hm), tailStop_eq, if_pos (by omega), if_pos hj]
    exact ihmore ha.right.tail hl (hb.mono (by omega) le_rfl) hc
  | @plain ts hu ih =>
    obtain ⟨t, r, rfl, hbe⟩ := hu.exists_first nofun
    refine Eq.trans ?_ (ih ha hl hb hc)
    change s.typeStop hi j = _
    rw [typeStop_eq, not_joins_of_beginsOperand hs (by rw [ha.tok_eq]; exact hbe), Bool.and_false]
    rfl
  | @led ts mark hm hu ih =>
    have he : j + 1 + ts.length = j + (mark :: ts).length := by
      rw [length_cons]
      omega
    rw [← he] at hl hb hc ⊢
    refine Eq.trans ?_ (ih ha.tail hl (hb.mono (by omega) le_rfl) hc)
    change s.typeStop hi j = _
    rw [typeStop_eq, isAny_of_joinsTypes (by rw [ha.tok_eq]; exact hm), if_pos (by simp; omega)]
    rfl

end Reading

variable (s) in
def Halts (hi k : Nat) : Prop := k < hi → s.isAny k [".", "<", "is", "=>", "[", "|", "&", "extends"] = false

lemma Halts.is_eq_false (h : s.Halts hi k) (x : String)
    (ht : x ∈ [".", "<", "is", "=>", "[", "|", "&", "extends"]) (hl : k < hi) : s.is k x = false := by
  have hn := h hl
  rw [isAny, any_eq_false] at hn
  exact eq_false_iff.2 (hn x ht)

lemma Halts.calm (h : s.Halts hi k) : s.Calm hi k := by
  intro hl
  rw [isAny, any_eq_false]
  have hsu : [".", "<", "is", "=>"] ⊆ [".", "<", "is", "=>", "[", "|", "&", "extends"] := by decide
  exact fun x ht => eq_false_iff.1 (h.is_eq_false x (hsu ht) hl)

lemma Halts.suffixStop_eq (h : s.Halts hi k) : s.suffixStop hi k = k := by
  rw [Stream.suffixStop_eq, if_neg]
  rintro ⟨hl, hb, -⟩
  rw [h.is_eq_false "[" (by decide) hl] at hb
  cases hb

lemma Halts.tailStop_eq (h : s.Halts hi k) : s.tailStop hi k = .ok k := by
  rw [Stream.tailStop_eq]
  split
  · rename_i hl
    rw [isAny, any_cons, any_cons, any_nil, h.is_eq_false "|" (by decide) hl,
      h.is_eq_false "&" (by decide) hl, h.is_eq_false "extends" (by decide) hl]
    rfl
  · rfl

lemma typeStop_of_typeForm (hs : Stream.read source = .ok s) (h : TypeForm .whole ts) (ha : s.Holds j ts)
    (hl : j + ts.length ≤ hi) (hb : s.Unbroken j (j + ts.length)) (hh : s.Halts hi (j + ts.length)) :
    s.typeStop hi j = .ok (j + ts.length) := by
  refine (partStop_of_typeForm hs h ha hl hb hh.calm).trans ?_
  rw [hh.suffixStop_eq, hh.tailStop_eq]

variable (s) in
/-- The frame ends at `k`, or one of the punctuators stands there before which a type ends. -/
def TypeEndsAt (hi k : Nat) : Prop :=
  k < hi → s.isAny k [",", ")", "]", closeBrace, "=", ";", openBrace] = true

lemma TypeEndsAt.halts (h : s.TypeEndsAt hi k) : s.Halts hi k := by
  intro hl
  have hst := h hl
  rw [isAny_eq, isOneOf, and_eq_true] at hst
  have hn : ∀ x ∈ [",", ")", "]", closeBrace, "=", ";", openBrace],
      [".", "<", "is", "=>", "[", "|", "&", "extends"].contains x = false := by decide
  rw [isAny_eq]
  exact isOneOf_eq_false (hn _ (contains_iff_mem.1 hst.2))

/-- **A type is skipped exactly**, where no line break stands before an angle or a square bracket in it, and the frame
ends behind it or a punctuator stands there before which a type ends. -/
theorem typeEnd_eq_of_typeForm (hs : Stream.read source = .ok s) (h : TypeForm .whole ts) (hat : s.Holds j ts)
    (hle : j + ts.length ≤ hi) (hbreaks : s.Unbroken j (j + ts.length)) (hend : s.TypeEndsAt hi (j + ts.length)) :
    Subtype.val <$> s.typeEnd hi j = .ok (j + ts.length) :=
  typeStop_of_typeForm hs h hat hle hbreaks hend.halts

theorem typeEnd_eq_of_typeForm_constructor :
    ∃ s ts, Stream.read "x: new () => keyof A<B>[] | -1;" = .ok s ∧ TypeForm .whole ts ∧ s.Holds 2 ts ∧
      2 + ts.length ≤ 17 ∧ s.Unbroken 2 (2 + ts.length) ∧ s.TypeEndsAt 17 (2 + ts.length) ∧ ts.length = 14 ∧
      Subtype.val <$> s.typeEnd 17 2 = .ok (2 + ts.length) := by
  have hname : SimpleForm (⟨.word, "A", 19⟩ :: ([] ++
      (⟨.punct, "<", 20⟩ :: ([⟨.word, "B", 21⟩] ++ [⟨.punct, ">", 22⟩])))) :=
    .name rfl (by decide) .nil (.some (by decide) (.token (by decide) (by decide) (by decide) (by decide) (by decide) .nil)
      (by decide))
  have hbrackets : Node.Opens (.group ⟨.punct, "[", 23⟩ [] ⟨.punct, "]", 24⟩) "[" :=
    ⟨.group (by decide) (by decide) nofun, _, _, _, rfl, rfl⟩
  have hkeys : TypeForm .operand ([⟨.word, "keyof", 13⟩] ++ (_ ++ Node.tokensOf [_])) :=
    .operand (by decide) (.simple hname) (List.forall_mem_singleton.2 hbrackets)
  have hnumber : TypeForm .operand ([] ++ ([⟨.punct, "-", 28⟩, ⟨.number, "1", 29⟩] ++ Node.tokensOf [])) :=
    .operand nofun (.simple (.negative (by decide) rfl)) nofun
  have hresult : TypeForm .whole (_ ++ ⟨.punct, "|", 26⟩ :: _) := .plain (.join hkeys (by decide) (.single hnumber))
  have hlist : Node.Opens (.group ⟨.punct, "(", 7⟩ [] ⟨.punct, ")", 8⟩) "(" :=
    ⟨.group (by decide) (by decide) nofun, _, _, _, rfl, rfl⟩
  have hfunction : TypeForm .primary ([⟨.word, "new", 3⟩] ++ ([] ++ (_ ++ ⟨.punct, "=>", 10⟩ :: _))) :=
    .function (.new (by decide)) .none hlist (by decide) hresult
  have hform : TypeForm .whole ([] ++ (_ ++ Node.tokensOf [])) := .plain (.single (.operand nofun hfunction nofun))
  obtain ⟨s, hs, htokens, hbreaks, hsemicolon⟩ : ∃ s, Stream.read "x: new () => keyof A<B>[] | -1;" = .ok s ∧
      s.tokens.toList.drop 2 = [⟨.word, "new", 3⟩, ⟨.punct, "(", 7⟩, ⟨.punct, ")", 8⟩, ⟨.punct, "=>", 10⟩,
        ⟨.word, "keyof", 13⟩, ⟨.word, "A", 19⟩, ⟨.punct, "<", 20⟩, ⟨.word, "B", 21⟩, ⟨.punct, ">", 22⟩, ⟨.punct, "[", 23⟩,
        ⟨.punct, "]", 24⟩, ⟨.punct, "|", 26⟩, ⟨.punct, "-", 28⟩, ⟨.number, "1", 29⟩] ++ [⟨.punct, ";", 30⟩] ∧
      s.breaks = Array.replicate 17 false ∧ s.is 16 ";" = true := ⟨_, by cbv, by cbv, by cbv, by cbv⟩
  have hat : s.Holds 2 _ := ⟨_, htokens.symm⟩
  have hunbroken : s.Unbroken 2 16 := fun i _ _ _ => by simp [breakBefore, hbreaks, Array.getD]
  have hend : s.TypeEndsAt 17 16 := fun _ => by simp [isAny, hsemicolon]
  exact ⟨s, _, hs, hform, hat, by decide, hunbroken, hend, rfl,
    typeEnd_eq_of_typeForm hs hform hat (by decide) hunbroken hend⟩

end Stream
end CustomElement.Script
