import CustomElement.Proofs.Script.ClassHeads

/-!
# Which brackets take a comma

Every pair of brackets of a script is found again in its normal form (`Encloses.addCommas`).
-/

namespace CustomElement.Script

open List Text

variable {ns ms : List Node} {ts us aft pre : List Token} {closer t o : Token}

lemma isTrivia_of_isPunct {x : String} (h : t.isPunct x) : t.isTrivia = false := by
  rw [isPunct_iff] at h
  simp [Token.isTrivia, h.1]

lemma isTrivia_of_isOpener (h : t.isOpener) : t.isTrivia = false := by
  simp only [Token.isOpener, and_eq_true, beq_iff_eq] at h
  simp [Token.isTrivia, h.1]

/-- A pair of brackets somewhere in a forest: the nodes inside it, and the tokens before and behind it. -/
inductive Encloses : List Node → List Token → Token → List Node → Token → List Token → Prop
  | here (opener : Token) (inside : List Node) (closer : Token) (ns : List Node) :
      Encloses (.group opener inside closer :: ns) [] opener inside closer (tokensOf ns)
  | behind (n : Node) {ns inside : List Node} {before after : List Token} {opener closer : Token}
      (h : Encloses ns before opener inside closer after) :
      Encloses (n :: ns) (n.tokens ++ before) opener inside closer after
  | within (o c : Token) (ns : List Node) {ms inside : List Node} {before after : List Token} {opener closer : Token}
      (h : Encloses ms before opener inside closer after) :
      Encloses (.group o ms c :: ns) (o :: before) opener inside closer (after ++ c :: tokensOf ns)

lemma Encloses.isTrivia_closer {op : Token} (h : Encloses ns pre op ms closer aft) (hn : ∀ n ∈ ns, n.Balanced) :
    closer.isTrivia = false := by
  induction h with
  | here op ms closer ns =>
    cases hn _ mem_cons_self with
    | group ho hc hin => exact isTrivia_of_isPunct hc
  | behind n h ih => exact ih fun m hm => hn m (mem_cons_of_mem n hm)
  | within o c ns h ih =>
    cases hn _ mem_cons_self with
    | group ho hc hin => exact ih hin

/-- The second tokens are the first, and commas among them. -/
def CommasIn (ts us : List Token) : Prop :=
  ts.Sublist us ∧ (us.filter fun t => !t.isPunct ",") = ts.filter fun t => !t.isPunct ","

lemma CommasIn.append {vs ws : List Token} (h : CommasIn ts us) (h' : CommasIn vs ws) : CommasIn (ts ++ vs) (us ++ ws) :=
  ⟨h.1.append h'.1, by rw [filter_append, filter_append, h.2, h'.2]⟩

lemma CommasIn.keep (t : Token) (h : CommasIn ts us) : CommasIn (t :: ts) (t :: us) :=
  CommasIn.append ⟨.refl [t], rfl⟩ h

lemma CommasIn.insert (st : Nat) {back : List Token} (h : CommasIn ts (us ++ back)) :
    CommasIn ts (us ++ ⟨.punct, ",", st⟩ :: back) := by
  refine ⟨h.1.trans ((List.Sublist.refl us).append (sublist_cons_self _ back)), ?_⟩
  rw [← h.2, filter_append, filter_append, filter_cons_of_neg (by simp [Token.isPunct])]

lemma TrailingCommas.commasIn (h : TrailingCommas ts us) : CommasIn ts us := by
  induction h with
  | nil => exact ⟨.refl _, rfl⟩
  | keep t more ih => exact .keep t ih
  | comma st hcd hco ho hc more ih => exact .keep _ (CommasIn.insert st (show CommasIn _ ([] ++ _) from ih))

def endsInComma (ts : List Token) : Bool := (lastCode none ts).any fun t => t.isPunct ","

def GainsComma (ts us : List Token) : Prop := endsInComma ts = false ∧ endsInComma us = true

lemma lastCode_of_isTrivia (h : ∀ t ∈ ts, t.isTrivia) (last : Option Token) : lastCode last ts = last := by
  induction ts generalizing last with
  | nil => rfl
  | cons t ts ih =>
    obtain ⟨ht, hts⟩ := forall_mem_cons.1 h
    rw [lastCode_cons, ih hts, orPrevious, if_pos ht]

lemma lastCode_cons_code (ht : t.isTrivia = false) (ts : List Token) (last : Option Token) :
    lastCode last (t :: ts) = lastCode (some t) ts := by
  rw [lastCode_cons, orPrevious, ht]
  rfl

lemma lastCode_eq_or (last : Option Token) (ts : List Token) : lastCode last ts = (lastCode none ts).or last := by
  induction ts generalizing last with
  | nil => rfl
  | cons t ts ih =>
    rw [lastCode_cons, lastCode_cons, ih, ih (t.orPrevious none), Option.or_assoc]
    congr 1
    unfold orPrevious
    split <;> rfl

lemma tokensOf_trivia {g : List Node} (h : ∀ n ∈ g, n.isTrivia) : ∀ t ∈ tokensOf g, t.isTrivia := by
  induction g with
  | nil => simp
  | cons n g ih =>
    obtain ⟨hn, hg⟩ := forall_mem_cons.1 h
    cases n with
    | group o ms closer => cases hn
    | leaf t => simpa using ⟨hn, ih hg⟩

lemma token_readAfter (e : Enclosure) (k : Nat) (b : Before) (hns : ∀ n ∈ ns, n.Balanced) :
    (readAfter e k b ns).token = lastCode b.token (tokensOf ns) := by
  induction ns generalizing k b with
  | nil => rw [readAfter, addCommas_nil, tokensOf_nil]; rfl
  | cons n ns ih =>
    obtain ⟨hn, hm⟩ := forall_mem_cons.1 hns
    cases hn with
    | @leaf t _ _ =>
      have hs : (t.seen e k b).token = t.orPrevious b.token := by
        unfold Token.seen orPrevious
        split
        · rfl
        · split <;> rfl
      rw [readAfter_cons_leaf, ih _ _ hm, hs, tokensOf_cons, tokens_leaf, singleton_append, lastCode_cons]
    | @group o closer ms ho hcl hin =>
      have hc : ∀ last, lastCode last [closer] = some closer := lastCode_cons_code (isTrivia_of_isPunct hcl) []
      rw [readAfter_cons_group, ih _ _ hm, tokensOf_cons, lastCode_append, tokens_group, ← cons_append, lastCode_append, hc]
      rfl

lemma endsInComma_eq (ht : t.isPunct "," = false) (ts : List Token) :
    endsInComma ts = (lastCode (some t) ts).any fun t => t.isPunct "," := by
  rw [endsInComma, lastCode_eq_or (some t)]
  cases lastCode none ts with
  | none => simp [ht]
  | some u => rfl

lemma endsInComma_append {g : List Token} (ht : t.isTrivia = false) (hg : ∀ u ∈ g, u.isTrivia) :
    endsInComma (ts ++ t :: g) = t.isPunct "," := by
  rw [endsInComma, lastCode_append, lastCode_cons_code ht, lastCode_of_isTrivia hg, any_some]

lemma endsInComma_addCommas (e : Enclosure) (k : Nat) (b : Before) (ho : o.isOpener) (hn : ∀ n ∈ ns, n.Balanced) :
    endsInComma (tokensOf (addCommas e k { b with token := some o } ns).1) = endsInComma (tokensOf ns) := by
  have hc : o.isPunct "," = false := by
    cases hp : o.isPunct "," with
    | false => rfl
    | true =>
      rw [isPunct_iff] at hp
      simp [Token.isOpener, openBrace, hp.2] at ho
  have ha := congrArg Before.token (settled_addCommas e k { b with token := some o } ns).2
  rw [token_readAfter _ _ _ (balanced_addCommas _ _ _ ns hn), token_readAfter _ _ _ hn] at ha
  rw [endsInComma_eq hc, endsInComma_eq hc, ha]

/-- **One pair of brackets.** A comma is put in before the closing bracket of what is taken for a literal, if the last
element calls for one. -/
lemma gainsComma_insideWith (b : Before) (ho : o.isOpener) (hin : ∀ n ∈ ms, n.Balanced) :
    GainsComma (tokensOf ms) (tokensOf (insideWith b o ms)) ↔ (b.enclosure o).isLiteral ∧ wantsComma ms := by
  have hs : endsInComma (tokensOf (innerWith b o ms)) = _ := endsInComma_addCommas _ 0 b ho hin
  rcases insideWith_cases b o ms with ⟨heq, hn⟩ | ⟨hw, elements, gap, stop, hie, hc, hg, fr, last, rfl, hco, hl⟩
  · rw [GainsComma, heq, hs]
    exact iff_of_false (by simp) fun h => by simp [hn h.1] at h
  · have hb : last.Balanced := balanced_addCommas _ _ _ ms hin last (by rw [← innerWith, hie]; simp)
    have ht := tokensOf_trivia hg
    obtain ⟨begin, hbe⟩ := exists_tokens_eq_concat last
    have hol : tokensOf (fr ++ [last] ++ gap) = (tokensOf fr ++ begin) ++ last.last :: tokensOf gap := by
      simp [hbe]
    have hne : tokensOf (fr ++ [last] ++ .leaf ⟨.punct, ",", stop⟩ :: gap) =
        tokensOf (fr ++ [last]) ++ ⟨.punct, ",", stop⟩ :: tokensOf gap := by simp
    refine iff_of_true ⟨?_, ?_⟩ hw
    · rw [← hs, hie, hol, endsInComma_append (hb.last hco).1 ht, hl]
    · rw [hc, hne, endsInComma_append rfl ht]
      rfl

lemma exists_tokensOf_insideWith (b : Before) (o : Token) {x y : List Token} {c : Token}
    (h : tokensOf (innerWith b o ms) = x ++ c :: y) (hc : c.isTrivia = false) :
    ∃ y', tokensOf (insideWith b o ms) = x ++ c :: y' ∧ ∀ {ts : List Token}, CommasIn ts y → CommasIn ts y' := by
  rcases insideWith_cases b o ms with ⟨heq, -⟩ | ⟨-, elements, gap, stop, hie, hco, hg, -⟩
  · exact ⟨y, by rw [heq, h], id⟩
  · have ho : c ∉ tokensOf gap := fun hm => by
      rw [tokensOf_trivia hg c hm] at hc
      cases hc
    rw [hie, tokensOf_append] at h
    obtain ⟨z, -, hz⟩ | ⟨z, hz, hr⟩ := append_eq_append_iff.1 h
    · exact absurd (by rw [hz]; simp) ho
    · cases z with
      | nil => exact absurd (by rw [← nil_append (tokensOf gap), ← hr]; simp) ho
      | cons d z =>
        obtain ⟨rfl, rfl⟩ := cons.inj hr
        refine ⟨z ++ ⟨.punct, ",", stop⟩ :: tokensOf gap, ?_, fun hin => hin.insert stop⟩
        rw [hco, tokensOf_append, hz]
        simp

lemma commasIn_addCommas (e : Enclosure) (k : Nat) (b : Before) (hn : ∀ n ∈ ns, n.Balanced) :
    CommasIn (tokensOf ns) (tokensOf (addCommas e k b ns).1) := by
  have ha := trailingCommas_addCommas e k b ns hn .nil
  rw [append_nil, append_nil] at ha
  exact ha.commasIn

lemma commasIn_insideWith (b : Before) (o : Token) (his : ∀ n ∈ ms, n.Balanced) :
    CommasIn (tokensOf ms) (tokensOf (insideWith b o ms)) := by
  have hin : CommasIn _ (tokensOf (innerWith b o ms)) := commasIn_addCommas _ _ _ his
  rcases insideWith_cases b o ms with ⟨heq, -⟩ | ⟨-, elements, g, stop, hie, hc, -⟩
  · rwa [heq]
  · rw [hie, tokensOf_append] at hin
    rw [hc, tokensOf_append, tokensOf_cons, tokens_leaf]
    exact hin.insert stop

/-- What becomes of a pair of brackets: where it stands in the tokens `out`, and when it takes a comma. `last` is the last
token of code before it, if there is none in `before`. -/
def Punctuated (last : Option Token) (before : List Token) (opener : Token) (inside : List Node) (closer : Token)
    (after out : List Token) : Prop :=
  ∃ (b : Before) (before' inside' after' : List Token), b.token = lastCode last before ∧
    out = before' ++ opener :: (inside' ++ closer :: after') ∧
    CommasIn before before' ∧ CommasIn (tokensOf inside) inside' ∧ CommasIn after after' ∧
    (GainsComma (tokensOf inside) inside' ↔ (b.enclosure opener).isLiteral = true ∧ wantsComma inside = true)

lemma Encloses.addCommas {ins : List Node} {op : Token} (h : Encloses ns pre op ins closer aft)
    (hns : ∀ n ∈ ns, n.Balanced) (e : Enclosure) (k : Nat) (b : Before) :
    Punctuated b.token pre op ins closer aft (tokensOf (Script.addCommas e k b ns).1) := by
  induction h generalizing e k b with
  | here op ins closer ns =>
    obtain ⟨hg, hm⟩ := forall_mem_cons.1 hns
    cases hg with
    | group ho hcl his =>
      refine ⟨b, [], tokensOf (insideWith b op ins),
        tokensOf (Script.addCommas e k (readBehind b op ins closer) ns).1, rfl, ?_, ⟨.refl _, rfl⟩,
        commasIn_insideWith b op his, commasIn_addCommas _ _ _ hm, gainsComma_insideWith b ho his⟩
      rw [addCommas_group]
      simp
  | @behind n ns ins pre aft op closer h ih =>
    obtain ⟨hn, hm⟩ := forall_mem_cons.1 hns
    have hon : ∀ m ∈ [n], m.Balanced := by simpa using hn
    obtain ⟨b', pre', ins', aft', hl, hou, hb, hr⟩ := ih hm e (pending k [n]) (readAfter e k b [n])
    refine ⟨b', tokensOf (Script.addCommas e k b [n]).1 ++ pre', ins', aft', ?_, ?_, ?_, hr⟩
    · rw [hl, token_readAfter _ _ _ hon, tokensOf_cons, tokensOf_nil, append_nil, lastCode_append]
    · have hs : Script.addCommas e k b (n :: ns) = _ := addCommas_append e k b [n] ns
      rw [hs, tokensOf_append, hou, append_assoc]
    · have hf := commasIn_addCommas e k b hon
      rw [tokensOf_cons, tokensOf_nil, append_nil] at hf
      exact hf.append hb
  | @within o c ns ms ins pre aft op closer h ih =>
    obtain ⟨hg, hm⟩ := forall_mem_cons.1 hns
    cases hg with
    | group ho hcl his =>
      obtain ⟨b', pre', ins', aft', hl, hou, hb, hin, ha, hga⟩ := ih his (b.enclosure o) 0 { b with token := some o }
      have hc : closer.isTrivia = false := h.isTrivia_closer his
      have hou' : tokensOf (innerWith b o ms) = (pre' ++ op :: ins') ++ closer :: aft' := by simp [innerWith, hou]
      obtain ⟨aft'', ht, hco⟩ := exists_tokensOf_insideWith b o hou' hc
      refine ⟨b', o :: pre', ins',
        aft'' ++ c :: tokensOf (Script.addCommas e k (readBehind b o ms c) ns).1, ?_, ?_, .keep o hb, hin,
        (hco ha).append (.keep c (commasIn_addCommas _ _ _ hm)), hga⟩
      · rw [hl, lastCode_cons_code (isTrivia_of_isOpener ho)]
      · rw [addCommas_group, tokensOf_cons, tokens_group, ht]
        simp

/-- The tokens end with `class` and what stands behind it outside of braces; `last` is the last token of code among these.
-/
def ClassHead (before : List Token) (last : Token) : Prop :=
  ∃ front word head, before = front ++ word :: tokensOf head ∧ word.isWord "class" = true ∧
    (∀ n ∈ head, n.Balanced ∧ n.isGroup openBrace = false) ∧ lastCode none (word :: tokensOf head) = some last

/-- A brace behind the token, which is no colon, is taken for the beginning of an object. -/
def Token.precedesObject (t : Token) : Bool :=
  match t.kind with
  | .punct => !([")", ";", openBrace, closeBrace, "=>"].contains t.text)
  | .word => valueKeywords.contains t.text
  | _ => false

lemma isLiteral_brace {b : Before} (ht : b.token = some t) (hc : t.isPunct ":" = false) (ho : o.isPunct openBrace) :
    (b.enclosure o).isLiteral = t.precedesObject := by
  rw [isPunct_iff] at ho
  have hb : b.enclosure o = b.brace := by simp [Before.enclosure, ho.2, openBrace]
  obtain ⟨kind, x, st⟩ := t
  rw [hb, Before.brace, ht, Token.precedesObject]
  cases kind with
  | punct =>
    have hte : (x == ":") = false := by simpa [Token.isPunct] using hc
    simp only [hte]
    cases [")", ";", openBrace, closeBrace, "=>"].contains x <;> rfl
  | word =>
    dsimp only
    cases valueKeywords.contains x <;> rfl
  | _ => rfl

lemma isLiteral_bracket {b : Before} (ht : b.token = some t)
    (hm : t.isPunct "?." ∨ t.isPunct openBrace ∨ t.isPunct ",") (ho : o.isPunct "[") :
    (b.enclosure o).isLiteral := by
  rw [isPunct_iff] at ho
  have hb : b.enclosure o = b.bracket := by simp [Before.enclosure, ho.2]
  simp only [isPunct_iff] at hm
  rw [hb, Before.bracket, ht]
  rcases hm with ⟨hk, hte⟩ | ⟨hk, hte⟩ | ⟨hk, hte⟩ <;>
    simp [hk, hte, openBrace, closeBrace, Enclosure.isLiteral]

/-- When brackets that enclose no literal take a comma. -/
structure CommaRule (before : List Token) (opener : Token) (inside : List Node) (gains : Prop) : Prop where
  classBody : ∀ {last : Token}, ClassHead before last → last.isPunct ":" = false → opener.isPunct openBrace = true →
    (gains ↔ last.precedesObject = true ∧ wantsComma inside = true)
  computed : ∀ {last : Token}, lastCode none before = some last →
    last.isPunct "?." = true ∨ last.isPunct openBrace = true ∨ last.isPunct "," = true → opener.isPunct "[" = true →
      (gains ↔ wantsComma inside = true)

lemma Punctuated.commaRule {out : List Token} (h : Punctuated none pre o ms closer aft out) :
    ∃ pre' ms' aft', out = pre' ++ o :: (ms' ++ closer :: aft') ∧ CommasIn pre pre' ∧
      CommasIn (tokensOf ms) ms' ∧ CommasIn aft aft' ∧ CommaRule pre o ms (GainsComma (tokensOf ms) ms') := by
  obtain ⟨b, pre', ms', aft', hl, hou, hb, hin, ha, hg⟩ := h
  refine ⟨pre', ms', aft', hou, hb, hin, ha, ?_, ?_⟩
  · rintro last ⟨fr, w, head, rfl, -, -, hh⟩ hc ho
    rw [lastCode_append, lastCode_eq_or, hh] at hl
    rw [hg, isLiteral_brace hl hc ho]
  · intro last hbe hm ho
    rw [hg, isLiteral_bracket (hl.trans hbe) hm ho]
    exact and_iff_right rfl

/-- **Where commas are put in that belong to no literal.** The body of a class takes one exactly if its last member ends a line without a comma and the
head of the class ends with a punctuator or a word that a value can follow. A computed member behind `?.` and a computed
key take one whenever an array would. -/
theorem normalize_comma_iff {source normal : String} (h : normalize source = .ok normal) :
    ∃ tokens nodes out, tokenize (String.ofList (unixLines source.toList)) = .ok tokens ∧
      forest (String.ofList (unixLines source.toList)) (tokens.map Token.requoted) = .ok nodes ∧
      tokenize normal = .ok out ∧
      ∀ {before after : List Token} {opener closer : Token} {inside : List Node},
        Encloses nodes before opener inside closer after →
        ∃ before' inside' after',
          out.map Token.form = (before' ++ opener :: (inside' ++ closer :: after')).map Token.form ∧
          CommasIn before before' ∧ CommasIn (Node.tokensOf inside) inside' ∧ CommasIn after after' ∧
          CommaRule before opener inside (GainsComma (Node.tokensOf inside) inside') := by
  unfold normalize at h
  obtain ⟨tokens, htokens, h⟩ := bind_eq_ok.1 h
  obtain ⟨nodes, hforest, h⟩ := bind_eq_ok.1 h
  obtain rfl := ok.inj h
  obtain ⟨out, hout, hforms⟩ := tokenize_eq_ok_iff.2 (reads_normalForm htokens hforest)
  refine ⟨tokens, nodes, out, htokens, hforest, hout, fun hpair => ?_⟩
  obtain ⟨before', inside', after', hall, hrest⟩ := (hpair.addCommas (balanced_forest hforest) .block 0 {}).commaRule
  exact ⟨before', inside', after', by rw [hforms, ← hall]; rfl, hrest⟩

theorem normalize_comma_iff_member :
    normalize "a?.[\nb\n]" = .ok "a?.[\nb,\n]" ∧ ∃ out before inside after, tokenize "a?.[\nb,\n]" = .ok out ∧
      out.map Token.form = (before ++ ⟨.punct, "[", 3⟩ :: (inside ++ ⟨.punct, "]", 7⟩ :: after)).map Token.form ∧
      GainsComma [⟨.blank, "\n", 4⟩, ⟨.word, "b", 5⟩, ⟨.blank, "\n", 6⟩] inside := by
  have hnormal : normalize "a?.[\nb\n]" = .ok "a?.[\nb,\n]" := by cbv
  obtain ⟨tokens, nodes, out, htokens, hforest, hout, hrule⟩ := normalize_comma_iff hnormal
  have hread : tokenize (String.ofList (unixLines "a?.[\nb\n]".toList)) = .ok
      [⟨.word, "a", 0⟩, ⟨.punct, "?.", 1⟩, ⟨.punct, "[", 3⟩, ⟨.blank, "\n", 4⟩, ⟨.word, "b", 5⟩, ⟨.blank, "\n", 6⟩,
        ⟨.punct, "]", 7⟩] := by cbv
  obtain rfl := ok.inj (htokens.symm.trans hread)
  obtain rfl := ok.inj hforest
  obtain ⟨before, inside, after, hforms, -, -, -, hcomma⟩ := hrule (.behind _ (.behind _ (.here _ _ _ _)))
  exact ⟨hnormal, out, before, inside, after, hout, hforms, (hcomma.computed rfl (.inl rfl) rfl).2 (by decide)⟩

end CustomElement.Script
