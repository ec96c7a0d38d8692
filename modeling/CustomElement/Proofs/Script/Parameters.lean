import CustomElement.Proofs.Script.LiteralCommas
import CustomElement.Proofs.Script.WellNested

/-!
# Counting parameters

Parameters are counted token by token. Where the brackets match, this is the number of segments between the commas
outside all brackets that hold some code (`paramCount_segments`).
-/

namespace CustomElement.Script

open List Text

variable {ns : List Node} {ts : List Token}

def Node.isComma (n : Node) : Bool := n.isLeaf fun t => t.isPunct ","

/-- The code of a parameter list, cut at the commas outside all brackets. -/
def segments (ns : List Node) : List (List Node) := (ns.filter fun n => !n.isTrivia).splitOnP Node.isComma

lemma countParams_tokensOf (hb : ∀ n ∈ ns, n.Balanced) {d : Nat} (h : 0 < d ∨ ∀ n ∈ ns, n.isComma = false) (p : Bool) :
    countParams d p ((tokensOf ns ++ ts).filter fun t => !t.isTrivia) =
      countParams d (p || !ns.all Node.isTrivia) (ts.filter fun t => !t.isTrivia) := by
  induction ns using Node.forest_induction generalizing ts d p with
  | nil => simp
  | leaf t ns ih =>
    obtain ⟨⟨ho, hc⟩, hb⟩ := forall_mem_cons.1 hb
    have ih := @ih ts hb d (h.imp_right fun h => (forall_mem_cons.1 h).2)
    cases ht : t.isTrivia with
    | true => simpa [ht, Node.isTrivia] using ih p
    | false =>
      have hn : (t.isPunct "," && d == 0) = false := by
        rcases h with h | h
        · simp [Nat.ne_of_gt h]
        · have hc : t.isPunct "," = false := (forall_mem_cons.1 h).1
          rw [hc, Bool.false_and]
      have hp := ih true
      simpa [ht, Node.isTrivia, countParams, ho, hc, hn] using hp
  | group o ms c ns ihm ihn =>
    obtain ⟨hg, hb⟩ := forall_mem_cons.1 hb
    cases hg with
    | group ho hc hm =>
      have hcl := isCloser_of_isPunct_closerOf hc
      have hot := isTrivia_of_isOpener ho
      have hct := isTrivia_of_isPunct hc
      have hin := @ihm (c :: (tokensOf ns ++ ts)) hm (d + 1) (.inl d.succ_pos) true
      have hbe := @ihn ts hb d (h.imp_right fun h => (forall_mem_cons.1 h).2) true
      rw [filter_cons_of_pos (by simp [hct]), countParams, not_isOpener_of_isCloser hcl, if_neg Bool.false_ne_true, if_pos hcl,
        Nat.add_sub_cancel, hbe] at hin
      simpa [Node.isTrivia, hot, countParams, ho] using hin

lemma Node.eq_leaf_of_isComma {n : Node} (h : n.isComma) : ∃ t, n = .leaf t ∧ t.isPunct "," ∧ t.isTrivia = false := by
  cases n with
  | leaf t => exact ⟨t, rfl, h, isTrivia_of_isPunct h⟩
  | group => cases h

lemma countParams_segments (hb : ∀ n ∈ ns, n.Balanced) : ∃ seg segs, segments ns = seg :: segs ∧
    ∀ p, countParams 0 p ((tokensOf ns).filter fun t => !t.isTrivia) =
      (if p || !seg.isEmpty then 1 else 0) + segs.countP fun seg => !seg.isEmpty := by
  induction ns with
  | nil => exact ⟨[], [], by simp [segments], by simp [countParams]⟩
  | cons n ns ih =>
    obtain ⟨hn, hb⟩ := forall_mem_cons.1 hb
    obtain ⟨seg, segs, hs, hc⟩ := ih hb
    have hcons : n.isTrivia = false →
        segments (n :: ns) = if n.isComma then [] :: segments ns else (segments ns).modifyHead (cons n) := by
      intro ht
      rw [segments, filter_cons_of_pos (by simp [ht]), splitOnP_cons_eq_if_modifyHead]
      rfl
    cases hco : n.isComma with
    | true =>
      obtain ⟨t, rfl, hp, ht⟩ := Node.eq_leaf_of_isComma hco
      obtain ⟨hop, hcl⟩ := hn
      refine ⟨[], seg :: segs, by rw [hcons ht, if_pos hco, hs], fun p => ?_⟩
      rw [tokensOf_cons, tokens_leaf, singleton_append, filter_cons_of_pos (by simp [ht])]
      simp [countParams, hop, hcl, hp, hc, countP_cons, add_comm]
    | false =>
      have hpass (p : Bool) : countParams 0 p ((tokensOf (n :: ns)).filter fun t => !t.isTrivia) =
          countParams 0 (p || !n.isTrivia) ((tokensOf ns).filter fun t => !t.isTrivia) := by
        have h := @countParams_tokensOf [n] (tokensOf ns) (by simpa using hn) 0 (.inr (by simpa using hco)) p
        simpa using h
      cases ht : n.isTrivia with
      | true =>
        have hskip : segments (n :: ns) = segments ns := by rw [segments, filter_cons_of_neg (by simp [ht])]; rfl
        exact ⟨seg, segs, hskip.trans hs, fun p => by rw [hpass, hc, ht, Bool.not_true, Bool.or_false]⟩
      | false => exact ⟨n :: seg, segs, by simp [hcons ht, hco, hs], fun p => by simp only [hpass, hc, ht]; simp⟩

lemma countParams_append_congr {us vs : List Token} (h : ∀ d p, countParams d p us = countParams d p vs) (d : Nat) (p : Bool) :
    countParams d p (ts ++ us) = countParams d p (ts ++ vs) := by
  induction ts generalizing d p with
  | nil => exact h d p
  | cons t ts ih => rw [cons_append, cons_append, countParams, countParams, ih, ih, ih, ih]

lemma paramCount_eq {m : Method} (h : codeForms (codeOf m.params) = codeForms ts) :
    m.paramCount = countParams 0 false (ts.filter fun t => !t.isTrivia) := by
  have hc : (codeOf m.params).filter (fun t => !t.isTrivia) = codeOf m.params := by
    unfold codeOf
    split <;> simp [filter_filter]
  rw [codeForms, hc] at h
  exact countParams_congr h 0 false

/-- **Parameters are counted right.** Where the brackets match, a method has as many parameters as its list has segments
with code between the commas outside all brackets. So a comma at the end does not count, nor do blanks and comments. -/
theorem paramCount_segments {m : Method} {tokens : List Token} (htokens : tokenize m.params = .ok tokens)
    (hnested : WellNested (bracketsOf tokens)) :
    (∃ nodes, forest m.params tokens = .ok nodes ∧ m.paramCount = (segments nodes).countP fun seg => !seg.isEmpty) ∧
    (∀ m' : Method, codeForms (codeOf m'.params) = codeForms (tokens ++ [⟨.punct, ",", 0⟩]) → m'.paramCount = m.paramCount) ∧
    ∀ (m' : Method) (before after : List Token) (a b : List Node), (∀ n ∈ a ++ b, n.Balanced ∧ n.isComma = false) →
      a.all Node.isTrivia = b.all Node.isTrivia → codeForms tokens = codeForms (before ++ (tokensOf a ++ after)) →
      codeForms (codeOf m'.params) = codeForms (before ++ (tokensOf b ++ after)) → m'.paramCount = m.paramCount := by
  have hcode : codeForms (codeOf m.params) = codeForms tokens := by simp [codeOf, htokens, codeForms, filter_filter]
  obtain ⟨nodes, hbalanced, rfl⟩ := hnested.exists_nodes tokens rfl
  have hcount : ∀ {ns : List Node}, (∀ n ∈ ns, n.Balanced) → ∀ {m : Method},
      codeForms (codeOf m.params) = codeForms (tokensOf ns) → m.paramCount = (segments ns).countP fun seg => !seg.isEmpty := by
    intro ns hb m hm
    obtain ⟨seg, segs, hs, hc⟩ := countParams_segments hb
    rw [paramCount_eq hm, hc, hs, countP_cons, add_comm]
    simp
  refine ⟨⟨nodes, forest_tokensOf _ hbalanced, hcount hbalanced hcode⟩, fun m' h => ?_,
    fun m' before after a b hab htrivia ha hb => ?_⟩
  · have hcomma : ∀ n ∈ nodes ++ [.leaf ⟨.punct, ",", 0⟩], n.Balanced :=
      forall_mem_append.2 ⟨hbalanced, by simpa using .leaf (by decide) (by decide)⟩
    rw [hcount hcomma (h.trans (by simp)), hcount hbalanced hcode, segments, filter_append]
    rw [show ([Node.leaf ⟨.punct, ",", 0⟩].filter fun n => !n.isTrivia) = [.leaf ⟨.punct, ",", 0⟩] from rfl,
      splitOnP_append_cons _ _ (by decide), splitOnP_nil, countP_append]
    rfl
  · rw [paramCount_eq hb, paramCount_eq (hcode.trans ha), filter_append before, filter_append before]
    refine countParams_append_congr (fun d p => ?_) 0 false
    obtain ⟨ha, hb⟩ := forall_mem_append.1 hab
    rw [countParams_tokensOf (fun n hn => (hb n hn).1) (.inr fun n hn => (hb n hn).2),
      countParams_tokensOf (fun n hn => (ha n hn).1) (.inr fun n hn => (ha n hn).2), htrivia]

theorem paramCount_segments_trailing : ∃ tokens, tokenize "a = g(1, 2), [b, c]" = .ok tokens ∧
    WellNested (bracketsOf tokens) ∧ (Method.plain "f" "a = g(1, 2), [b, c]" []).paramCount = 2 ∧
    (∃ nodes, forest "a = g(1, 2), [b, c]" tokens = .ok nodes ∧ 2 = (segments nodes).countP fun seg => !seg.isEmpty) ∧
    (Method.plain "f" "a=g(1, 2) /* d, */, [b, c]," []).paramCount = 2 := by
  have hread : ∃ tokens, tokenize "a = g(1, 2), [b, c]" = .ok tokens ∧ bracketsOf tokens =
      [⟨.punct, "(", 5⟩, ⟨.punct, ")", 10⟩, ⟨.punct, "[", 13⟩, ⟨.punct, "]", 18⟩] ∧
      codeForms (codeOf "a=g(1, 2) /* d, */, [b, c],") = codeForms (tokens ++ [⟨.punct, ",", 0⟩]) := ⟨_, by cbv, by cbv, by cbv⟩
  obtain ⟨tokens, htokens, hbrackets, hcode⟩ := hread
  have hnested : WellNested (bracketsOf tokens) := by
    rw [hbrackets]
    exact .enclose (w := []) (by decide) (by decide) .nil (.enclose (w := []) (by decide) (by decide) .nil .nil)
  have htwo : (Method.plain "f" "a = g(1, 2), [b, c]" []).paramCount = 2 := by cbv
  obtain ⟨⟨nodes, hforest, hcount⟩, hcomma, -⟩ :=
    @paramCount_segments (Method.plain "f" "a = g(1, 2), [b, c]" []) tokens htokens hnested
  exact ⟨tokens, htokens, hnested, htwo, ⟨nodes, hforest, htwo.symm.trans hcount⟩, (hcomma (Method.plain "f" _ []) hcode).trans htwo⟩

end CustomElement.Script
