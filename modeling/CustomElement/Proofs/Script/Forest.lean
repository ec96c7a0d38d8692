import CustomElement.Script.Forest

/-!
# The tokens of a forest

`forest` neither loses nor moves a token (`tokensOf_forest`), and it closes every group with the bracket that fits the
one that opens it (`balanced_forest`).
-/

namespace CustomElement.Script

open List

variable {ns : List Node} {source : String} {t : Token} {tokens : List Token}

/-- Induction over a forest: along the nodes inside a group and those behind it. -/
theorem Node.forest_induction {motive : List Node → Prop} (nil : motive [])
    (leaf : ∀ t ns, motive ns → motive (.leaf t :: ns))
    (group : ∀ o ms c ns, motive ms → motive ns → motive (.group o ms c :: ns)) :
    ∀ ns, motive ns
  | [] => nil
  | .leaf t :: ns => leaf t ns (Node.forest_induction nil leaf group ns)
  | .group o ms c :: ns =>
    group o ms c ns (Node.forest_induction nil leaf group ms) (Node.forest_induction nil leaf group ns)

@[simp] theorem Node.tokensOf_nil : Node.tokensOf [] = [] := by
  rw [Node.tokensOf]

@[simp] theorem Node.tokensOf_cons (n : Node) (ns : List Node) : Node.tokensOf (n :: ns) = n.tokens ++ Node.tokensOf ns := by
  rw [Node.tokensOf]

@[simp] theorem Node.tokensOf_append (ns ms : List Node) :
    Node.tokensOf (ns ++ ms) = Node.tokensOf ns ++ Node.tokensOf ms := by
  induction ns with
  | nil => simp
  | cons n ns ih => simp [ih]

@[simp] theorem Node.tokens_leaf (t : Token) : (Node.leaf t).tokens = [t] := by
  rw [Node.tokens]

@[simp] theorem Node.tokens_group (o : Token) (ms : List Node) (c : Token) :
    (Node.group o ms c).tokens = o :: (Node.tokensOf ms ++ [c]) := by
  rw [Node.tokens]

def charsOf (ts : List Token) : List Char := ts.flatMap fun t => t.text.toList

@[simp] theorem charsOf_nil : charsOf [] = [] := rfl

@[simp] theorem charsOf_cons (t : Token) (ts : List Token) : charsOf (t :: ts) = t.text.toList ++ charsOf ts := rfl

@[simp] theorem charsOf_append (a b : List Token) : charsOf (a ++ b) = charsOf a ++ charsOf b :=
  flatMap_append

theorem toList_textOf_eq_charsOf (ns : List Node) : (Node.textOf ns).toList = charsOf (Node.tokensOf ns) := by
  rw [Node.textOf, String.toList_join, flatMap_map]
  rfl

inductive Node.Balanced : Node → Prop
  | leaf {t : Token} (hopen : t.isOpener = false) (hclose : t.isCloser = false) : Balanced (.leaf t)
  | group {opener closer : Token} {inside : List Node} (hopen : opener.isOpener = true)
      (hclose : closer.isPunct (closerOf opener.text) = true) (hinside : ∀ n ∈ inside, n.Balanced) :
      Balanced (.group opener inside closer)

def tokensBefore (siblings : List Node) : List OpenGroup → List Token
  | [] => Node.tokensOf siblings.reverse
  | group :: stack => tokensBefore group.before stack ++ group.opener :: Node.tokensOf siblings.reverse

theorem tokensBefore_cons (n : Node) (siblings : List Node) (stack : List OpenGroup) :
    tokensBefore (n :: siblings) stack = tokensBefore siblings stack ++ n.tokens := by
  cases stack <;> simp [tokensBefore]

structure Sound (siblings : List Node) (stack : List OpenGroup) : Prop where
  siblings : ∀ n ∈ siblings, n.Balanced
  opener : ∀ group ∈ stack, group.opener.isOpener = true
  before : ∀ group ∈ stack, ∀ n ∈ group.before, n.Balanced

theorem isPunct_of_isCloser (h : t.isCloser) {x : String} (ht : (t.text == x)) : t.isPunct x := by
  simp only [Token.isCloser, Bool.and_eq_true] at h
  simp [Token.isPunct, h.1, ht]

section Soundness

variable {siblings : List Node} {stack : List OpenGroup} {t : Token}

theorem Sound.opened (h : Sound siblings stack) (ht : t.isOpener) : Sound [] (⟨t, siblings⟩ :: stack) :=
  ⟨by simp, by simpa using ⟨ht, h.opener⟩, by simpa using ⟨h.siblings, h.before⟩⟩

theorem Sound.closed {group : OpenGroup} (h : Sound siblings (group :: stack)) (ht : t.isCloser)
    (hf : (t.text == closerOf group.opener.text)) :
    Sound (.group group.opener siblings.reverse t :: group.before) stack := by
  have hg : (Node.group group.opener siblings.reverse t).Balanced :=
    .group (h.opener group (by simp)) (isPunct_of_isCloser ht hf) fun n hn => h.siblings n (mem_reverse.1 hn)
  refine ⟨?_, (forall_mem_cons.1 h.opener).2, (forall_mem_cons.1 h.before).2⟩
  simpa using ⟨hg, h.before group (by simp)⟩

theorem Sound.passed (h : Sound siblings stack) (ho : ¬ t.isOpener) (hc : ¬ t.isCloser) :
    Sound (.leaf t :: siblings) stack := by
  have hl : (Node.leaf t).Balanced := .leaf (by simpa using ho) (by simpa using hc)
  exact ⟨by simpa using ⟨hl, h.siblings⟩, h.opener, h.before⟩

end Soundness

theorem forestFrom_spec {siblings : List Node} {stack : List OpenGroup}
    (h : forestFrom source tokens siblings stack = .ok ns) (hs : Sound siblings stack) :
    Node.tokensOf ns = tokensBefore siblings stack ++ tokens ∧ ∀ n ∈ ns, n.Balanced := by
  fun_induction forestFrom source tokens siblings stack with
  | case1 siblings =>
    cases h
    exact ⟨by simp [tokensBefore], fun n hn => hs.siblings n (mem_reverse.1 hn)⟩
  | case2 => cases h
  | case3 t tokens siblings stack ho ih =>
    obtain ⟨ht, hb⟩ := ih h (hs.opened ho)
    exact ⟨by simpa [tokensBefore] using ht, hb⟩
  | case4 => cases h
  | case5 t tokens siblings ho hc group stack hf ih =>
    obtain ⟨ht, hb⟩ := ih h (hs.closed hc hf)
    exact ⟨by simpa [tokensBefore_cons, tokensBefore] using ht, hb⟩
  | case6 => cases h
  | case7 t tokens siblings stack ho hc ih =>
    obtain ⟨ht, hb⟩ := ih h (hs.passed ho hc)
    exact ⟨by simpa [tokensBefore_cons] using ht, hb⟩

theorem tokensOf_forest (h : forest source tokens = .ok ns) : Node.tokensOf ns = tokens := by
  simpa [tokensBefore] using (forestFrom_spec h ⟨by simp, by simp, by simp⟩).1

theorem balanced_forest (h : forest source tokens = .ok ns) : ∀ n ∈ ns, n.Balanced :=
  (forestFrom_spec h ⟨by simp, by simp, by simp⟩).2

theorem Token.isPunct_iff {text : String} : t.isPunct text ↔ t.kind = .punct ∧ t.text = text := by
  simp [Token.isPunct]

export Node (tokensOf_append tokensOf_cons tokensOf_nil tokens_group tokens_leaf)

export Token (isPunct_iff)

theorem not_isOpener_of_isCloser (h : t.isCloser) : t.isOpener = false := by
  simp only [Token.isCloser, Bool.and_eq_true, Bool.or_eq_true, beq_iff_eq] at h
  rcases h.2 with (ht | ht) | ht <;> simp [Token.isOpener, ht, openBrace, closeBrace]

theorem isCloser_of_isPunct_closerOf {o : String} (h : t.isPunct (closerOf o)) : t.isCloser := by
  simp only [Token.isPunct, closerOf, Bool.and_eq_true, beq_iff_eq] at h
  simp only [Token.isCloser, h.1, h.2, Bool.and_eq_true, Bool.or_eq_true, beq_iff_eq, true_and]
  split
  · simp
  · split <;> simp

theorem isCloser_of_closerOf {o c : Token} (hcl : c.isPunct (closerOf o.text)) :
    c.isCloser ∧ c.isOpener = false ∧ c.text = closerOf o.text := by
  have hc := isCloser_of_isPunct_closerOf hcl
  exact ⟨hc, not_isOpener_of_isCloser hc, (Token.isPunct_iff.1 hcl).2⟩

section Steps

variable {source : String} {t : Token} {tokens : List Token} {siblings : List Node} {stack : List OpenGroup}

theorem forestFrom_opener (h : t.isOpener) :
    forestFrom source (t :: tokens) siblings stack = forestFrom source tokens [] (⟨t, siblings⟩ :: stack) := by
  cases stack <;> rw [forestFrom, if_pos h]

theorem forestFrom_leaf (ho : t.isOpener = false) (hc : t.isCloser = false) :
    forestFrom source (t :: tokens) siblings stack = forestFrom source tokens (.leaf t :: siblings) stack := by
  cases stack <;> rw [forestFrom, ho, hc] <;> rfl

theorem forestFrom_closer {o : Token} {pre : List Node} (h : t.isPunct (closerOf o.text)) :
    forestFrom source (t :: tokens) siblings (⟨o, pre⟩ :: stack) =
      forestFrom source tokens (.group o siblings.reverse t :: pre) stack := by
  obtain ⟨hc, hn, ht⟩ := isCloser_of_closerOf h
  rw [forestFrom, hn, hc, ht]
  simp

end Steps

theorem forestFrom_tokensOf (source : String) : ∀ (ns : List Node), (∀ n ∈ ns, n.Balanced) →
    ∀ (r : List Token) (siblings : List Node) (stack : List OpenGroup),
      forestFrom source (tokensOf ns ++ r) siblings stack = forestFrom source r (ns.reverse ++ siblings) stack
  | [], _, r, siblings, stack => by simp
  | .leaf t :: ns, hn, r, siblings, stack => by
    obtain ⟨hl, hm⟩ := forall_mem_cons.1 hn
    cases hl with
    | leaf ho hc =>
      rw [tokensOf_cons, tokens_leaf, singleton_append, cons_append, forestFrom_leaf ho hc,
        forestFrom_tokensOf source ns hm]
      simp
  | .group o ms c :: ns, hn, r, siblings, stack => by
    obtain ⟨hg, hm⟩ := forall_mem_cons.1 hn
    cases hg with
    | group ho hc hin =>
      have ht : tokensOf (.group o ms c :: ns) ++ r = o :: (tokensOf ms ++ c :: (tokensOf ns ++ r)) := by simp
      rw [ht, forestFrom_opener ho, forestFrom_tokensOf source ms hin, forestFrom_closer hc,
        forestFrom_tokensOf source ns hm]
      simp

theorem forest_tokensOf (source : String) {nodes : List Node} (h : ∀ n ∈ nodes, n.Balanced) :
    forest source (tokensOf nodes) = .ok nodes := by
  have ha := forestFrom_tokensOf source nodes h [] [] []
  rw [append_nil, append_nil, forestFrom, reverse_reverse] at ha
  exact ha

end CustomElement.Script
