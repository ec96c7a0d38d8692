import CustomElement.Proofs.Script.Partners

/-!
# Well-nested brackets

`matchBrackets` succeeds exactly on tokens whose brackets are a well-nested word, and then gives every bracket
its partner (`Pairing`). Otherwise it names the first bracket that closes nothing, and where there is none
the innermost bracket left open (`Unmatched`).
-/

namespace CustomElement.Script

open List

def bracketsOf (ts : List Token) : List Token := ts.filter fun t => t.isOpener || t.isCloser

/-- Brackets that are closed in the order in which they open. -/
inductive WellNested : List Token → Prop
  | nil : WellNested []
  | enclose {o c : Token} {w v : List Token} (ho : o.isOpener) (hc : c.isPunct (closerOf o.text))
      (hw : WellNested w) (hv : WellNested v) : WellNested (o :: (w ++ c :: v))

/-- The brackets of the tokens close what they open, except for the brackets `left`, the innermost first. -/
inductive LeavesOpen : List Token → List Token → Prop
  | nested {ts : List Token} (h : WellNested (bracketsOf ts)) : LeavesOpen ts []
  | opener {ts us left : List Token} {o : Token} (h : LeavesOpen ts left) (ho : o.isOpener)
      (hu : WellNested (bracketsOf us)) : LeavesOpen (ts ++ o :: us) (o :: left)

/-- The bracket `t` has no partner: it is the first that closes none, or every bracket that closes does and it is the
innermost one left open. -/
def Unmatched (ts : List Token) (t : Token) : Prop :=
  (∃ a b left, ts = a ++ t :: b ∧ LeavesOpen a left ∧ t.isCloser ∧ ∀ o ∈ left.head?, t.text ≠ closerOf o.text) ∨
    ∃ left, LeavesOpen ts (t :: left)

/-- The pairs join the brackets of the tokens by shape, and do not cross. -/
structure Pairing (ts : List Token) (pairs : List (Option Nat)) : Prop where
  length : pairs.length = ts.length
  brackets : ∀ (i : Nat) (t : Token), ts[i]? = some t → ((∃ j, pairs[i]? = some (some j)) ↔ t.isOpener ∨ t.isCloser)
  involution : ∀ i j : Nat, pairs[i]? = some (some j) → i ≠ j ∧ pairs[j]? = some (some i)
  shape : ∀ i j : Nat, pairs[i]? = some (some j) → i < j →
    ∃ o c : Token, ts[i]? = some o ∧ ts[j]? = some c ∧ o.isOpener ∧ c.isPunct (closerOf o.text)
  apart : ∀ i j k l : Nat, pairs[i]? = some (some j) → pairs[k]? = some (some l) → i < k → k < j → i < l ∧ l < j

variable {source : String} {ts : List Token}

lemma wellNested_tokensOf : ∀ ns : List Node, (∀ n ∈ ns, n.Balanced) → WellNested (bracketsOf (tokensOf ns))
  | [], _ => by simpa [bracketsOf] using WellNested.nil
  | .leaf t :: ns, h => by
    obtain ⟨hl, hm⟩ := forall_mem_cons.1 h
    cases hl with
    | leaf ho hc => simpa [bracketsOf, ho, hc] using wellNested_tokensOf ns hm
  | .group o ms c :: ns, h => by
    obtain ⟨hg, hm⟩ := forall_mem_cons.1 h
    cases hg with
    | group ho hc hin =>
      have hw := WellNested.enclose ho hc (wellNested_tokensOf ms hin) (wellNested_tokensOf ns hm)
      simpa [bracketsOf, ho, isCloser_of_isPunct_closerOf hc] using hw

lemma exists_leaves (h : ∀ t ∈ ts, ¬ (t.isOpener || t.isCloser)) : ∃ ns, (∀ n ∈ ns, n.Balanced) ∧ tokensOf ns = ts := by
  induction ts with
  | nil => exact ⟨[], by simp, by simp⟩
  | cons t ts ih =>
    obtain ⟨ht, hts⟩ := forall_mem_cons.1 h
    obtain ⟨ns, hn, rfl⟩ := ih hts
    simp only [or_eq_true, not_or, Bool.not_eq_true] at ht
    exact ⟨.leaf t :: ns, forall_mem_cons.2 ⟨.leaf ht.1 ht.2, hn⟩, by simp⟩

lemma WellNested.exists_nodes {w : List Token} (h : WellNested w) : ∀ ts, bracketsOf ts = w →
    ∃ ns, (∀ n ∈ ns, n.Balanced) ∧ tokensOf ns = ts := by
  induction h with
  | nil => exact fun ts hts => exists_leaves (filter_eq_nil_iff.1 hts)
  | @enclose o c _ _ ho hc _ _ ihw ihv =>
    intro ts hts
    obtain ⟨a, r, rfl, ha, -, hr⟩ := filter_eq_cons_iff.1 hts
    obtain ⟨b, r', rfl, hb, hr'⟩ := filter_eq_append_iff.1 hr
    obtain ⟨b', d, rfl, hb', -, hd⟩ := filter_eq_cons_iff.1 hr'
    obtain ⟨ls, hls, rfl⟩ := exists_leaves ha
    obtain ⟨ms, hms, hm⟩ := ihw (b ++ b') (by rw [bracketsOf, filter_append, hb, filter_eq_nil_iff.2 hb', append_nil])
    obtain ⟨ns, hns, rfl⟩ := ihv d hd
    refine ⟨ls ++ .group o ms c :: ns, ?_, by simp [hm]⟩
    exact forall_mem_append.2 ⟨hls, forall_mem_cons.2 ⟨.group ho hc hms, hns⟩⟩

lemma Sound.leavesOpen {siblings : List Node} {stack : List OpenGroup} (h : Sound siblings stack) :
    LeavesOpen (tokensBefore siblings stack) (stack.map OpenGroup.opener) := by
  have hw := wellNested_tokensOf siblings.reverse fun n hn => h.siblings n (mem_reverse.1 hn)
  induction stack generalizing siblings with
  | nil => exact .nested hw
  | cons group stack ih =>
    have hs : Sound group.before stack :=
      ⟨h.before group (by simp), (forall_mem_cons.1 h.opener).2, (forall_mem_cons.1 h.before).2⟩
    exact .opener (ih hs (wellNested_tokensOf _ fun n hn => hs.siblings n (mem_reverse.1 hn)))
      (h.opener group (by simp)) hw

lemma unmatched_of_forestFrom {tokens : List Token} {siblings : List Node} {stack : List OpenGroup} {fault : Fault}
    (h : forestFrom source tokens siblings stack = .error fault) (hs : Sound siblings stack) :
    ∃ t, fault = unbalanced source t ∧ Unmatched (tokensBefore siblings stack ++ tokens) t := by
  fun_induction forestFrom source tokens siblings stack with
  | case1 => cases h
  | case2 siblings group stack =>
    cases h
    refine ⟨group.opener, rfl, .inr ⟨stack.map OpenGroup.opener, ?_⟩⟩
    rw [append_nil]
    exact hs.leavesOpen
  | case3 t tokens siblings stack ho ih => simpa [tokensBefore] using ih h (hs.opened ho)
  | case4 t tokens siblings ho hc =>
    cases h
    exact ⟨t, rfl, .inl ⟨_, _, [], rfl, hs.leavesOpen, hc, by simp⟩⟩
  | case5 t tokens siblings ho hc group stack hf ih =>
    simpa [tokensBefore_cons, tokensBefore] using ih h (hs.closed hc hf)
  | case6 t tokens siblings ho hc group stack hf =>
    cases h
    exact ⟨t, rfl, .inl ⟨_, _, _, rfl, hs.leavesOpen, hc, by simpa using hf⟩⟩
  | case7 t tokens siblings stack ho hc ih => simpa [tokensBefore_cons] using ih h (hs.passed ho hc)

lemma Mated.symm_unique {i j k : Nat} (h : Mated ts i j) (h' : Mated ts j k) : i = k := by
  have hno : ∀ {m n l}, Mates ts m n → Mates ts n l → False := by
    intro m n l h h'
    obtain ⟨-, _, c, -, hc, -, hcl⟩ := h.brackets
    obtain ⟨-, o, _, ho, -, hop, -⟩ := h'.brackets
    obtain rfl := some.inj (hc.symm.trans ho)
    rw [not_isOpener_of_isCloser (isCloser_of_isPunct_closerOf hcl)] at hop
    cases hop
  rcases h with h | h <;> rcases h' with h' | h'
  · exact (hno h h').elim
  · have hl := h.mem_inside_iff h'
    have hg := h'.mem_inside_iff h
    have hi := h.brackets.1
    have hk := h'.brackets.1
    omega
  · exact h.unique h'
  · exact (hno h' h).elim

lemma pairing_of_matchBrackets {pairs : List (Option Nat)} (h : matchBrackets source ts = .ok pairs) : Pairing ts pairs where
  length := by
    obtain ⟨ns, hn, hp⟩ := bind_eq_ok.1 h
    cases hp
    rw [Node.length_partnersOf, tokensOf_forest hn]
  brackets i t ht := by
    refine ⟨fun ⟨j, hj⟩ => ?_, exists_partner h ht⟩
    have hm : Mated ts j i := (mated_of_matchBrackets h hj).symm
    obtain ⟨u, hu, hb⟩ := hm.isBracket
    rwa [some.inj (ht.symm.trans hu)]
  involution i j hij := by
    have hm := mated_of_matchBrackets h hij
    obtain ⟨u, hu, hb⟩ := hm.isBracket
    obtain ⟨k, hk⟩ := exists_partner h hu hb
    obtain rfl := hm.symm_unique (mated_of_matchBrackets h hk)
    refine ⟨?_, hk⟩
    rcases hm with hm | hm
    · exact Nat.ne_of_lt hm.brackets.1
    · exact Nat.ne_of_gt hm.brackets.1
  shape i j hij hlt := by
    rcases mated_of_matchBrackets h hij with hm | hm
    · exact hm.brackets.2
    · exact absurd hm.brackets.1 (by omega)
  apart i j k l hij hkl hik hkj := by
    have hm : Mates ts i j := (mated_of_matchBrackets h hij).resolve_right fun hm => absurd hm.brackets.1 (by omega)
    rcases mated_of_matchBrackets h hkl with hn | hn
    · exact (hn.mem_inside_iff hm).1 ⟨hik, hkj⟩
    · exact (hn.mem_inside_iff hm).2 ⟨hik, hkj⟩

theorem matchBrackets_exact (source : String) (ts : List Token) :
    (WellNested (bracketsOf ts) ∧ ∃ pairs, matchBrackets source ts = .ok pairs ∧ Pairing ts pairs) ∨
      ¬ WellNested (bracketsOf ts) ∧ ∃ t, matchBrackets source ts = .error (unbalanced source t) ∧ Unmatched ts t := by
  cases hf : forest source ts with
  | ok ns =>
    have hm : matchBrackets source ts = .ok (Node.partnersOf 0 ns) := by rw [matchBrackets, hf]; rfl
    have hw := wellNested_tokensOf ns (balanced_forest hf)
    rw [tokensOf_forest hf] at hw
    exact .inl ⟨hw, _, hm, pairing_of_matchBrackets hm⟩
  | error fault =>
    obtain ⟨t, rfl, ht⟩ := unmatched_of_forestFrom hf ⟨by simp, by simp, by simp⟩
    refine .inr ⟨fun hw => ?_, t, by rw [matchBrackets, hf]; rfl, by simpa [tokensBefore] using ht⟩
    obtain ⟨ns, hn, rfl⟩ := hw.exists_nodes ts rfl
    rw [forest_tokensOf source hn] at hf
    cases hf

end CustomElement.Script
