import CustomElement.Proofs.Outcome
import CustomElement.Proofs.Script.Forest

/-!
# Brackets and their partners

`matchBrackets` gives every bracket its partner (`exists_partner`): what stands between the two is balanced
(`mated_of_matchBrackets`).
-/

namespace CustomElement.Script

open List

variable {a b ts us : List Token} {i j : Nat} {c t : Token} {partners : List (Option Nat)}

def excess : List Token → Int
  | [] => 0
  | t :: ts => (if t.isOpener then 1 else if t.isCloser then -1 else 0) + excess ts

@[simp] lemma excess_nil : excess [] = 0 := rfl

@[simp] lemma excess_append (a b : List Token) : excess (a ++ b) = excess a + excess b := by
  induction a with
  | nil => simp
  | cons t a ih => simp only [cons_append, excess, ih]; omega

/-- The brackets in the tokens fit: as many are closed as opened, and never more. -/
structure Even (ts : List Token) : Prop where
  total : excess ts = 0
  nonneg : ∀ a b, ts = a ++ b → 0 ≤ excess a

lemma Even.nil : Even [] := by
  refine ⟨rfl, fun a b h => ?_⟩
  obtain ⟨rfl, -⟩ := append_eq_nil_iff.1 h.symm
  exact Int.le_refl 0

lemma Even.append (ht : Even ts) (hu : Even us) : Even (ts ++ us) := by
  refine ⟨by rw [excess_append, ht.total, hu.total]; rfl, fun a b h => ?_⟩
  rcases append_eq_append_iff.1 h with ⟨a', rfl, hu'⟩ | ⟨b', ht', -⟩
  · have hp := hu.nonneg a' b hu'
    rw [excess_append, ht.total]
    omega
  · exact ht.nonneg a b' ht'

lemma Even.enclosed (ht : Even ts) {o : Token} (ho : o.isOpener) (hc : c.isCloser) : Even (o :: (ts ++ [c])) := by
  have hc' := not_isOpener_of_isCloser hc
  refine ⟨?_, fun a b h => ?_⟩
  · simp [excess, ho, hc, hc', ht.total]
  · cases a with
    | nil => exact Int.le_refl 0
    | cons t a =>
      obtain ⟨rfl, hta⟩ := cons.inj h
      rcases append_eq_append_iff.1 hta with ⟨a', rfl, hl⟩ | ⟨b', ht', -⟩
      · have hle : -1 ≤ excess a' := by
          rcases append_eq_singleton_iff.1 hl.symm with ⟨rfl, -⟩ | ⟨rfl, -⟩
          · decide
          · simp [excess, hc, hc']
        simp only [excess, ho, if_true, excess_append, ht.total]
        omega
      · have hp := ht.nonneg a b' ht'
        simp only [excess, ho, if_true]
        omega

lemma even_tokensOf {ns : List Node} (h : ∀ n ∈ ns, Even n.tokens) : Even (tokensOf ns) := by
  induction ns with
  | nil => rw [tokensOf_nil]; exact Even.nil
  | cons n ns ih =>
    obtain ⟨hn, hno⟩ := forall_mem_cons.1 h
    rw [tokensOf_cons]
    exact hn.append (ih hno)

lemma Node.Balanced.even {n : Node} (h : n.Balanced) : Even n.tokens := by
  induction h with
  | @leaf t ho hc =>
    have hz : excess [t] = 0 := by simp [excess, ho, hc]
    rw [tokens_leaf]
    refine ⟨hz, fun a b h => ?_⟩
    rcases append_eq_singleton_iff.1 h.symm with ⟨rfl, -⟩ | ⟨rfl, -⟩
    · exact Int.le_refl 0
    · exact Int.le_of_eq hz.symm
  | group ho hc _ ih =>
    rw [tokens_group]
    exact (even_tokensOf ih).enclosed ho (isCloser_of_isPunct_closerOf hc)

lemma even_of_balanced {ns : List Node} (h : ∀ n ∈ ns, n.Balanced) : Even (tokensOf ns) :=
  even_tokensOf fun n hn => (h n hn).even

def Mates (ts : List Token) (i j : Nat) : Prop :=
  ∃ before opener inside closer after,
    ts = before ++ opener :: (tokensOf inside ++ closer :: after) ∧ opener.isOpener = true ∧
      closer.isPunct (closerOf opener.text) = true ∧ (∀ n ∈ inside, n.Balanced) ∧ i = before.length ∧
      j = before.length + 1 + (tokensOf inside).length

lemma Mates.append_right (h : Mates ts i j) (us : List Token) : Mates (ts ++ us) i j := by
  obtain ⟨pre, o, ms, cl, aft, rfl, h⟩ := h
  exact ⟨pre, o, ms, cl, aft ++ us, by simp, h⟩

lemma Mates.append_left (h : Mates ts i j) (us : List Token) : Mates (us ++ ts) (us.length + i) (us.length + j) := by
  obtain ⟨pre, o, ms, cl, aft, rfl, ho, hc, hin, rfl, rfl⟩ := h
  refine ⟨us ++ pre, o, ms, cl, aft, by simp, ho, hc, hin, by simp, ?_⟩
  rw [length_append]
  omega

def Mated (ts : List Token) (i j : Nat) : Prop := Mates ts i j ∨ Mates ts j i

lemma Mated.append_right (h : Mated ts i j) (us : List Token) : Mated (ts ++ us) i j :=
  h.imp (·.append_right us) (·.append_right us)

lemma Mated.append_left (h : Mated ts i j) (us : List Token) : Mated (us ++ ts) (us.length + i) (us.length + j) :=
  h.imp (·.append_left us) (·.append_left us)

mutual

lemma Node.length_partners (k : Nat) : ∀ n : Node, (n.partners k).length = n.tokens.length
  | .leaf t => by simp [Node.partners]
  | .group o ms cl => by
    simp [Node.partners, Node.length_partnersOf (k + 1) ms]

lemma Node.length_partnersOf (k : Nat) : ∀ ns : List Node, (partnersOf k ns).length = (tokensOf ns).length
  | [] => by simp [partnersOf]
  | n :: ns => by
    simp [partnersOf, Node.length_partners k n, Node.length_partnersOf _ ns]

end

mutual

lemma Node.mated_partners {k i j : Nat} : ∀ n : Node, n.Balanced →
    (n.partners k)[i]? = some (some j) → ∃ j', j = k + j' ∧ Mated n.tokens i j'
  | .leaf t, _, h => by
    rw [Node.partners] at h
    cases i <;> simp at h
  | .group o ms cl, hb, h => by
    obtain ⟨ho, hc, hin⟩ : o.isOpener ∧ cl.isPunct (closerOf o.text) ∧ ∀ n ∈ ms, n.Balanced := by
      cases hb with
      | group ho hc hin => exact ⟨ho, hc, hin⟩
    have hw : Mates (Node.group o ms cl).tokens 0
        (1 + (tokensOf ms).length) :=
      ⟨[], o, ms, cl, [], by simp, ho, hc, hin, rfl, by simp⟩
    have hl := Node.length_partnersOf (k + 1) ms
    rw [Node.partners] at h
    cases i with
    | zero =>
      refine ⟨1 + (tokensOf ms).length, ?_, .inl hw⟩
      rw [← hl]
      simp at h
      omega
    | succ i =>
      rw [getElem?_cons_succ, getElem?_append] at h
      split at h
      · obtain ⟨j', rfl, hm⟩ := Node.mated_partnersOf ms hin h
        refine ⟨1 + j', by omega, ?_⟩
        have hs := (hm.append_right [cl]).append_left [o]
        rw [tokens_group]
        simpa [add_comm] using hs
      · have hi : i = (tokensOf ms).length := by
          have hlt := (List.getElem?_eq_some_iff.1 h).1
          simp only [length_singleton] at hlt
          omega
        rw [hi, hl, Nat.sub_self] at h
        obtain rfl : k = j := by simpa using h
        refine ⟨0, rfl, .inr ?_⟩
        rw [hi, add_comm]
        exact hw

lemma Node.mated_partnersOf {k i j : Nat} : ∀ ns : List Node, (∀ n ∈ ns, n.Balanced) →
    (partnersOf k ns)[i]? = some (some j) → ∃ j', j = k + j' ∧ Mated (tokensOf ns) i j'
  | [], _, h => by
    simp [partnersOf] at h
  | n :: ns, hb, h => by
    obtain ⟨hn, hns⟩ := forall_mem_cons.1 hb
    have hl := Node.length_partners k n
    rw [partnersOf, getElem?_append] at h
    rw [tokensOf_cons]
    split at h
    · obtain ⟨j', rfl, hm⟩ := Node.mated_partners n hn h
      exact ⟨j', rfl, hm.append_right _⟩
    · obtain ⟨j', rfl, hm⟩ := Node.mated_partnersOf ns hns h
      refine ⟨n.tokens.length + j', by omega, ?_⟩
      have hs := hm.append_left n.tokens
      rwa [hl, Nat.add_sub_cancel' (by omega)] at hs

end

mutual

lemma Node.no_bracket_of_partners {k i : Nat} {t : Token} : ∀ n : Node, n.Balanced →
    (n.partners k)[i]? = some none → n.tokens[i]? = some t → t.isOpener = false ∧ t.isCloser = false
  | .leaf u, hb, h, ht => by
    rw [Node.partners] at h
    obtain rfl : i = 0 := by simpa using (List.getElem?_eq_some_iff.1 h).1
    obtain rfl : u = t := by simpa using ht
    cases hb with
    | leaf ho hc => exact ⟨ho, hc⟩
  | .group o ms cl, hb, h, ht => by
    have hl := Node.length_partnersOf (k + 1) ms
    rw [Node.partners] at h
    rw [tokens_group] at ht
    cases i with
    | zero => simp at h
    | succ i =>
      rw [getElem?_cons_succ, getElem?_append] at h ht
      split at h
      · rw [if_pos (by omega)] at ht
        cases hb with
        | group _ _ hin => exact Node.no_bracket_of_partnersOf ms hin h ht
      · cases ha : i - (partnersOf (k + 1) ms).length <;> simp [ha] at h

lemma Node.no_bracket_of_partnersOf {k i : Nat} {t : Token} : ∀ ns : List Node, (∀ n ∈ ns, n.Balanced) →
    (partnersOf k ns)[i]? = some none → (tokensOf ns)[i]? = some t → t.isOpener = false ∧ t.isCloser = false
  | [], _, h, _ => by
    simp [partnersOf] at h
  | n :: ns, hb, h, ht => by
    obtain ⟨hn, hns⟩ := forall_mem_cons.1 hb
    have hl := Node.length_partners k n
    rw [partnersOf, getElem?_append] at h
    rw [tokensOf_cons, getElem?_append, ← hl] at ht
    split at h
    · rw [if_pos ‹_›] at ht
      exact Node.no_bracket_of_partners n hn h ht
    · rw [if_neg ‹_›] at ht
      exact Node.no_bracket_of_partnersOf ns hns h ht

end

lemma Mates.brackets (h : Mates ts i j) :
    i < j ∧ ∃ o c, ts[i]? = some o ∧ ts[j]? = some c ∧ o.isOpener ∧ c.isPunct (closerOf o.text) := by
  obtain ⟨pre, o, ms, c, aft, rfl, ho, hc, -, rfl, rfl⟩ := h
  refine ⟨by omega, o, c, ?_, ?_, ho, hc⟩
  · rw [getElem?_append_right (le_refl _), Nat.sub_self, getElem?_cons_zero]
  · rw [getElem?_append_right (by omega), add_assoc, Nat.add_sub_cancel_left, add_comm 1,
      getElem?_cons_succ, getElem?_append_right (le_refl _), Nat.sub_self, getElem?_cons_zero]

lemma Mated.isBracket (h : Mated ts i j) : ∃ u, ts[j]? = some u ∧ (u.isOpener ∨ u.isCloser) := by
  rcases h with h | h
  · obtain ⟨-, o, c, -, hc, -, hcl⟩ := h.brackets
    exact ⟨c, hc, .inr (isCloser_of_isPunct_closerOf hcl)⟩
  · obtain ⟨-, o, c, ho, -, hop, -⟩ := h.brackets
    exact ⟨o, ho, .inl hop⟩

lemma Mated.mates (h : Mated ts i j) (hi : ts[i]? = some t) (ht : t.isOpener) : Mates ts i j := by
  refine h.resolve_right fun h => ?_
  obtain ⟨-, o, c, -, hc, -, hcl⟩ := h.brackets
  obtain rfl := some.inj (hi.symm.trans hc)
  rw [not_isOpener_of_isCloser (isCloser_of_isPunct_closerOf hcl)] at ht
  cases ht

lemma exists_partner {src : String} (h : matchBrackets src us = .ok partners)
    (hi : us[i]? = some t) (ht : t.isOpener ∨ t.isCloser) : ∃ j, partners[i]? = some (some j) := by
  obtain ⟨ns, hn, hpa⟩ := bind_eq_ok.1 h
  obtain rfl := ok.inj hpa
  have hl : i < (partnersOf 0 ns).length := by
    rw [Node.length_partnersOf, tokensOf_forest hn]
    exact (List.getElem?_eq_some_iff.1 hi).1
  cases hp : (partnersOf 0 ns)[i]? with
  | none =>
    rw [List.getElem?_eq_none_iff] at hp
    omega
  | some partner =>
    cases partner with
    | some j => exact ⟨j, rfl⟩
    | none =>
      rw [← tokensOf_forest hn] at hi
      obtain ⟨ho, hc⟩ := Node.no_bracket_of_partnersOf ns (balanced_forest hn) hp hi
      simp [ho, hc] at ht

lemma mated_of_matchBrackets {src : String} (h : matchBrackets src us = .ok partners)
    (hij : partners[i]? = some (some j)) : Mated us i j := by
  obtain ⟨ns, hn, hp⟩ := bind_eq_ok.1 h
  cases hp
  obtain ⟨j', rfl, hm⟩ := Node.mated_partnersOf ns (balanced_forest hn) hij
  rwa [tokensOf_forest hn, zero_add] at *

lemma exists_of_append_eq_append {α : Type*} {a b c d : List α} (h : a ++ b = c ++ d)
    (hl : a.length ≤ c.length) : ∃ e, c = a ++ e ∧ b = e ++ d := by
  obtain ⟨e, rfl⟩ := prefix_of_prefix_length_le (prefix_append a b) ⟨d, h.symm⟩ hl
  rw [append_assoc] at h
  exact ⟨e, rfl, append_cancel_left h⟩

lemma exists_of_append_eq_cons {α : Type*} {a b c d : List α} {x : α} (h : a ++ b = c ++ x :: d)
    (hl : c.length < a.length) : ∃ e, a = c ++ x :: e ∧ d = e ++ b := by
  obtain ⟨e, rfl, he⟩ := exists_of_append_eq_append h.symm (Nat.le_of_lt hl)
  cases e with
  | nil => simp at hl
  | cons y e =>
    obtain ⟨rfl, rfl⟩ := cons.inj he
    exact ⟨e, rfl, rfl⟩

lemma Even.closes {ns ms aft : List Token} {o : Token} (hn : Even ns) (hms : Even ms) (ho : o.isOpener)
    (h : ns ++ b = a ++ o :: (ms ++ c :: aft)) (hl : a.length < ns.length) : a.length + 1 + ms.length < ns.length := by
  obtain ⟨r, rfl, hr⟩ := exists_of_append_eq_cons h hl
  by_contra hg
  simp only [length_append, length_cons] at hg
  obtain ⟨more, hm, -⟩ := exists_of_append_eq_append hr.symm (by omega)
  have hop := hn.nonneg a (o :: r) rfl
  have hin := hms.nonneg r more hm
  have ht := hn.total
  simp only [excess_append, excess, ho, if_true] at ht
  omega

lemma Even.opens {ns ms aft : List Token} (hn : Even ns) (hms : Even ms) (hc : c.isCloser)
    (h : a ++ (ns ++ b) = ms ++ c :: aft) (hl : ms.length < a.length + ns.length) : ms.length < a.length := by
  by_contra hg
  obtain ⟨more, rfl, hm⟩ := exists_of_append_eq_append h (by omega)
  rw [length_append] at hl
  obtain ⟨r, rfl, -⟩ := exists_of_append_eq_cons hm (by omega)
  have ho := hms.nonneg a more rfl
  have ht := hms.total
  have hcl := hn.nonneg (more ++ [c]) r (by simp)
  simp only [excess_append, excess, not_isOpener_of_isCloser hc, hc, if_true] at ht hcl
  simp at hcl
  omega

lemma Mates.mem_run_iff {run : List Node} (hr : ∀ n ∈ run, n.Balanced) (h : Mates (a ++ (tokensOf run ++ b)) i j) :
    (a.length ≤ i ∧ i < a.length + (tokensOf run).length) ↔ (a.length ≤ j ∧ j < a.length + (tokensOf run).length) := by
  obtain ⟨pre, o, ms, c, aft, hs, ho, hc, hin, rfl, rfl⟩ := h
  replace hc := isCloser_of_isPunct_closerOf hc
  have hn := even_of_balanced hr
  have hm := even_of_balanced hin
  constructor
  · rintro ⟨hl, hlt⟩
    obtain ⟨fr, rfl, hf⟩ := exists_of_append_eq_append hs hl
    rw [length_append] at hlt ⊢
    have hcl := hn.closes hm ho hf (by omega)
    omega
  · rintro ⟨hl, hlt⟩
    refine ⟨?_, by omega⟩
    by_contra hou
    obtain ⟨fr, rfl, hf⟩ := exists_of_append_eq_cons hs (by omega)
    rw [length_append, length_cons] at hl hlt
    have hop := hn.opens hm hc hf.symm (by omega)
    omega

lemma Mates.mem_inside_iff {k l : Nat} (h : Mates ts i j) (h' : Mates ts k l) : (k < i ∧ i < l) ↔ (k < j ∧ j < l) := by
  obtain ⟨pre, o, ms, c, aft, rfl, -, -, hin, rfl, rfl⟩ := h'
  rw [← singleton_append, ← append_assoc] at h
  have hr := h.mem_run_iff hin
  rwa [length_append, length_singleton] at hr

lemma Mates.unique {k : Nat} (h : Mates ts i j) (h' : Mates ts i k) : j = k := by
  have hl := h.mem_inside_iff h'
  have hg := h'.mem_inside_iff h
  have hj := h.brackets.1
  have hk := h'.brackets.1
  omega

lemma Mated.mem_run {run : List Node} (hr : ∀ n ∈ run, n.Balanced) (h : Mated (a ++ (tokensOf run ++ b)) i j)
    (hl : a.length ≤ i) (hlt : i < a.length + (tokensOf run).length) :
    a.length ≤ j ∧ j < a.length + (tokensOf run).length :=
  h.elim (fun h => (h.mem_run_iff hr).1 ⟨hl, hlt⟩) fun h => (h.mem_run_iff hr).2 ⟨hl, hlt⟩

end CustomElement.Script
