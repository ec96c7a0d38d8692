import CustomElement.Proofs.Script.Dissection
import CustomElement.Proofs.Script.Partners

/-!
# The statement tree loses no code

The texts of a statement tree are slices of the script, in order and without overlap. None of them parts two brackets
that are partners, and together with the tokens that are left out for a reason they hold all characters but blanks
(`parseModule_slices`).
-/

namespace CustomElement.Text

open List

def Span.Holds (span : Span) (offset : Nat) : Prop := span.start ≤ offset ∧ offset < span.stop

def Span.Within (inner outer : Span) : Prop := outer.start ≤ inner.start ∧ inner.stop ≤ outer.stop

end CustomElement.Text

namespace CustomElement.Script

open List Text

variable {cs g : List Char} {ts us : List Token} {i offset : Nat} {source : String} {t : Token} {ns : List Node} {texts : List String}
  {spans : List Span}

def Token.span (t : Token) : Span := ⟨t.start, t.stop⟩

/-- The spans hold the texts of a statement tree. -/
structure Slicing (source : String) (tokens : List Token) (partners : List (Option Nat)) (nodes : List Node)
    (texts : List String) (spans : List Span) : Prop where
  slice : Forall₂ (fun span text => span.slice? source = some text) spans texts
  ordered : spans.Pairwise fun a b => a.stop ≤ b.start
  partner : ∀ span ∈ spans, ∀ (i : Nat) (t : Token), tokens[i]? = some t →
    (t.isOpener = true ∨ t.isCloser = true) → t.span.Within span →
      ∃ (j : Nat) (u : Token), partners[i]? = some (some j) ∧ tokens[j]? = some u ∧ u.span.Within span
  /-- A character that is not blank is in exactly one slice, or in a token that is left out. -/
  covered : ∀ before c after, source.toList = before ++ c :: after → isGap c = false →
    ((∃! k : Nat, ∃ span : Span, spans[k]? = some span ∧ span.Holds (byteLength before)) ∧
        ∀ t ∈ tokens, Omitted nodes t → ¬ t.span.Holds (byteLength before)) ∨
      (∀ span ∈ spans, ¬ span.Holds (byteLength before)) ∧ ∃ t ∈ tokens, Omitted nodes t ∧ t.span.Holds (byteLength before)

lemma TilesFrom.of_append (h : TilesFrom offset (ts ++ us) cs) :
    ∃ rest, cs = charsOf ts ++ rest ∧ TilesFrom (offset + byteLength (charsOf ts)) us rest := by
  induction ts generalizing offset cs with
  | nil => exact ⟨cs, rfl, h⟩
  | cons t ts ih =>
    obtain ⟨hs, -, rest, rfl, hr⟩ := h
    obtain ⟨rest, rfl, ht⟩ := ih hr
    refine ⟨rest, by simp, ?_⟩
    rwa [Token.stop, hs, add_assoc, ← byteLength_append] at ht

lemma TilesFrom.start_eq (h : TilesFrom offset (ts ++ t :: us) cs) : t.start = offset + byteLength (charsOf ts) := by
  obtain ⟨rest, -, hr⟩ := h.of_append
  exact hr.1

lemma start_lt_stop (h : t.text ≠ "") : t.start < t.stop := by
  obtain ⟨c, cs, hc⟩ := exists_cons_of_ne_nil fun hn => h (String.toList_eq_nil_iff.1 hn)
  have hp := c.utf8Size_pos
  rw [Token.stop, hc, byteLength_cons]
  omega

lemma mem_or_behind {pre after x y : List Char} {c : Char} (h : pre ++ c :: after = x ++ y) :
    (∃ w, x = pre ++ c :: w) ∨ ∃ w, pre = x ++ w ∧ y = w ++ c :: after := by
  rcases append_eq_append_iff.1 h with ⟨w, rfl, hw⟩ | ⟨w, rfl, rfl⟩
  · cases w with
    | nil => exact .inr ⟨[], by simp, hw.symm⟩
    | cons d w =>
      obtain ⟨rfl, -⟩ := cons.inj hw
      exact .inl ⟨w, rfl⟩
  · exact .inr ⟨w, rfl, rfl⟩

lemma behind_gap {pre after y : List Char} {c : Char} (hg : IsGap g) (hc : isGap c = false)
    (h : pre ++ c :: after = g ++ y) : ∃ w, pre = g ++ w ∧ y = w ++ c :: after := by
  rcases mem_or_behind h with ⟨w, rfl⟩ | h
  · rw [hg c (by simp)] at hc
    cases hc
  · exact h

lemma exists_append_of_getElem? {α : Type*} {l : List α} {a : α} (h : l[i]? = some a) :
    ∃ pre aft, l = pre ++ a :: aft ∧ i = pre.length := by
  obtain ⟨hl, rfl⟩ := List.getElem?_eq_some_iff.1 h
  refine ⟨l.take i, l.drop (i + 1), ?_, by rw [length_take]; omega⟩
  rw [← drop_eq_getElem_cons hl, take_append_drop]

/-- The text stands under the span, in tokens that begin at `offset`: it is that of balanced nodes but
for gaps at the ends. -/
def Excerpt (offset : Nat) (all : List Token) (span : Span) (text : String) : Prop :=
  ∃ a nodes b g g', all = a ++ (tokensOf nodes ++ b) ∧ (∀ n ∈ nodes, n.Balanced) ∧ IsGap g ∧ IsGap g' ∧
    (textOf nodes).toList = g ++ text.toList ++ g' ∧
    span.start = offset + byteLength (charsOf a) + byteLength g ∧
    span.stop = span.start + byteLength text.toList

namespace Excerpt

variable {all : List Token} {span : Span} {text : String}

lemma append_left (h : Excerpt (offset + byteLength (charsOf ts)) all span text) :
    Excerpt offset (ts ++ all) span text := by
  obtain ⟨a, ns, b, g, g', rfl, hb, hg, hg', ht, hs, hst⟩ := h
  refine ⟨ts ++ a, ns, b, g, g', by simp, hb, hg, hg', ht, ?_, hst⟩
  rw [hs, charsOf_append, byteLength_append]
  omega

lemma slice (h : Excerpt 0 all span text) (ht : TilesFrom 0 all source.toList) : span.slice? source = some text := by
  obtain ⟨a, ns, b, g, g', rfl, -, -, -, hte, hst, hso⟩ := h
  have hs : source.toList = (charsOf a ++ g) ++ (text.toList ++ (g' ++ charsOf b)) := by
    have hc : charsOf (a ++ (tokensOf ns ++ b)) = source.toList := ht.flatten_text
    rw [← hc, charsOf_append, charsOf_append, ← toList_textOf_eq_charsOf, hte]
    simp
  have hm := slice?_middle (charsOf a ++ g) text.toList (g' ++ charsOf b)
  rw [byteLength_append, ← zero_add (byteLength (charsOf a)), ← hst, ← hso, ← hs] at hm
  rw [Span.slice?, hm, map_some, ofList_toList]

lemma mem_run {a b : List Token} {g' : List Char} (hti : TilesFrom offset (a ++ (tokensOf ns ++ b)) cs)
    (hte : (textOf ns).toList = g ++ text.toList ++ g')
    (hst : span.start = offset + byteLength (charsOf a) + byteLength g)
    (hso : span.stop = span.start + byteLength text.toList) (hi : (a ++ (tokensOf ns ++ b))[i]? = some t)
    (ht : t.span.Within span) : a.length ≤ i ∧ i < a.length + (tokensOf ns).length := by
  obtain ⟨pre, aft, hs, rfl⟩ := exists_append_of_getElem? hi
  have hl : byteLength (charsOf (tokensOf ns)) = byteLength g + byteLength text.toList + byteLength g' := by
    rw [← toList_textOf_eq_charsOf, hte, byteLength_append, byteLength_append]
  rw [hs] at hti
  have hb := hti.start_eq
  have hlt := start_lt_stop (hti.text_ne_empty t (by simp))
  obtain ⟨hf, hto⟩ := ht
  simp only [Token.span] at hf hto
  constructor
  · by_contra ho
    obtain ⟨rest, rfl, -⟩ := exists_of_append_eq_cons hs (by omega)
    rw [charsOf_append, charsOf_cons, byteLength_append, byteLength_append] at hst
    have he : t.stop = t.start + byteLength t.text.toList := rfl
    omega
  · by_contra ho
    rw [← append_assoc] at hs
    obtain ⟨rest, rfl, -⟩ := exists_of_append_eq_append hs (by rw [length_append]; omega)
    rw [charsOf_append, charsOf_append, byteLength_append, byteLength_append, hl] at hb
    omega

lemma within_of_mem_run {a b : List Token} {g' : List Char} (ht : TilesFrom offset (a ++ (tokensOf ns ++ b)) cs)
    (hg : IsGap g) (hg' : IsGap g') (hte : (textOf ns).toList = g ++ text.toList ++ g')
    (hst : span.start = offset + byteLength (charsOf a) + byteLength g)
    (hs : span.stop = span.start + byteLength text.toList) {j : Nat} {u : Token}
    (hj : (a ++ (tokensOf ns ++ b))[j]? = some u) (hl : a.length ≤ j) (hlt : j < a.length + (tokensOf ns).length)
    (hu : u.isOpener ∨ u.isCloser) : u.span.Within span := by
  obtain ⟨c, hc, hin⟩ : ∃ c, u.text.toList = [c] ∧ isGap c = false := by
    simp only [Token.isOpener, Token.isCloser, and_eq_true, or_eq_true, beq_iff_eq] at hu
    rcases hu with ⟨-, (h | h) | h⟩ | ⟨-, (h | h) | h⟩ <;> rw [h] <;> exact ⟨_, rfl, by decide⟩
  rw [getElem?_append_right hl, getElem?_append_left (by omega)] at hj
  obtain ⟨r, r', hr, -⟩ := exists_append_of_getElem? hj
  have hb : u.start = offset + (byteLength (charsOf a) + byteLength (charsOf r)) := by
    rw [hr, append_assoc, cons_append, ← append_assoc] at ht
    rw [ht.start_eq, charsOf_append, byteLength_append]
  have hch : charsOf r ++ c :: charsOf r' = g ++ (text.toList ++ g') := by
    rw [toList_textOf_eq_charsOf, hr, charsOf_append, charsOf_cons, hc, append_assoc] at hte
    exact hte
  obtain ⟨w, hw, hm⟩ := behind_gap hg hin hch
  rw [hw, byteLength_append] at hb
  -- The bracket is not in the gap behind the text either.
  rcases mem_or_behind hm.symm with ⟨w', hw'⟩ | ⟨w', -, hga⟩
  · rw [hw', byteLength_append, byteLength_cons] at hs
    have he : u.stop = u.start + c.utf8Size := by rw [Token.stop, hc, byteLength_cons, byteLength_nil]; rfl
    refine ⟨?_, ?_⟩ <;> simp only [Token.span] <;> omega
  · rw [hg' c (by rw [hga]; simp)] at hin
    cases hin

lemma partner (h : Excerpt offset all span text) (hti : TilesFrom offset all cs) {j : Nat}
    (hi : all[i]? = some t) (ht : t.span.Within span) (hm : Mated all i j) :
    ∃ u, all[j]? = some u ∧ u.span.Within span := by
  obtain ⟨a, ns, b, g, g', rfl, hb, hg, hg', hte, hs, hst⟩ := h
  obtain ⟨hl, hlt⟩ := mem_run hti hte hs hst hi ht
  obtain ⟨hl', hlt'⟩ := hm.mem_run hb hl hlt
  obtain ⟨u, hj, hu⟩ := hm.isBracket
  exact ⟨u, hj, within_of_mem_run hti hg hg' hte hs hst hj hl' hlt' hu⟩

end Excerpt

structure Placed (offset : Nat) (all : List Token) (cs : List Char) (texts : List String) (left : List Token)
    (spans : List Span) : Prop where
  excerpts : Forall₂ (Excerpt offset all) spans texts
  from_offset : ∀ span ∈ spans, offset ≤ span.start
  ordered : spans.Pairwise fun a b => a.stop ≤ b.start
  apart : ∀ t ∈ left, ∀ span ∈ spans, t.stop ≤ span.start ∨ span.stop ≤ t.start
  covered : ∀ before c after, cs = before ++ c :: after → isGap c = false →
    (∃ span ∈ spans, span.Holds (offset + byteLength before)) ∨ ∃ t ∈ left, t.span.Holds (offset + byteLength before)

namespace Placed

variable {all left : List Token} {rest : List Char}

lemma nil : Placed offset [] [] [] [] [] := by
  refine ⟨.nil, by simp, .nil, by simp, fun pre c aft h => ?_⟩
  simp at h

lemma blank (ht : IsGap t.text.toList) (h : Placed (offset + byteLength t.text.toList) all rest texts left spans) :
    Placed offset (t :: all) (t.text.toList ++ rest) texts left spans := by
  refine ⟨h.excerpts.imp fun span text hs => ?_, fun span hs => ?_, h.ordered, h.apart, ?_⟩
  · have hm : Excerpt offset ([t] ++ all) span text := Excerpt.append_left (by simpa using hs)
    exact hm
  · have := h.from_offset span hs
    omega
  · intro pre c aft hcs hc
    obtain ⟨w, rfl, hr⟩ := behind_gap ht hc hcs.symm
    rw [byteLength_append, ← add_assoc]
    exact h.covered w c aft hr hc

lemma aside (hsa : t.start = offset) (h : Placed (offset + byteLength t.text.toList) all rest texts left spans) :
    Placed offset (t :: all) (t.text.toList ++ rest) texts (t :: left) spans := by
  have hst : t.stop = offset + byteLength t.text.toList := by rw [Token.stop, hsa]
  refine ⟨h.excerpts.imp fun span text hs => ?_, fun span hs => ?_, h.ordered, ?_, ?_⟩
  · have hm : Excerpt offset ([t] ++ all) span text := Excerpt.append_left (by simpa using hs)
    exact hm
  · have := h.from_offset span hs
    omega
  · refine forall_mem_cons.2 ⟨fun span hs => .inl ?_, h.apart⟩
    rw [hst]
    exact h.from_offset span hs
  · intro pre c aft hcs hc
    rcases mem_or_behind hcs.symm with ⟨w, hw⟩ | ⟨w, rfl, hr⟩
    · refine .inr ⟨t, by simp, ?_⟩
      have hp := c.utf8Size_pos
      rw [hw, byteLength_append, byteLength_cons] at hst
      refine ⟨?_, ?_⟩ <;> simp only [Token.span] <;> omega
    · rw [byteLength_append, ← add_assoc]
      rcases h.covered w c aft hr hc with hs | ⟨u, hu, hh⟩
      · exact .inl hs
      · exact .inr ⟨u, by simp [hu], hh⟩

lemma excerpt {text : String} (hb : ∀ n ∈ ns, n.Balanced) (hte : Trimmed ns text)
    (hl : ∀ t ∈ left, offset + byteLength (charsOf (tokensOf ns)) ≤ t.start)
    (h : Placed (offset + byteLength (charsOf (tokensOf ns))) all rest texts left spans) :
    ∃ span, Placed offset (tokensOf ns ++ all) (charsOf (tokensOf ns) ++ rest) (text :: texts)
      left (span :: spans) := by
  obtain ⟨g, g', hg, hg', hte⟩ := hte
  have hch := hte
  rw [toList_textOf_eq_charsOf] at hch
  rw [hch, byteLength_append, byteLength_append] at hl
  refine ⟨⟨offset + byteLength g, offset + byteLength g + byteLength text.toList⟩, ?_⟩
  refine ⟨.cons ?_ (h.excerpts.imp fun span text hs => hs.append_left), ?_, ?_, ?_, ?_⟩
  · exact ⟨[], ns, all, g, g', rfl, hb, hg, hg', hte, by simp, rfl⟩
  · refine forall_mem_cons.2 ⟨Nat.le_add_right _ _, fun span hs => ?_⟩
    have := h.from_offset span hs
    omega
  · refine pairwise_cons.2 ⟨fun span hs => ?_, h.ordered⟩
    have hf := h.from_offset span hs
    rw [hch, byteLength_append, byteLength_append] at hf
    dsimp only
    omega
  · intro t ht
    refine forall_mem_cons.2 ⟨.inr ?_, h.apart t ht⟩
    have := hl t ht
    dsimp only
    omega
  · intro pre c aft hcs hc
    rcases mem_or_behind hcs.symm with ⟨w, hw⟩ | ⟨w, rfl, hr⟩
    · refine .inl ⟨_, mem_cons_self, ?_⟩
      rw [hch, append_assoc] at hw
      obtain ⟨v, rfl, hm⟩ := behind_gap hg hc hw.symm
      rcases mem_or_behind hm.symm with ⟨v', hv'⟩ | ⟨v', -, hga⟩
      · have hp := c.utf8Size_pos
        rw [hv', byteLength_append, byteLength_append, byteLength_cons]
        refine ⟨?_, ?_⟩ <;> dsimp only <;> omega
      · rw [hg' c (by rw [hga]; simp)] at hc
        cases hc
    · rw [byteLength_append, ← add_assoc]
      rcases h.covered w c aft hr hc with ⟨span, hs, hh⟩ | hl
      · exact .inl ⟨span, by simp [hs], hh⟩
      · exact .inr hl

lemma exists_excerpt (h : Placed offset all cs texts left spans) {span : Span} (hs : span ∈ spans) :
    ∃ text, Excerpt offset all span text := by
  obtain ⟨k, hk, rfl⟩ := mem_iff_getElem.1 hs
  obtain ⟨hl, hg⟩ := forall₂_iff_get.1 h.excerpts
  exact ⟨_, hg k hk (hl ▸ hk)⟩

end Placed

lemma Dissected.exists_placed {all left : List Token} (h : Dissected all texts left)
    (hb : ∀ t ∈ all, t.kind = .blank → IsGap t.text.toList) (hti : TilesFrom offset all cs) :
    ∃ spans, Placed offset all cs texts left spans := by
  induction h generalizing offset cs with
  | nil =>
    obtain rfl : cs = [] := hti
    exact ⟨[], .nil⟩
  | blank hk _ ih =>
    obtain ⟨hg, hm⟩ := forall_mem_cons.1 hb
    obtain ⟨rfl, -, rest, rfl, hr⟩ := hti
    obtain ⟨spans, hs⟩ := ih hm hr
    exact ⟨spans, .blank (hg hk) hs⟩
  | aside t _ ih =>
    obtain ⟨-, hm⟩ := forall_mem_cons.1 hb
    obtain ⟨rfl, -, rest, rfl, hr⟩ := hti
    obtain ⟨spans, hs⟩ := ih hm hr
    exact ⟨spans, .aside rfl hs⟩
  | excerpt hba hte more ih =>
    obtain ⟨-, hm⟩ := forall_mem_append.1 hb
    obtain ⟨rest, rfl, hr⟩ := hti.of_append
    obtain ⟨spans, hs⟩ := ih hm hr
    have hl := fun t ht => hr.le_start t (more.left_sublist.subset ht)
    obtain ⟨span, hsp⟩ := hs.excerpt hba hte hl
    exact ⟨span :: spans, hsp⟩

lemma isGap_of_tokenize (h : tokenize source = .ok us) : ∀ t ∈ us, t.kind = .blank → IsGap t.text.toList := by
  intro t ht hk
  obtain ⟨_, _, _, _, hl⟩ := (tokenize_eq_ok_iff.1 ⟨us, h, rfl⟩).exists_lexes (mem_map_of_mem ht)
  exact (hl.blank hk).1

lemma eq_of_holds (h : spans.Pairwise fun a b => a.stop ≤ b.start) {k l : Nat} {a b : Span}
    (hk : spans[k]? = some a) (hl : spans[l]? = some b) (ha : a.Holds offset) (hb : b.Holds offset) : k = l := by
  have hlt : ∀ {k l : Nat} {a b : Span}, spans[k]? = some a → spans[l]? = some b → a.Holds offset →
      b.Holds offset → ¬ k < l := by
    intro k l a b hk hl ha hb hkl
    obtain ⟨hk', rfl⟩ := List.getElem?_eq_some_iff.1 hk
    obtain ⟨hl', rfl⟩ := List.getElem?_eq_some_iff.1 hl
    have hle := List.pairwise_iff_getElem.1 h k l hk' hl' hkl
    obtain ⟨-, ha⟩ := ha
    obtain ⟨hb, -⟩ := hb
    omega
  exact Nat.le_antisymm (not_lt.1 (hlt hl hk hb ha)) (not_lt.1 (hlt hk hl ha hb))

lemma Placed.slicing {partners : List (Option Nat)}
    (h : Placed 0 us source.toList texts (leftOut ns) spans) (hti : TilesFrom 0 us source.toList)
    (hp : matchBrackets source us = .ok partners) (hb : ∀ n ∈ ns, n.Balanced) (hsu : (leftOut ns).Sublist us) :
    Slicing source us partners ns texts spans := by
  refine ⟨h.excerpts.imp fun span text hs => hs.slice hti, h.ordered, ?_, ?_⟩
  · intro span hs i t hi ht hw
    obtain ⟨text, he⟩ := h.exists_excerpt hs
    obtain ⟨j, hj⟩ := exists_partner hp hi ht
    obtain ⟨u, hu, hw'⟩ := he.partner hti hi hw (mated_of_matchBrackets hp hj)
    exact ⟨j, u, hj, hu, hw'⟩
  · intro pre c aft hso hc
    have hco := h.covered pre c aft hso hc
    rw [zero_add] at hco
    have hn : ∀ t ∈ leftOut ns, t.span.Holds (byteLength pre) → ∀ span ∈ spans, ¬ span.Holds (byteLength pre) := by
      rintro t ht ⟨hf, hto⟩ span hs ⟨hf', hto'⟩
      simp only [Token.span] at hf hto
      rcases h.apart t ht span hs with hle | hle <;> omega
    rcases hco with ⟨span, hs, hh⟩ | ⟨t, ht, hh⟩
    · refine .inl ⟨?_, fun t _ ht hh' => ?_⟩
      · obtain ⟨k, hk⟩ := mem_iff_getElem?.1 hs
        refine ⟨k, ⟨span, hk, hh⟩, ?_⟩
        rintro l ⟨span', hl, hh'⟩
        exact eq_of_holds h.ordered hl hk hh' hh
      · exact hn t ((mem_leftOut_iff hb).2 ht) hh' span hs hh
    · exact .inr ⟨hn t ht hh, t, hsu.subset ht, (mem_leftOut_iff hb).1 ht, hh⟩

/-- **The statement tree loses no code**: the texts of the tree of a script are slices of it, in order and apart, that
hold the partner of every bracket in them. Every character but blanks is in exactly one of them, or in a token that is
omitted. -/
theorem parseModule_slices {source : String} {m : Module} (h : parseModule source = .ok m) :
    ∃ tokens partners nodes spans, tokenize source = .ok tokens ∧ matchBrackets source tokens = .ok partners ∧
      forest source tokens = .ok nodes ∧ Slicing source tokens partners nodes m.texts spans := by
  obtain ⟨tokens, htokens, h⟩ := bind_eq_ok.1 h
  obtain ⟨nodes, hnodes, h⟩ := bind_eq_ok.1 h
  obtain rfl := ok.inj h
  have htiles : TilesFrom 0 tokens source.toList := tokensFrom_tiles (mapError_eq_ok.1 htokens)
  have hpartners : matchBrackets source tokens = .ok (Node.partnersOf 0 nodes) := bind_eq_ok.2 ⟨nodes, hnodes, rfl⟩
  have hbalanced := balanced_forest hnodes
  have hdissected := dissected_module hbalanced
  rw [tokensOf_forest hnodes] at hdissected
  obtain ⟨spans, hspans⟩ := hdissected.exists_placed (isGap_of_tokenize htokens) htiles
  exact ⟨tokens, _, nodes, spans, htokens, hpartners, hnodes,
    hspans.slicing htiles hpartners hbalanced hdissected.left_sublist⟩

theorem parseModule_slices_class :
    ∃ m, parseModule "class A \x7b\n  m(a) \x7b b \x7d // c\n  ; x = [a]\n\x7d\nf()" = .ok m ∧
      m.texts = ["", "class A", "m", "a", "", "b", "x = [a]", "", "f()"] ∧
      ∃ tokens partners nodes spans,
        tokenize "class A \x7b\n  m(a) \x7b b \x7d // c\n  ; x = [a]\n\x7d\nf()" = .ok tokens ∧
        matchBrackets "class A \x7b\n  m(a) \x7b b \x7d // c\n  ; x = [a]\n\x7d\nf()" tokens = .ok partners ∧
        forest "class A \x7b\n  m(a) \x7b b \x7d // c\n  ; x = [a]\n\x7d\nf()" tokens = .ok nodes ∧
        Slicing "class A \x7b\n  m(a) \x7b b \x7d // c\n  ; x = [a]\n\x7d\nf()" tokens partners nodes m.texts
          spans := by
  have h : parseModule "class A \x7b\n  m(a) \x7b b \x7d // c\n  ; x = [a]\n\x7d\nf()" = .ok ⟨[.classDecl
      { blankBefore := false, leading := "", header := "class A", name := some "A", extended := none
        members := [
          ⟨false, .method { head := "m", name := "m", role := .call, isStatic := false, params := "a", between := ""
                            body := [⟨"b", false⟩] }⟩,
          ⟨false, .other "x = [a]"⟩]
        trailing := "" }, .statement ⟨"f()", false⟩]⟩ := by
    cbv
  exact ⟨_, h, rfl, parseModule_slices h⟩

end CustomElement.Script
