import CustomElement.Proofs.Script.Kept
import CustomElement.Script.Erasure.Stream

/-!
# Frames of a stream

Every bracket that opens in a frame of a stream is closed at its end at the latest (`Framed`), and what stands between two
partners is a frame again (`framed_of_partner`).
-/

namespace CustomElement.Text

open List

variable {cs : List Char} {n : Nat}

lemma IsBoundary.slice? {m : Nat} (hm : IsBoundary cs m) (hn : IsBoundary cs n) (hl : m ≤ n) :
    Text.slice? cs m n = some (takeBytes (n - m) (dropBytes m cs)) := by
  obtain ⟨a, b, c, rfl, rfl, rfl⟩ := hm.exists_append hn hl
  rw [slice?_middle, dropBytes_byteLength, Nat.add_sub_cancel_left, takeBytes_byteLength]

end CustomElement.Text

namespace CustomElement.Script

open List Text

lemma TilesFrom.pairwise {off : Nat} {ts : List Token} (h : TilesFrom off ts cs) :
    ts.Pairwise fun a b => a.stop ≤ b.start := by
  induction ts generalizing off cs with
  | nil => exact .nil
  | cons a ts ih =>
    obtain ⟨-, -, r, -, h⟩ := h
    exact pairwise_cons.2 ⟨h.le_start, ih h⟩

namespace Stream

variable {source : String} {s : Stream} {hi i j k lo p : Nat}

lemma exists_of_read (h : Stream.read source = .ok s) : ∃ ts partners, tokenize source = .ok ts ∧
    matchBrackets source (ts.filter fun t => !t.isTrivia) = .ok partners ∧ s.source = source ∧
    s.tokens = (ts.filter fun t => !t.isTrivia).toArray ∧ s.partners = partners.toArray := by
  obtain ⟨ts, ht, h⟩ := bind_eq_ok.1 h
  obtain ⟨partners, hp, h⟩ := bind_eq_ok.1 h
  cases h
  exact ⟨ts, partners, ht, hp, rfl, rfl, rfl⟩

lemma tok_of_size_le (h : s.size ≤ j) : s.tok j = ⟨.punct, "", byteLength s.source.toList⟩ := by
  rw [size] at h
  simp [tok, Array.getD, not_lt.2 h]

lemma getElem?_tokens (h : j < s.size) : s.tokens[j]? = some (s.tok j) := by
  rw [size] at h
  simp [tok, Array.getD, h]

lemma lt_size_of_is {x : String} (h : s.is j x) (ht : x ≠ "") : j < s.size := by
  by_contra hl
  rw [is, tok_of_size_le (not_lt.1 hl)] at h
  exact ht (by simpa using h.symm)

lemma lt_size_of_kind (h : (s.tok j).kind ≠ .punct) : j < s.size := by
  by_contra hl
  rw [tok_of_size_le (not_lt.1 hl)] at h
  exact h rfl

lemma lt_size_of_isWord (h : s.isWord j) : j < s.size :=
  lt_size_of_kind fun hk => by simp [isWord, hk] at h

lemma lt_size_of_isOpener (h : (s.tok j).isOpener) : j < s.size := by
  by_contra hl
  rw [tok_of_size_le (not_lt.1 hl)] at h
  cases h

lemma tok_mem_of_lt {tokens : List Token} (hs : Stream.read source = .ok s) (ht : tokenize source = .ok tokens)
    (hl : j < s.size) : s.tok j ∈ tokens := by
  obtain ⟨tokens', -, ht', -, -, hc, -⟩ := exists_of_read hs
  obtain rfl := ok.inj (ht.symm.trans ht')
  have hm := Array.mem_of_getElem? (getElem?_tokens hl)
  rw [hc, mem_toArray] at hm
  exact (mem_filter.1 hm).1

lemma exists_wordStart_tok (hs : Stream.read source = .ok s) (hw : (s.tok j).kind = .word) :
    ∃ c cs, (s.tok j).text.toList = c :: cs ∧ isWordStart c := by
  obtain ⟨ts, -, ht, -⟩ := exists_of_read hs
  exact exists_isWordStart ht (tok_mem_of_lt hs ht (lt_size_of_kind (by rw [hw]; nofun))) hw

lemma isOpener_of_is (hs : Stream.read source = .ok s) {text : String} (h : s.is j text)
    (ht : ["(", "[", openBrace].contains text) : (s.tok j).isOpener := by
  obtain ⟨hk, rfl⟩ : ((s.tok j).kind = .word ∨ (s.tok j).kind = .punct) ∧ (s.tok j).text = text := by
    simpa [is] using h
  rcases hk with hk | hk
  · obtain ⟨c, cs, hw, hst⟩ := exists_wordStart_tok hs hk
    rw [contains_of_isWordStart hw hst (by decide)] at ht
    cases ht
  · simpa [Token.isOpener, hk, or_assoc] using ht

variable (s) in
/-- Every bracket that opens in the frame is closed at its end at the latest. -/
structure Framed (lo hi : Nat) : Prop where
  read : Stream.read s.source = .ok s
  le_size : hi ≤ s.size
  partner : ∀ i, lo ≤ i → i < hi → (s.tok i).isOpener = true →
    ∃ p, s.partners[i]? = some (some p) ∧ i < p ∧ p ≤ hi ∧ p < s.size

namespace Framed

lemma mono (h : s.Framed lo hi) (hl : lo ≤ k) : s.Framed k hi :=
  ⟨h.read, h.le_size, fun i hi => h.partner i (hl.trans hi)⟩

lemma close (h : s.Framed lo hi) (hl : lo ≤ i) (hlt : i < hi) (ho : (s.tok i).isOpener) :
    s.partners[i]? = some (some (s.close hi i)) ∧ i < s.close hi i ∧ s.close hi i < s.size := by
  obtain ⟨p, hp, hip, hle, hs⟩ := h.partner i hl hlt ho
  have hc : s.close hi i = p := by
    rw [Stream.close, Array.getD_eq_getD_getElem?, hp]
    exact if_pos ⟨hip, hle⟩
  rw [hc]
  exact ⟨hp, hip, hs⟩

end Framed

lemma read_source (hs : Stream.read source = .ok s) : Stream.read s.source = .ok s := by
  obtain ⟨-, -, -, -, hso, -⟩ := exists_of_read hs
  rw [hso, hs]

lemma exists_mates (hs : Stream.read source = .ok s) (ho : (s.tok i).isOpener) :
    ∃ p, s.partners[i]? = some (some p) ∧ Mates s.tokens.toList i p := by
  obtain ⟨ts, partners, -, hpa, -, hc, hs⟩ := exists_of_read hs
  have hg : (ts.filter fun t => !t.isTrivia)[i]? = some (s.tok i) := by
    have hg := getElem?_tokens (lt_size_of_isOpener ho)
    rwa [hc, getElem?_toArray] at hg
  obtain ⟨p, hp⟩ := exists_partner hpa hg (.inl ho)
  refine ⟨p, by rw [hs, getElem?_toArray, hp], ?_⟩
  rw [hc]
  exact (mated_of_matchBrackets hpa hp).mates hg ho

lemma lt_of_mates (h : Mates s.tokens.toList i p) : i < p ∧ p < s.size ∧ (s.tok p).isCloser := by
  obtain ⟨hip, o, c, -, hc, -, hcl⟩ := h.brackets
  have hl : p < s.size := (List.getElem?_eq_some_iff.1 hc).1
  rw [Array.getElem?_toList, getElem?_tokens hl] at hc
  obtain rfl := some.inj hc
  exact ⟨hip, hl, isCloser_of_isPunct_closerOf hcl⟩

lemma framed_of_size_le (hs : Stream.read source = .ok s) (hl : hi ≤ s.size) (hsi : s.size ≤ hi + 1) (lo : Nat) :
    s.Framed lo hi := by
  refine ⟨read_source hs, hl, fun i _ _ ho => ?_⟩
  obtain ⟨p, hp, hm⟩ := exists_mates hs ho
  obtain ⟨hip, hlt, -⟩ := lt_of_mates hm
  exact ⟨p, hp, hip, by omega, hlt⟩

lemma framed_of_partner (hs : Stream.read source = .ok s) (ho : (s.tok i).isOpener)
    (hp : s.partners[i]? = some (some p)) : s.Framed (i + 1) p ∧ p < s.size ∧ (s.tok p).isCloser := by
  obtain ⟨p', hp', hm⟩ := exists_mates hs ho
  obtain rfl : p' = p := by simpa [hp] using hp'.symm
  obtain ⟨hip, hl, hc⟩ := lt_of_mates hm
  refine ⟨⟨read_source hs, hl.le, fun j hj hjp ho' => ?_⟩, hl, hc⟩
  obtain ⟨q, hq, hm'⟩ := exists_mates hs ho'
  obtain ⟨hjq, hql, -⟩ := lt_of_mates hm'
  exact ⟨q, hq, hjq, ((hm'.mem_inside_iff hm).1 ⟨hj, hjp⟩).2.le, hql⟩

lemma exists_split_tok (hs : Stream.read source = .ok s) (hj : j < s.size) :
    ∃ pre post, tokenize source = .ok (pre ++ s.tok j :: post) ∧ (pre.filter fun t => !t.isTrivia).length = j := by
  obtain ⟨ts, -, ht, -, -, hc, -⟩ := exists_of_read hs
  have hl : j < (ts.filter fun t => !t.isTrivia).length := by simpa [size, hc] using hj
  have hto : s.tok j = (ts.filter fun t => !t.isTrivia)[j] := by simp [tok, hc, Array.getD, hl]
  have hsp : (ts.filter fun t => !t.isTrivia) =
      (ts.filter fun t => !t.isTrivia).take j ++ s.tok j :: (ts.filter fun t => !t.isTrivia).drop (j + 1) := by
    rw [hto, ← drop_eq_getElem_cons hl, take_append_drop]
  obtain ⟨fr, back, rfl, hf, hb⟩ := filter_eq_append_iff.1 hsp
  obtain ⟨g, post, rfl, hg, -, -⟩ := filter_eq_cons_iff.1 hb
  refine ⟨fr ++ g, post, by simpa using ht, ?_⟩
  have hn : g.filter (fun t => !t.isTrivia) = [] := filter_eq_nil_iff.2 hg
  rw [filter_append, hn, append_nil, hf, length_take_of_le hl.le]

section Order

variable (h : Stream.read source = .ok s)

include h

lemma exists_code : ∃ code : List Token, s.size = code.length ∧
    (∀ i, s.tok i = code.getD i ⟨.punct, "", byteLength s.source.toList⟩) ∧
    code.Pairwise (fun a b => a.stop ≤ b.start) ∧
    ∀ t ∈ code, t.start < t.stop ∧ t.stop ≤ byteLength s.source.toList := by
  obtain ⟨ts, -, hto, -, hs, hc, -⟩ := exists_of_read h
  have hti := tokensFrom_tiles (mapError_eq_ok.1 hto)
  refine ⟨ts.filter fun t => !t.isTrivia, by rw [size, hc]; rfl, fun i => ?_, hti.pairwise.filter _, fun t ht => ?_⟩
  · rw [tok, hc, Array.getD_eq_getD_getElem?, getElem?_toArray, getD_eq_getElem?_getD]
  · have hm := (mem_filter.1 ht).1
    refine ⟨start_lt_stop (hti.text_ne_empty t hm), ?_⟩
    have ha : TilesFrom 0 (ts ++ []) source.toList := by rwa [append_nil]
    have hl := ha.stop_le t hm
    rwa [charsOf, hti.flatten_text, zero_add, ← hs] at hl

lemma stop_le_start (hik : i < k) : (s.tok i).stop ≤ (s.tok k).start := by
  obtain ⟨code, -, ht, ho, hs⟩ := exists_code h
  rw [ht, ht]
  by_cases hk : k < code.length
  · have hi : i < code.length := hik.trans hk
    rw [getD_eq_getElem _ _ hi, getD_eq_getElem _ _ hk]
    exact pairwise_iff_getElem.1 ho i k hi hk hik
  · rw [getD_eq_default _ _ (not_lt.1 hk)]
    by_cases hi : i < code.length
    · rw [getD_eq_getElem _ _ hi]
      exact (hs _ (getElem_mem hi)).2
    · rw [getD_eq_default _ _ (not_lt.1 hi)]
      simp [Token.stop]

lemma start_lt_stop_tok (hi : i < s.size) : (s.tok i).start < (s.tok i).stop := by
  obtain ⟨code, hs, ht, -, hsp⟩ := exists_code h
  rw [hs] at hi
  rw [ht, getD_eq_getElem _ _ hi]
  exact (hsp _ (getElem_mem hi)).1

lemma start_lt_stop_of_le (hi : i < s.size) (hik : i ≤ k) : (s.tok i).start < (s.tok k).stop := by
  have hl := start_lt_stop_tok h hi
  rcases Nat.eq_or_lt_of_le hik with rfl | hik
  · exact hl
  · have hle := stop_le_start h hik
    rw [Token.stop]
    omega

lemma start_lt_start (hi : i < s.size) (hik : i < k) : (s.tok i).start < (s.tok k).start :=
  (start_lt_stop_tok h hi).trans_le (stop_le_start h hik)

lemma exists_source_tok (hj : j < s.size) :
    ∃ a b, s.source.toList = a ++ ((s.tok j).text.toList ++ b) ∧ byteLength a = (s.tok j).start := by
  obtain ⟨-, -, -, -, hs, -⟩ := exists_of_read h
  obtain ⟨pre, post, hto, -⟩ := exists_split_tok h hj
  have ht := tokensFrom_tiles (mapError_eq_ok.1 hto)
  have hc : charsOf (pre ++ s.tok j :: post) = source.toList := ht.flatten_text
  refine ⟨charsOf pre, charsOf post, ?_, by rw [ht.start_eq, zero_add]⟩
  rw [hs, ← hc, charsOf_append, charsOf_cons]

lemma boundary_tok (hj : j < s.size) (hn : IsBoundary (s.tok j).text.toList n) :
    IsBoundary s.source.toList ((s.tok j).start + n) := by
  obtain ⟨a, b, heq, hs⟩ := exists_source_tok h hj
  obtain ⟨c, d, ht, rfl⟩ := hn
  exact ⟨a ++ c, d ++ b, by simp [heq, ht], by rw [byteLength_append, hs]⟩

lemma boundary_start (hj : j < s.size) : IsBoundary s.source.toList (s.tok j).start :=
  boundary_tok h hj ⟨[], _, rfl, rfl⟩

lemma boundary_stop (hj : j < s.size) : IsBoundary s.source.toList (s.tok j).stop :=
  boundary_tok h hj ⟨_, [], (append_nil _).symm, rfl⟩

end Order

end Stream

end CustomElement.Script
