import CustomElement.Proofs.Script.Slices
import CustomElement.Script.Edit

/-!
# What edits leave

The result of edits is made of the characters that lie in no range and of the texts of the edits (`exists_pieces`).
Edits that only take out, between the edges of tokens, leave the tokens that lie in none of the ranges
(`applyEdits_cuts`).
-/

namespace CustomElement.Text

open List

variable {cs : List Char} {m n pos : Nat}

def IsBoundary (cs : List Char) (n : Nat) : Prop := ∃ a b, cs = a ++ b ∧ byteLength a = n

lemma IsBoundary.exists_append (hm : IsBoundary cs m) (hn : IsBoundary cs n) (hl : m ≤ n) :
    ∃ a b c, cs = a ++ (b ++ c) ∧ byteLength a = m ∧ m + byteLength b = n := by
  obtain ⟨a, r, rfl, rfl⟩ := hm
  obtain ⟨a', c, heq, rfl⟩ := hn
  rcases append_eq_append_iff.1 heq with ⟨b, rfl, rfl⟩ | ⟨b, rfl, rfl⟩
  · exact ⟨a, b, c, rfl, rfl, by rw [byteLength_append]⟩
  · -- The first cut lies behind the second one by no more than nothing.
    refine ⟨a' ++ b, [], r, rfl, rfl, ?_⟩
    rw [byteLength_append] at hl ⊢
    simp only [byteLength_nil]
    omega

lemma IsBoundary.max (hm : IsBoundary cs m) (hn : IsBoundary cs n) : IsBoundary cs (max m n) := by
  rcases max_choice m n with h | h <;> rw [h] <;> assumption

lemma IsBoundary.of_append {a b : List Char} (h : IsBoundary (a ++ b) n) : IsBoundary b (n - byteLength a) := by
  obtain ⟨f, g, heq, rfl⟩ := h
  rcases append_eq_append_iff.1 heq with ⟨r, rfl, rfl⟩ | ⟨r, rfl, rfl⟩
  · exact ⟨r, g, rfl, by simp⟩
  · exact ⟨[], _, rfl, by simp⟩

/-- The characters of a text that starts at the byte `pos`, each with the byte it starts at. -/
def located (pos : Nat) : List Char → List (Nat × Char)
  | [] => []
  | c :: cs => (pos, c) :: located (pos + c.utf8Size) cs

lemma located_append (a b : List Char) : located pos (a ++ b) = located pos a ++ located (pos + byteLength a) b := by
  induction a generalizing pos with
  | nil => rfl
  | cons c a ih => simp [located, ih, add_assoc]

@[simp] lemma map_snd_located : (located pos cs).map Prod.snd = cs := by
  induction cs generalizing pos with
  | nil => rfl
  | cons c cs ih => simp [located, ih]

lemma bounds_of_mem_located {p : Nat × Char} (h : p ∈ located pos cs) : pos ≤ p.1 ∧ p.1 < pos + byteLength cs := by
  induction cs generalizing pos with
  | nil => cases h
  | cons c cs ih =>
    have hc := c.utf8Size_pos
    rw [byteLength_cons]
    rcases mem_cons.1 h with rfl | h
    · exact ⟨le_rfl, by omega⟩
    · have hb := ih h
      omega

end CustomElement.Text

namespace CustomElement.Script

open List Text

section Pieces

variable {pos : Nat} {cs : List Char} {e : Edit} {edits : List Edit} {pieces : List ((Nat × Char) ⊕ Edit)}

def Edit.Fits (e : Edit) (cs : List Char) : Prop := IsBoundary cs e.start ∧ IsBoundary cs e.stop

def Edit.takes (e : Edit) (n : Nat) : Bool := e.start ≤ n && n < e.stop

/-- The characters that no edit takes out. The first byte of a character speaks for all. -/
def uncovered (edits : List Edit) (pos : Nat) (cs : List Char) : List (Nat × Char) :=
  (located pos cs).filter fun p => !edits.any fun e => e.takes p.1

def pieceChars : (Nat × Char) ⊕ Edit → List Char := Sum.elim (fun p => [p.2]) fun e => e.text.toList

/-- The order of the pieces: an edit stands behind what lies before its range and in front of what lies behind. -/
def Precedes : (Nat × Char) ⊕ Edit → (Nat × Char) ⊕ Edit → Prop
  | .inl p, .inl q => p.1 < q.1
  | .inl p, .inr e => p.1 < e.start
  | .inr e, .inl p => e.stop ≤ p.1
  | .inr d, .inr e => d.start < e.start ∨ d.start = e.start ∧ d.stop ≤ e.stop

/-- The pieces are the characters outside all ranges and every edit once, each in their order. -/
structure Interleaves (edits : List Edit) (pos : Nat) (cs : List Char) (pieces : List ((Nat × Char) ⊕ Edit)) : Prop where
  kept : pieces.filterMap Sum.getLeft? = uncovered edits pos cs
  edits : (pieces.filterMap Sum.getRight?).Perm edits
  order : pieces.Pairwise Precedes

lemma uncovered_append (a b : List Char) :
    uncovered edits pos (a ++ b) = uncovered edits pos a ++ uncovered edits (pos + byteLength a) b := by
  rw [uncovered, located_append, filter_append]
  rfl

lemma uncovered_perm {edits' : List Edit} (h : edits.Perm edits') : uncovered edits pos cs = uncovered edits' pos cs := by
  refine filter_congr fun p _ => ?_
  rw [h.any_eq]

lemma uncovered_first {a b c : List Char} {m : Nat} (hf : ∀ d ∈ edits, e.start ≤ d.start)
    (ha : byteLength a = e.start - pos) (hb : pos + byteLength a + byteLength b = m)
    (hm : m = max e.stop (max e.start pos)) :
    uncovered (e :: edits) pos (a ++ (b ++ c)) = located pos a ++ uncovered edits m c := by
  have hbf : uncovered (e :: edits) pos a = located pos a := by
    refine filter_eq_self.2 fun p hp => ?_
    have hl := bounds_of_mem_located hp
    simp only [not_eq_true', any_eq_false, Edit.takes, and_eq_true, decide_eq_true_eq, not_and]
    refine forall_mem_cons.2 ⟨by omega, fun d hd => ?_⟩
    have := hf d hd
    omega
  have hbe : uncovered (e :: edits) (pos + byteLength a) b = [] := by
    refine filter_eq_nil_iff.2 fun p hp => ?_
    have hl := bounds_of_mem_located hp
    have hc : e.takes p.1 := by
      simp only [Edit.takes, and_eq_true, decide_eq_true_eq]
      omega
    simp [hc]
  have hbh : uncovered (e :: edits) m c = uncovered edits m c := by
    refine filter_congr fun p hp => ?_
    have hl := bounds_of_mem_located hp
    have hc : e.takes p.1 = false := by
      simp only [Edit.takes, Bool.and_eq_false_iff, decide_eq_false_iff_not]
      omega
    rw [any_cons, hc, Bool.false_or]
  rw [uncovered_append, uncovered_append, hb, hbf, hbe, hbh, nil_append]

lemma pairwise_located : ((located pos cs).map Sum.inl).Pairwise Precedes := by
  induction cs generalizing pos with
  | nil => exact .nil
  | cons c cs ih =>
    refine pairwise_cons.2 ⟨fun q hq => ?_, ih⟩
    obtain ⟨p, hp, rfl⟩ := mem_map.1 hq
    have hb := bounds_of_mem_located hp
    have hc := c.utf8Size_pos
    change pos < p.1
    omega

lemma Edit.le_iff {d e : Edit} : d.le e ↔ d.start < e.start ∨ d.start = e.start ∧ d.stop ≤ e.stop := by
  simp [Edit.le]

lemma pairwise_first {a : List Char} {m : Nat} (ha : byteLength a = e.start - pos) (hm : max e.stop (max e.start pos) ≤ m)
    (hed : ∀ d, .inr d ∈ pieces → e.le d) (hback : ∀ p, .inl p ∈ pieces → m ≤ p.1) (h : pieces.Pairwise Precedes) :
    ((located pos a).map Sum.inl ++ Sum.inr e :: pieces).Pairwise Precedes := by
  refine pairwise_append.2 ⟨pairwise_located, pairwise_cons.2 ⟨?_, h⟩, ?_⟩
  · rintro (p | d) hd
    · exact le_trans (by omega) (hback p hd)
    · exact Edit.le_iff.1 (hed d hd)
  · intro q hq r hr
    obtain ⟨p, hp, rfl⟩ := mem_map.1 hq
    have hl := bounds_of_mem_located hp
    have hpe : p.1 < e.start := by omega
    rcases mem_cons.1 hr with rfl | hr
    · exact hpe
    · rcases r with q | d
      · have hq := hback q hr
        exact hpe.trans_le (by omega)
      · have hd := Edit.le_iff.1 (hed d hr)
        exact hpe.trans_le (by omega)

lemma exists_pieces (hs : edits.Pairwise fun a b => a.le b)
    (hb : ∀ e ∈ edits, IsBoundary cs (e.start - pos) ∧ IsBoundary cs (e.stop - pos)) :
    ∃ pieces, Interleaves edits pos cs pieces ∧ applyEditsFrom pos cs edits = pieces.flatMap pieceChars := by
  induction edits generalizing pos cs with
  | nil =>
    refine ⟨(located pos cs).map .inl, ⟨?_, ?_, pairwise_located⟩, ?_⟩
    · simp [uncovered, filterMap_map, comp_def]
    · simp [filterMap_map, comp_def]
    · rw [flatMap_map]
      exact map_snd_located.symm.trans map_eq_flatMap
  | cons e edits ih =>
    obtain ⟨hf, hs⟩ := pairwise_cons.1 hs
    obtain ⟨⟨hst, hso⟩, hb⟩ := forall_mem_cons.1 hb
    obtain ⟨a, b, c, rfl, ha, hab⟩ := hst.exists_append (hso.max hst) (le_max_right _ _)
    obtain ⟨m, hm⟩ : ∃ m, m = max e.stop (max e.start pos) := ⟨_, rfl⟩
    have hl : pos + byteLength a + byteLength b = m := by omega
    have hle : ∀ d ∈ edits, e.start ≤ d.start := by
      intro d hd
      have hd := Edit.le_iff.1 (hf d hd)
      omega
    -- The rest of the text, from the end of the range on, can be cut where the other edits start and stop.
    have hc : ∀ {n}, IsBoundary (a ++ (b ++ c)) (n - pos) → IsBoundary c (n - m) := by
      intro n hn
      have hn := hn.of_append.of_append
      rwa [Nat.sub_sub, Nat.sub_sub, ← add_assoc, hl] at hn
    obtain ⟨pieces, ⟨hleft, hright, hpw⟩, hout⟩ := ih hs fun d hd => ⟨hc (hb d hd).1, hc (hb d hd).2⟩
    refine ⟨(located pos a).map .inl ++ .inr e :: pieces, ⟨?_, ?_, ?_⟩, ?_⟩
    · rw [uncovered_first hle ha hl hm, ← hleft]
      simp [filterMap_map, filterMap_cons, comp_def]
    · simpa [filterMap_map, comp_def] using hright
    · refine pairwise_first ha hm.ge (fun d hd => ?_) (fun p hp => ?_) hpw
      · exact hf d (hright.mem_iff.1 (mem_filterMap.2 ⟨_, hd, rfl⟩))
      · have hp : p ∈ uncovered edits m c := hleft ▸ mem_filterMap.2 ⟨_, hp, rfl⟩
        exact (bounds_of_mem_located (mem_of_mem_filter hp)).1
    · have hta : max e.start pos - pos = byteLength a := by omega
      have htd : m - pos = byteLength (a ++ b) := by
        rw [byteLength_append]
        omega
      rw [applyEditsFrom, ← hm, hta, takeBytes_byteLength, htd, ← append_assoc a, dropBytes_byteLength, hout,
        flatMap_append, flatMap_map, flatMap_cons, append_assoc]
      congr 1
      exact map_snd_located.symm.trans map_eq_flatMap

lemma flatMap_pieceChars (h : ∀ e ∈ pieces.filterMap Sum.getRight?, e.text = "") :
    pieces.flatMap pieceChars = (pieces.filterMap Sum.getLeft?).map Prod.snd := by
  induction pieces with
  | nil => rfl
  | cons piece pieces ih =>
    rcases piece with p | e
    · rw [flatMap_cons, ih h]
      rfl
    · obtain ⟨he, h⟩ := forall_mem_cons.1 h
      rw [flatMap_cons, ih h]
      simp [pieceChars, he, filterMap_cons]

lemma Edit.pairwise_mergeSort (edits : List Edit) : (edits.mergeSort Edit.le).Pairwise fun a b => a.le b := by
  refine List.pairwise_mergeSort (fun a b c ha hb => ?_) (fun a b => ?_) edits
  · rw [Edit.le_iff] at ha hb ⊢
    omega
  · rw [or_eq_true, Edit.le_iff, Edit.le_iff]
    omega

variable {source : String}

lemma applyEdits_pieces (hb : ∀ e ∈ edits, e.Fits source.toList) :
    ∃ pieces, Interleaves edits 0 source.toList pieces ∧ (applyEdits source edits).toList = pieces.flatMap pieceChars := by
  have hp := mergeSort_perm edits Edit.le
  obtain ⟨pieces, h, hout⟩ : ∃ pieces, Interleaves _ 0 source.toList pieces ∧ _ :=
    exists_pieces (Edit.pairwise_mergeSort edits) fun e he => hb e (hp.mem_iff.1 he)
  exact ⟨pieces, ⟨h.kept.trans (uncovered_perm hp), h.edits.trans hp, h.order⟩, by
    rw [applyEdits, toList_ofList, hout]⟩

lemma applyEdits_removals (hte : ∀ e ∈ edits, e.text = "") (hb : ∀ e ∈ edits, e.Fits source.toList) :
    (applyEdits source edits).toList = (uncovered edits 0 source.toList).map Prod.snd := by
  obtain ⟨pieces, h, hout⟩ := applyEdits_pieces hb
  rw [hout, flatMap_pieceChars fun e he => hte e (h.edits.mem_iff.1 he), h.kept]

end Pieces

section Cuts

variable {offset : Nat} {cs : List Char} {tokens : List Token} {edits : List Edit}

def Edit.covers (e : Edit) (t : Token) : Bool := e.start ≤ t.start && t.stop ≤ e.stop

/-- The tokens that no edit takes out. -/
def keptTokens (edits : List Edit) (tokens : List Token) : List Token :=
  tokens.filter fun t => !edits.any fun e => e.covers t

lemma keptTokens_append (edits : List Edit) (ts us : List Token) :
    keptTokens edits (ts ++ us) = keptTokens edits ts ++ keptTokens edits us := filter_append ts us

lemma TilesFrom.stop_le {fr back : List Token} (h : TilesFrom offset (fr ++ back) cs) :
    ∀ t ∈ fr, t.stop ≤ offset + byteLength (charsOf fr) := by
  induction fr generalizing offset cs with
  | nil => simp
  | cons a fr ih =>
    obtain ⟨hs, -, r, rfl, h⟩ := h
    have hst : a.stop = offset + byteLength a.text.toList := by rw [Token.stop, hs]
    rw [charsOf_cons, byteLength_append, ← add_assoc, ← hst]
    exact forall_mem_cons.2 ⟨Nat.le_add_right _ _, ih h⟩

lemma uncovered_token {t : Token} (h : ∀ e ∈ edits, t.stop ≤ e.start ∨ e.stop ≤ t.start ∨ e.covers t) :
    (uncovered edits t.start t.text.toList).map Prod.snd = charsOf (keptTokens edits [t]) := by
  have hc : ∀ p ∈ located t.start t.text.toList, (!edits.any fun e => e.takes p.1) = !edits.any fun e => e.covers t := by
    intro p hp
    have hl : t.start ≤ p.1 ∧ p.1 < t.stop := bounds_of_mem_located hp
    refine congrArg _ (Bool.eq_iff_iff.2 ?_)
    rw [any_eq_true, any_eq_true]
    refine exists_congr fun e => and_congr_right fun he => ?_
    have he := h e he
    simp only [Edit.takes, Edit.covers, and_eq_true, decide_eq_true_eq] at he ⊢
    omega
  rw [uncovered, filter_congr hc, keptTokens]
  cases hk : !edits.any fun e => e.covers t <;> simp [hk]

lemma map_snd_uncovered (ht : TilesFrom offset tokens cs)
    (h : ∀ t ∈ tokens, ∀ e ∈ edits, t.stop ≤ e.start ∨ e.stop ≤ t.start ∨ e.covers t) :
    (uncovered edits offset cs).map Prod.snd = charsOf (keptTokens edits tokens) := by
  induction tokens generalizing offset cs with
  | nil =>
    cases ht
    rfl
  | cons t ts ih =>
    obtain ⟨rfl, -, r, rfl, ht⟩ := ht
    obtain ⟨hf, h⟩ := forall_mem_cons.1 h
    rw [uncovered_append, map_append, uncovered_token hf, ← Token.stop, ih ht h, ← charsOf_append, ← keptTokens_append]
    rfl

lemma applyEdits_cuts {source : String} (ht : tokenize source = .ok tokens) (hte : ∀ e ∈ edits, e.text = "")
    (hb : ∀ e ∈ edits, e.Fits source.toList)
    (h : ∀ t ∈ tokens, ∀ e ∈ edits, t.stop ≤ e.start ∨ e.stop ≤ t.start ∨ e.covers t) :
    (applyEdits source edits).toList = charsOf (keptTokens edits tokens) := by
  rw [applyEdits_removals hte hb, map_snd_uncovered (tokensFrom_tiles (mapError_eq_ok.1 ht)) h]

end Cuts

end CustomElement.Script
