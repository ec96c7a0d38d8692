import CustomElement.Proofs.Script.Joining

/-!
# Gaps up to layout

What layout keeps of a gap is its `crease`: the gap itself if it has no line feed, and else one line feed or two. `folds`
is a text with every gap replaced by its crease, without the gap at the end.
-/

namespace CustomElement.Script

open List Text

variable {a g : List Char}

def crease (g : List Char) : List Char :=
  if '\n' ∈ g then (if 2 ≤ g.count '\n' then ['\n', '\n'] else ['\n']) else g

lemma crease_of_not_mem (h : '\n' ∉ g) : crease g = g := if_neg h

lemma crease_line {b : List Char} (ha : '\n' ∉ a) (hb : '\n' ∉ b) : crease (a ++ '\n' :: b) = ['\n'] := by
  rw [crease, if_pos (by simp)]
  simp [count_eq_zero.2 ha, count_eq_zero.2 hb]

lemma mem_crease : '\n' ∈ crease g ↔ '\n' ∈ g := by
  unfold crease
  split
  · rename_i hm
    split <;> simp [hm]
  · rfl

lemma count_crease : 2 ≤ (crease g).count '\n' ↔ 2 ≤ g.count '\n' := by
  unfold crease
  split
  · split
    · rename_i ht
      simp [ht]
    · rename_i ht
      simpa using ht
  · rfl

lemma crease_eq_nil : crease g = [] ↔ g = [] := by
  unfold crease
  split
  · rename_i hm
    have hn : g ≠ [] := ne_nil_of_mem hm
    split <;> simp [hn]
  · rfl

lemma crease_idem (g : List Char) : crease (crease g) = crease g := by
  by_cases hm : '\n' ∈ g
  · simp only [crease, hm, if_true]
    split <;> decide
  · rw [crease_of_not_mem hm, crease_of_not_mem hm]

lemma isGap_crease (h : IsGap g) : IsGap (crease g) := by
  have hb : isGap '\n' := by decide
  unfold crease
  split
  · split <;> simp [IsGap, hb]
  · exact h

lemma crease_append_congr {h : List Char} (heq : crease g = crease h) (a b : List Char) :
    crease (a ++ g ++ b) = crease (a ++ h ++ b) := by
  by_cases hg : '\n' ∈ g
  · have hh : '\n' ∈ h := mem_crease.1 (heq ▸ mem_crease.2 hg)
    have ht : 2 ≤ g.count '\n' ↔ 2 ≤ h.count '\n' := by rw [← count_crease, heq, count_crease]
    have hp := count_pos_iff.2 hg
    have hp' := count_pos_iff.2 hh
    have hm : '\n' ∈ a ++ g ++ b := by simp [hg]
    have hm' : '\n' ∈ a ++ h ++ b := by simp [hh]
    rw [crease, crease, if_pos hm, if_pos hm']
    simp only [count_append]
    have hif : 2 ≤ a.count '\n' + g.count '\n' + b.count '\n' ↔ 2 ≤ a.count '\n' + h.count '\n' + b.count '\n' := by omega
    simp only [hif]
  · have hh : '\n' ∉ h := fun hh => hg (mem_crease.1 (heq ▸ mem_crease.2 hh))
    rw [crease_of_not_mem hg, crease_of_not_mem hh] at heq
    rw [heq]

/-- The text behind the gap `g` with every gap replaced by its crease, and without the gap at the end. -/
def foldsFrom (g : List Char) : List Char → List Char
  | [] => []
  | c :: cs => if isGap c then foldsFrom (g ++ [c]) cs else crease g ++ c :: foldsFrom [] cs

def trailFrom (g : List Char) : List Char → List Char
  | [] => g
  | c :: cs => if isGap c then trailFrom (g ++ [c]) cs else trailFrom [] cs

/-- The text with every gap replaced by its crease, and without the gap at the end. -/
def folds (cs : List Char) : List Char := foldsFrom [] cs

def EndsInk (cs : List Char) : Prop := ∃ a c, cs = a ++ [c] ∧ isGap c = false

lemma InkEdged.endsInk {cs : List Char} (h : InkEdged cs) : EndsInk cs := h.2

lemma EndsInk.append {b : List Char} (h : EndsInk b) (a : List Char) : EndsInk (a ++ b) := by
  obtain ⟨b, c, rfl, hc⟩ := h
  exact ⟨a ++ b, c, by simp, hc⟩

lemma EndsInk.ne_nil (h : EndsInk a) : a ≠ [] := by
  obtain ⟨a, c, rfl, -⟩ := h
  simp

lemma EndsInk.eq_nil (h : EndsInk (a ++ g)) (hg : IsGap g) : g = [] := by
  rcases eq_nil_or_concat' g with rfl | ⟨g, d, rfl⟩
  · rfl
  · obtain ⟨x, c, heq, hc⟩ := h
    rw [← append_assoc] at heq
    obtain ⟨-, rfl⟩ := append_inj' heq rfl |>.imp_right fun h => (cons.inj h).1
    rw [hg d (by simp)] at hc
    cases hc

lemma exists_inkEdged {c : Char} (hc : isGap c = false) (cs : List Char) :
    ∃ body trail, c :: cs = body ++ trail ∧ InkEdged body ∧ IsGap trail := by
  induction cs using reverseRecOn with
  | nil => exact ⟨[c], [], rfl, ⟨⟨c, [], rfl, hc⟩, [], c, rfl, hc⟩, by simp [IsGap]⟩
  | append_singleton cs d ih =>
    cases hd : isGap d with
    | true =>
      obtain ⟨body, trail, heq, hb, ht⟩ := ih
      refine ⟨body, trail ++ [d], ?_, hb, ht.append (isGap_cons.2 ⟨hd, by simp [IsGap]⟩)⟩
      rw [← append_assoc, ← heq, cons_append]
    | false => exact ⟨c :: (cs ++ [d]), [], by simp, ⟨⟨c, _, rfl, hc⟩, c :: cs, d, rfl, hd⟩, by simp [IsGap]⟩

section Folds

variable {h b cs : List Char}

lemma foldsFrom_append (g a b : List Char) : foldsFrom g (a ++ b) = foldsFrom g a ++ foldsFrom (trailFrom g a) b := by
  induction a generalizing g with
  | nil => rfl
  | cons c a ih =>
    rw [cons_append, foldsFrom, foldsFrom, trailFrom]
    split
    · exact ih _
    · rw [ih, append_assoc, cons_append]

lemma trailFrom_append (g a b : List Char) : trailFrom g (a ++ b) = trailFrom (trailFrom g a) b := by
  induction a generalizing g with
  | nil => rfl
  | cons c a ih =>
    rw [cons_append, trailFrom, trailFrom]
    split
    · exact ih _
    · exact ih _

lemma foldsFrom_gap (hh : IsGap h) (g : List Char) : foldsFrom g h = [] := by
  induction h generalizing g with
  | nil => rfl
  | cons c h ih =>
    obtain ⟨hc, hh⟩ := isGap_cons.1 hh
    rw [foldsFrom, if_pos hc, ih hh]

lemma trailFrom_gap (hh : IsGap h) (g : List Char) : trailFrom g h = g ++ h := by
  induction h generalizing g with
  | nil => simp [trailFrom]
  | cons c h ih =>
    obtain ⟨hc, hh⟩ := isGap_cons.1 hh
    rw [trailFrom, if_pos hc, ih hh, append_assoc, singleton_append]

lemma foldsFrom_gap_append (hh : IsGap h) (g cs : List Char) : foldsFrom g (h ++ cs) = foldsFrom (g ++ h) cs := by
  rw [foldsFrom_append, foldsFrom_gap hh, trailFrom_gap hh, nil_append]

lemma trailFrom_of_endsInk (ha : EndsInk a) (g : List Char) : trailFrom g a = [] := by
  obtain ⟨a, c, rfl, hc⟩ := ha
  rw [trailFrom_append, trailFrom, if_neg (by simp [hc])]
  rfl

lemma endsInk_of_trailFrom (hn : cs ≠ []) (ht : trailFrom [] cs = []) : EndsInk cs := by
  obtain ⟨a, c, rfl⟩ := (eq_nil_or_concat' cs).resolve_left hn
  refine ⟨a, c, rfl, ?_⟩
  cases hc : isGap c with
  | false => rfl
  | true =>
    rw [trailFrom_append, trailFrom, if_pos hc] at ht
    simp [trailFrom] at ht

lemma endsInk_iff : EndsInk cs ↔ folds cs ≠ [] ∧ trailFrom [] cs = [] := by
  constructor
  · intro h
    refine ⟨?_, trailFrom_of_endsInk h []⟩
    obtain ⟨a, c, rfl, hc⟩ := h
    rw [folds, foldsFrom_append, foldsFrom, if_neg (by simp [hc])]
    simp
  · rintro ⟨hn, ht⟩
    refine endsInk_of_trailFrom ?_ ht
    rintro rfl
    exact hn rfl

lemma foldsFrom_of_startsInk (hcs : StartsInk cs) (hn : cs ≠ []) (g : List Char) :
    foldsFrom g cs = crease g ++ folds cs := by
  obtain ⟨c, cs, rfl⟩ := exists_cons_of_ne_nil hn
  have hc : isGap c = false := by simpa [StartsInk] using hcs
  rw [folds, foldsFrom, foldsFrom, if_neg (by simp [hc]), if_neg (by simp [hc])]
  rfl

lemma folds_gap_append (hg : IsGap g) (hc : StartsInk cs) (hn : cs ≠ []) : folds (g ++ cs) = crease g ++ folds cs := by
  rw [folds, foldsFrom_gap_append hg, nil_append, foldsFrom_of_startsInk hc hn]

lemma folds_append (ha : EndsInk a) (b : List Char) : folds (a ++ b) = folds a ++ folds b := by
  rw [folds, foldsFrom_append, trailFrom_of_endsInk ha]
  rfl

lemma folds_append_gap (hg : IsGap g) (a : List Char) : folds (a ++ g) = folds a := by
  rw [folds, foldsFrom_append, foldsFrom_gap hg, append_nil]
  rfl

lemma startsInk_of_inkEdged (h : InkEdged cs) : StartsInk cs := by
  obtain ⟨⟨c, a, rfl, hc⟩, -⟩ := h
  simpa [StartsInk] using hc

lemma InkEdged.ne_nil (h : InkEdged cs) : cs ≠ [] := h.endsInk.ne_nil

lemma startsInk_folds (h : StartsInk cs) : StartsInk (folds cs) := by
  cases cs with
  | nil => rfl
  | cons c cs =>
    have hc : isGap c = false := by simpa [StartsInk] using h
    rw [folds, foldsFrom, if_neg (by simp [hc])]
    exact h

end Folds

end CustomElement.Script
