import CustomElement.Text.Letter
import CustomElement.Text.Span
import Mathlib

/-!
# The edges of a text

A text that is put together from pieces holds each of them at the offset where the pieces before it end
(`slice?_middle`, `dropBytes_byteLength`).
-/

namespace CustomElement.Text

open List

variable {c : Char} {cs : List Char}

lemma takeWhile_dropWhile_local {p : Char → Bool} {a : List Char} (ha : a.all p)
    {rest : List Char} (hr : rest.head?.any p = false) :
    (a ++ rest).takeWhile p = a ∧ (a ++ rest).dropWhile p = rest := by
  have hal : ∀ c ∈ a, p c := all_eq_true.1 ha
  rw [takeWhile_append_of_pos hal, dropWhile_append_of_pos hal]
  cases rest with
  | nil => simp
  | cons d rest =>
    have hd : p d = false := by simpa using hr
    simp [hd]

lemma head?_dropWhile_any {α : Type} (p : α → Bool) (l : List α) : (l.dropWhile p).head?.any p = false := by
  have hh := head?_dropWhile_not p l
  cases hr : (l.dropWhile p).head? with
  | none => rfl
  | some a => simpa [hr] using hh

lemma slice?_middle (a b c : List Char) : slice? (a ++ (b ++ c)) (byteLength a) (byteLength a + byteLength b) = some b := by
  simp [slice?, guard, splitAtByte?_byteLength]

lemma dropBytes_byteLength (a b : List Char) : dropBytes (byteLength a) (a ++ b) = b := by
  induction a with
  | nil => cases b <;> simp [dropBytes]
  | cons c a ih =>
    have hp := c.utf8Size_pos
    obtain ⟨n, hn⟩ : ∃ n, byteLength (c :: a) = n + 1 :=
      ⟨c.utf8Size + byteLength a - 1, by simp only [byteLength_cons]; omega⟩
    have hs : n + 1 - c.utf8Size = byteLength a := by rw [← hn]; simp
    rw [hn, cons_append, dropBytes, hs, ih]

lemma takeBytes_byteLength (a b : List Char) : takeBytes (byteLength a) (a ++ b) = a := by
  induction a with
  | nil =>
    cases b with
    | nil => rfl
    | cons c b =>
      have hp := c.utf8Size_pos
      rw [nil_append, byteLength_nil, takeBytes, if_neg (by omega)]
  | cons c a ih =>
    rw [cons_append, takeBytes, byteLength_cons, if_pos (Nat.le_add_right _ _), Nat.add_sub_cancel_left, ih]

lemma dropWhile_append_cons_of_neg {α : Type} {p : α → Bool} {a cs : List α} {c : α} (hc : p c = false) :
    (a ++ c :: cs).dropWhile p = a.dropWhile p ++ c :: cs := by
  rw [dropWhile_append]
  split
  · rename_i hn
    rw [isEmpty_iff.1 hn, dropWhile_cons_of_neg (by simp [hc]), nil_append]
  · rfl

lemma mem_of_mem_trimEndList (h : c ∈ trimEndList cs) : c ∈ cs :=
  mem_reverse.1 ((dropWhile_sublist _).subset (mem_reverse.1 h))

lemma mem_of_mem_trimStartList (h : c ∈ trimStartList cs) : c ∈ cs :=
  (dropWhile_sublist _).subset h

section Trimmed

variable {a cs : List Char} {c : Char} (hc : isBlank c = false)

include hc

lemma trimEndList_append_of_not_blank : trimEndList (a ++ c :: cs) = a ++ c :: trimEndList cs := by
  have hr : (a ++ c :: cs).reverse = cs.reverse ++ c :: a.reverse := by simp
  rw [trimEndList, trimEndList, hr, dropWhile_append_cons_of_neg hc]
  simp

lemma trimList_append : trimList (a ++ c :: cs) = trimStartList a ++ c :: trimEndList cs := by
  rw [trimList, trimStartList, dropWhile_append_cons_of_neg hc, trimEndList_append_of_not_blank hc, trimStartList]

end Trimmed

lemma trimList_eq_nil : trimList cs = [] ↔ ∀ c ∈ cs, isBlank c := by
  have he : trimList cs = [] ↔ ∀ c ∈ trimStartList cs, isBlank c := by
    simp [trimList, trimEndList, dropWhile_eq_nil_iff]
  rw [he, trimStartList]
  constructor
  · intro h c hc
    rw [← takeWhile_append_dropWhile (p := isBlank) (l := cs), mem_append] at hc
    exact hc.elim (mem_takeWhile_imp) (h c)
  · intro h c hc
    exact h c ((dropWhile_suffix isBlank).subset hc)

lemma inRanges_eq_false {rs ss : List (Nat × Nat)} (h : inRanges rs c)
    (ha : ∀ r ∈ rs, ∀ s ∈ ss, r.2 < s.1 ∨ s.2 < r.1) : inRanges ss c = false := by
  obtain ⟨r, hr, hc⟩ := any_eq_true.1 h
  refine any_eq_false.2 fun s hs hcs => ?_
  simp only [Bool.and_eq_true, decide_eq_true_eq] at hc hcs
  rcases ha r hr s hs with h | h <;> omega

lemma isAlphanumeric_of_isBlank (h : isBlank c) : isAlphanumeric c = false := by
  unfold isAlphanumeric
  split
  · rename_i ha
    have hco : c.toNat ∈ [0x09, 0x0A, 0x0B, 0x0C, 0x0D, 0x20] := by
      simp only [isBlank, inRanges, blankRanges, any_cons, any_nil, Bool.or_false,
        Bool.or_eq_true, Bool.and_eq_true, decide_eq_true_eq] at h
      simp only [mem_cons, not_mem_nil, or_false]
      omega
    have hal : ∀ n ∈ [0x09, 0x0A, 0x0B, 0x0C, 0x0D, 0x20], (Char.ofNat n).isAlphanum = false := by
      decide
    simpa using hal _ hco
  · exact inRanges_eq_false h (by decide +kernel)

end CustomElement.Text
