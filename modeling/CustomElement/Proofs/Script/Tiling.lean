import CustomElement.Proofs.Outcome
import CustomElement.Proofs.Text.Edges
import CustomElement.Script.Lexer

/-!
# Tokens tile the script

Cutting a script into tokens loses nothing: the tokens stand one behind the other from the first byte of the script to
its last, and each holds the bytes it stands on (`tokenize_tiles`).
-/

namespace CustomElement.Script

open Text

/-- The tokens stand one behind the other from the byte `offset` on and spell the text `cs`. -/
def TilesFrom (offset : Nat) : List Token → List Char → Prop
  | [], cs => cs = []
  | t :: ts, cs => t.start = offset ∧ t.text ≠ "" ∧ ∃ rest, cs = t.text.toList ++ rest ∧ TilesFrom t.stop ts rest

/-- The tokens cover the script without gaps. -/
structure Tiling (source : String) (tokens : List Token) : Prop where
  text_ne_empty : ∀ t ∈ tokens, t.text ≠ ""
  start_first : ∀ t, tokens.head? = some t → t.start = 0
  start_next : ∀ i t u, tokens[i]? = some t → tokens[i + 1]? = some u → u.start = t.stop
  stop_last : ∀ t, tokens.getLast? = some t → t.stop = byteLength source.toList
  slice : ∀ t ∈ tokens, Span.slice? ⟨t.start, t.stop⟩ source = some t.text
  join : String.join (tokens.map Token.text) = source

lemma tokensFrom_tiles {offset : Nat} {p : Option Token} {cs : List Char}
    {tokens : List Token} (h : tokensFrom offset p cs = .ok tokens) : TilesFrom offset tokens cs := by
  fun_induction tokensFrom offset p cs generalizing tokens with
  | case1 offset p =>
    obtain rfl : [] = tokens := by simpa using h
    rfl
  | case2 offset p c cs ih =>
    obtain ⟨⟨kind, cut⟩, hc, h⟩ := bind_eq_ok.1 h
    obtain ⟨ts, hts, h⟩ := bind_eq_ok.1 h
    cases h
    have ht : (String.ofList cut.head).toList = cut.head := toList_ofList
    refine ⟨rfl, ?_, cut.rest, ?_, ?_⟩
    · intro he
      exact cut.head_ne_nil (ht.symm.trans (congrArg String.toList he))
    · rw [ht, cut.head_append_rest]
    · simpa only [Token.stop, ht] using ih kind cut hts

namespace TilesFrom

variable {offset : Nat} {tokens : List Token} {cs : List Char}

section

variable (h : TilesFrom offset tokens cs)

include h

lemma text_ne_empty : ∀ t ∈ tokens, t.text ≠ "" := by
  induction tokens generalizing offset cs with
  | nil => simp
  | cons t ts ih =>
    obtain ⟨-, hn, r, -, h⟩ := h
    intro u hu
    rcases List.mem_cons.1 hu with rfl | hu
    · exact hn
    · exact ih h u hu

lemma start_next (i : Nat) (t u : Token) (ht : tokens[i]? = some t) (hu : tokens[i + 1]? = some u) : u.start = t.stop := by
  induction tokens generalizing offset cs i with
  | nil => simp at ht
  | cons a ts ih =>
    obtain ⟨-, -, r, -, h⟩ := h
    cases i with
    | succ i => exact ih h i (by simpa using ht) (by simpa using hu)
    | zero =>
      obtain rfl : a = t := by simpa using ht
      cases ts with
      | nil => simp at hu
      | cons b ts =>
        obtain rfl : b = u := by simpa using hu
        exact h.1

lemma stop_last (t : Token) (ht : tokens.getLast? = some t) : t.stop = offset + byteLength cs := by
  induction tokens generalizing offset cs with
  | nil => simp at ht
  | cons a ts ih =>
    obtain ⟨hs, -, r, rfl, h⟩ := h
    have hst : a.stop = offset + byteLength a.text.toList := by rw [Token.stop, hs]
    rw [byteLength_append, ← add_assoc, ← hst]
    cases ts with
    | nil =>
      obtain rfl : a = t := by simpa using ht
      obtain rfl : r = [] := h
      simp
    | cons b ts => exact ih h (by simpa using ht)

lemma slice (pre : List Char) (hb : byteLength pre = offset) :
    ∀ t ∈ tokens, slice? (pre ++ cs) t.start t.stop = some t.text.toList := by
  induction tokens generalizing offset cs pre with
  | nil => simp
  | cons a ts ih =>
    obtain ⟨hs, -, r, rfl, h⟩ := h
    have hst : a.stop = byteLength (pre ++ a.text.toList) := by
      rw [Token.stop, hs, byteLength_append, hb]
    intro t ht
    rcases List.mem_cons.1 ht with rfl | ht
    · rw [Token.stop, hs, ← hb]
      exact slice?_middle pre t.text.toList r
    · rw [← List.append_assoc]
      exact ih h _ hst.symm t ht

lemma flatten_text : tokens.flatMap (fun t => t.text.toList) = cs := by
  induction tokens generalizing offset cs with
  | nil => exact h.symm
  | cons a ts ih =>
    obtain ⟨-, -, r, rfl, h⟩ := h
    rw [List.flatMap_cons, ih h]

lemma le_start : ∀ t ∈ tokens, offset ≤ t.start := by
  induction tokens generalizing offset cs with
  | nil => simp
  | cons a ts ih =>
    obtain ⟨hs, -, r, -, h⟩ := h
    refine List.forall_mem_cons.2 ⟨Nat.le_of_eq hs.symm, fun t ht => ?_⟩
    have hst : a.start ≤ a.stop := Nat.le_add_right _ _
    exact (hs ▸ hst).trans (ih h t ht)

lemma nodup : tokens.Nodup := by
  induction tokens generalizing offset cs with
  | nil => exact List.nodup_nil
  | cons a ts ih =>
    obtain ⟨-, hne, r, -, h⟩ := h
    refine List.nodup_cons.2 ⟨fun hm => ?_, ih h⟩
    obtain ⟨c, chars, ht⟩ := List.exists_cons_of_ne_nil fun hn => hne (String.toList_eq_nil_iff.1 hn)
    have hp := c.utf8Size_pos
    have hl := h.le_start a hm
    rw [Token.stop, ht, byteLength_cons] at hl
    omega

end

end TilesFrom

/-- **Tokenization is a lossless tiling**: the tokens of a script are not empty, stand one behind the other from its first
byte to its last, are the slices they stand on, and joined give the script back. -/
theorem tokenize_tiles {source : String} {tokens : List Token}
    (h : tokenize source = .ok tokens) : Tiling source tokens := by
  have ht : TilesFrom 0 tokens source.toList := tokensFrom_tiles (mapError_eq_ok.1 h)
  refine ⟨ht.text_ne_empty, ?_, ht.start_next, ?_, ?_, ?_⟩
  · intro t hhead
    cases tokens with
    | nil => simp at hhead
    | cons a ts =>
      obtain rfl : a = t := by simpa using hhead
      exact ht.1
  · intro t hlast
    simpa using ht.stop_last t hlast
  · intro t hmem
    have hslice := ht.slice [] rfl t hmem
    rw [List.nil_append] at hslice
    simp [Span.slice?, hslice]
  · apply toList_inj.1
    rw [toList_join, List.flatMap_map, ht.flatten_text]

theorem tokenize_tiles_nested_template :
    tokenize "a=`x$\x7b`y$\x7bb\x7d`\x7d`" =
      .ok [⟨.word, "a", 0⟩, ⟨.punct, "=", 1⟩, ⟨.template, "`x$\x7b`y$\x7bb\x7d`\x7d`", 2⟩] ∧
    Tiling "a=`x$\x7b`y$\x7bb\x7d`\x7d`"
      [⟨.word, "a", 0⟩, ⟨.punct, "=", 1⟩, ⟨.template, "`x$\x7b`y$\x7bb\x7d`\x7d`", 2⟩] := by
  have h : tokenize "a=`x$\x7b`y$\x7bb\x7d`\x7d`" =
      .ok [⟨.word, "a", 0⟩, ⟨.punct, "=", 1⟩, ⟨.template, "`x$\x7b`y$\x7bb\x7d`\x7d`", 2⟩] := by
    cbv
  exact ⟨h, tokenize_tiles h⟩

end CustomElement.Script
