import CustomElement.Text.Span
import Mathlib

/-!
# Lines and columns

Over the bytes of a text a location takes one step each: a line feed begins a line, and every other byte is a column
(`Location.advance_eq`). A look-up in the table of lines comes to the same (`LineIndex.locate?_ofText`). So the line of
an offset counts the line feeds before it, and the column the bytes behind the last of them (`LineIndex.locate?_exact`).
-/

namespace CustomElement.Text

open List

/-- The bytes of a text. -/
def utf8 (cs : List Char) : List UInt8 := cs.flatMap String.utf8EncodeChar

def lineFeed : UInt8 := 10

/-- The location one byte further. -/
def Location.pass (loc : Location) (b : UInt8) : Location :=
  if b = lineFeed then ⟨loc.line + 1, 0⟩ else ⟨loc.line, loc.column + 1⟩

/-- The last line of some bytes starts at an offset: at the first byte or behind a line feed, with none from there on. -/
structure LastLineStart (bs : List UInt8) (start : Nat) : Prop where
  le : start ≤ bs.length
  behind : start = 0 ∨ bs[start - 1]? = some lineFeed
  last : lineFeed ∉ bs.drop start

variable {loc : Location} {bs : List UInt8} {c : Char} {cs : List Char} {offset n k : Nat} {text : String}

lemma utf8_cons (c : Char) (cs : List Char) : utf8 (c :: cs) = String.utf8EncodeChar c ++ utf8 cs := flatMap_cons

lemma val_lt (c : Char) : c.val.toNat < 0x110000 := by
  rcases c.valid with h | h
  · exact lt_trans h (by decide)
  · exact h.2

lemma lineFeed_mem_utf8EncodeChar : lineFeed ∈ String.utf8EncodeChar c ↔ c = '\n' := by
  constructor
  · intro h
    have hv := val_lt c
    have hc : c.val.toNat = 10 := by
      unfold String.utf8EncodeChar at h
      dsimp only at h
      split_ifs at h <;>
        simp only [lineFeed, mem_cons, not_mem_nil, or_false, ← UInt8.toNat_inj, UInt8.toNat_ofNat',
          UInt8.reduceToNat] at h <;>
        omega
    exact Char.ext (UInt32.toNat_inj.1 hc)
  · rintro rfl
    decide

lemma foldl_pass_of_not_mem (h : lineFeed ∉ bs) : bs.foldl Location.pass loc = ⟨loc.line, loc.column + bs.length⟩ := by
  induction bs generalizing loc with
  | nil => rfl
  | cons b bs ih =>
    obtain ⟨hb, hbs⟩ := not_or.1 (mem_cons.not.1 h)
    rw [foldl_cons, ih hbs, Location.pass, if_neg (Ne.symm hb), length_cons, Nat.add_assoc, Nat.add_comm 1]

lemma foldl_pass_utf8_cons (h : c.utf8Size ≤ offset) :
    ((utf8 (c :: cs)).take offset).foldl Location.pass loc =
      ((utf8 cs).take (offset - c.utf8Size)).foldl Location.pass ((String.utf8EncodeChar c).foldl Location.pass loc) := by
  rw [utf8_cons, take_append, foldl_append, take_of_length_le (l := String.utf8EncodeChar c), String.length_utf8EncodeChar]
  rw [String.length_utf8EncodeChar]
  exact h

lemma Location.advance_eq (loc : Location) (cs : List Char) (offset : Nat) :
    loc.advance cs offset = ((utf8 cs).take offset).foldl Location.pass loc := by
  fun_induction Location.advance loc cs offset with
  | case1 => simp [utf8]
  | case2 loc c cs offset h =>
    -- the offset lies inside a character, so no line feed is passed
    have hn : lineFeed ∉ (String.utf8EncodeChar c).take offset := by
      intro hm
      obtain rfl := lineFeed_mem_utf8EncodeChar.1 (mem_of_mem_take hm)
      obtain rfl : offset = 0 := by simpa [Char.utf8Size] using h
      simp at hm
    have hl : offset ≤ (String.utf8EncodeChar c).length := by
      rw [String.length_utf8EncodeChar]
      exact h.le
    rw [utf8_cons, take_append_of_le_length hl, foldl_pass_of_not_mem hn, length_take_of_le hl]
  | case3 loc cs offset h ih =>
    rw [ih, foldl_pass_utf8_cons (not_lt.1 h)]
    rfl
  | case4 loc c cs offset h hc ih =>
    rw [ih, foldl_pass_utf8_cons (not_lt.1 h), foldl_pass_of_not_mem (lineFeed_mem_utf8EncodeChar.not.2 hc),
      String.length_utf8EncodeChar]

lemma foldl_pass_exact (bs : List UInt8) : (bs.foldl Location.pass ⟨0, 0⟩).line = bs.count lineFeed ∧
    ∃ start, LastLineStart bs start ∧ (bs.foldl Location.pass ⟨0, 0⟩).column = bs.length - start := by
  induction bs using reverseRecOn with
  | nil => exact ⟨rfl, 0, ⟨le_rfl, .inl rfl, by simp⟩, rfl⟩
  | append_singleton bs b ih =>
    obtain ⟨hl, start, ⟨hle, hb, hn⟩, hc⟩ := ih
    rw [foldl_append, foldl_cons, foldl_nil, Location.pass]
    by_cases hf : b = lineFeed
    · subst hf
      exact ⟨by simp [hl], bs.length + 1, ⟨by simp, by simp, by simp⟩, by simp⟩
    · refine ⟨by simp [hf, hl], start, ⟨by simp; omega, hb.imp_right fun h => ?_, ?_⟩, ?_⟩
      · rw [getElem?_append_left (List.getElem?_eq_some_iff.1 h).1, h]
      · rw [drop_append_of_le_length hle]
        simp [hn, Ne.symm hf]
      · simp [hf, hc]
        omega

/-- Locations are compared by their lines, and on one line by their columns. -/
def Location.key (loc : Location) : ℕ ×ₗ ℕ := toLex (loc.line, loc.column)

lemma Location.key_pass (loc : Location) (b : UInt8) : loc.key < (loc.pass b).key := by
  unfold key pass
  split <;> simp [Prod.Lex.toLex_lt_toLex]

lemma Location.key_foldl_pass (loc : Location) (bs : List UInt8) : loc.key ≤ (bs.foldl pass loc).key := by
  induction bs generalizing loc with
  | nil => exact le_rfl
  | cons b bs ih => exact (loc.key_pass b).le.trans (ih _)

lemma strictMonoOn_foldl_pass (bs : List UInt8) :
    StrictMonoOn (fun n => ((bs.take n).foldl Location.pass ⟨0, 0⟩).key) (Set.Iic bs.length) := by
  intro m hm n hn h
  obtain ⟨b, mid, hb⟩ := exists_cons_of_length_pos (l := (bs.take n).drop m) (by simp at hn ⊢; omega)
  have ht : bs.take n = bs.take m ++ b :: mid := by
    rw [← hb]
    nth_rewrite 1 [← take_append_drop m (bs.take n)]
    rw [take_take, min_eq_left h.le]
  simp only [ht, foldl_append, foldl_cons]
  exact (Location.key_pass _ b).trans_le (Location.key_foldl_pass _ mid)

lemma partitionPoint_eq {α : Type} {xs : Array α} {p : α → Bool} {lo hi : Nat}
    (h : ∀ i, xs[i]?.any p = decide (i < k)) (hlo : lo ≤ k) (hhi : k ≤ hi) : partitionPoint xs p lo hi = k := by
  fun_induction partitionPoint xs p lo hi with
  | case1 lo hi hlt mid hp ih =>
    rw [h, decide_eq_true_iff] at hp
    exact ih hp hhi
  | case2 lo hi hlt mid hp ih =>
    rw [h, decide_eq_true_iff] at hp
    exact ih hlo (not_lt.1 hp)
  | case3 lo hi hlt => omega

lemma lt_of_mem_lineStarts (h : n ∈ lineStarts offset cs) :
    offset < n ∧ n ≤ offset + byteLength cs := by
  induction cs generalizing offset with
  | nil => cases h
  | cons c cs ih =>
    have hc := c.utf8Size_pos
    rw [byteLength_cons]
    unfold lineStarts at h
    dsimp only at h
    split at h
    · rcases mem_cons.1 h with rfl | h
      · omega
      · have := ih h
        omega
    · have := ih h
      omega

lemma le_of_mem_lineStarts_cons (h : n ∈ lineStarts offset (c :: cs)) :
    offset + c.utf8Size ≤ n := by
  unfold lineStarts at h
  dsimp only at h
  split at h
  · rename_i hc
    rcases mem_cons.1 h with rfl | h
    · exact hc ▸ Nat.le_refl _
    · exact (lt_of_mem_lineStarts h).1.le
  · exact (lt_of_mem_lineStarts h).1.le

/-- In a text at `offset`, on a line that starts at `first`, a walk ends on the last line that starts before its end. -/
lemma exists_advance_eq (loc : Location) (cs : List Char) (n : Nat) {first offset stop : Nat}
    (hfirst : first + loc.column = offset) (hstop : stop = offset + min n (byteLength cs)) :
    ∃ k start, (first :: lineStarts offset cs)[k]? = some start ∧ start ≤ stop ∧
      (∀ i, (lineStarts offset cs)[i]?.any (· ≤ stop) = decide (i < k)) ∧
      loc.advance cs n = ⟨loc.line + k, stop - start⟩ := by
  fun_induction Location.advance loc cs n generalizing first offset with
  | case1 loc n =>
    refine ⟨0, first, rfl, by omega, by simp [lineStarts], ?_⟩
    simp [hstop, ← hfirst]
  | case2 loc c cs n h =>
    have hn : stop = first + (loc.column + n) := by
      rw [hstop, byteLength_cons]
      omega
    refine ⟨0, first, rfl, by omega, fun i => ?_, by rw [Nat.add_zero, hn, Nat.add_sub_cancel_left]⟩
    cases hi : (lineStarts offset (c :: cs))[i]? with
    | none => rfl
    | some start =>
      have := le_of_mem_lineStarts_cons (mem_of_getElem? hi)
      simp
      omega
  | case3 loc cs n h ih =>
    rw [show Char.utf8Size '\n' = 1 from rfl] at h ih
    rw [byteLength_cons, show Char.utf8Size '\n' = 1 from rfl] at hstop
    obtain ⟨k, start, hk, hle, hany, hloc⟩ := @ih (offset + 1) (offset + 1) rfl (by omega)
    have hstarts : lineStarts offset ('\n' :: cs) = (offset + 1) :: lineStarts (offset + 1) cs := rfl
    rw [hstarts]
    refine ⟨k + 1, start, hk, hle, fun i => ?_, by rw [Nat.add_comm k, ← Nat.add_assoc]; exact hloc⟩
    cases i with
    | zero => simpa using show offset + 1 ≤ stop by omega
    | succ i => simpa using hany i
  | case4 loc c cs n h hc ih =>
    rw [byteLength_cons] at hstop
    rw [show lineStarts offset (c :: cs) = lineStarts (offset + c.utf8Size) cs from if_neg hc]
    exact ih (by simp; omega) (by omega)

lemma LineIndex.getElem?_starts (text : String) (i : Nat) :
    (ofText text).starts[i]? = (0 :: lineStarts 0 text.toList)[i]?.map UInt32.ofNat := by
  simp only [ofText, getElem?_toArray, getElem?_map]

/-- Up to an offset, the lines that start are the first and those that a walk has begun. -/
lemma LineIndex.partitionPoint_starts {last : UInt32} (h : byteLength text.toList < 2 ^ 32)
    (hk : k < (0 :: lineStarts 0 text.toList).length)
    (hany : ∀ i, (lineStarts 0 text.toList)[i]?.any (· ≤ last.toNat) = decide (i < k)) :
    partitionPoint (ofText text).starts (· ≤ last) 0 (ofText text).starts.size = k + 1 := by
  refine partitionPoint_eq (fun i => ?_) (by omega) (by simpa [ofText] using hk)
  rw [getElem?_starts]
  cases i with
  | zero => simp [UInt32.le_iff_toNat_le]
  | succ i =>
    rw [getElem?_cons_succ, Option.any_map]
    simp only [Nat.succ_lt_succ_iff, ← hany]
    cases hi : (lineStarts 0 text.toList)[i]? with
    | none => rfl
    | some n =>
      have := (lt_of_mem_lineStarts (mem_of_getElem? hi)).2
      simp [UInt32.le_iff_toNat_le, Nat.mod_eq_of_lt (show n < 4294967296 by omega)]

/-- **The table of lines locates as a walk over the text does.** -/
lemma LineIndex.locate?_ofText (h : byteLength text.toList < 2 ^ 32) (offset : UInt32) :
    (ofText text).locate? offset = some (Location.of text offset.toNat) := by
  have hlen : (ofText text).length.toNat = byteLength text.toList := UInt32.toNat_ofNat_of_lt' h
  have hlast : (if offset ≤ (ofText text).length then offset else (ofText text).length).toNat =
      min offset.toNat (byteLength text.toList) := by
    split <;> rename_i hl <;> rw [UInt32.le_iff_toNat_le, hlen] at hl <;> omega
  unfold locate?
  dsimp only
  generalize (if offset ≤ (ofText text).length then offset else (ofText text).length) = last at hlast ⊢
  obtain ⟨k, start, hk, hle, hany, hloc⟩ :=
    @exists_advance_eq ⟨0, 0⟩ text.toList offset.toNat 0 0 _ rfl (hlast.trans (Nat.zero_add _).symm)
  have hstart : (UInt32.ofNat start).toNat = start := UInt32.toNat_ofNat_of_lt' (hle.trans_lt last.toNat_lt)
  have hbefore : UInt32.ofNat start ≤ last := by rwa [UInt32.le_iff_toNat_le, hstart]
  have hcolumn : (last - UInt32.ofNat start).toNat = last.toNat - start := by
    rw [UInt32.toNat_sub_of_le _ _ hbefore, hstart]
  rw [partitionPoint_starts h (List.getElem?_eq_some_iff.1 hk).1 hany, Nat.add_sub_cancel, getElem?_starts, hk,
    Location.of, hloc]
  simp [guard, hbefore, hcolumn]

lemma length_utf8 (cs : List Char) : (utf8 cs).length = byteLength cs := by
  induction cs with
  | nil => rfl
  | cons c cs ih => rw [utf8_cons, length_append, String.length_utf8EncodeChar, ih, byteLength_cons]

/-- **Lines and columns are exact.** The line of an offset is the number of line feeds before it, and the column its
distance from the start of its line; different offsets have different locations, in their order. -/
theorem LineIndex.locate?_exact {text : String} (h : (utf8 text.toList).length < 2 ^ 32) :
    (∀ offset : UInt32, ∃ loc, (ofText text).locate? offset = some loc ∧
      loc.line = ((utf8 text.toList).take offset.toNat).count lineFeed ∧
      ∃ start, LastLineStart ((utf8 text.toList).take offset.toNat) start ∧
        loc.column = min offset.toNat (utf8 text.toList).length - start) ∧
    ∀ m n : UInt32, m < n → n.toNat ≤ (utf8 text.toList).length → ∃ a b,
      (ofText text).locate? m = some a ∧ (ofText text).locate? n = some b ∧ a ≠ b ∧ a.key < b.key := by
  have hlocate : ∀ offset, (ofText text).locate? offset =
      some (((utf8 text.toList).take offset.toNat).foldl Location.pass ⟨0, 0⟩) := fun offset => by
    rw [locate?_ofText (length_utf8 _ ▸ h), Location.of, Location.advance_eq]
  refine ⟨fun offset => ⟨_, hlocate offset, ?_⟩, fun m n hmn hn => ⟨_, _, hlocate m, hlocate n, ?_⟩⟩
  · rw [← length_take]
    exact foldl_pass_exact _
  · have hkey := strictMonoOn_foldl_pass (utf8 text.toList) (hmn.le.trans hn) hn hmn
    exact ⟨fun he => hkey.ne (congrArg Location.key he), hkey⟩

theorem LineIndex.locate?_exact_lines : (ofText "é\n\nab").locate? 3 = some ⟨1, 0⟩ ∧
    (ofText "é\n\nab").locate? 5 = some ⟨2, 1⟩ ∧ Location.key ⟨1, 0⟩ < Location.key ⟨2, 1⟩ := by
  obtain ⟨a, b, ha, hb, -, hlt⟩ := (@locate?_exact "é\n\nab" (by decide)).2 3 5 (by decide) (by decide)
  obtain rfl : ⟨1, 0⟩ = a := Option.some_inj.1 ((locate?_ofText (by decide) 3).symm.trans ha)
  obtain rfl : ⟨2, 1⟩ = b := Option.some_inj.1 ((locate?_ofText (by decide) 5).symm.trans hb)
  exact ⟨ha, hb, hlt⟩

end CustomElement.Text
