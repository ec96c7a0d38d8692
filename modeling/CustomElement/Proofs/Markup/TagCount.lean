import CustomElement.Markup.Document
import CustomElement.Proofs.Text.Edges

/-!
# Counting tags

`tagCount` counts the tags of one name that start inside a piece of a document; what stands behind the piece is given
too, since a tag is recognized by the character after its name. The scan for a closing tag stops at the first one with
which more tags are closed than opened (`isLeast?_nestedExtent`).
-/

namespace CustomElement.Markup

open List Text

variable {c : Char} {aft cs u v x : List Char} {off : Nat} {name : List Char} {mark : Mark}

lemma tagAt_nil (mark : Mark) (name : List Char) : tagAt mark name [] = false := by
  cases mark <;> rfl

lemma eq_of_tagAt (h : tagAt mark name (c :: cs)) : c = '<' := by
  simp only [tagAt, Bool.and_eq_true] at h
  obtain ⟨⟨hm, -⟩, -⟩ := h
  cases mark with
  | opening =>
    simp only [Mark.text, List.isPrefixOf, Bool.and_true, beq_iff_eq] at hm
    exact hm.symm
  | closing =>
    simp only [Mark.text, List.isPrefixOf, Bool.and_eq_true, beq_iff_eq] at hm
    exact hm.1.symm

lemma length_eq_of_equalIgnoringCase {a b : List Char} (h : equalIgnoringCase a b) : a.length = b.length := by
  simpa using congrArg List.length (beq_iff_eq.1 h)

lemma isAlpha_of_isAlpha_toLower (h : c.toLower.isAlpha) : c.isAlpha := by
  unfold Char.toLower at h
  split at h
  · rename_i hu
    simp only [Char.isAlpha, Char.isUpper, decide_eq_true hu, Bool.true_or]
  · exact h

def isPlainName (name : List Char) : Bool :=
  !name.isEmpty && name.all fun c => c.isAlpha && c.toLower == c

lemma isPlainName_tagName (kind : SectionKind) : isPlainName kind.tagName.toList := by
  cases kind <;> decide

lemma isAlpha_of_equalIgnoringCase {spelled name : List Char} (h : equalIgnoringCase spelled name) (hn : isPlainName name) :
    ∀ c ∈ spelled, c.isAlpha := by
  intro c hc
  have hm : c.toLower ∈ name.map Char.toLower := by
    rw [← beq_iff_eq.1 h]
    exact mem_map_of_mem hc
  obtain ⟨d, hd, hlo⟩ := List.mem_map.1 hm
  have hl := List.all_eq_true.1 (Bool.and_eq_true _ _ ▸ hn).2 d hd
  rw [Bool.and_eq_true, beq_iff_eq, hlo] at hl
  exact isAlpha_of_isAlpha_toLower (by rw [hl.2, hl.1])

lemma tagAt_spelled {name spelled : List Char} (rest : List Char) (hn : equalIgnoringCase spelled name)
    (hc : (isBlank c || c == '>' || c == '/')) : tagAt mark name (mark.text ++ (spelled ++ c :: rest)) := by
  have hl := length_eq_of_equalIgnoringCase hn
  have ht : (spelled ++ c :: rest).take name.length = spelled := by simp [← hl]
  have hd : (spelled ++ c :: rest).drop name.length = c :: rest := by simp [← hl]
  simp only [tagAt, drop_left, ht, hd, hn, hc, Bool.and_true, List.isPrefixOf_iff_prefix, prefix_append]

lemma exists_of_tagAt (h : tagAt mark name x) :
    ∃ spelled r, x = mark.text ++ (spelled ++ r) ∧ equalIgnoringCase spelled name ∧ r.head? ≠ some '<' := by
  simp only [tagAt, Bool.and_eq_true, List.isPrefixOf_iff_prefix] at h
  obtain ⟨⟨⟨tl, rfl⟩, hn⟩, he⟩ := h
  rw [drop_left] at hn he
  refine ⟨tl.take name.length, tl.drop name.length, by rw [take_append_drop], hn, ?_⟩
  intro hh
  obtain ⟨cs, hc⟩ := List.head?_eq_some_iff.1 hh
  have ha : isBlank '<' = false := by decide
  simp [hc, ha] at he

lemma tagAt_opening_eq_false (hn : isPlainName name) (h : tagAt .closing name x) : tagAt .opening name x = false := by
  by_contra hop
  obtain ⟨closed, r, rfl, -, -⟩ := exists_of_tagAt h
  obtain ⟨opened, r', heq, ho, -⟩ := exists_of_tagAt (Bool.of_not_eq_false hop)
  have hs : '/' :: (closed ++ r) = opened ++ r' := (List.cons.inj heq).2
  cases opened with
  | nil =>
    have hl := length_eq_of_equalIgnoringCase ho
    simp [isPlainName, List.length_eq_zero_iff.1 hl.symm] at hn
  | cons c opened =>
    obtain ⟨rfl, -⟩ := List.cons.inj hs
    exact absurd (isAlpha_of_equalIgnoringCase ho hn '/' (by simp)) (by decide)

lemma utf8Size_toLower (c : Char) : c.toLower.utf8Size = c.utf8Size := by
  unfold Char.toLower
  split
  · rename_i h
    have hval : c.toNat ≤ 90 := h.2
    rw [Char.utf8Size_eq_one_iff.2, Char.utf8Size_eq_one_iff.2]
    · exact UInt32.le_iff_toNat_le.2 (by simp; omega)
    · exact UInt32.le_iff_toNat_le.2 (by simp; omega)
  · rfl

lemma byteLength_eq_of_equalIgnoringCase {a b : List Char} (h : equalIgnoringCase a b) :
    byteLength a = byteLength b := by
  have hmap : ∀ cs : List Char, byteLength (cs.map Char.toLower) = byteLength cs := fun cs => by
    induction cs with
    | nil => rfl
    | cons c cs ih => rw [map_cons, byteLength_cons, ih, utf8Size_toLower, byteLength_cons]
  rw [← hmap a, beq_iff_eq.1 h, hmap]

lemma Cursor.jump_eq_skip {k : Cursor} {a b : List Char} (h : k.rest = a ++ b) :
    k.jump (byteLength a) = k.skip a.length := by
  rw [jump, skip, h, dropBytes_byteLength, take_left, drop_left]

/-- A tag has as many bytes as its name says. -/
lemma Cursor.jump_tag {k : Cursor} (h : tagAt mark name k.rest) :
    k.jump (mark.text.length + byteLength name) = k.skip (mark.text.length + name.length) := by
  obtain ⟨spelled, r, hr, hs, -⟩ := exists_of_tagAt h
  have hm : byteLength mark.text = mark.text.length := by cases mark <;> rfl
  rw [← append_assoc] at hr
  rw [← byteLength_eq_of_equalIgnoringCase hs, ← hm, ← byteLength_append, jump_eq_skip hr, length_append,
    length_eq_of_equalIgnoringCase hs, hm]

lemma Cursor.skip_skip (k : Cursor) (m n : Nat) : (k.skip m).skip n = k.skip (m + n) := by
  simp [skip, take_add, add_assoc, drop_drop]

lemma Cursor.skip_of_length_le {k : Cursor} {n : Nat} (h : k.rest.length ≤ n) :
    k.skip n = ⟨k.pos + byteLength k.rest, []⟩ := by
  rw [skip, take_of_length_le h, drop_of_length_le h]

/-- How many characters stand before the closing tag `name` that fits an opening tag read before; `depth` tags have been
opened since, and `passed` characters belong to a tag already counted. -/
def nestedExtent (name : List Char) (depth passed : Nat) : List Char → Option Nat
  | [] => none
  | c :: cs =>
    match passed with
    | passed + 1 => (nestedExtent name depth passed cs).map (· + 1)
    | 0 =>
      if tagAt .closing name (c :: cs) then
        match depth with
        | 0 => some 0
        | depth + 1 => (nestedExtent name depth (name.length + 1) cs).map (· + 1)
      else if tagAt .opening name (c :: cs) then
        (nestedExtent name (depth + 1) name.length cs).map (· + 1)
      else (nestedExtent name depth 0 cs).map (· + 1)

lemma nestedExtent_drop (name : List Char) (depth k : Nat) (cs : List Char) :
    nestedExtent name depth k cs = (nestedExtent name depth 0 (cs.drop k)).map (· + k) := by
  induction cs generalizing k with
  | nil => cases k <;> rfl
  | cons c cs ih =>
    cases k with
    | zero => simp
    | succ k =>
      rw [nestedExtent, ih k, drop_succ_cons, Option.map_map]
      rfl

/-- The cursor that counts bytes stops where the count of characters does. -/
lemma Cursor.closeNested_eq (name : List Char) (depth : Nat) (k : Cursor) : closeNested name depth k =
    (nestedExtent name depth 0 k.rest).elim (false, k.skip k.rest.length) fun n => (true, k.skip n) := by
  induction hn : k.rest.length using Nat.strong_induction_on generalizing k depth with
  | _ n ih =>
  rw [closeNested.eq_def]
  cases hr : k.rest with
  | nil =>
    cases k
    simp_all [atEnd, nestedExtent, skip]
  | cons a r =>
    -- the search goes on behind what is passed
    have hgo : ∀ m depth, closeNested name depth (k.skip (m + 1)) =
        ((nestedExtent name depth m r).map (· + 1)).elim (false, k.skip n) fun n => (true, k.skip n) := by
      intro m depth
      have hrest : (k.skip (m + 1)).rest = r.drop m := by simp [skip, hr]
      rw [ih _ (by simp [hrest, ← hn, hr]) depth _ rfl, hrest, nestedExtent_drop _ _ m]
      cases nestedExtent name depth 0 (r.drop m) with
      | none =>
        have hend : k.rest.length ≤ m + 1 + (r.drop m).length := by
          simp [hr]
          omega
        simp only [Option.map_none, Option.elim_none, skip_skip, skip_of_length_le hend, skip_of_length_le hn.le]
      | some l =>
        have hsum : m + 1 + l = l + m + 1 := by omega
        simp [skip_skip, hsum]
    rw [dif_neg (by simp [atEnd, hr])]
    simp only [nestedExtent]
    split
    · rename_i ht
      cases depth with
      | zero => simp [skip]
      | succ depth =>
        have hj : k.jump (2 + byteLength name) = k.skip (2 + name.length) := jump_tag (hr ▸ ht)
        rw [hj, Nat.add_comm 2]
        exact hgo _ _
    · split
      · rename_i ht
        have hj : k.jump (1 + byteLength name) = k.skip (1 + name.length) := jump_tag (hr ▸ ht)
        rw [hj, Nat.add_comm 1]
        exact hgo _ _
      · exact hgo 0 _

lemma Cursor.readNestedContent_eq (k : Cursor) (name : String) : k.readNestedContent name =
    ((nestedExtent name.toList 0 0 k.rest).map k.rest.take,
      k.skip ((nestedExtent name.toList 0 0 k.rest).getD k.rest.length)) := by
  rw [readNestedContent, closeNested_eq]
  cases nestedExtent name.toList 0 0 k.rest with
  | none => rfl
  | some n =>
    have ht := takeBytes_byteLength (k.rest.take n) (k.rest.drop n)
    rw [take_append_drop] at ht
    simp [skip, ht]

/-- How many tags start inside a text that `after` follows. -/
def tagCount (mark : Mark) (name after : List Char) : List Char → Nat
  | [] => 0
  | c :: cs =>
    (if tagAt mark name (c :: (cs ++ after)) then 1 else 0) + tagCount mark name after cs

lemma tagCount_eq_zero (h : '<' ∉ u) : tagCount mark name aft u = 0 := by
  induction u with
  | nil => rfl
  | cons c u ih =>
    have hc : tagAt mark name (c :: (u ++ aft)) = false := by
      by_contra ht
      exact h (by simp [eq_of_tagAt (Bool.of_not_eq_false ht)])
    simp [tagCount, hc, ih (fun hm => h (mem_cons_of_mem c hm))]

lemma tagCount_cons_eq_zero (h : tagCount mark name aft (c :: cs) = 0) :
    tagAt mark name (c :: (cs ++ aft)) = false ∧ tagCount mark name aft cs = 0 := by
  rw [tagCount] at h
  cases ht : tagAt mark name (c :: (cs ++ aft)) with
  | true => simp [ht] at h
  | false => exact ⟨rfl, by simpa [ht] using h⟩

/-- The opening tags of a text are those of its first part, then those of its second. -/
lemma openingTagsFrom_append (name : List Char) (off : Nat) (u v : List Char) :
    ∃ tags, tags.length = tagCount .opening name v u ∧ openingTagsFrom name off (u ++ v) =
        tags ++ openingTagsFrom name (off + byteLength u) v := by
  induction u generalizing off with
  | nil => exact ⟨[], rfl, rfl⟩
  | cons c u ih =>
    obtain ⟨tags, hl, ht⟩ := ih (off + c.utf8Size)
    rw [cons_append, openingTagsFrom, ht, byteLength_cons, ← Nat.add_assoc]
    split
    · exact ⟨off :: tags, by simp [tagCount, *]; omega, rfl⟩
    · exact ⟨tags, by simp [tagCount, *], rfl⟩

lemma openingTagsFrom_eq_nil (h : tagCount .opening name [] x = 0) : openingTagsFrom name off x = [] := by
  obtain ⟨tags, hl, ht⟩ := openingTagsFrom_append name off x []
  rw [h, length_eq_zero_iff] at hl
  simpa [hl, openingTagsFrom] using ht

lemma head?_openingTagsFrom (hb : tagCount .opening name v u = 0) (ht : tagAt .opening name v) :
    (openingTagsFrom name off (u ++ v)).head? = some (off + byteLength u) := by
  obtain ⟨tags, hl, hta⟩ := openingTagsFrom_append name off u v
  rw [hb, length_eq_zero_iff] at hl
  cases v with
  | nil => simp [tagAt_nil] at ht
  | cons c v => simp [hta, hl, openingTagsFrom, ht]

lemma getLast?_openingTagsFrom (hta : tagAt .opening name (c :: v)) (ha : tagCount .opening name [] v = 0) :
    (openingTagsFrom name off (u ++ c :: v)).getLast? = some (off + byteLength u) := by
  obtain ⟨tags, -, ht⟩ := openingTagsFrom_append name off u (c :: v)
  simp [ht, openingTagsFrom, hta, openingTagsFrom_eq_nil ha]

lemma extentUntil_tagAt {name ct : List Char} (hco : tagCount .closing name aft ct = 0) (ht : tagAt .closing name aft) :
    Cursor.extentUntil (tagAt .closing name) (ct ++ aft) = ct.length := by
  induction ct with
  | nil =>
    cases aft with
    | nil => simp [tagAt_nil] at ht
    | cons c aft => simp [Cursor.extentUntil, ht]
  | cons c ct ih =>
    obtain ⟨hc, hco⟩ := tagCount_cons_eq_zero hco
    simp [Cursor.extentUntil, hc, ih hco]

/-- The tags of `text` are balanced, with `depth` of them open in front of it. -/
structure Nests (name after : List Char) (depth : Nat) (text : List Char) : Prop where
  closes : ∀ n < text.length, tagAt .closing name (text.drop n ++ after) = true →
    tagCount .closing name (text.drop n ++ after) (text.take n) <
      depth + tagCount .opening name (text.drop n ++ after) (text.take n)
  closed : depth + tagCount .opening name after text = tagCount .closing name after text

/-- A closing tag stands between `u` and `v` for which no tag is left open, with `depth` of them open in front of `u`. -/
def Closes (name : List Char) (depth : Nat) (u v : List Char) : Prop :=
  tagAt .closing name v = true ∧ tagCount .closing name v u = depth + tagCount .opening name v u

/-- The least number up to `length` that satisfies `p`, if one does. -/
def IsLeast? (p : Nat → Prop) (length : Nat) : Option Nat → Prop
  | some n => n ≤ length ∧ p n ∧ ∀ m < n, ¬ p m
  | none => ∀ m ≤ length, ¬ p m

lemma IsLeast?.succ {p : Nat → Prop} {len : Nat} {o : Option Nat} (h : IsLeast? (fun n => p (n + 1)) len o)
    (h0 : ¬ p 0) : IsLeast? p (len + 1) (o.map (· + 1)) := by
  cases o with
  | none =>
    rintro (_ | m) hm
    · exact h0
    · exact h m (by omega)
  | some n =>
    obtain ⟨hl, hp, hf⟩ := h
    refine ⟨Nat.succ_le_succ hl, hp, ?_⟩
    rintro (_ | m) hm
    · exact h0
    · exact hf m (Nat.lt_of_succ_lt_succ hm)

section Extents

variable {name cs : List Char} {c : Char} {depth : Nat} {mark : Mark}

lemma nestedExtent_passed {k : Nat} (h : '<' ∉ cs.take k) :
    nestedExtent name depth k cs = nestedExtent name depth 0 cs := by
  induction cs generalizing k with
  | nil => simp [nestedExtent]
  | cons c cs ih =>
    cases k with
    | zero => rfl
    | succ k =>
      rw [take_succ_cons, mem_cons, not_or] at h
      have ht : ∀ mark, tagAt mark name (c :: cs) = false := by
        intro mark
        by_contra hm
        exact h.1 (eq_of_tagAt (Bool.of_not_eq_false hm)).symm
      simp [nestedExtent, ht, ih h.2]

lemma not_mem_take_of_tagAt (hn : isPlainName name) (h : tagAt mark name (c :: cs)) :
    '<' ∉ cs.take (mark.text.length - 1 + name.length) := by
  obtain ⟨spelled, r, he, hs, -⟩ := exists_of_tagAt h
  have ha : '<' ∉ spelled := fun hm => absurd (isAlpha_of_equalIgnoringCase hs hn '<' hm) (by decide)
  have hl := length_eq_of_equalIgnoringCase hs
  cases mark with
  | opening =>
    obtain rfl : cs = spelled ++ r := (cons.inj he).2
    simpa [Mark.text, ← hl] using ha
  | closing =>
    obtain rfl : cs = '/' :: (spelled ++ r) := (cons.inj he).2
    simpa [Mark.text, ← hl, Nat.add_comm 1] using ha

lemma nestedExtent_cons (hn : isPlainName name) : nestedExtent name depth 0 (c :: cs) =
    if tagAt .closing name (c :: cs) then
      match depth with
      | 0 => some 0
      | d + 1 => (nestedExtent name d 0 cs).map (· + 1)
    else (nestedExtent name (depth + if tagAt .opening name (c :: cs) then 1 else 0) 0 cs).map (· + 1) := by
  have hp : ∀ mark, tagAt mark name (c :: cs) → '<' ∉ cs.take (mark.text.length - 1 + name.length) :=
    fun _ => not_mem_take_of_tagAt hn
  cases hc : tagAt .closing name (c :: cs) with
  | true =>
    have hs := hp .closing hc
    rw [show Mark.closing.text.length - 1 + name.length = name.length + 1 from Nat.add_comm ..] at hs
    cases depth <;> simp [nestedExtent, hc, nestedExtent_passed hs]
  | false =>
    cases ho : tagAt .opening name (c :: cs) with
    | true =>
      have hs := hp .opening ho
      rw [show Mark.opening.text.length - 1 + name.length = name.length from Nat.zero_add _] at hs
      simp [nestedExtent, hc, ho, nestedExtent_passed hs]
    | false => simp [nestedExtent, hc, ho]

lemma closes_cons_iff {d : Nat} (h : d + (if tagAt .closing name (c :: (u ++ v)) then 1 else 0) =
    depth + if tagAt .opening name (c :: (u ++ v)) then 1 else 0) :
    Closes name depth (c :: u) v ↔ Closes name d u v := by
  simp only [Closes, tagCount]
  exact and_congr_right fun _ => by omega

lemma isLeast?_nestedExtent (hn : isPlainName name) (cs : List Char) : ∀ depth,
    IsLeast? (fun n => Closes name depth (cs.take n) (cs.drop n)) cs.length (nestedExtent name depth 0 cs) := by
  induction cs with
  | nil => simp [nestedExtent, IsLeast?, Closes, tagAt_nil]
  | cons c cs ih =>
    intro depth
    -- what the tag at `c` makes of the depth, the rest of the text is scanned with
    have hstep : ∀ d, (d + (if tagAt .closing name (c :: cs) then 1 else 0) =
        depth + if tagAt .opening name (c :: cs) then 1 else 0) → ¬ Closes name depth [] (c :: cs) →
        IsLeast? (fun n => Closes name depth ((c :: cs).take n) ((c :: cs).drop n)) (cs.length + 1)
          ((nestedExtent name d 0 cs).map (· + 1)) := by
      intro d hd h0
      refine IsLeast?.succ ?_ (by simpa using h0)
      have hi : ∀ n, Closes name depth (c :: cs.take n) (cs.drop n) ↔ Closes name d (cs.take n) (cs.drop n) :=
        fun n => closes_cons_iff (by rwa [take_append_drop])
      simpa [hi] using ih d
    rw [nestedExtent_cons hn, length_cons]
    cases hc : tagAt .closing name (c :: cs) with
    | true =>
      have ho := tagAt_opening_eq_false hn hc
      cases depth with
      | zero => exact ⟨Nat.zero_le _, ⟨by simpa using hc, rfl⟩, by simp⟩
      | succ d => exact hstep d (by simp [hc, ho]) (by simp [Closes, tagCount])
    | false => exact hstep _ (by simp [hc]) (by simp [Closes, hc])

lemma nestedExtent_of_nests {after : List Char} (hn : isPlainName name) (ha : tagAt .closing name after)
    (h : Nests name after depth x) : nestedExtent name depth 0 (x ++ after) = some x.length := by
  have hs := isLeast?_nestedExtent hn (x ++ after) depth
  have ht : Closes name depth x after := ⟨ha, h.closed.symm⟩
  cases he : nestedExtent name depth 0 (x ++ after) with
  | none =>
    rw [he] at hs
    exact absurd (by simpa using ht) (hs x.length (by simp))
  | some n =>
    rw [he] at hs
    obtain ⟨-, ⟨hc, hcount⟩, hf⟩ := hs
    rcases Nat.lt_trichotomy n x.length with hlt | rfl | hgt
    · rw [take_append_of_le_length hlt.le, drop_append_of_le_length hlt.le] at hcount
      rw [drop_append_of_le_length hlt.le] at hc
      have hb := h.closes n hlt hc
      omega
    · rfl
    · exact absurd (by simpa using ht) (hf _ hgt)

lemma isLeast?_extentUntil {stop : List Char → Bool} (hs : stop [] = false) (cs : List Char) :
    IsLeast? (fun n => stop (cs.drop n)) cs.length
      (if (cs.drop (Cursor.extentUntil stop cs)).isEmpty then none else some (Cursor.extentUntil stop cs)) := by
  induction cs with
  | nil => simp [Cursor.extentUntil, IsLeast?, hs]
  | cons c cs ih =>
    rw [Cursor.extentUntil, length_cons]
    cases h : stop (c :: cs) with
    | true => exact ⟨Nat.zero_le _, by simpa using h, by simp⟩
    | false =>
      have hi := ih.succ (p := fun n => stop ((c :: cs).drop n)) (by simp [h])
      rw [if_neg Bool.false_ne_true, drop_succ_cons]
      split at hi
      · rename_i he
        rwa [if_pos he]
      · rename_i he
        rwa [if_neg he]

end Extents

/-- Reading `cs` behind `a`, `result` is the text before the first place where `p` holds of the text read and the text
left. Where `p` holds nowhere there is no text, and the cursor is at the end. -/
def ReadsTo (p : List Char → List Char → Prop) (a cs : List Char) (result : Option (List Char) × Cursor) : Prop :=
  (∃ u v, cs = u ++ v ∧ p u v ∧ (∀ u' v', cs = u' ++ v' → p u' v' → u.length ≤ u'.length) ∧
    result = (some u, .start (String.ofList (a ++ cs)) (byteLength (a ++ u)))) ∨
  (∀ u v, cs = u ++ v → ¬ p u v) ∧ result = (none, .start (String.ofList (a ++ cs)) (byteLength (a ++ cs)))

lemma start_append (a cs : List Char) : Cursor.start (String.ofList (a ++ cs)) (byteLength a) = ⟨byteLength a, cs⟩ := by
  rw [Cursor.start, String.toList_ofList, dropBytes_byteLength]

lemma skip_start (a cs : List Char) (n : Nat) : Cursor.skip ⟨byteLength a, cs⟩ n =
    .start (String.ofList (a ++ cs)) (byteLength (a ++ cs.take n)) := by
  nth_rw 2 [← take_append_drop n cs]
  rw [← append_assoc, start_append, Cursor.skip, byteLength_append]

lemma readsTo_of_isLeast? {p : List Char → List Char → Prop} (a : List Char) {o : Option Nat}
    (h : IsLeast? (fun n => p (cs.take n) (cs.drop n)) cs.length o) :
    ReadsTo p a cs (o.map cs.take, Cursor.skip ⟨byteLength a, cs⟩ (o.getD cs.length)) := by
  rw [skip_start]
  cases o with
  | none =>
    refine .inr ⟨fun u v hcs hp => h u.length (by simp [hcs]) (by simpa [hcs] using hp), ?_⟩
    rw [Option.getD_none, take_length, Option.map_none]
  | some n =>
    obtain ⟨hl, hp, hf⟩ := h
    refine .inl ⟨_, _, (take_append_drop n cs).symm, hp, fun u v hcs huv => ?_, rfl⟩
    rw [length_take_of_le hl]
    by_contra hlt
    exact hf u.length (by omega) (by simpa [hcs] using huv)

/-- A section that may nest ends where one more tag is closed than opened, and any other at its first closing tag. -/
theorem readContent_readsTo (kind : SectionKind) (a cs : List Char) :
    let c := Cursor.start (String.ofList (a ++ cs)) (byteLength a)
    ReadsTo (Closes kind.tagName.toList 0) a cs (c.readNestedContent kind.tagName) ∧
      ReadsTo (fun _ v => tagAt .closing kind.tagName.toList v) a cs (c.readContent kind.tagName) := by
  intro c
  have hc : c = ⟨byteLength a, cs⟩ := start_append a cs
  constructor
  · have h := readsTo_of_isLeast? a (isLeast?_nestedExtent (isPlainName_tagName kind) cs 0)
    rwa [hc, Cursor.readNestedContent_eq]
  · have h := readsTo_of_isLeast? (p := fun _ v => tagAt .closing kind.tagName.toList v) a
      (isLeast?_extentUntil (tagAt_nil .closing kind.tagName.toList) cs)
    rw [hc]
    cases he : (cs.drop (Cursor.extentUntil (tagAt .closing kind.tagName.toList) cs)).isEmpty with
    | true =>
      have hd := drop_eq_nil_iff.1 (isEmpty_iff.1 he)
      rw [if_pos he] at h
      simpa [Cursor.readContent, Cursor.readUntil, Cursor.atEnd, Cursor.skip, he, take_of_length_le hd,
        drop_of_length_le hd] using h
    | false =>
      rw [if_neg (by simp [he])] at h
      simpa [Cursor.readContent, Cursor.readUntil, Cursor.atEnd, Cursor.skip, he] using h

end CustomElement.Markup
