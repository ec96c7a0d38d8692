import CustomElement.Script.Layout
import CustomElement.Proofs.Script.Creases

/-!
# Block comments in line

`alignComment` changes the gaps around the line breaks of a block comment and nothing else (`exists_alignComment`), so
a text is read as before when its block comments are brought in line (`Reads.restated`).
-/

namespace CustomElement.Script

open List Text

variable {fresh : Bool} {c : Char} {cs g : List Char} {fs gs : List Form} {ls : List (List Char)}

abbrev layoutChars : List Char := ['\n', ' ']

lemma isGap_of_subset (h : g ⊆ layoutChars) : IsGap g := by
  intro c hc
  rcases show c = '\n' ∨ c = ' ' by simpa using h hc with rfl | rfl <;> decide

/-- The second text has other gaps around line breaks, with the same creases, and otherwise the characters of the first.
-/
inductive Respaced : List Char → List Char → Prop
  | nil : Respaced [] []
  | char (c : Char) {a b : List Char} (more : Respaced a b) : Respaced (c :: a) (c :: b)
  | gap {g h a b : List Char} (hg : IsGap g) (hh : h ⊆ layoutChars) (hbreak : '\n' ∈ g) (hcrease : crease h = crease g)
      (more : Respaced a b) : Respaced (g ++ a) (h ++ b)

namespace Respaced

variable {a b : List Char}

lemma append_left (h : Respaced a b) (x : List Char) : Respaced (x ++ a) (x ++ b) := by
  induction x with
  | nil => exact h
  | cons c x ih => exact .char c ih

lemma append (h : Respaced a b) {c d : List Char} (h' : Respaced c d) : Respaced (a ++ c) (b ++ d) := by
  induction h with
  | nil => exact h'
  | char c more ih => exact .char c ih
  | gap hg hh hb hc more ih =>
    rw [append_assoc, append_assoc]
    exact .gap hg hh hb hc ih

lemma ink_eq (h : Respaced a b) : ink b = ink a := by
  induction h with
  | nil => rfl
  | char c more ih =>
    rw [← singleton_append, ink_append, ih, ← ink_append, singleton_append]
  | gap hg hh hb hc more ih => rw [ink_append, ink_append, hg.ink, (isGap_of_subset hh).ink, ih]

lemma subset (h : Respaced a b) : b ⊆ a ++ layoutChars := by
  induction h with
  | nil => simp
  | char c more ih =>
    rw [cons_append]
    exact cons_subset_cons c ih
  | @gap g h a b hg hh hb hcr more ih =>
    refine append_subset.2 ⟨fun c hc => by simp [hh hc], fun c hc => ?_⟩
    rw [append_assoc]
    exact mem_append_right g (ih hc)

lemma head_eq (h : Respaced a b) (hc : isGap c = false) : a.head? = some c ↔ b.head? = some c := by
  cases h with
  | nil => rfl
  | char d more => rfl
  | @gap g h a b hg hh hb hcr more =>
    have hb' : '\n' ∈ h := mem_crease.1 (hcr ▸ mem_crease.2 hb)
    obtain ⟨d, g, rfl⟩ := exists_cons_of_ne_nil (ne_nil_of_mem hb)
    obtain ⟨e, h, rfl⟩ := exists_cons_of_ne_nil (ne_nil_of_mem hb')
    have hd := hg d (by simp)
    have he := isGap_of_subset hh e (by simp)
    constructor
    · rintro ⟨⟩
      simp [hd] at hc
    · rintro ⟨⟩
      simp [he] at hc

lemma eq_nil (h : Respaced [] b) : b = [] := by
  generalize ha : [] = a at h
  cases h with
  | nil => rfl
  | char c more => cases ha
  | gap hg hh hb hc more => exact absurd (append_eq_nil_iff.1 ha.symm).1 (ne_nil_of_mem hb)

lemma tail (h : Respaced (c :: a) (c :: b)) (hc : isGap c = false) : Respaced a b := by
  generalize ha : c :: a = x at h
  generalize hb : c :: b = y at h
  cases h with
  | nil => cases ha
  | char d more =>
    obtain ⟨rfl, rfl⟩ := cons.inj ha
    obtain ⟨-, rfl⟩ := cons.inj hb
    exact more
  | gap hg hh hbr hcr more =>
    obtain ⟨d, g, rfl⟩ := exists_cons_of_ne_nil (ne_nil_of_mem hbr)
    obtain ⟨rfl, -⟩ := cons.inj ha
    simp [hg c (by simp)] at hc

lemma foldsFrom_eq (h : Respaced a b) {g' : List Char} (hg : crease g = crease g') :
    foldsFrom g b = foldsFrom g' a ∧ crease (trailFrom g b) = crease (trailFrom g' a) := by
  induction h generalizing g g' with
  | nil => exact ⟨rfl, hg⟩
  | char c more ih =>
    rw [foldsFrom, foldsFrom, trailFrom, trailFrom]
    split
    · exact ih (crease_append_congr hg [] [c])
    · rw [hg, (ih rfl).1]
      exact ⟨rfl, (ih rfl).2⟩
  | @gap u v a b hu hv hbr hc more ih =>
    have hb := crease_append_congr hc g' []
    rw [append_nil, append_nil] at hb
    have hj : crease (g ++ v) = crease (g' ++ u) := (crease_append_congr hg [] v).trans hb
    rw [foldsFrom_gap_append (isGap_of_subset hv), foldsFrom_gap_append hu, trailFrom_append,
      trailFrom_gap (isGap_of_subset hv), trailFrom_append, trailFrom_gap hu]
    exact ih hj

lemma folds_eq (h : Respaced a b) : folds b = folds a := (h.foldsFrom_eq rfl).1

lemma endsInk (h : Respaced a b) (ha : EndsInk a) : EndsInk b := by
  rw [endsInk_iff] at ha ⊢
  have ht := (h.foldsFrom_eq (g := []) rfl).2
  rw [ha.2] at ht
  exact ⟨h.folds_eq ▸ ha.1, crease_eq_nil.1 ht⟩

end Respaced

def ClosesComment (cs : List Char) : Prop := (blockCommentRest cs).map parts = some (cs, [])

lemma closesComment_cons (h : c = '*' → cs.head? ≠ some '/') : ClosesComment (c :: cs) ↔ ClosesComment cs := by
  have hn : ∀ tl, c = '*' → cs = '/' :: tl → False := by
    rintro tl hc rfl
    exact h hc rfl
  rw [ClosesComment, blockCommentRest.eq_3 _ _ hn, map_cons_parts]
  constructor
  · rintro ⟨a, ha, hm⟩
    obtain rfl := (cons.inj ha).2
    exact hm
  · intro hm
    exact ⟨cs, rfl, hm⟩

lemma closesComment_mark : ClosesComment ('*' :: '/' :: cs) ↔ cs = [] := by
  simp [ClosesComment, blockCommentRest, parts, Cut.cons, Cut.first, eq_comm]

lemma closesComment_gap (hg : IsGap g) : ClosesComment (g ++ cs) ↔ ClosesComment cs := by
  induction g with
  | nil => rfl
  | cons c g ih =>
    have hc : c ≠ '*' := by
      rintro rfl
      exact absurd (hg '*' (by simp)) (by decide)
    rw [cons_append, closesComment_cons (absurd · hc)]
    exact ih fun d hd => hg d (mem_cons_of_mem c hd)

lemma ClosesComment.respaced {a b : List Char} (h : ClosesComment a) (ha : Respaced a b) : ClosesComment b := by
  induction ha with
  | nil => exact h
  | @char c a b more ih =>
    by_cases hc : c = '*' ∧ a.head? = some '/'
    · obtain ⟨rfl, hhe⟩ := hc
      obtain ⟨a, rfl⟩ := head?_eq_some_iff.1 hhe
      obtain ⟨b, rfl⟩ := head?_eq_some_iff.1 ((more.head_eq (by decide)).1 hhe)
      obtain rfl := closesComment_mark.1 h
      obtain rfl := (more.tail (by decide)).eq_nil
      exact h
    · have hc' : c = '*' → b.head? ≠ some '/' := fun h1 h2 => hc ⟨h1, (more.head_eq (by decide)).2 h2⟩
      rw [closesComment_cons fun h1 h2 => hc ⟨h1, h2⟩] at h
      rw [closesComment_cons hc']
      exact ih h
  | gap hg hh hb hcr more ih =>
    rw [closesComment_gap hg] at h
    rw [closesComment_gap (isGap_of_subset hh)]
    exact ih h

lemma ClosesComment.getLast? (h : ClosesComment cs) : cs.getLast? = some '/' :=
  (blockCommentRest_local h []).2

lemma isGap_of_isBlank (h : isBlank c) : isGap c := by
  rw [isGap, h, Bool.true_or]

lemma exists_trimEndList (cs : List Char) : ∃ g, IsGap g ∧ cs = trimEndList cs ++ g := by
  refine ⟨(cs.reverse.takeWhile isBlank).reverse, fun c hc => ?_, ?_⟩
  · exact isGap_of_isBlank (mem_takeWhile_imp (mem_reverse.1 hc))
  · rw [trimEndList, ← reverse_append, takeWhile_append_dropWhile, reverse_reverse]

lemma exists_trimStartList (cs : List Char) : ∃ g, IsGap g ∧ cs = g ++ trimStartList cs :=
  ⟨cs.takeWhile isBlank, fun _ hc => isGap_of_isBlank (mem_takeWhile_imp hc), takeWhile_append_dropWhile.symm⟩

lemma exists_trim (x : String) : ∃ g g', IsGap g ∧ IsGap g' ∧ x.toList = g ++ (trim x).toList ++ g' := by
  obtain ⟨g, hg, hs⟩ := exists_trimStartList x.toList
  obtain ⟨g', hg', he⟩ := exists_trimEndList (trimStartList x.toList)
  refine ⟨g, g', hg, hg', ?_⟩
  rw [trim, toList_ofList, trimList, append_assoc, ← he, ← hs]

lemma splitLines_join (cs : List Char) : ∃ fst ls, splitLines cs = fst :: ls ∧ fst ++ ls.flatMap ('\n' :: ·) = cs := by
  induction cs with
  | nil => exact ⟨[], [], rfl, rfl⟩
  | cons c cs ih =>
    obtain ⟨fst, ls, hs, hj⟩ := ih
    by_cases hc : c = '\n'
    · subst hc
      refine ⟨[], fst :: ls, by rw [splitLines, if_pos rfl, hs], ?_⟩
      rw [nil_append, flatMap_cons, cons_append, hj]
    · refine ⟨c :: fst, ls, by rw [splitLines, if_neg hc, hs], ?_⟩
      rw [cons_append, hj]

lemma not_mem_splitLines (cs : List Char) : ∀ line ∈ splitLines cs, '\n' ∉ line := by
  induction cs with
  | nil => simp [splitLines]
  | cons c cs ih =>
    obtain ⟨fst, ls, hs, -⟩ := splitLines_join cs
    rw [hs] at ih
    obtain ⟨hf, hl⟩ := forall_mem_cons.1 ih
    by_cases hc : c = '\n'
    · rw [splitLines, if_pos hc, hs]
      exact forall_mem_cons.2 ⟨by simp, forall_mem_cons.2 ⟨hf, hl⟩⟩
    · rw [splitLines, if_neg hc, hs]
      refine forall_mem_cons.2 ⟨?_, hl⟩
      simp [Ne.symm hc, hf]

lemma indentation_subset (l : Nat) : (indentation l).toList ⊆ layoutChars := by
  intro c hc
  rw [indentation, toList_ofList, mem_replicate] at hc
  simp [hc.2]

lemma isGap_indentation (l : Nat) : IsGap (indentation l).toList := isGap_of_subset (indentation_subset l)

lemma not_mem_indentation (l : Nat) : '\n' ∉ (indentation l).toList := by
  rw [indentation, toList_ofList, mem_replicate]
  simp

/-- A later line of a block comment, brought under its opening if it starts with a star. -/
def alignedLine (level : Nat) (line : List Char) : List Char :=
  if (trimStartList line).head? == some '*' then
    (indentation level).toList ++ ' ' :: trimEndList (trimStartList line)
  else line

lemma respaced_lines (l : Nat) (hg : IsGap g) (ho : '\n' ∉ g) (hln : ∀ line ∈ ls, '\n' ∉ line)
    (hl : (g ++ ls.flatMap ('\n' :: ·)).getLast?.all (fun c => !isGap c)) :
    Respaced (g ++ ls.flatMap ('\n' :: ·)) ((ls.map (alignedLine l)).flatMap ('\n' :: ·)) := by
  have hb : isGap '\n' := by decide
  have he : ∀ {x y : List Char}, (x ++ y).getLast?.all (fun c => !isGap c) → y.getLast?.all (fun c => !isGap c) := by
    intro x y h
    cases hy : y.getLast? with
    | none => rfl
    | some c => simpa [getLast?_append, hy] using h
  induction ls generalizing g with
  | nil =>
    rcases eq_nil_or_concat g with rfl | ⟨g, c, rfl⟩
    · exact .nil
    · simp [hg c (by simp)] at hl
  | cons line ls ih =>
    obtain ⟨hli, hm⟩ := forall_mem_cons.1 hln
    rw [flatMap_cons] at hl ⊢
    rw [map_cons, flatMap_cons, alignedLine]
    split
    · obtain ⟨lead, hla, hs⟩ := exists_trimStartList line
      obtain ⟨trail, ht, hen⟩ := exists_trimEndList (trimStartList line)
      generalize trimEndList (trimStartList line) = core at hen ⊢
      rw [hen] at hs
      subst hs
      simp only [mem_append, not_or] at hli
      -- The gap around the line break changes, and the gap at the end of the line goes to the next.
      have hle : g ++ ('\n' :: (lead ++ (core ++ trail)) ++ ls.flatMap ('\n' :: ·)) =
          (g ++ '\n' :: lead) ++ (core ++ (trail ++ ls.flatMap ('\n' :: ·))) := by simp
      have hr : '\n' :: ((indentation l).toList ++ ' ' :: core) ++ (ls.map (alignedLine l)).flatMap ('\n' :: ·) =
          ([] ++ '\n' :: ((indentation l).toList ++ [' '])) ++
            (core ++ (ls.map (alignedLine l)).flatMap ('\n' :: ·)) := by simp
      rw [hle] at hl
      rw [hle, hr]
      refine .gap (hg.append (isGap_cons.2 ⟨hb, hla⟩)) (by simp [indentation_subset]) (by simp) ?_
        ((ih ht hli.2.2 hm (he (he hl))).append_left core)
      rw [crease_line ho hli.1, crease_line (by simp) (by simp [not_mem_indentation])]
    · have hle : g ++ ('\n' :: line ++ ls.flatMap ('\n' :: ·)) =
          (g ++ ['\n']) ++ (line ++ ([] ++ ls.flatMap ('\n' :: ·))) := by simp
      have hr : '\n' :: line ++ (ls.map (alignedLine l)).flatMap ('\n' :: ·) =
          ['\n'] ++ (line ++ (ls.map (alignedLine l)).flatMap ('\n' :: ·)) := by simp
      rw [hle] at hl
      rw [hle, hr]
      exact .gap (hg.append (isGap_cons.2 ⟨hb, by simp [IsGap]⟩)) (by simp) (by simp) (crease_line ho (by simp)).symm
        ((ih (by simp [IsGap]) (by simp) hm (he (he hl))).append_left line)

lemma alignComment_toList (l : Nat) (x : String) {fst : List Char} (h : splitLines x.toList = fst :: ls) :
    (alignComment (indentation l) x).toList = trimEndList fst ++ (ls.map (alignedLine l)).flatMap ('\n' :: ·) := by
  rw [alignComment, h]
  simp only [toList_append, toList_ofList, toList_join, flatMap_map]
  congr 2
  funext line
  unfold alignedLine
  split
  · simp
  · simp

lemma exists_alignComment (l : Nat) {x : String} {body : List Char} (ht : x.toList = '/' :: '*' :: body)
    (hb : ClosesComment body) :
    ∃ body', (alignComment (indentation l) x).toList = '/' :: '*' :: body' ∧ Respaced body body' := by
  have hp := not_mem_splitLines body
  obtain ⟨fst, lines, hs, rfl⟩ := splitLines_join body
  rw [hs] at hp
  obtain ⟨hp, hpl⟩ := forall_mem_cons.1 hp
  have hli : splitLines x.toList = ('/' :: '*' :: fst) :: lines := by
    rw [ht, splitLines, if_neg (by decide), splitLines, if_neg (by decide), hs]
  obtain ⟨g, hg, hf⟩ := exists_trimEndList fst
  have hl := hb.getLast?
  generalize hc : trimEndList fst = core at hf
  subst hf
  rw [mem_append, not_or] at hp
  refine ⟨core ++ (lines.map (alignedLine l)).flatMap ('\n' :: ·), ?_, ?_⟩
  · rw [alignComment_toList l x hli]
    have htr : trimEndList ('/' :: '*' :: (core ++ g)) = '/' :: '*' :: trimEndList (core ++ g) :=
      trimEndList_append_of_not_blank (a := ['/']) (by decide)
    rw [htr, hc]
    rfl
  · rw [append_assoc]
    refine (respaced_lines l hg hp.2 hpl ?_).append_left core
    rw [append_assoc, getLast?_append] at hl
    cases hr : (g ++ lines.flatMap ('\n' :: ·)).getLast? with
    | none => rfl
    | some c =>
      rw [hr] at hl
      obtain rfl : c = '/' := by simpa using hl
      decide

lemma Lexes.blockComment {sl : Bool} {r : List Char} {f : Form} (h : Lexes fresh sl cs f r)
    (hf : f.kind = .blockComment) : ∃ body, f.text = '/' :: '*' :: body ∧ ClosesComment body := by
  obtain ⟨c, a, ha, hk, hb⟩ := h.exists_body (by rw [hf]; decide)
  rw [hf] at hk hb
  have ho := opens_openingKind fresh sl c (a ++ r).head?
  rw [hk] at ho
  obtain ⟨rfl, hs⟩ := ho
  obtain ⟨tl, ht⟩ := head?_eq_some_iff.1 hs
  rw [ht] at hb
  obtain ⟨body, rfl, hr⟩ := map_cons_parts.1 hb
  refine ⟨body, ha, ?_⟩
  have hc := (blockCommentRest_local hr []).1
  rwa [append_nil] at hc

lemma lexes_blockComment (fresh sl : Bool) {body : List Char} (h : ClosesComment body) (rest : List Char) :
    Lexes fresh sl ('/' :: '*' :: body ++ rest) ⟨.blockComment, '/' :: '*' :: body⟩ rest := by
  refine (lexes_plain_iff (by decide)).2 ⟨?_, ?_⟩
  · have hg : isGap '/' = false := by decide
    simp [openingKind, hg]
  · exact map_cons_parts.2 ⟨body, rfl, (blockCommentRest_local h rest).1⟩

lemma fitsAt_of_take {v w : List Char} (h : v.take 2 = w.take 2) {p : String} (hp : p ∈ punctuators) :
    fitsAt c v p = fitsAt c w p := by
  have hl : ∀ p ∈ punctuators, p.toList.length ≤ 3 := by decide
  have hf : ∀ v : List Char, p.toList.isPrefixOf (c :: v) = p.toList.isPrefixOf (c :: v.take 2) := by
    intro v
    rw [Bool.eq_iff_iff, isPrefixOf_iff_prefix, isPrefixOf_iff_prefix, ← take_succ_cons, prefix_take_iff]
    exact ⟨fun h => ⟨h, hl p hp⟩, fun h => h.1⟩
  have hd : ∀ v : List Char, (v.drop 1).head? = ((v.take 2).drop 1).head? := by
    rintro (_ | ⟨a, _ | ⟨b, v⟩⟩) <;> rfl
  rw [fitsAt, fitsAt, hf v, hf w, hd v, hd w, h]

lemma Form.endsBefore_of_take {f : Form} {v w : List Char} (h : v.take 2 = w.take 2) :
    f.endsBefore fresh v = f.endsBefore fresh w := by
  have hh : v.head? = w.head? := by
    have hf : ∀ v : List Char, v.head? = (v.take 2).head? := by
      rintro (_ | ⟨a, v⟩) <;> rfl
    rw [hf v, hf w, h]
  obtain ⟨kind, x⟩ := f
  cases kind with
  | punct =>
    cases x with
    | nil => rfl
    | cons c cs =>
      have hm : (cs ++ v).take 2 = (cs ++ w).take 2 := by
        have hfe : v.take (2 - cs.length) = w.take (2 - cs.length) := by
          rw [← Nat.min_eq_left (Nat.sub_le 2 cs.length), ← take_take, h, take_take]
        rw [take_append, take_append, hfe]
      have he : punctExtent c (cs ++ v) = punctExtent c (cs ++ w) := by
        rw [punctExtent_eq, punctExtent_eq, find?_congr fun p hp => fitsAt_of_take hm hp]
      simp only [Form.endsBefore, he, hh]
  | _ => simp only [Form.endsBefore, hh]

/-- The same token, or a block comment with other gaps. -/
inductive Restated : Form → Form → Prop
  | refl (f : Form) : Restated f f
  | comment {a b : List Char} (h : Respaced a b) :
      Restated ⟨.blockComment, '/' :: '*' :: a⟩ ⟨.blockComment, '/' :: '*' :: b⟩

lemma respaced_of_restated (h : Forall₂ Restated fs gs) : Respaced (fs.flatMap Form.text) (gs.flatMap Form.text) := by
  induction h with
  | nil => exact .nil
  | cons fst more ih =>
    rw [flatMap_cons, flatMap_cons]
    cases fst with
    | refl => exact ih.append_left _
    | comment ha => exact (ha.append_left ['/', '*']).append ih

lemma take_restated (h : Forall₂ Restated fs gs) {n : Nat} (hn : n ≤ 2) :
    (fs.flatMap Form.text).take n = (gs.flatMap Form.text).take n := by
  induction h generalizing n with
  | nil => rfl
  | cons fst more ih =>
    rw [flatMap_cons, flatMap_cons]
    cases fst with
    | refl f => rw [take_append, take_append, ih (by omega)]
    | comment ha =>
      have hf : ∀ x : List Char, ('/' :: '*' :: x).take n = ['/', '*'].take n := by
        intro x
        rcases n with _ | _ | _ | n
        · rfl
        · rfl
        · rfl
        · omega
      exact (hf _).trans (hf _).symm

lemma Reads.restated {sl : Bool} (h : Reads fresh sl cs fs) (hg : Forall₂ Restated fs gs) :
    Reads fresh sl (gs.flatMap Form.text) gs ∧ essences gs = essences fs := by
  induction h generalizing gs with
  | nil =>
    cases hg
    exact ⟨.nil _ _, rfl⟩
  | @cons fresh sl cs r f fs fst more ih =>
    cases hg with
    | @cons _ g _ gs hf hg =>
      obtain ⟨hr, hes⟩ := ih hg
      have ht := take_restated hg (le_refl 2)
      rw [more.flatMap_text] at ht
      cases hf with
      | refl =>
        have he : f.endsBefore fresh (gs.flatMap Form.text) := by
          rw [← Form.endsBefore_of_take ht]
          exact fst.endsBefore
        refine ⟨.cons (fst.before he) hr, ?_⟩
        rw [← singleton_append, essences_append, hes, ← essences_append, singleton_append]
      | @comment a b ha =>
        obtain ⟨body, hb, hc⟩ := fst.blockComment rfl
        obtain rfl : a = body := by simpa using hb
        refine ⟨.cons (lexes_blockComment fresh sl (hc.respaced ha) _) hr, ?_⟩
        have hin := (ha.append_left ['/', '*']).ink_eq
        rw [essences_cons (by simp), essences_cons (by simp), hes]
        simpa [essence] using hin

end CustomElement.Script
