import CustomElement.Proofs.Files.Writing

/-!
# The files of a tree after writing

Writing a file adds at most that file to the list, and keeps the order of the others: a selection of files that leaves
it out is the same before and after (`listing_write`).
-/

namespace CustomElement.Files.Tree

open List

variable {entries : List (String × Tree)} {names place : List String} {contents : String}
  {part t t' : Tree} {name : String} {p : List String → Bool}

section Sorting

variable {α : Type*} {le : α → α → Bool}

lemma takeWhile_append_of_le {a : α} {front back : List α} (hf : ∀ b ∈ front, (!le a b))
    (hb : ∀ b ∈ back, le a b) : (front ++ back).takeWhile (fun b => !le a b) = front := by
  rw [takeWhile_append_of_pos hf]
  cases back with
  | nil => simp
  | cons b back => simp [hb b (by simp)]

/-- Sorting keeps the order of equal elements, so others can be left out before or after. -/
lemma mergeSort_filter (ht : ∀ a b c, le a b → le b c → le a c)
    (hto : ∀ a b, (le a b || le b a)) (p : α → Bool) (l : List α) :
    (l.mergeSort le).filter p = (l.filter p).mergeSort le := by
  induction l with
  | nil => simp
  | cons a l ih =>
    obtain ⟨fr, back, hc, hr, hf⟩ := mergeSort_cons ht hto a l
    have hs := pairwise_mergeSort ht hto (a :: l)
    rw [hc, pairwise_append, pairwise_cons] at hs
    have hba := hs.2.1.1
    rw [hc, filter_append]
    by_cases ha : p a
    · rw [filter_cons_of_pos ha, filter_cons_of_pos ha]
      obtain ⟨fr', back', hc', hr', hf'⟩ := mergeSort_cons ht hto a (l.filter p)
      have hs' := pairwise_mergeSort ht hto (a :: l.filter p)
      rw [hc', pairwise_append, pairwise_cons] at hs'
      have hba' := hs'.2.1.1
      -- Both cut the same sorted list before the first element that is not less than `a`.
      have hsa : fr.filter p ++ back.filter p = fr' ++ back' := by
        rw [← filter_append, ← hr, ih, hr']
      have hcu := congrArg (takeWhile fun b => !le a b) hsa
      rw [takeWhile_append_of_le (fun b hb => hf b (mem_filter.1 hb).1)
        (fun b hb => hba b (mem_filter.1 hb).1), takeWhile_append_of_le hf' hba'] at hcu
      rw [hcu] at hsa
      rw [hc', hcu, append_cancel_left hsa]
    · rw [filter_cons_of_neg ha, filter_cons_of_neg ha, ← ih, hr, filter_append]

end Sorting

def listing (t : Tree) : List (List String) := t.files.map Prod.fst

def byName {α : Type} (a b : String × α) : Bool := decide (a.1 ≤ b.1)

lemma byName_trans {α : Type} (a b c : String × α) (ha : byName a b) (hb : byName b c) : byName a c := by
  simp only [byName, decide_eq_true_eq] at ha hb ⊢
  exact String.le_trans ha hb

lemma byName_total {α : Type} (a b : String × α) : (byName a b || byName b a) := by
  simp only [byName, Bool.or_eq_true, decide_eq_true_eq]
  exact String.le_total a.1 b.1

/-- The entries of a directory with the selected files below each, if there are any. -/
def selected (p : List String → Bool) (entries : List (String × Tree)) : List (String × List (List String)) :=
  (entries.map fun e => (e.1, (e.2.listing.map (e.1 :: ·)).filter p)).filter fun e => !e.2.isEmpty

lemma filesOfEntries_eq (entries : List (String × Tree)) :
    filesOfEntries entries = entries.map fun e => (e.1, e.2.files) := by
  induction entries with
  | nil => rw [filesOfEntries]; rfl
  | cons e entries ih => rw [filesOfEntries, ih]; rfl

lemma flatMap_filter_nonempty {α : Type*} (l : List (String × List α)) :
    (l.filter fun e => !e.2.isEmpty).flatMap Prod.snd = l.flatMap Prod.snd := by
  induction l with
  | nil => rfl
  | cons e l ih =>
    cases he : e.2.isEmpty with
    | true => simp [ih, isEmpty_iff.1 he]
    | false => simp [he, ih]

lemma listing_filter (p : List String → Bool) (entries : List (String × Tree)) :
    (Tree.dir entries).listing.filter p = ((selected p entries).mergeSort byName).flatMap Prod.snd := by
  have hs : ((filesOfEntries entries).mergeSort byName).map
      (fun e => (e.1, ((e.2.map Prod.fst).map (e.1 :: ·)).filter p)) =
      (entries.map fun e => (e.1, (e.2.listing.map (e.1 :: ·)).filter p)).mergeSort byName := by
    have hk : ∀ a ∈ filesOfEntries entries, ∀ b ∈ filesOfEntries entries, byName a b =
        byName (a.1, ((a.2.map Prod.fst).map (a.1 :: ·)).filter p)
          (b.1, ((b.2.map Prod.fst).map (b.1 :: ·)).filter p) := fun _ _ _ _ => rfl
    rw [map_mergeSort hk, filesOfEntries_eq, map_map]
    rfl
  rw [selected, ← mergeSort_filter byName_trans byName_total, flatMap_filter_nonempty, ← hs, listing, files,
    flatMap_map, map_flatMap, filter_flatMap]
  refine flatMap_congr fun e _ => ?_
  simp [Function.comp_def]

lemma listing_dir_nil : (Tree.dir []).listing = [] := by
  simp [listing, files, filesOfEntries]

lemma selected_setEntry {below : Tree} (h : (below.listing.map (name :: ·)).filter p =
      (((entries.lookup name).getD (.dir [])).listing.map (name :: ·)).filter p) :
    selected p (setEntry name below entries) = selected p entries := by
  induction entries with
  | nil =>
    have hn : (below.listing.map (name :: ·)).filter p = [] := by simpa [listing_dir_nil] using h
    simp [selected, setEntry, hn]
  | cons e entries ih =>
    obtain ⟨m, old⟩ := e
    by_cases hm : m = name
    · subst hm
      have hs : (below.listing.map (m :: ·)).filter p = (old.listing.map (m :: ·)).filter p := by
        simpa using h
      simp [selected, setEntry, hs]
    · have hl : lookup name ((m, old) :: entries) = entries.lookup name := by
        rw [lookup_cons, beq_eq_false_iff_ne.2 (Ne.symm hm)]
      rw [hl] at h
      rw [setEntry, if_neg (by simpa using hm)]
      simp only [selected, map_cons, filter_cons] at ih ⊢
      rw [ih h]

lemma listing_setEntry {below : Tree} (h : below.listing.filter (fun names => p (name :: names)) =
      ((entries.lookup name).getD (.dir [])).listing.filter fun names => p (name :: names)) :
    (Tree.dir (setEntry name below entries)).listing.filter p = (Tree.dir entries).listing.filter p := by
  rw [listing_filter, listing_filter, selected_setEntry]
  rw [filter_map, filter_map]
  exact congrArg (map (name :: ·)) h

lemma listing_makeDirs (h : t.makeDirs? names = some t') (p : List String → Bool) :
    t'.listing.filter p = t.listing.filter p := by
  induction names generalizing t t' p with
  | nil =>
    cases t with
    | file contents => cases h
    | dir entries =>
      obtain rfl : Tree.dir entries = t' := by simpa [makeDirs?, isDir] using h
      rfl
  | cons name names ih =>
    cases t with
    | file contents => cases h
    | dir entries =>
      obtain ⟨below, hb, hd⟩ := Option.bind_eq_some_iff.1 h
      obtain rfl : Tree.dir (setEntry name below entries) = t' := Option.some.inj hd
      exact listing_setEntry (ih hb _)

lemma listing_file (contents : String) : (Tree.file contents).listing = [[]] := by
  simp [listing, files]

lemma listing_put (h : t.put? names contents = some t') (p : List String → Bool)
    (hp : p names = false ∨ ∃ old, t.look? names = some (.file old)) : t'.listing.filter p = t.listing.filter p := by
  fun_induction put? t names contents generalizing t' p with
  | case1 old contents =>
    cases h
    rw [listing_file, listing_file]
  | case2 => cases h
  | case3 => cases h
  | case4 entries name contents below hl => cases h
  | case5 entries name contents hn =>
    cases h
    refine listing_setEntry ?_
    rw [listing_file]
    cases hl : entries.lookup name with
    | none =>
      have ho : p [name] = false := by simpa [hl] using hp
      simp [ho, listing_dir_nil]
    | some below =>
      cases below with
      | file old => rw [Option.getD_some, listing_file]
      | dir inner => exact absurd hl (hn inner)
  | case6 entries name next r contents ih =>
    obtain ⟨old, hl, h⟩ := Option.bind_eq_some_iff.1 h
    obtain ⟨below, hb, hd⟩ := Option.bind_eq_some_iff.1 h
    obtain rfl : Tree.dir (setEntry name below entries) = t' := Option.some.inj hd
    refine listing_setEntry ?_
    rw [hl, Option.getD_some]
    exact ih old hb _ (by simpa [hl] using hp)

lemma exists_find?_makeDirs (h : t.makeDirs? names = some t') (hp : t.find? place = some part) :
    ∃ part', t'.find? place = some part' ∧ ∀ p, part'.listing.filter p = part.listing.filter p := by
  induction place generalizing t t' names with
  | nil =>
    obtain rfl : t = part := by cases t <;> exact Option.some.inj hp
    exact ⟨t', by cases t' <;> rfl, fun p => listing_makeDirs h p⟩
  | cons n place ih =>
    cases t with
    | file contents => cases hp
    | dir entries =>
      obtain ⟨old, hl, ho⟩ := Option.bind_eq_some_iff.1 hp
      cases names with
      | nil =>
        obtain rfl : Tree.dir entries = t' := by simpa [makeDirs?, isDir] using h
        exact ⟨part, hp, fun _ => rfl⟩
      | cons name names =>
        obtain ⟨below, hb, hd⟩ := Option.bind_eq_some_iff.1 h
        obtain rfl : Tree.dir (setEntry name below entries) = t' := Option.some.inj hd
        by_cases hn : n = name
        · subst hn
          rw [hl] at hb
          obtain ⟨part', hp', hli⟩ := ih hb ho
          exact ⟨part', by simp [find?, lookup_setEntry, hp'], hli⟩
        · exact ⟨part, by simp [find?, lookup_setEntry, hn, hl, ho], fun _ => rfl⟩

lemma exists_find?_foldlM_makeDirs {places : List (List String)} (h : places.foldlM makeDirs? t = some t')
    (hp : t.find? place = some part) :
    ∃ part', t'.find? place = some part' ∧ ∀ p, part'.listing.filter p = part.listing.filter p := by
  induction places generalizing t part with
  | nil =>
    cases h
    exact ⟨part, hp, fun _ => rfl⟩
  | cons fst places ih =>
    rw [foldlM_cons] at h
    obtain ⟨made, hm, hmo⟩ := Option.bind_eq_some_iff.1 h
    obtain ⟨part', hp', hl⟩ := exists_find?_makeDirs hm hp
    obtain ⟨part'', hp'', hl'⟩ := ih hmo hp'
    exact ⟨part'', hp'', fun p => (hl' p).trans (hl p)⟩

lemma exists_of_put (h : (Tree.dir entries).put? (name :: names) contents = some t') {n : String}
    {old : Tree} (hl : entries.lookup n = some old) :
    ∃ below, (n = name → old.put? names contents = some below) ∧ Tree.dir (setEntry name below entries) = t' := by
  cases names with
  | nil =>
    rw [put?] at h
    split at h
    · cases h
    · rename_i hn
      refine ⟨.file contents, ?_, Option.some.inj h⟩
      rintro rfl
      cases old with
      | file pre => rfl
      | dir inner => exact absurd hl (hn inner)
  | cons next r =>
    obtain ⟨below, hb, h⟩ := Option.bind_eq_some_iff.1 h
    obtain ⟨made, hm, hd⟩ := Option.bind_eq_some_iff.1 h
    refine ⟨made, ?_, Option.some.inj hd⟩
    rintro rfl
    rw [hl] at hb
    rwa [Option.some.inj hb]

lemma exists_find?_put (h : t.put? names contents = some t') (hpa : t.find? place = some part) :
    ∃ part', t'.find? place = some part' ∧
      ∀ p, (∀ r, names = place ++ r → p r = false ∨ ∃ old, t.look? names = some (.file old)) →
        part'.listing.filter p = part.listing.filter p := by
  induction place generalizing t t' names with
  | nil =>
    obtain rfl : t = part := by cases t <;> exact Option.some.inj hpa
    exact ⟨t', by cases t' <;> rfl, fun p hp => listing_put h p (hp names rfl)⟩
  | cons n place ih =>
    cases t with
    | file contents => cases hpa
    | dir entries =>
      obtain ⟨old, hl, ho⟩ := Option.bind_eq_some_iff.1 hpa
      cases names with
      | nil => cases h
      | cons name names =>
        obtain ⟨below, hb, rfl⟩ : ∃ below, (n = name → old.put? names contents = some below) ∧
            Tree.dir (setEntry name below entries) = t' := exists_of_put h hl
        by_cases hn : n = name
        · subst hn
          obtain ⟨part', hpa', hli⟩ := ih (hb rfl) ho
          refine ⟨part', by simp [find?, lookup_setEntry, hpa'], fun p hp => hli p fun r hr => ?_⟩
          simpa [hl] using hp r (by rw [hr]; rfl)
        · exact ⟨part, by simp [find?, lookup_setEntry, hn, hl, ho], fun _ _ => rfl⟩

lemma listing_write {path : Path} (h : t.write? path contents = some t') (hpa : t.find? place = some part) :
    ∃ part', t'.find? place = some part' ∧ ∀ p, (∀ r, path.place? = some (place ++ r) → p r = false ∨
          ∃ old, t.look? (place ++ r) = some (.file old)) → part'.listing.filter p = part.listing.filter p := by
  obtain ⟨made, target, hm, ht, -, hpu⟩ := write?_eq_some.1 h
  obtain ⟨part', hpa', hl⟩ := exists_find?_foldlM_makeDirs hm hpa
  obtain ⟨part'', hpa'', hl'⟩ := exists_find?_put hpu hpa'
  refine ⟨part'', hpa'', fun p hp => (hl' p fun r hr => ?_).trans (hl p)⟩
  subst hr
  refine (hp r ht).imp_right fun ⟨old, ho⟩ => ⟨old, ?_⟩
  rw [look?_made hm, if_neg, ho]
  intro hon
  obtain ⟨passed, hps, hpr⟩ := hon
  exact foldlM_makeDirs_isSome_iff.1 (by rw [hm]; rfl) passed hps _ hpr old ho

end CustomElement.Files.Tree
