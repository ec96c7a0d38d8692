import CustomElement.Proofs.Files.Listing
import CustomElement.Project.Build

/-!
# Paths and the places they lead to

What is left of an absolute path by `Path.clean` goes straight down from the root (`steps_clean`), so what is read
there depends on the entry at its place only (`read?_of_straight`).
-/

namespace CustomElement.Files

open List

variable {entries : List (String × Tree)} {cs : List Char} {names place : List String} {p : Path} {contents : String}
  {part t : Tree} {name : String}

def IsName (name : String) : Prop := name ≠ "" ∧ name ≠ "." ∧ name ≠ ".." ∧ '/' ∉ name.toList

instance (name : String) : Decidable (IsName name) := inferInstanceAs (Decidable (_ ∧ _))

namespace Path

lemma split_ne_nil (cs : List Char) : split cs ≠ [] := by
  induction cs with
  | nil => simp [split]
  | cons c cs ih =>
    rw [split]
    split
    · simp
    · split <;> simp

lemma split_append (a b : List Char) : split (a ++ '/' :: b) = split a ++ split b := by
  induction a with
  | nil => simp [split]
  | cons c a ih =>
    rw [cons_append, split, split]
    split
    · simp [ih]
    · obtain ⟨piece, r, hs⟩ := exists_cons_of_ne_nil (split_ne_nil a)
      simp [ih, hs]

lemma split_of_not_mem (h : '/' ∉ cs) : split cs = [cs] := by
  induction cs with
  | nil => rfl
  | cons c cs ih =>
    obtain ⟨hc, hcs⟩ : '/' ≠ c ∧ '/' ∉ cs := by simpa using h
    rw [split, if_neg (by simpa using hc.symm), ih hcs]

lemma not_mem_of_mem_split {piece : List Char} (h : piece ∈ split cs) : '/' ∉ piece := by
  induction cs generalizing piece with
  | nil =>
    obtain rfl : piece = [] := by simpa [split] using h
    simp
  | cons c cs ih =>
    obtain ⟨fst, r, hs⟩ := exists_cons_of_ne_nil (split_ne_nil cs)
    rw [split] at h
    split at h
    · rcases mem_cons.1 h with rfl | h
      · simp
      · exact ih h
    · rename_i hc
      rw [hs] at h ih
      rcases mem_cons.1 h with rfl | h
      · rw [mem_cons, not_or]
        exact ⟨fun heq => hc (by simp [← heq]), ih (by simp)⟩
      · exact ih (by simp [h])

lemma toList_intercalate_cons_cons (name next : String) (names : List String) :
    ("/".intercalate (name :: next :: names)).toList = name.toList ++ '/' :: ("/".intercalate (next :: names)).toList := by
  rw [String.intercalate_cons_cons]
  simp

def stepsBehind (cs : List Char) : List Step := ((split cs).map String.ofList).filterMap (step? false)

lemma stepsBehind_append (a b : List Char) : stepsBehind (a ++ '/' :: b) = stepsBehind a ++ stepsBehind b := by
  simp [stepsBehind, split_append]

@[simp] lemma stepsBehind_nil : stepsBehind [] = [] := rfl

lemma stepsBehind_name (h : IsName name) : stepsBehind name.toList = [.into name] := by
  obtain ⟨he, hd, hu, hs⟩ := h
  simp [stepsBehind, split_of_not_mem hs, step?, he, hd, hu]

lemma mem_stepsBehind {s : Step} (h : s ∈ stepsBehind cs) : s = .up ∨ ∃ name, s = .into name ∧ IsName name := by
  obtain ⟨piece, hp, hs⟩ := mem_filterMap.1 h
  obtain ⟨chars, hc, rfl⟩ := mem_map.1 hp
  unfold step? at hs
  split at hs
  · cases hs
  · split at hs
    · cases hs
    · split at hs
      · exact .inl (Option.some.inj hs).symm
      · refine .inr ⟨_, (Option.some.inj hs).symm, ?_⟩
        simp_all [IsName, not_mem_of_mem_split hc]

lemma exists_of_isAbsolute (h : p.isAbsolute) : ∃ cs, p.text.toList = '/' :: cs := by
  rw [isAbsolute, beq_iff_eq] at h
  exact head?_eq_some_iff.1 h

lemma isAbsolute_of_toList (h : p.text.toList = '/' :: cs) : p.isAbsolute := by
  simp [isAbsolute, h]

lemma steps_of_toList (h : p.text.toList = '/' :: cs) : p.steps = .root :: stepsBehind cs := by
  have hs : split p.text.toList = [] :: split cs := by rw [h, split]; rfl
  rw [steps, isAbsolute_of_toList h, if_pos rfl, pieces, hs]
  rfl

lemma steps_join {q : Path} (hp : p.isAbsolute) (hq : q.isAbsolute = false) :
    (p.join q).isAbsolute ∧ (p.join q).steps = p.steps ++ stepsBehind q.text.toList := by
  obtain ⟨cs, hc⟩ := exists_of_isAbsolute hp
  have hem : (p.text == "") = false := by
    rw [beq_eq_false_iff_ne]
    intro he
    rw [he] at hc
    cases hc
  rw [join, hq, if_neg (by simp), hem, Bool.false_or]
  split
  · rename_i hl
    -- The path ends with the slash that the second one is put behind.
    have hj : (p.text ++ q.text).toList = '/' :: (cs ++ q.text.toList) := by simp [hc]
    refine ⟨isAbsolute_of_toList hj, ?_⟩
    rw [steps_of_toList hj, steps_of_toList hc]
    rcases eq_nil_or_concat cs with rfl | ⟨fr, c, rfl⟩
    · simp
    · obtain rfl : c = '/' := by
        rw [hc, beq_iff_eq, concat_eq_append, ← cons_append, getLast?_append] at hl
        simpa using hl
      rw [concat_eq_append, append_assoc, singleton_append, stepsBehind_append,
        stepsBehind_append, stepsBehind_nil, append_nil]
      rfl
  · have hj : (p.text ++ "/" ++ q.text).toList = '/' :: (cs ++ '/' :: q.text.toList) := by simp [hc]
    refine ⟨isAbsolute_of_toList hj, ?_⟩
    rw [steps_of_toList hj, steps_of_toList hc, stepsBehind_append]
    rfl

lemma isAbsolute_of_not_mem {x : String} (h : '/' ∉ x.toList) : (Path.mk x).isAbsolute = false := by
  rw [isAbsolute, beq_eq_false_iff_ne]
  intro hh
  obtain ⟨cs, hc⟩ := head?_eq_some_iff.1 hh
  exact h (by rw [hc]; simp)

lemma isAbsolute_name (h : IsName name) : (Path.mk name).isAbsolute = false :=
  isAbsolute_of_not_mem h.2.2.2

lemma steps_below (hp : p.isAbsolute) (hn : ∀ n ∈ names, IsName n) : (Project.below p names).isAbsolute ∧
      (Project.below p names).steps = p.steps ++ names.map .into := by
  induction names generalizing p with
  | nil => exact ⟨hp, by simp [Project.below]⟩
  | cons name names ih =>
    obtain ⟨hna, hn⟩ := forall_mem_cons.1 hn
    obtain ⟨ha, hs⟩ := steps_join hp (isAbsolute_name hna)
    obtain ⟨ha', hs'⟩ := ih ha hn
    refine ⟨ha', ?_⟩
    rw [stepsBehind_name hna] at hs
    rw [Project.below, foldl_cons, ← Project.below, hs', hs]
    simp

lemma trimPieces_eq_nil {ps : List String} : trimPieces false ps = [] ↔ ps.filterMap (step? false) = [] := by
  induction ps with
  | nil => simp [trimPieces]
  | cons piece ps ih =>
    rw [trimPieces, filterMap_cons]
    split
    · rename_i hn
      rw [ih.1 hn]
      cases step? false piece <;> simp
    · rename_i kept hk
      have hne : ps.filterMap (step? false) ≠ [] := fun hn => hk (ih.2 hn)
      cases step? false piece <;> simp [hne]

lemma isAbsolute_directory (hp : p.isAbsolute) (hr : p.steps ≠ [.root]) : p.directory.isAbsolute := by
  obtain ⟨cs, hcs⟩ := exists_of_isAbsolute hp
  have hpi : p.pieces = "" :: (split cs).map String.ofList := by
    rw [pieces, hcs, split]
    rfl
  have ht : ∀ r, trimPieces true ("" :: r) = [] ∨ ∃ piece more, trimPieces true ("" :: r) = "" :: piece :: more := by
    intro r
    rw [trimPieces]
    split
    · exact .inl (by simp [step?])
    · rename_i hk
      obtain ⟨piece, more, hc⟩ := exists_cons_of_ne_nil hk
      exact .inr ⟨piece, more, by rw [hc]⟩
  obtain ⟨piece, more, hk⟩ : ∃ piece more, trimPieces true p.pieces = "" :: piece :: more := by
    rw [hpi]
    refine (ht _).resolve_left fun hn => hr ?_
    rw [trimPieces] at hn
    split at hn
    · rename_i hs
      rw [steps_of_toList hcs, stepsBehind, trimPieces_eq_nil.1 hs]
    · cases hn
  rw [directory, parent?, hk]
  dsimp only
  rw [dropLast_cons_cons]
  rcases ht (piece :: more).dropLast with hn | ⟨fst, above, ha⟩
  · rw [hn, hp]
    rfl
  · rw [ha]
    exact isAbsolute_of_toList (toList_intercalate_cons_cons "" fst above)

lemma place?_eq (h : p.steps ≠ []) : p.place? = some (namesOf (p.steps.foldl cleanStep [])) := by
  rw [place?, trail_eq, getLast?_map]
  obtain ⟨s, r, hs⟩ := exists_cons_of_ne_nil h
  rw [hs, scanl_cons, tail_cons, getLast?_scanl]
  rfl

lemma exists_foldl_cleanStep {steps : List Step}
    (hst : ∀ s ∈ steps, s = .up ∨ ∃ name, s = .into name ∧ IsName name) (hna : ∀ n ∈ names, IsName n) :
    ∃ names' : List String, (∀ n ∈ names', IsName n) ∧ steps.foldl cleanStep ((names.map Step.into).reverse ++ [.root]) =
        (names'.map Step.into).reverse ++ [.root] := by
  induction steps generalizing names with
  | nil => exact ⟨names, hna, rfl⟩
  | cons s steps ih =>
    obtain ⟨hs, hm⟩ := forall_mem_cons.1 hst
    rw [foldl_cons]
    rcases hs with rfl | ⟨name, rfl, hnm⟩
    · rcases eq_nil_or_concat names with rfl | ⟨fr, last, rfl⟩
      · exact ih hm hna
      · have hfr : ∀ n ∈ fr, IsName n := fun n hn => hna n (by simp [hn])
        obtain ⟨names', hna', hf⟩ := ih hm hfr
        exact ⟨names', hna', by simpa [cleanStep] using hf⟩
    · have ha : ∀ n ∈ names ++ [name], IsName n := by
        simpa [or_imp, forall_and] using ⟨hna, hnm⟩
      obtain ⟨names', hna', hf⟩ := ih hm ha
      exact ⟨names', hna', by simpa [cleanStep] using hf⟩

lemma pieces_intercalate {pieces : List String} (hn : pieces ≠ []) (h : ∀ piece ∈ pieces, '/' ∉ piece.toList) :
    (Path.mk ("/".intercalate pieces)).pieces = pieces := by
  induction pieces with
  | nil => exact absurd rfl hn
  | cons piece pieces ih =>
    obtain ⟨hpi, hp⟩ := forall_mem_cons.1 h
    have ho : split piece.toList = [piece.toList] := split_of_not_mem hpi
    cases pieces with
    | nil => simp [Path.pieces, ho]
    | cons next pieces =>
      have hr := ih (by simp) hp
      rw [Path.pieces] at hr ⊢
      rw [toList_intercalate_cons_cons, split_append, map_append, hr, ho]
      simp

lemma stepsBehind_pieces {ps : List String} (h : ∀ piece ∈ ps, '/' ∉ piece.toList) :
    stepsBehind ("/".intercalate ps).toList = ps.filterMap (step? false) := by
  rcases eq_or_ne ps [] with rfl | hn
  · rfl
  · exact congrArg (filterMap (step? false)) (pieces_intercalate hn h)

lemma stepsBehind_intercalate (h : ∀ n ∈ names, IsName n) :
    stepsBehind ("/".intercalate names).toList = names.map .into := by
  rw [stepsBehind_pieces fun n hn => (h n hn).2.2.2, ← filterMap_eq_map]
  refine filterMap_congr fun n hn => ?_
  obtain ⟨he, hd, hu, -⟩ := h n hn
  simp [step?, he, hd, hu]

lemma steps_clean (hp : p.isAbsolute) : ∃ names : List String, (∀ n ∈ names, IsName n) ∧ p.clean.isAbsolute ∧
      p.clean.steps = .root :: names.map .into := by
  obtain ⟨cs, hcs⟩ := exists_of_isAbsolute hp
  have hs : ∀ s ∈ stepsBehind cs, s = .up ∨ ∃ name, s = .into name ∧ IsName name := fun s => mem_stepsBehind
  obtain ⟨names, hn, hf⟩ := exists_foldl_cleanStep hs (forall_mem_nil IsName)
  have ht : p.clean.text = "/" ++ "/".intercalate names := by
    have hr : cleanStep [] .root = (([] : List String).map Step.into).reverse ++ [.root] := rfl
    rw [clean, steps_of_toList hcs, foldl_cons, hr, hf]
    simp only [reverse_append, reverse_reverse, reverse_singleton, singleton_append, ofSteps, map_map]
    congr 2
    simp [Function.comp_def, Step.text]
  have hc : p.clean.text.toList = '/' :: ("/".intercalate names).toList := by
    rw [ht]
    simp
  exact ⟨names, hn, isAbsolute_of_toList hc, by
    rw [steps_of_toList hc, stepsBehind_intercalate hn]⟩

lemma mem_dropLast_scanl {done : List Step}
    (h : place ∈ (((names.map Step.into).scanl cleanStep done).map namesOf).dropLast) :
    ∃ front r, names = front ++ r ∧ r ≠ [] ∧ place = namesOf done ++ front := by
  induction names generalizing done with
  | nil => simp at h
  | cons name names ih =>
    have hn : (((names.map Step.into).scanl cleanStep (cleanStep done (.into name))).map namesOf) ≠ [] := by
      cases names <;> simp
    rw [map_cons, scanl_cons, map_cons, dropLast_cons_of_ne_nil hn] at h
    rcases mem_cons.1 h with rfl | h
    · exact ⟨[], name :: names, rfl, by simp, by simp⟩
    · obtain ⟨front, r, rfl, hr, rfl⟩ := ih h
      exact ⟨name :: front, r, rfl, hr, by simp [cleanStep, namesOf]⟩

lemma mem_trail_of_into {q : Path} (h : q.steps = p.steps ++ names.map .into) (hp : p.steps ≠ []) (hne : names ≠ [])
    {passed : List String} (hpa : passed ∈ q.trail.dropLast) : passed ∈ p.trail.dropLast ∨ p.place? = some passed ∨
      ∃ place front r, p.place? = some place ∧ names = front ++ r ∧ r ≠ [] ∧ passed = place ++ front := by
  obtain ⟨name, names, rfl⟩ := exists_cons_of_ne_nil hne
  generalize hd : p.steps.foldl cleanStep [] = done
  have hpl : p.place? = some (namesOf done) := by rw [place?_eq hp, hd]
  have ht : q.trail = p.trail ++ (((names.map Step.into).scanl cleanStep (cleanStep done (.into name))).map namesOf) := by
    obtain ⟨fst, steps, hs⟩ := exists_cons_of_ne_nil hp
    rw [trail_eq, trail_eq, h, scanl_append, hd, map_cons, scanl_cons, tail_cons, hs,
      scanl_cons, cons_append, tail_cons, tail_cons, map_append]
  have hl : p.trail ≠ [] := by
    intro hn
    rw [place?, hn] at hpl
    cases hpl
  rw [ht, dropLast_append_of_ne_nil (by cases names <;> simp)] at hpa
  rcases mem_append.1 hpa with hm | hm
  · rw [← dropLast_append_getLast hl] at hm
    rcases mem_append.1 hm with hm | hm
    · exact .inl hm
    · refine .inr (.inl ?_)
      rw [mem_singleton.1 hm, place?, getLast?_eq_some_getLast hl]
  · obtain ⟨front, r, rfl, hr, rfl⟩ := mem_dropLast_scanl hm
    exact .inr (.inr ⟨_, name :: front, r, hpl, rfl, hr, by simp [cleanStep, namesOf]⟩)

lemma mem_trail_of_straight (h : p.steps = .root :: names.map .into) (hp : place ∈ p.trail.dropLast) :
    ∃ r, names = place ++ r ∧ r ≠ [] := by
  rw [trail_eq, h, scanl_cons, tail_cons] at hp
  obtain ⟨fr, r, rfl, hr, rfl⟩ := mem_dropLast_scanl hp
  exact ⟨r, rfl, hr⟩

lemma namesOf_into (names : List String) (done : List Step) :
    namesOf ((names.map Step.into).foldl cleanStep done) = namesOf done ++ names := by
  induction names generalizing done with
  | nil => simp
  | cons name names ih =>
    rw [map_cons, foldl_cons, ih]
    simp [cleanStep, namesOf]

lemma place?_of_straight (h : p.steps = .root :: names.map .into) : p.place? = some names := by
  rw [place?_eq (by simp [h]), h, foldl_cons, namesOf_into]
  rfl

end Path

namespace Tree

def contents? (t : Tree) (names : List String) : Option String :=
  match t.look? names with
  | some (.file contents) => some contents
  | _ => none

lemma contents?_eq_some : t.contents? names = some contents ↔ t.look? names = some (.file contents) := by
  unfold contents?
  split <;> simp_all

lemma look?_of_append {above r : List String} (hr : r ≠ []) {e : Entry}
    (h : t.look? (above ++ r) = some e) : t.look? above = some .dir := by
  induction above generalizing t with
  | nil =>
    obtain ⟨name, r, rfl⟩ := exists_cons_of_ne_nil hr
    cases t with
    | file contents => cases h
    | dir entries => rfl
  | cons name above ih =>
    cases t with
    | file contents => cases h
    | dir entries =>
      rw [cons_append, look?_dir_cons] at h
      obtain ⟨below, hl, hb⟩ := Option.bind_eq_some_iff.1 h
      rw [look?_dir_cons, hl]
      exact ih hb

lemma at?_eq_some : t.at? p = some part ↔ (∀ passed ∈ p.trail.dropLast, t.look? passed = some .dir) ∧
      (∃ place, p.place? = some place ∧ t.find? place = some part) ∧ (part.isDir ∨ p.wantsDirectory = false) := by
  have ha : p.trail.dropLast.all t.hasDir ↔ ∀ passed ∈ p.trail.dropLast, t.look? passed = some .dir := by
    simp only [all_eq_true, hasDir_iff]
  rw [← ha, at?]
  split
  · rename_i hd
    rw [Option.filter_eq_some_iff, Option.bind_eq_some_iff]
    simp [hd, Path.place?]
  · rename_i hd
    simp [hd]

lemma read?_eq_some : t.read? p = some contents ↔ (∀ passed ∈ p.trail.dropLast, t.look? passed = some .dir) ∧
      p.wantsDirectory = false ∧ ∃ place, p.place? = some place ∧ t.look? place = some (.file contents) := by
  have hfo : t.read? p = some contents ↔ t.at? p = some (.file contents) := by
    unfold read?
    split <;> simp_all
  have he : ∀ place, t.look? place = some (.file contents) ↔ t.find? place = some (.file contents) := by
    intro place
    rw [look?, Option.map_eq_some_iff]
    constructor
    · rintro ⟨below, hf, hb⟩
      cases below with
      | dir entries => cases hb
      | file old => rwa [← Entry.file.inj hb]
    · exact fun hf => ⟨_, hf, rfl⟩
  rw [hfo, at?_eq_some]
  simp only [he, isDir, Bool.false_eq_true, false_or]
  exact and_congr_right fun _ => and_comm

lemma read?_of_straight (h : p.steps = .root :: names.map .into) (t : Tree) :
    t.read? p = if p.wantsDirectory then none else t.contents? names := by
  ext contents
  rw [read?_eq_some, Path.place?_of_straight h]
  constructor
  · rintro ⟨-, hw, place, hpl, hf⟩
    cases hpl
    rw [if_neg (by simp [hw]), contents?_eq_some.2 hf]
  · intro hr
    split at hr
    · cases hr
    · rename_i hw
      have hf := contents?_eq_some.1 hr
      refine ⟨fun passed hp => ?_, by simpa using hw, names, rfl, hf⟩
      obtain ⟨r, rfl, hre⟩ := Path.mem_trail_of_straight h hp
      exact look?_of_append hre hf

lemma Keeps.read? {u : Tree} (h : Keeps t u) (hr : t.read? p = some contents)
    (hpl : ∀ place, p.place? = some place → u.look? place = t.look? place) : u.read? p = some contents := by
  obtain ⟨hd, hw, place, hp, hf⟩ := read?_eq_some.1 hr
  refine read?_eq_some.2 ⟨fun passed hpa => h.dir passed (hd passed hpa), hw, place, hp, ?_⟩
  rw [hpl place hp, hf]

/-- At every depth, the entries of a directory have distinct names of files. -/
def NamesSound (t : Tree) : Prop :=
  ∀ place entries, t.find? place = some (.dir entries) → (entries.map Prod.fst).Nodup ∧ ∀ e ∈ entries, IsName e.1

lemma namesSound_file (contents : String) : NamesSound (.file contents) := by
  intro place entries h
  cases place <;> cases h

lemma namesSound_dir (hn : (entries.map Prod.fst).Nodup) (hna : ∀ name ∈ entries.map Prod.fst, IsName name)
    (hb : ∀ e ∈ entries, NamesSound e.2) : NamesSound (.dir entries) := by
  intro place found h
  cases place with
  | nil =>
    obtain rfl : entries = found := by simpa [find?] using h
    exact ⟨hn, fun e he => hna e.1 (mem_map_of_mem he)⟩
  | cons name place =>
    obtain ⟨t, hl, hf⟩ := Option.bind_eq_some_iff.1 h
    obtain ⟨pre, aft, hs, -⟩ := lookup_eq_some_iff.1 hl
    exact hb (name, t) (by simp [hs]) place found hf

structure Sound (t : Tree) : Prop where
  root : t.isDir = true
  names : NamesSound t

lemma mem_listing_dir : names ∈ (Tree.dir entries).listing ↔ ∃ e ∈ entries, ∃ r, names = e.1 :: r ∧ r ∈ e.2.listing := by
  have hf := listing_filter (fun _ => true) entries
  rw [filter_eq_self.2 (by simp)] at hf
  rw [hf, mem_flatMap]
  simp only [mem_mergeSort, selected, mem_filter, mem_map]
  constructor
  · rintro ⟨_, ⟨⟨e, he, rfl⟩, -⟩, hm⟩
    obtain ⟨r, hr, rfl⟩ := mem_map.1 (mem_filter.1 hm).1
    exact ⟨e, he, r, rfl, hr⟩
  · rintro ⟨e, he, r, rfl, hr⟩
    have hm : e.1 :: r ∈ (e.2.listing.map (e.1 :: ·)).filter fun _ => true := mem_filter.2 ⟨mem_map_of_mem hr, rfl⟩
    refine ⟨_, ⟨⟨e, he, rfl⟩, ?_⟩, hm⟩
    cases hem : ((e.2.listing.map (e.1 :: ·)).filter fun _ => true) with
    | nil => rw [hem] at hm; cases hm
    | cons a l => rfl

lemma lookup_of_mem (h : (entries.map Prod.fst).Nodup) {e : String × Tree} (he : e ∈ entries) :
    entries.lookup e.1 = some e.2 := by
  induction entries with
  | nil => cases he
  | cons fi entries ih =>
    obtain ⟨n, below⟩ := fi
    obtain ⟨hnw, hr⟩ := nodup_cons.1 h
    rcases mem_cons.1 he with rfl | hm
    · simp
    · have hn : e.1 ∈ entries.map Prod.fst := mem_map_of_mem hm
      have hne : e.1 ≠ n := fun heq => hnw (heq ▸ hn)
      rw [lookup_cons, beq_eq_false_iff_ne.2 hne]
      exact ih hr hm

lemma find?_append (t : Tree) (a b : List String) : t.find? (a ++ b) = (t.find? a).bind fun u => u.find? b := by
  induction a generalizing t with
  | nil => cases t <;> rfl
  | cons name a ih =>
    cases t with
    | file contents => rfl
    | dir entries =>
      simp only [cons_append, find?]
      cases entries.lookup name with
      | none => rfl
      | some below => exact ih below

lemma Sound.look?_of_mem_listing (h : t.Sound) (hp : t.find? place = some part) (hm : names ∈ part.listing) :
    (∀ n ∈ names, IsName n) ∧ ∃ contents, t.look? (place ++ names) = some (.file contents) := by
  induction names generalizing place part with
  | nil =>
    cases part with
    | file contents => exact ⟨by simp, contents, by simp [look?, hp, entry]⟩
    | dir entries =>
      obtain ⟨e, -, r, hc, -⟩ := mem_listing_dir.1 hm
      cases hc
  | cons name names ih =>
    cases part with
    | file contents => simp [listing_file] at hm
    | dir entries =>
      obtain ⟨e, he, r, hc, hr⟩ := mem_listing_dir.1 hm
      obtain ⟨rfl, rfl⟩ := cons.inj hc
      obtain ⟨hn, hna⟩ := h.names place entries hp
      have hb : t.find? (place ++ [e.1]) = some e.2 := by
        rw [find?_append, hp, Option.bind_some, find?, lookup_of_mem hn he]
        rw [Option.bind_some]
        cases e.2 <;> rfl
      obtain ⟨ha, hf⟩ := ih hb hr
      exact ⟨forall_mem_cons.2 ⟨hna e he, ha⟩, by simpa using hf⟩

lemma exists_pieces_join (hp : p.isAbsolute) (h : '/' ∉ name.toList) :
    ∃ fst rest, (p.join ⟨name⟩).pieces.reverse = name :: fst :: rest := by
  obtain ⟨cs, hc⟩ := Path.exists_of_isAbsolute hp
  have hn : p.text ≠ "" := by
    intro he
    rw [he] at hc
    cases hc
  obtain ⟨fr, hf⟩ : ∃ fr, (p.join ⟨name⟩).text.toList = fr ++ '/' :: name.toList := by
    rw [Path.join, Path.isAbsolute_of_not_mem h, if_neg (by simp), beq_eq_false_iff_ne.2 hn, Bool.false_or]
    split
    · rename_i hl
      obtain ⟨fr, hf⟩ := getLast?_eq_some_iff.1 (beq_iff_eq.1 hl)
      exact ⟨fr, by simp [hf]⟩
    · exact ⟨p.text.toList, by simp⟩
  have hpi : (p.join ⟨name⟩).pieces = (Path.split fr).map String.ofList ++ [name] := by
    rw [Path.pieces, hf, Path.split_append, Path.split_of_not_mem h]
    simp
  obtain ⟨fst, rest, hr⟩ : ∃ fst rest, ((Path.split fr).map String.ofList).reverse = fst :: rest :=
    exists_cons_of_ne_nil (by simpa using Path.split_ne_nil fr)
  exact ⟨fst, rest, by rw [hpi, reverse_append, hr]; rfl⟩

lemma wantsDirectory_join (hp : p.isAbsolute) (h : IsName name) : (p.join ⟨name⟩).wantsDirectory = false := by
  obtain ⟨he, hd, -, hs⟩ := h
  obtain ⟨fst, r, hpi⟩ := exists_pieces_join hp hs
  rw [Path.wantsDirectory, hpi]
  simp [he, hd]

lemma Sound.exists_read?_below {d : Tree} (h : d.Sound) (hp : p.isAbsolute)
    (hat : d.at? p = some part) (hd : part.isDir) (hm : names ∈ part.listing) :
    (Project.below p names).isAbsolute ∧ ∃ contents, d.read? (Project.below p names) = some contents := by
  obtain ⟨hdi, ⟨place, hpl, hfi⟩, -⟩ := at?_eq_some.1 hat
  obtain ⟨hna, contents, hf⟩ := h.look?_of_mem_listing hfi hm
  obtain ⟨ha, hs⟩ := Path.steps_below hp hna
  have hs' : p.steps ≠ [] := by
    obtain ⟨cs, hcs⟩ := Path.exists_of_isAbsolute hp
    simp [Path.steps_of_toList hcs]
  have hpl' : place = Path.namesOf (p.steps.foldl Path.cleanStep []) :=
    Option.some.inj (hpl.symm.trans (Path.place?_eq hs'))
  have hne : names ≠ [] := by
    rintro rfl
    cases part with
    | file old => cases hd
    | dir entries =>
      obtain ⟨e, -, r, hc, -⟩ := mem_listing_dir.1 hm
      cases hc
  refine ⟨ha, contents, read?_eq_some.2 ⟨fun passed hpa => ?_, ?_, place ++ names, ?_, hf⟩⟩
  · rcases Path.mem_trail_of_into hs hs' hne hpa with hm | hl | ⟨above, fr, r, hab, hcu, hr, rfl⟩
    · exact hdi passed hm
    · obtain rfl : place = passed := Option.some.inj (hpl.symm.trans hl)
      rw [look?, hfi]
      cases part with
      | file old => cases hd
      | dir entries => rfl
    · obtain rfl : place = above := Option.some.inj (hpl.symm.trans hab)
      rw [hcu, ← append_assoc] at hf
      exact look?_of_append hr hf
  · rcases eq_nil_or_concat names with rfl | ⟨fr, last, rfl⟩
    · exact absurd rfl hne
    · rw [concat_eq_append] at hna ⊢
      rw [Project.below, foldl_append]
      exact wantsDirectory_join (Path.steps_below hp fun n hn => hna n (by simp [hn])).1
        (hna last (by simp))
  · rw [Path.place?_eq (by simp [hs, hs']), hs, foldl_append, Path.namesOf_into, hpl']

end Tree

end CustomElement.Files
