import CustomElement.Files.Tree
import Mathlib.Data.List.Infix
import Mathlib.Data.Option.Basic

/-!
# What writing a file changes

Writing a file changes the place of the file, and makes the directories on the way to it (`look?_write`). Whether it
can be written depends on the entries there only (`write?_isSome_iff`), and what is a file or a directory stays one
(`Keeps.write`).
-/

namespace CustomElement.Files

open List

variable {names : List String} {p : Path} {contents : String} {t t' : Tree} {places : List (List String)}

inductive Entry where
  | file (contents : String)
  | dir
deriving DecidableEq, Repr

namespace Tree

def entry : Tree → Entry
  | .file contents => .file contents
  | .dir _ => .dir

def look? (t : Tree) (names : List String) : Option Entry := (t.find? names).map entry

@[simp] lemma look?_nil (t : Tree) : t.look? [] = some t.entry := by
  cases t <;> rfl

@[simp] lemma look?_file_cons (contents : String) (name : String) (names : List String) :
    (Tree.file contents).look? (name :: names) = none := rfl

@[simp] lemma look?_dir_cons (es : List (String × Tree)) (name : String) (names : List String) :
    (Tree.dir es).look? (name :: names) = (es.lookup name).bind fun t => t.look? names := by
  rw [look?, find?, Option.map_bind]
  rfl

lemma hasDir_iff : t.hasDir names ↔ t.look? names = some .dir := by
  rw [hasDir, look?, Option.any_eq_true, Option.map_eq_some_iff]
  refine exists_congr fun below => and_congr_right fun _ => ?_
  cases below <;> simp [isDir, entry]

lemma lookup_setEntry (name n : String) (t : Tree) (es : List (String × Tree)) :
    (setEntry name t es).lookup n = if n = name then some t else es.lookup n := by
  induction es with
  | nil =>
    by_cases h : n = name
    · simp [setEntry, h]
    · simp [setEntry, lookup_cons, h, beq_eq_false_iff_ne.2 h]
  | cons e es ih =>
    obtain ⟨m, below⟩ := e
    by_cases hm : m = name
    · subst hm
      by_cases h : n = m <;> simp [setEntry, lookup_cons, h, beq_eq_false_iff_ne.2]
    · rw [setEntry, if_neg (by simpa using hm), lookup_cons, lookup_cons, ih]
      by_cases h : n = m
      · subst h
        simp [hm]
      · simp [beq_eq_false_iff_ne.2 h]

lemma look?_makeDirs (h : t.makeDirs? names = some t') (place : List String) :
    t'.look? place = if place <+: names then some .dir else t.look? place := by
  induction names generalizing t t' place with
  | nil =>
    cases t with
    | file contents => cases h
    | dir es =>
      obtain rfl : Tree.dir es = t' := by simpa [makeDirs?, isDir] using h
      cases place with
      | nil => simp [entry]
      | cons n place => simp
  | cons name names ih =>
    cases t with
    | file contents => cases h
    | dir es =>
      obtain ⟨below, hb, hd⟩ := Option.bind_eq_some_iff.1 h
      obtain rfl : Tree.dir (setEntry name below es) = t' := Option.some.inj hd
      cases place with
      | nil => simp [entry]
      | cons n place =>
        rw [look?_dir_cons, lookup_setEntry, look?_dir_cons]
        simp only [cons_prefix_cons]
        by_cases hn : n = name
        · subst hn
          simp only [if_true, Option.bind_some, ih hb, true_and]
          split
          · rfl
          · rename_i hp
            cases hl : es.lookup n with
            | some below => rfl
            | none =>
              -- Below a new directory there is only what was made.
              cases place with
              | nil => exact absurd nil_prefix hp
              | cons m place => simp
        · simp [hn]

lemma makeDirs?_isSome_iff :
    (t.makeDirs? names).isSome ↔ ∀ pl, pl <+: names → ∀ contents, t.look? pl ≠ some (.file contents) := by
  induction names generalizing t with
  | nil =>
    cases t with
    | file contents | dir es => simp [makeDirs?, isDir, entry]
  | cons name names ih =>
    cases t with
    | file contents =>
      refine iff_of_false (by simp [makeDirs?]) fun h => ?_
      exact h [] nil_prefix contents (by simp [entry])
    | dir es =>
      have hb : ((Tree.dir es).makeDirs? (name :: names)).isSome =
          (((es.lookup name).getD (.dir [])).makeDirs? names).isSome := by
        rw [makeDirs?]
        cases ((es.lookup name).getD (.dir [])).makeDirs? names <;> rfl
      rw [hb, ih]
      constructor
      · intro h pl hp contents
        cases pl with
        | nil => simp [entry]
        | cons n pl =>
          obtain ⟨rfl, hr⟩ := cons_prefix_cons.1 hp
          rw [look?_dir_cons]
          cases hl : es.lookup n with
          | none => simp
          | some below =>
            rw [hl] at h
            exact h pl hr contents
      · intro h pl hp contents
        have hc := h (name :: pl) (cons_prefix_cons.2 ⟨rfl, hp⟩) contents
        rw [look?_dir_cons] at hc
        cases hl : es.lookup name with
        | none => cases pl <;> simp [entry]
        | some below =>
          rw [hl] at hc
          exact hc

lemma look?_put (h : t.put? names contents = some t') (place : List String) :
    t'.look? place = if place = names then some (.file contents) else t.look? place := by
  fun_induction put? t names contents generalizing t' place with
  | case1 old contents =>
    cases h
    cases place <;> simp [entry]
  | case2 => cases h
  | case3 => cases h
  | case4 es name contents below hl => cases h
  | case5 es name contents hno =>
    cases h
    cases place with
    | nil => simp [entry]
    | cons n place =>
      rw [look?_dir_cons, lookup_setEntry, look?_dir_cons]
      by_cases hn : n = name
      · subst hn
        cases place with
        | nil => simp [entry]
        | cons m place =>
          cases hl : es.lookup n with
          | none => simp
          | some below =>
            cases below with
            | file old => simp
            | dir inner => exact absurd hl (hno inner)
      · simp [hn]
  | case6 es name next r contents ih =>
    obtain ⟨old, hl, h⟩ := Option.bind_eq_some_iff.1 h
    obtain ⟨below, hb, hd⟩ := Option.bind_eq_some_iff.1 h
    obtain rfl : Tree.dir (setEntry name below es) = t' := Option.some.inj hd
    cases place with
    | nil => simp [entry]
    | cons n place =>
      rw [look?_dir_cons, lookup_setEntry, look?_dir_cons]
      by_cases hn : n = name
      · subst hn
        rw [if_pos rfl, Option.bind_some, ih old hb, hl]
        simp
      · simp [hn]

lemma put?_isSome_iff : (t.put? names contents).isSome ↔
      t.look? names ≠ some .dir ∧ (names = [] ∨ t.look? names.dropLast = some .dir) := by
  fun_induction put? t names contents with
  | case1 old contents => simp [entry]
  | case2 es contents => simp [entry]
  | case3 old name names contents =>
    cases names <;> simp [entry]
  | case4 es name contents below hl => simp [hl, entry]
  | case5 es name contents hn =>
    cases hl : es.lookup name with
    | none => simp [hl, entry]
    | some below =>
      cases below with
      | file old => simp [hl, entry]
      | dir inner => exact absurd hl (hn inner)
  | case6 es name next r contents ih =>
    cases hl : es.lookup name with
    | none => simp [hl]
    | some below =>
      have hb := ih below
      simp only [dropLast_cons_cons, look?_dir_cons, hl, Option.bind_some, reduceCtorEq, false_or]
        at hb ⊢
      rw [← hb]
      cases hp : below.put? (next :: r) contents <;> simp [hp]

end Tree

namespace Path

def place? (p : Path) : Option (List String) := p.trail.getLast?

/-- The path leads through the place, or one below it, before its last step. -/
def OnWay (p : Path) (place : List String) : Prop := ∃ passed ∈ p.trail.dropLast, place <+: passed

instance (p : Path) (place : List String) : Decidable (p.OnWay place) :=
  inferInstanceAs (Decidable (∃ passed ∈ p.trail.dropLast, place <+: passed))

def namesOf (done : List Step) : List String :=
  (done.filterMap fun
    | .into name => some name
    | _ => none).reverse

lemma trail_eq (p : Path) : p.trail = (p.steps.scanl cleanStep []).tail.map namesOf := rfl

lemma namesOf_cleanStep (done : List Step) (s : Step) :
    namesOf (cleanStep done s) <+: namesOf done ∨ ∃ name, namesOf (cleanStep done s) = namesOf done ++ [name] := by
  cases s with
  | root => exact .inl (by simp [cleanStep, namesOf])
  | stay => exact .inl (by simp [cleanStep])
  | into name => exact .inr ⟨name, by simp [cleanStep, namesOf]⟩
  | up =>
    refine .inl ?_
    cases done with
    | nil => simp [cleanStep, namesOf]
    | cons last pre => cases last <;> simp [cleanStep, namesOf]

lemma onWay_of_place? {pl : List String} (h : p.place? = some pl) :
    pl.dropLast = [] ∨ p.OnWay pl ∨ p.OnWay pl.dropLast := by
  rw [place?, trail_eq] at h
  unfold OnWay
  rw [trail_eq]
  rcases eq_nil_or_concat p.steps with hs | ⟨steps, s, hs⟩
  · simp [hs] at h
  · rw [hs, concat_eq_append] at h ⊢
    generalize hd : steps.foldl cleanStep [] = done
    have hsc : ((steps ++ [s]).scanl cleanStep []).tail = (steps.scanl cleanStep []).tail ++ [cleanStep done s] := by
      rw [scanl_append, ← hd]
      cases hc : steps.scanl cleanStep [] with
      | nil => simp at hc
      | cons a r => simp
    rw [hsc, map_append, map_singleton] at h ⊢
    simp only [getLast?_append, getLast?_singleton, Option.some_or, Option.some.injEq] at h
    rw [dropLast_concat]
    subst h
    rcases eq_nil_or_concat steps with rfl | ⟨pre, last, rfl⟩
    · obtain rfl : [] = done := hd
      left
      cases s <;> rfl
    · -- What was done before the last step is the last place of the way.
      have hm : namesOf done ∈ (((pre.concat last).scanl cleanStep []).tail).map namesOf := by
        refine mem_map_of_mem ?_
        rw [concat_eq_append] at hd ⊢
        rw [scanl_append, ← hd]
        cases hc : pre.scanl cleanStep [] with
        | nil => simp at hc
        | cons a r => simp
      rcases namesOf_cleanStep done s with hu | ⟨name, hin⟩
      · exact .inr (.inl ⟨_, hm, hu⟩)
      · refine .inr (.inr ⟨_, hm, ?_⟩)
        rw [hin, dropLast_concat]

end Path

namespace Tree

lemma look?_foldlM_makeDirs (h : places.foldlM makeDirs? t = some t') (place : List String) :
    t'.look? place = if ∃ passed ∈ places, place <+: passed then some .dir else t.look? place := by
  induction places generalizing t with
  | nil =>
    cases h
    simp
  | cons fst places ih =>
    rw [foldlM_cons] at h
    obtain ⟨made, hm, hmo⟩ := Option.bind_eq_some_iff.1 h
    rw [ih hmo, look?_makeDirs hm]
    by_cases hf : place <+: fst <;> simp [hf]

lemma foldlM_makeDirs_isSome_iff : (places.foldlM makeDirs? t).isSome ↔
      ∀ passed ∈ places, ∀ pl, pl <+: passed → ∀ contents, t.look? pl ≠ some (.file contents) := by
  induction places generalizing t with
  | nil => simp
  | cons fst places ih =>
    rw [foldlM_cons, forall_mem_cons, ← makeDirs?_isSome_iff]
    cases hm : t.makeDirs? fst with
    | none => simp
    | some made =>
      simp only [Option.bind_eq_bind, Option.bind_some, ih, Option.isSome_some, true_and]
      -- Making directories neither makes nor removes a file.
      refine forall₂_congr fun passed _ => forall₂_congr fun pl _ => forall_congr' fun contents => ?_
      rw [look?_makeDirs hm]
      split
      · rename_i hf
        have hn := makeDirs?_isSome_iff.1 (by rw [hm]; rfl) pl hf contents
        simp [hn]
      · rfl

lemma look?_made {made : Tree} (h : p.trail.dropLast.foldlM makeDirs? t = some made) (place : List String) :
    made.look? place = if p.OnWay place then some .dir else t.look? place :=
  look?_foldlM_makeDirs h place

lemma write?_eq_some : t.write? p contents = some t' ↔ ∃ made pl, p.trail.dropLast.foldlM makeDirs? t = some made ∧
      p.place? = some pl ∧ p.wantsDirectory = false ∧ made.put? pl contents = some t' := by
  simp only [write?, Path.place?, Option.bind_eq_bind, Option.bind_eq_some_iff, Option.guard_eq_some']
  grind

lemma look?_write (h : t.write? p contents = some t') (place : List String) :
    t'.look? place = if p.place? = some place then some (.file contents)
      else if p.OnWay place then some .dir else t.look? place := by
  obtain ⟨made, target, hm, ht, -, hp⟩ := write?_eq_some.1 h
  rw [look?_put hp, look?_made hm, ht]
  simp only [Option.some.injEq, eq_comm]

lemma write?_isSome_iff : (t.write? p contents).isSome ↔ (∀ pl, p.OnWay pl → ∀ old, t.look? pl ≠ some (.file old)) ∧
        ∃ pl, p.place? = some pl ∧ p.wantsDirectory = false ∧ ¬ p.OnWay pl ∧ t.look? pl ≠ some .dir ∧
          (pl = [] ∨ p.OnWay pl.dropLast ∨ t.look? pl.dropLast = some .dir) := by
  have hwa : (∀ pl, p.OnWay pl → ∀ old, t.look? pl ≠ some (.file old)) ↔ (p.trail.dropLast.foldlM makeDirs? t).isSome := by
    rw [foldlM_makeDirs_isSome_iff]
    constructor
    · intro h passed hpa pl hp
      exact h pl ⟨passed, hpa, hp⟩
    · rintro h pl ⟨passed, hpa, hp⟩
      exact h passed hpa pl hp
  rw [hwa, Option.isSome_iff_exists]
  simp only [write?_eq_some]
  constructor
  · rintro ⟨t', made, pl, hm, hp, hw, hpu⟩
    have hs := put?_isSome_iff.1 (Option.isSome_iff_exists.2 ⟨t', hpu⟩)
    rw [look?_made hm, look?_made hm] at hs
    refine ⟨by rw [hm]; rfl, pl, hp, hw, ?_⟩
    by_cases ho : p.OnWay pl
    · rw [if_pos ho] at hs
      exact absurd rfl hs.1
    · rw [if_neg ho] at hs
      refine ⟨ho, hs.1, hs.2.imp_right fun hd => ?_⟩
      by_cases ho' : p.OnWay pl.dropLast
      · exact .inl ho'
      · rw [if_neg ho'] at hd
        exact .inr hd
  · rintro ⟨hm, pl, hp, hw, ho, hd, hpr⟩
    obtain ⟨made, hm⟩ := Option.isSome_iff_exists.1 hm
    have hpu : (made.put? pl contents).isSome := by
      rw [put?_isSome_iff, look?_made hm, look?_made hm]
      refine ⟨by rwa [if_neg ho], hpr.imp_right fun hpr => ?_⟩
      by_cases ho' : p.OnWay pl.dropLast
      · rw [if_pos ho']
      · rw [if_neg ho']
        exact hpr.resolve_left ho'
    obtain ⟨t', hpu⟩ := Option.isSome_iff_exists.1 hpu
    exact ⟨t', made, pl, hm, hp, hw, hpu⟩

/-- Files stay files and directories stay directories. -/
structure Keeps (t t' : Tree) : Prop where
  dir : ∀ place, t.look? place = some .dir → t'.look? place = some .dir
  file : ∀ place contents, t.look? place = some (.file contents) → ∃ contents', t'.look? place = some (.file contents')

namespace Keeps

variable {u : Tree}

lemma refl (t : Tree) : Keeps t t := ⟨fun _ h => h, fun _ contents h => ⟨contents, h⟩⟩

lemma trans (h : Keeps t t') (h' : Keeps t' u) : Keeps t u := by
  refine ⟨fun pl hd => h'.dir pl (h.dir pl hd), fun pl contents hf => ?_⟩
  obtain ⟨contents', hf'⟩ := h.file pl contents hf
  exact h'.file pl contents' hf'

lemma write (h : t.write? p contents = some t') : Keeps t t' := by
  obtain ⟨hw, pl, hp, -, ho, hd, -⟩ := write?_isSome_iff.1 (Option.isSome_iff_exists.2 ⟨t', h⟩)
  constructor
  · intro q hq
    rw [look?_write h, hp]
    split
    · rename_i heq
      cases heq
      exact absurd hq hd
    · split
      · rfl
      · exact hq
  · intro q old hq
    rw [look?_write h, hp]
    split
    · exact ⟨contents, rfl⟩
    · split
      · exact absurd hq (hw q ‹_› old)
      · exact ⟨old, hq⟩

lemma parent (h : Keeps t u) {pl : List String} (hp : p.place? = some pl) (ho : ¬ p.OnWay pl)
    (hu : pl = [] ∨ p.OnWay pl.dropLast ∨ u.look? pl.dropLast = some .dir) :
    pl = [] ∨ p.OnWay pl.dropLast ∨ t.look? pl.dropLast = some .dir := by
  rcases hu with hn | ho' | hd
  · exact .inl hn
  · exact .inr (.inl ho')
  · rcases Path.onWay_of_place? hp with hr | ho' | ho'
    · refine .inr (.inr ?_)
      -- The root is there from the start.
      rw [hr, look?_nil] at hd ⊢
      cases t with
      | dir es => rfl
      | file old =>
        obtain ⟨old', hf⟩ := h.file [] old (by simp [entry])
        rw [look?_nil, hd] at hf
        cases hf
    · exact absurd ho' ho
    · exact .inr (.inl ho')

lemma write?_eq_none (h : Keeps t u) (hn : t.write? p contents = none) (contents' : String) :
    u.write? p contents' = none := by
  by_contra hs
  obtain ⟨hwy, pl, hp, hwa, ho, hd, hpa⟩ := write?_isSome_iff.1 (Option.isSome_iff_ne_none.2 hs)
  have hw : (t.write? p contents).isSome := by
    refine write?_isSome_iff.2 ⟨fun q hq old hf => ?_, pl, hp, hwa, ho, fun hd' => ?_, ?_⟩
    · obtain ⟨old', hf'⟩ := h.file q old hf
      exact hwy q hq old' hf'
    · exact hd (h.dir pl hd')
    · exact h.parent hp ho hpa
  rw [hn] at hw
  cases hw

lemma exists_write (hw : t.write? p contents = some t') (h : Keeps t' u) (contents' : String) :
    ∃ u', u.write? p contents' = some u' := by
  obtain ⟨-, pl, hp, hwa, ho, -, hpa⟩ := write?_isSome_iff.1 (Option.isSome_iff_exists.2 ⟨t', hw⟩)
  have he := look?_write hw
  have hps : ∀ q, p.OnWay q → u.look? q = some .dir := by
    intro q hq
    refine h.dir q ?_
    rw [he, hp, if_neg, if_pos hq]
    rintro ⟨⟩
    exact ho hq
  obtain ⟨old, hf⟩ := h.file pl contents (by rw [he, if_pos hp])
  rw [← Option.isSome_iff_exists, write?_isSome_iff]
  refine ⟨fun q hq old => ?_, pl, hp, hwa, ho, ?_, ?_⟩
  · rw [hps q hq]
    simp
  · rw [hf]
    simp
  · exact hpa.imp_right (.imp_right fun hd => h.dir _ ((write hw).dir _ hd))

end Keeps

end Tree

end CustomElement.Files
