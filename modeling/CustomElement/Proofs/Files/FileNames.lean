import CustomElement.Proofs.Files.Places

/-!
# The name at the end of a path

A name is cut off the end of a path by taking off its last step (`steps_directory`), so a path with another name at
its end takes all steps but the last, and enters that name (`steps_withFileName`).
-/

namespace CustomElement.Files

open List

variable {p : Path} {steps : List Step} {name : String}

namespace Path

lemma filterMap_trimPieces (ps : List String) :
    (trimPieces false ps).filterMap (step? false) = ps.filterMap (step? false) := by
  induction ps with
  | nil => rfl
  | cons p ps ih =>
    rw [trimPieces]
    split
    · rename_i hn
      rw [filterMap_cons, ← ih, hn]
      cases hs : step? false p <;> simp [hs]
    · rw [filterMap_cons, filterMap_cons, ih]

lemma exists_of_trimPieces {ps : List String} (h : trimPieces false ps ≠ []) :
    ∃ fr last s, trimPieces false ps = fr ++ [last] ∧ step? false last = some s := by
  induction ps with
  | nil => exact absurd rfl h
  | cons p ps ih =>
    rw [trimPieces] at h ⊢
    split
    · rename_i hn
      rw [hn] at h
      cases hst : step? false p with
      | none => simp [hst] at h
      | some s => exact ⟨[], p, s, by simp, hst⟩
    · rename_i hk
      obtain ⟨fr, last, s, hl, hs⟩ := ih hk
      exact ⟨p :: fr, last, s, by rw [hl]; rfl, hs⟩

lemma mem_of_mem_trimPieces {fst : Bool} {pieces : List String} {p : String}
    (h : p ∈ trimPieces fst pieces) : p ∈ pieces := by
  induction pieces generalizing fst with
  | nil => cases h
  | cons head pieces ih =>
    rw [trimPieces] at h
    split at h
    · split at h
      · rw [mem_singleton.1 h]
        exact mem_cons_self
      · cases h
    · rcases mem_cons.1 h with rfl | h
      · exact mem_cons_self
      · exact mem_cons_of_mem head (ih h)

lemma steps_directory {s : Step} (hp : p.isAbsolute) (h : p.steps = .root :: steps ++ [s]) :
    p.directory.steps = .root :: steps := by
  obtain ⟨cs, hcs⟩ := exists_of_isAbsolute hp
  generalize hr : (split cs).map String.ofList = rest
  have hpe : p.pieces = "" :: rest := by
    rw [pieces, hcs, split, ← hr]
    rfl
  have hs : rest.filterMap (step? false) = steps ++ [s] := by
    rw [steps_of_toList hcs, stepsBehind, hr] at h
    simpa using h
  have hro : ∀ more, trimPieces true ("" :: more) =
      if trimPieces false more = [] then [] else "" :: trimPieces false more := by
    intro more
    rw [trimPieces]
    split <;> simp_all [step?]
  have hk : trimPieces false rest ≠ [] := by
    rw [Ne, trimPieces_eq_nil, hs]
    simp
  obtain ⟨fr, last, t, hl, ht⟩ := exists_of_trimPieces hk
  have hf : fr.filterMap (step? false) = steps := by
    have hal := filterMap_trimPieces rest
    rw [hl, hs, filterMap_append, filterMap_cons_some ht] at hal
    exact (append_inj' hal rfl).1
  rw [directory, parent?, hpe, hro, if_neg hk, hl]
  dsimp only
  rw [dropLast_cons_of_ne_nil (by simp), dropLast_concat, hro]
  cases ha : trimPieces false fr with
  | nil =>
    rw [trimPieces_eq_nil, hf] at ha
    rw [if_pos rfl, hp, ha]
    rfl
  | cons fst above =>
    have hsl : ∀ piece ∈ fst :: above, '/' ∉ piece.toList := by
      intro piece hpi
      rw [← ha] at hpi
      have hm : piece ∈ trimPieces false rest := by
        rw [hl]
        exact mem_append_left _ (mem_of_mem_trimPieces hpi)
      have hsp := mem_of_mem_trimPieces hm
      rw [← hr] at hsp
      obtain ⟨chars, hc, rfl⟩ := mem_map.1 hsp
      rw [String.toList_ofList]
      exact not_mem_of_mem_split hc
    have hte : (Path.mk ("/".intercalate ("" :: fst :: above))).text.toList =
        '/' :: ("/".intercalate (fst :: above)).toList := toList_intercalate_cons_cons "" fst above
    have ha' := filterMap_trimPieces fr
    rw [ha, hf] at ha'
    rw [if_neg (cons_ne_nil _ _), Option.getD_some, steps_of_toList hte, stepsBehind_pieces hsl, ha']

lemma fileName?_of_steps (h : p.steps = steps ++ [.into name]) : p.fileName? = some name := by
  simp [fileName?, h]

lemma steps_withFileName {name other : String} (hp : p.isAbsolute)
    (h : p.steps = .root :: steps ++ [.into name]) (ho : IsName other) :
    (p.withFileName other).steps = .root :: steps ++ [.into other] ∧ (p.withFileName other).wantsDirectory = false := by
  have hd : p.directory.isAbsolute := isAbsolute_directory hp (by simp [h])
  rw [withFileName, fileName?_of_steps h, Option.isSome_some, if_pos rfl]
  refine ⟨?_, Tree.wantsDirectory_join hd ho⟩
  rw [(steps_join hd (isAbsolute_name ho)).2, steps_directory hp h, stepsBehind_name ho]

lemma cutName_append {name ext : String} (hn : name ≠ "") (hd : '.' ∉ ext.toList) :
    cutName (name ++ "." ++ ext) = (name, some ext) := by
  have hb : (name ++ "." ++ ext).toList.reverse = ext.toList.reverse ++ '.' :: name.toList.reverse := by simp
  have ha : (ext.toList.reverse ++ '.' :: name.toList.reverse).takeWhile (· != '.') = ext.toList.reverse := by
    rw [takeWhile_append_of_pos (by simpa using fun c hc => ne_of_mem_of_not_mem hc hd)]
    simp
  obtain ⟨c, cs, hcs⟩ : ∃ c cs, name.toList.reverse = c :: cs := exists_cons_of_ne_nil (by simpa using hn)
  rw [cutName, hb, ha, drop_left, hcs]
  simp [← hcs]

lemma stem_cutName (h : name ≠ "") : (cutName name).1 ≠ "" ∧ ∃ tail, name.toList = (cutName name).1.toList ++ tail := by
  rw [cutName]
  split
  · rename_i dot fst before hc
    obtain ⟨aft, ha⟩ : ∃ aft, name.toList.reverse = aft ++ dot :: fst :: before := ⟨_, by rw [← hc, take_append_drop]⟩
    refine ⟨by simp [← String.toList_inj], dot :: aft.reverse, ?_⟩
    have hn := congrArg reverse ha
    rw [reverse_reverse] at hn
    rw [hn]
    simp
  · exact ⟨h, [], by simp⟩

lemma stem?_of_steps (h : p.steps = steps ++ [.into name]) : p.stem? = some (cutName name).1 := by
  rw [stem?, fileName?_of_steps h, Option.map_some]

lemma extension?_of_steps (h : p.steps = steps ++ [.into name]) : p.extension? = (cutName name).2 := by
  rw [extension?, fileName?_of_steps h, Option.bind_some]

lemma isAbsolute_of_steps (h : p.steps = .root :: steps) : p.isAbsolute := by
  by_contra hn
  have hm : Step.root ∈ stepsOf p.pieces := by
    rw [Path.steps, if_neg hn] at h
    rw [h]
    exact mem_cons_self
  have hs : ∀ fst piece, step? fst piece ≠ some .root := by
    intro fst piece
    unfold step?
    grind
  cases hp : p.pieces with
  | nil => simp [hp, stepsOf] at hm
  | cons piece r =>
    simp only [hp, stepsOf, mem_append, Option.mem_toList, mem_filterMap] at hm
    obtain hm | ⟨other, -, hm⟩ := hm
    · exact hs _ _ hm
    · exact hs _ _ hm

end Path

namespace Tree

lemma read?_of_steps {q : Path} (h : p.steps = q.steps) (hw : p.wantsDirectory = q.wantsDirectory) (t : Tree) :
    t.read? p = t.read? q := by
  have ht : p.trail = q.trail := by rw [Path.trail, Path.trail, h]
  simp only [read?, at?, ht, hw]

lemma mem_listing_of_look? {t : Tree} {names : List String} {cts : String}
    (h : t.look? names = some (.file cts)) : names ∈ t.listing := by
  induction names generalizing t with
  | nil =>
    cases t with
    | file old => simp [listing_file]
    | dir es => simp [entry] at h
  | cons name names ih =>
    cases t with
    | file old => cases h
    | dir es =>
      rw [look?_dir_cons] at h
      obtain ⟨below, hl, hb⟩ := Option.bind_eq_some_iff.1 h
      obtain ⟨pre, aft, hs, -⟩ := lookup_eq_some_iff.1 hl
      exact mem_listing_dir.2 ⟨(name, below), by simp [hs], names, rfl, ih hb⟩

lemma look?_append {t part : Tree} {pl : List String} (h : t.find? pl = some part) (names : List String) :
    t.look? (pl ++ names) = part.look? names := by
  rw [look?, find?_append, h, Option.bind_some, look?]

end Tree

end CustomElement.Files
