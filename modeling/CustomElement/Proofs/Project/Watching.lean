import CustomElement.Proofs.Files.FileNames
import CustomElement.Proofs.Project.Repeat

/-!
# Changed files and the components to compile anew

`componentFor?` gives the component to compile anew for a file that has changed. A changed component is one of those
that are found, and each of them is given for itself and for its side files (`componentFor?_found_iff`).
-/

namespace CustomElement.Project

open List Files Files.Tree

variable {s : Settings} {disk part : Tree} {components : List Path} {names : List String} {c changed : Path}

lemma isComponent_of_steps (s : Settings) {p q : Path} (h : p.steps = q.steps) : s.isComponent p = s.isComponent q := by
  simp only [Settings.isComponent, Path.extension?, Path.fileName?, h]

lemma mem_components_iff (ha : disk.at? s.input = some part) (hd : part.isDir)
    (hf : findComponents s disk = .ok components) (hn : names ∈ part.listing) :
    below s.input names ∈ components ↔ s.isComponent (below s.input names) ∧ s.isIgnored (below s.input names) = false := by
  rw [findComponents_of_dir ha hd] at hf
  rw [← ok.inj hf, mem_map]
  constructor
  · rintro ⟨other, ho, heq⟩
    rw [← heq]
    simpa using (mem_filter.1 ho).2
  · intro h
    exact ⟨names, mem_filter.2 ⟨hn, by simp [h]⟩, rfl⟩

lemma componentFor?_eq_some : componentFor? s disk changed = some c ↔ s.isIgnored changed = false ∧
      (s.isComponent changed ∧ c = changed ∨ s.isComponent changed = false ∧ s.isComponent c ∧ disk.isFile c ∧
          ∃ stem, changed.stem? = some stem ∧ c = changed.withFileName stem) := by
  unfold componentFor?
  cases hig : s.isIgnored changed with
  | true => simp
  | false =>
    cases hc : s.isComponent changed with
    | true => simpa using eq_comm
    | false =>
      simp only [false_eq_true, if_false, false_and, true_and, false_or]
      constructor
      · intro h
        obtain ⟨stem, hs, h⟩ := bind_eq_some_iff.1 h
        obtain ⟨u, hg, h⟩ := bind_eq_some_iff.1 h
        cases h
        obtain ⟨hc, hf⟩ : s.isComponent (changed.withFileName stem) ∧
            disk.isFile (changed.withFileName stem) := by simpa using hg
        exact ⟨hc, hf, stem, hs, rfl⟩
      · rintro ⟨hc, hf, stem, hs, rfl⟩
        simp [hs, hc, hf]

lemma exists_steps_below (hd : disk.Sound) (hin : s.input.isAbsolute)
    (hat : disk.at? s.input = some part) (hdi : part.isDir) (hna : names ∈ part.listing) :
    ∃ fr last, names = fr ++ [last] ∧ (∀ n ∈ fr, IsName n) ∧ IsName last ∧
      (below s.input names).steps = s.input.steps ++ fr.map .into ++ [.into last] := by
  obtain ⟨-, ⟨pl, -, hf⟩, -⟩ := at?_eq_some.1 hat
  obtain ⟨ha, -⟩ := hd.look?_of_mem_listing hf hna
  rcases eq_nil_or_concat names with rfl | ⟨fr, last, rfl⟩
  · cases part with
    | file cts => cases hdi
    | dir es =>
      obtain ⟨e, -, r, hc, -⟩ := mem_listing_dir.1 hna
      cases hc
  · rw [concat_eq_append] at ha ⊢
    refine ⟨fr, last, rfl, fun n hn => ha n (by simp [hn]), ha last (by simp), ?_⟩
    simp [(Path.steps_below hin ha).2]

lemma mem_listing_of_isFile (hin : s.input.isAbsolute) (ha : disk.at? s.input = some part)
    (hs : c.steps = s.input.steps ++ names.map .into) (hf : disk.isFile c) : names ∈ part.listing := by
  obtain ⟨-, ⟨pl, hp, hfi⟩, -⟩ := at?_eq_some.1 ha
  obtain ⟨cts, hr⟩ := isSome_iff_exists.1 hf
  obtain ⟨-, -, pl', hp', hl⟩ := read?_eq_some.1 hr
  have hn : s.input.steps ≠ [] := by
    obtain ⟨cs, hc⟩ := Path.exists_of_isAbsolute hin
    simp [Path.steps_of_toList hc]
  obtain rfl : pl' = pl ++ names := by
    rw [Path.place?_eq hn] at hp
    rw [Path.place?_eq (by simp [hs, hn]), hs, foldl_append, Path.namesOf_into, some.inj hp] at hp'
    exact (some.inj hp').symm
  rw [look?_append hfi] at hl
  exact mem_listing_of_look? hl

lemma isName_stem {steps : List Step} {name : String} (ha : changed.isAbsolute)
    (hst : changed.steps = .root :: steps ++ [.into name]) (hn : IsName name)
    (hc : s.isComponent (changed.withFileName (Path.cutName name).1))
    (hf : disk.isFile (changed.withFileName (Path.cutName name).1)) : IsName (Path.cutName name).1 := by
  obtain ⟨he, tl, ht⟩ := Path.stem_cutName hn.1
  generalize (Path.cutName name).1 = stem at *
  have hs : '/' ∉ stem.toList := fun hm => hn.2.2.2 (by rw [ht]; exact mem_append_left _ hm)
  have hd := Path.isAbsolute_directory ha (by simp [hst])
  rw [Path.withFileName, Path.fileName?_of_steps hst, Option.isSome_some, if_pos rfl] at hc hf
  refine ⟨he, ?_, ?_, hs⟩
  · rintro rfl
    obtain ⟨fst, r, hp⟩ := exists_pieces_join hd hs
    obtain ⟨cts, hr⟩ := isSome_iff_exists.1 hf
    have hw := (read?_eq_some.1 hr).2.1
    rw [Path.wantsDirectory, hp] at hw
    simp at hw
  · rintro rfl
    have hj := (Path.steps_join hd (Path.isAbsolute_of_not_mem hs)).2
    have hu : Path.stepsBehind "..".toList = [.up] := by decide
    rw [hu] at hj
    simp [Settings.isComponent, Path.extension?, Path.fileName?, hj] at hc

lemma exists_names_of_componentFor? (hd : disk.Sound) (hin : s.input.isAbsolute)
    (hat : disk.at? s.input = some part) (hdi : part.isDir) (hn : names ∈ part.listing)
    (hs : changed.steps = (below s.input names).steps) (h : componentFor? s disk changed = some c) :
    ∃ found ∈ part.listing, (below s.input found).steps = c.steps ∧ s.isComponent c ∧
      (s.isComponent changed → c = changed ∧ s.isIgnored changed = false) := by
  obtain ⟨hig, ⟨hc, rfl⟩ | ⟨hc, hst, hf, stem, hcu, rfl⟩⟩ := componentFor?_eq_some.1 h
  · exact ⟨names, hn, hs.symm, hc, fun _ => ⟨rfl, hig⟩⟩
  · obtain ⟨fr, last, rfl, hfr, hl, hw⟩ := exists_steps_below hd hin hat hdi hn
    obtain ⟨cs, hcs⟩ := Path.exists_of_isAbsolute hin
    have hr : changed.steps = .root :: (Path.stepsBehind cs ++ fr.map .into) ++ [.into last] := by
      rw [hs, hw, Path.steps_of_toList hcs]
      simp
    have ha : changed.isAbsolute := Path.isAbsolute_of_steps hr
    obtain rfl : (Path.cutName last).1 = stem := by
      rw [Path.stem?_of_steps hr] at hcu
      exact some.inj hcu
    have hna := isName_stem ha hr hl hst hf
    obtain ⟨ho, -⟩ := Path.steps_withFileName ha hr hna
    have hb : (changed.withFileName (Path.cutName last).1).steps =
        s.input.steps ++ (fr ++ [(Path.cutName last).1]).map .into := by
      rw [ho, Path.steps_of_toList hcs]
      simp
    have hal : ∀ n ∈ fr ++ [(Path.cutName last).1], IsName n := by
      simpa [or_imp, forall_and] using ⟨hfr, hna⟩
    refine ⟨fr ++ [(Path.cutName last).1], mem_listing_of_isFile hin hat hb hf, ?_, hst, ?_⟩
    · rw [hb, (Path.steps_below hin hal).2]
    · simp [hc]

lemma isName_append_extension {name ext : String} (h : IsName name) (hs : '/' ∉ ext.toList) :
    IsName (name ++ "." ++ ext) := by
  obtain ⟨he, hd, hu, hn⟩ := h
  simp only [Ne, ← toList_inj] at he hd hu
  refine ⟨?_, ?_, ?_, by simp [hn, hs]⟩ <;> simp only [Ne, ← toList_inj] <;> intro heq
  · simp at heq
  · obtain ⟨c, cs, hc⟩ := exists_cons_of_ne_nil he
    simp [hc] at heq
  · obtain ⟨c, cs, hc⟩ := exists_cons_of_ne_nil he
    cases cs with
    | nil => simp_all
    | cons d cs => simp_all

lemma text_join_append {p : Path} {name : String} (hn : '/' ∉ name.toList) (more : String)
    (hm : '/' ∉ more.toList) : p.join ⟨name ++ more⟩ = ⟨(p.join ⟨name⟩).text ++ more⟩ := by
  have hb : '/' ∉ (name ++ more).toList := by simp [hn, hm]
  simp only [Path.join, Path.isAbsolute_of_not_mem hn, Path.isAbsolute_of_not_mem hb, false_eq_true, if_false]
  split <;> simp [String.append_assoc]

lemma componentFor?_side (hd : disk.Sound) (hin : s.input.isAbsolute)
    (hat : disk.at? s.input = some part) (hdi : part.isDir) (hn : names ∈ part.listing)
    (hc : s.isComponent (below s.input names)) {ext : String} (hdo : '.' ∉ ext.toList)
    (hs : '/' ∉ ext.toList) (he : ext ∉ s.extensions)
    (hig : s.isIgnored ⟨(below s.input names).text ++ "." ++ ext⟩ = false) :
    ∃ c, componentFor? s disk ⟨(below s.input names).text ++ "." ++ ext⟩ = some c ∧
      c.steps = (below s.input names).steps := by
  obtain ⟨cts, hre⟩ := (hd.exists_read?_below hin hat hdi hn).2
  obtain ⟨fr, last, rfl, hf, hl, hwa⟩ := exists_steps_below hd hin hat hdi hn
  obtain ⟨cs, hcs⟩ := Path.exists_of_isAbsolute hin
  have hna : IsName (last ++ "." ++ ext) := isName_append_extension hl hs
  have hsi : (⟨(below s.input (fr ++ [last])).text ++ "." ++ ext⟩ : Path) = below s.input (fr ++ [last ++ "." ++ ext]) := by
    have hm : '/' ∉ ("." ++ ext).toList := by simp [hs]
    simp only [below, foldl_append, foldl_cons, foldl_nil, String.append_assoc]
    rw [text_join_append hl.2.2.2 _ hm]
  rw [hsi] at hig ⊢
  have hal : ∀ n ∈ fr ++ [last ++ "." ++ ext], IsName n := by
    simpa [or_imp, forall_and] using ⟨hf, hna⟩
  obtain ⟨ha, hst⟩ := Path.steps_below hin hal
  generalize below s.input (fr ++ [last ++ "." ++ ext]) = side at *
  have hr : side.steps = .root :: (Path.stepsBehind cs ++ fr.map .into) ++ [.into (last ++ "." ++ ext)] := by
    rw [hst, Path.steps_of_toList hcs]
    simp
  obtain ⟨ho, hw⟩ := Path.steps_withFileName ha hr hl
  have hsa : (side.withFileName last).steps = (below s.input (fr ++ [last])).steps := by
    rw [ho, hwa, Path.steps_of_toList hcs]
    simp
  refine ⟨side.withFileName last, componentFor?_eq_some.2 ⟨hig, .inr ⟨?_, ?_, ?_, last, ?_, rfl⟩⟩, hsa⟩
  · simp [Settings.isComponent, Path.extension?_of_steps hr, Path.cutName_append hl.1 hdo, he]
  · rw [isComponent_of_steps s hsa, hc]
  · rw [Tree.isFile, read?_of_steps hsa, hre]
    · rfl
    · rw [hw, (read?_eq_some.1 hre).2.1]
  · rw [Path.stem?_of_steps hr, Path.cutName_append hl.1 hdo]

/-- **The component to compile anew for a changed file is one of those that are found**, unless it is ignored although its
side file is not; and those that are found are compiled anew when they or their side files change. -/
theorem componentFor?_found_iff {cwd : Path} {args : Arguments} {file : ConfigFile} (hcwd : cwd.isAbsolute = true)
    (hmerge : Settings.merge cwd args file = .ok s) (hdisk : disk.Sound) (hat : disk.at? s.input = some part)
    (hdir : part.isDir = true) (hfound : findComponents s disk = .ok components) :
    (∀ names ∈ part.listing, ∀ changed c, changed.steps = (below s.input names).steps →
      componentFor? s disk changed = some c →
      ∃ found ∈ part.listing.map (below s.input), found.steps = c.steps ∧
        (found ∈ components ↔ s.isIgnored found = false) ∧
        (s.isComponent changed = true → changed = found → found ∈ components)) ∧
    ∀ c ∈ components, componentFor? s disk c = some c ∧
      ∀ extension : String, '.' ∉ extension.toList → '/' ∉ extension.toList → extension ∉ s.extensions →
        s.isIgnored ⟨c.text ++ "." ++ extension⟩ = false →
        ∃ c', componentFor? s disk ⟨c.text ++ "." ++ extension⟩ = some c' ∧ c'.steps = c.steps := by
  have hinput : s.input.isAbsolute = true := isAbsolute_input hcwd hmerge
  constructor
  · intro names hnames changed c hsteps hgiven
    obtain ⟨found, hlisted, hsame, hcomponent, hself⟩ :=
      exists_names_of_componentFor? hdisk hinput hat hdir hnames hsteps hgiven
    have hmem := mem_components_iff hat hdir hfound hlisted
    rw [isComponent_of_steps s hsame, hcomponent] at hmem
    refine ⟨below s.input found, List.mem_map_of_mem hlisted, hsame, by simpa using hmem, ?_⟩
    rintro hchanged rfl
    exact hmem.2 ⟨rfl, (hself hchanged).2⟩
  · intro c hc
    obtain ⟨names, hnames, rfl⟩ : ∃ names ∈ part.listing, below s.input names = c := by
      rw [findComponents_of_dir hat hdir] at hfound
      rw [← ok.inj hfound] at hc
      obtain ⟨names, hnames, rfl⟩ := List.mem_map.1 hc
      exact ⟨names, (List.mem_filter.1 hnames).1, rfl⟩
    obtain ⟨hcomponent, hignored⟩ := (mem_components_iff hat hdir hfound hnames).1 hc
    refine ⟨componentFor?_eq_some.2 ⟨hignored, .inl ⟨hcomponent, rfl⟩⟩, ?_⟩
    intro extension hdot hslash hextension
    exact componentFor?_side hdisk hinput hat hdir hnames hcomponent hdot hslash hextension

theorem componentFor?_found_iff_sheet :
    ∃ c, componentFor? sampleSettings (.dir [("src", .dir sampleEntries)]) ⟨"/src/a.wc.scss"⟩ = some c ∧
      c.steps = [.root, .into "src", .into "a.wc"] := by
  have hfound := (componentFor?_found_iff rfl merge_sample sound_sample at?_sample rfl findComponents_sample).2
    ⟨"/src/a.wc"⟩ List.mem_cons_self
  have hignored : sampleSettings.isIgnored ⟨"/src/a.wc.scss"⟩ = false := by decide +kernel
  have hsteps : (⟨"/src/a.wc"⟩ : Files.Path).steps = [.root, .into "src", .into "a.wc"] := by decide +kernel
  obtain ⟨c, hgiven, hsame⟩ := hfound.2 "scss" (by decide) (by decide) (by decide) hignored
  exact ⟨c, hgiven, hsame.trans hsteps⟩

end CustomElement.Project
