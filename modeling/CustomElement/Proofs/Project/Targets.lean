import CustomElement.Proofs.Project.Watching

/-!
# Where modules are written

A module is written to the place that its component has below the input directory, or below the output directory,
under the text of the stem of its name (`steps_target`). So two components are written to the same place if they lie in
one directory and the texts of their names differ in the extension at most (`target_eq_iff`).
-/

namespace CustomElement.Files

open List

variable {fr : List String} {p : Path} {name : String} {last : String} {names : List String}

namespace Path

lemma exists_pieces_before (hp : p.isAbsolute) : ∃ fr : List String, fr.filterMap (step? false) = p.steps.tail ∧
      ∀ q : Path, q.isAbsolute = false → (p.join q).pieces = "" :: fr ++ q.pieces := by
  obtain ⟨cs, hc⟩ := exists_of_isAbsolute hp
  have hs : p.steps.tail = stepsBehind cs := by rw [steps_of_toList hc, tail_cons]
  have hem : (p.text == "") = false := by
    rw [beq_eq_false_iff_ne]
    intro he
    rw [he] at hc
    cases hc
  by_cases hl : p.text.toList.getLast? = some '/'
  · have hj : ∀ q : Path, q.isAbsolute = false → (p.join q).text.toList = '/' :: (cs ++ q.text.toList) := by
      intro q hq
      rw [join, hq, if_neg (by simp), if_pos (by simp [hl])]
      simp [hc]
    rcases eq_nil_or_concat cs with rfl | ⟨ds, c, rfl⟩
    · refine ⟨[], hs.symm, fun q hq => ?_⟩
      rw [pieces, hj q hq, nil_append, split]
      rfl
    · obtain rfl : c = '/' := by
        rw [hc, concat_eq_append, ← cons_append, getLast?_append] at hl
        simpa using hl
      refine ⟨(split ds).map String.ofList, ?_, fun q hq => ?_⟩
      · rw [hs, concat_eq_append, stepsBehind_append, stepsBehind_nil, append_nil]
        rfl
      · rw [pieces, hj q hq, split, concat_eq_append, append_assoc, singleton_append, split_append]
        simp [pieces]
  · refine ⟨(split cs).map String.ofList, hs.symm, fun q hq => ?_⟩
    have hj : (p.join q).text.toList = '/' :: (cs ++ '/' :: q.text.toList) := by
      rw [join, hq, if_neg (by simp), hem, Bool.false_or, if_neg (by simpa using hl)]
      simp [hc]
    rw [pieces, hj, split, split_append]
    simp [pieces]

lemma isAbsolute_intercalate (h : ∀ n ∈ names, IsName n) : (Path.mk ("/".intercalate names)).isAbsolute = false := by
  cases names with
  | nil => rfl
  | cons name names =>
    obtain ⟨⟨he, -, -, hs⟩, -⟩ := forall_mem_cons.1 h
    obtain ⟨c, cs, hcs⟩ := exists_cons_of_ne_nil (by simpa using he : name.toList ≠ [])
    have hc : c ≠ '/' := fun hc => hs (by simp [hcs, hc])
    cases names with
    | nil => simp [isAbsolute, hcs, hc]
    | cons next names => simp [isAbsolute, String.intercalate_cons_cons, hcs, hc]

lemma join_of_name {fr name : String} (hna : IsName name) {q : Path} (hq : q.isAbsolute = false) :
    (Path.mk (fr ++ name)).join q = ⟨fr ++ name ++ "/" ++ q.text⟩ := by
  obtain ⟨hem, -, -, hs⟩ := hna
  have hl : (fr ++ name).toList.getLast? ≠ some '/' := by
    rw [toList_append, getLast?_append_of_ne_nil _ (by simpa using hem)]
    exact fun hm => hs (mem_of_getLast? hm)
  have hn : fr ++ name ≠ "" := fun he => hem (String.append_eq_empty_iff.1 he).2
  rw [join, hq, if_neg (by simp), beq_eq_false_iff_ne.2 hn, Bool.false_or, if_neg (by simpa using hl)]

lemma below_eq_join (hp : p.isAbsolute) (h : ∀ n ∈ name :: names, IsName n) :
    Project.below p (name :: names) = p.join ⟨"/".intercalate (name :: names)⟩ := by
  induction names generalizing p name with
  | nil => simp [Project.below]
  | cons next names ih =>
    obtain ⟨hn, hna⟩ := forall_mem_cons.1 h
    have hl := ih (steps_join hp (isAbsolute_name hn)).1 hna
    obtain ⟨fr, hf⟩ : ∃ fr, ∀ q : Path, q.isAbsolute = false → p.join q = ⟨fr ++ q.text⟩ := by
      by_cases ho : (p.text == "" || p.text.toList.getLast? == some '/')
      · exact ⟨p.text, fun q hq => by rw [join, hq, if_neg (by simp), if_pos ho]⟩
      · exact ⟨p.text ++ "/", fun q hq => by rw [join, hq, if_neg (by simp), if_neg ho]⟩
    rw [Project.below, foldl_cons, ← Project.below, hl, hf _ (isAbsolute_name hn),
      hf _ (isAbsolute_intercalate h), join_of_name hn (isAbsolute_intercalate hna),
      String.intercalate_cons_cons]
    simp [String.append_assoc]

lemma step?_name (h : IsName name) (fst : Bool) : step? fst name = some (.into name) := by
  obtain ⟨he, hd, hu, -⟩ := h
  simp [step?, he, hd, hu]

lemma trimPieces_append_name {fst : Bool} (fr : List String) (h : IsName name) :
    trimPieces fst (fr ++ [name]) = fr ++ [name] := by
  induction fr generalizing fst with
  | nil => simp [trimPieces, step?_name h]
  | cons p fr ih =>
    rw [cons_append, trimPieces, ih]
    cases fr <;> rfl

lemma dropSteps_append (h : IsName name) (rest : List String) :
    dropSteps false (fr.filterMap (step? false)).length (fr ++ name :: rest) = name :: rest := by
  induction fr with
  | nil => simp [dropSteps, step?_name h]
  | cons p fr ih =>
    cases hs : step? false p with
    | none | some s => simpa [dropSteps, hs] using ih

lemma relativeTo?_below (hp : p.isAbsolute) (hf : ∀ n ∈ fr, IsName n) (hla : IsName last) :
    (Project.below p (fr ++ [last])).relativeTo? p = some ⟨"/".intercalate (fr ++ [last])⟩ := by
  have ha : ∀ n ∈ fr ++ [last], IsName n := by simpa [or_imp, forall_and] using ⟨hf, hla⟩
  obtain ⟨hab, hst⟩ := steps_below hp ha
  obtain ⟨pre, hb, hpi⟩ := exists_pieces_before hp
  obtain ⟨name, names, hc⟩ := exists_cons_of_ne_nil (by simp : fr ++ [last] ≠ [])
  have hj : (Project.below p (fr ++ [last])).pieces = "" :: (pre ++ fr ++ [last]) := by
    rw [hc] at ha ⊢
    rw [below_eq_join hp ha, hpi _ (isAbsolute_intercalate ha), pieces_intercalate (by simp) fun n hn => (ha n hn).2.2.2,
      append_assoc, hc]
    simp
  have hk : trimPieces true (Project.below p (fr ++ [last])).pieces = "" :: (pre ++ fr ++ [last]) := by
    rw [hj, ← cons_append]
    exact trimPieces_append_name _ hla
  have hs : (Project.below p (fr ++ [last])).startsWith p := by
    rw [startsWith, hst, isPrefixOf_iff_prefix]
    exact prefix_append _ _
  obtain ⟨cs, hcs⟩ := exists_of_isAbsolute hp
  have hl : p.steps.length - 1 = (pre.filterMap (step? false)).length := by
    rw [hb, length_tail]
  have hr : (p.steps.length == 0) = false := by simp [steps_of_toList hcs]
  have he : ∀ n pieces, dropSteps true n ("" :: pieces) = dropSteps false n pieces := fun n pieces => rfl
  have hna : IsName name := ha name (by simp [hc])
  simp only [relativeTo?, hs, hr, hk, hab, if_true, Bool.not_true, false_eq_true, if_false, he, hl]
  rw [append_assoc, hc, dropSteps_append hna]

lemma parent?_intercalate (hf : ∀ n ∈ fr, IsName n) (hl : IsName last) :
    (Path.mk ("/".intercalate (fr ++ [last]))).parent? = some ⟨"/".intercalate fr⟩ := by
  have ha : ∀ n ∈ fr ++ [last], IsName n := by simpa [or_imp, forall_and] using ⟨hf, hl⟩
  rw [parent?, pieces_intercalate (by simp) fun n hn => (ha n hn).2.2.2, trimPieces_append_name fr hl,
    isAbsolute_intercalate ha]
  split
  · rename_i hni
    simp at hni
  · rw [dropLast_concat]
    rcases eq_nil_or_concat fr with rfl | ⟨above, name, rfl⟩
    · rfl
    · rw [concat_eq_append] at hf ⊢
      rw [trimPieces_append_name above (hf name (by simp))]
      cases above <;> rfl

lemma eq_of_cutName {name extension : String} (h : (cutName name).2 = some extension) :
    name = (cutName name).1 ++ "." ++ extension := by
  rw [cutName] at h ⊢
  generalize hb : name.toList.reverse = back at h ⊢
  generalize ha : back.takeWhile (· != '.') = aft at h ⊢
  have hp : aft ++ back.dropWhile (· != '.') = back := by rw [← ha, takeWhile_append_dropWhile]
  have hd : back.drop aft.length = back.dropWhile (· != '.') := by
    conv_lhs => rw [← hp, drop_left]
  rw [hd] at h ⊢
  split at h
  · rename_i dot fst pre hc
    cases h
    have hdo : dot = '.' := by
      have hh := head_dropWhile_not (l := back) (p := (· != '.')) (by simp [hc])
      simpa [hc] using hh
    rw [hc, hdo] at hp
    rw [← toList_inj, ← reverse_inj, hb, ← hp]
    simp
  · cases h

end Path

end CustomElement.Files

namespace CustomElement.Project

open List Files Files.Tree

variable {s : Settings} {disk part : Tree} {components : List Path} {decode : String → String}

/-- Where the module of a component is written if `decode` gives the texts of names. -/
def Settings.targetBy (s : Settings) (decode : String → String) (component : Path) : Path :=
  outputPath s.input s.out component decode

lemma exists_names_of_found (hd : disk.Sound) (hin : s.input.isAbsolute)
    (ha : disk.at? s.input = some part) (hdi : part.isDir)
    (hf : findComponents s disk decode = .ok components) {c : Path} (hc : c ∈ components) :
    ∃ fr last, c = below s.input (fr ++ [last]) ∧ (∀ n ∈ fr, IsName n) ∧ IsName last ∧
      c.steps = s.input.steps ++ fr.map .into ++ [.into last] ∧
      ∃ extension, decode extension ∈ s.extensions ∧ (Path.cutName last).2 = some extension := by
  rw [findComponents_of_dir ha hdi] at hf
  rw [← ok.inj hf] at hc
  obtain ⟨names, hn, rfl⟩ := mem_map.1 hc
  obtain ⟨hl, hco⟩ := mem_filter.1 hn
  obtain ⟨fr, last, rfl, hfr, hla, hs⟩ := exists_steps_below hd hin ha hdi hl
  refine ⟨fr, last, rfl, hfr, hla, hs, ?_⟩
  have he : s.isComponent (below s.input (fr ++ [last])) decode := (and_eq_true_iff.1 hco).1
  rw [Settings.isComponent, Path.extension?_of_steps hs, Option.any_eq_true] at he
  obtain ⟨extension, hso, hm⟩ := he
  exact ⟨extension, by simpa using hm, hso⟩

lemma isName_module {stem : String} (hs : '/' ∉ stem.toList) : IsName (stem ++ ".js") := by
  have hl : 3 ≤ (stem ++ ".js").toList.length := by simp
  refine ⟨?_, ?_, ?_, by simp [hs]⟩ <;> intro heq <;> simp [heq] at hl

section

variable (hin : s.input.isAbsolute)
  (ho : ∀ out, s.out = some out →
    out.isAbsolute ∧ out.extension?.any (fun extension => moduleExtensions.contains (decode extension)) = false)
  (hde : ∀ name : String, '/' ∉ name.toList → '/' ∉ (decode name).toList)

include hin ho hde

/-- **The steps to the module of a component**: those to the input or output directory, and those of the component below
the input, with another name at the end. -/
lemma steps_target (hf : ∀ n ∈ fr, IsName n) (hl : IsName last) :
    (s.targetBy decode (below s.input (fr ++ [last]))).steps =
      (s.out.getD s.input).steps ++ (fr ++ [decode (Path.cutName last).1 ++ ".js"]).map .into := by
  have hal : ∀ n ∈ fr ++ [last], IsName n := by simpa [or_imp, forall_and] using ⟨hf, hl⟩
  obtain ⟨ha, hs⟩ := Path.steps_below hin hal
  have hc : (below s.input (fr ++ [last])).steps = s.input.steps ++ fr.map .into ++ [.into last] := by
    simp [hs]
  have hm : IsName (decode (Path.cutName last).1 ++ ".js") := by
    obtain ⟨-, tl, ht⟩ := Path.stem_cutName hl.1
    exact isName_module (hde _ fun hme => hl.2.2.2 (by rw [ht]; exact mem_append_left _ hme))
  simp only [Settings.targetBy, outputPath, Path.stem?_of_steps hc]
  cases hn : s.out with
  | none =>
    obtain ⟨cs, hcs⟩ := Path.exists_of_isAbsolute hin
    have hr : (below s.input (fr ++ [last])).steps = .root :: (Path.stepsBehind cs ++ fr.map .into) ++ [.into last] := by
      rw [hc, Path.steps_of_toList hcs]
      simp
    simp only [(Path.steps_withFileName ha hr hm).1, Option.getD_none, Path.steps_of_toList hcs]
    simp
  | some out =>
    obtain ⟨ho, he⟩ := ho out hn
    have hp : Path.parent? ⟨"/".intercalate (fr ++ [last])⟩ = some ⟨"/".intercalate fr⟩ := Path.parent?_intercalate hf hl
    simp only [he, Path.relativeTo?_below hin hf hl, bind_some, hp, getD_some, false_eq_true, if_false]
    obtain ⟨hd, hb⟩ := Path.steps_join ho (Path.isAbsolute_intercalate hf)
    rw [(Path.steps_join hd (Path.isAbsolute_name hm)).2, hb, Path.stepsBehind_name hm, Path.stepsBehind_intercalate hf]
    simp

lemma exists_place?_target : ∃ base, ∀ (fr : List String) (last : String), (∀ n ∈ fr, IsName n) → IsName last →
      (s.targetBy decode (below s.input (fr ++ [last]))).place? =
        some (base ++ fr ++ [decode (Path.cutName last).1 ++ ".js"]) := by
  refine ⟨Path.namesOf ((s.out.getD s.input).steps.foldl Path.cleanStep []), fun fr last hf hl => ?_⟩
  have hs := steps_target hin ho hde hf hl
  rw [Path.place?_eq (by simp [hs]), hs, foldl_append, Path.namesOf_into]
  simp

end

lemma isAbsolute_out {cwd : Path} {args : Arguments} {file : ConfigFile} (hc : cwd.isAbsolute)
    (hm : Settings.merge cwd args file = .ok s) {out : Path} (ho : s.out = some out) : out.isAbsolute := by
  unfold Settings.merge at hm
  split at hm
  · obtain ⟨ignore, -, hs⟩ := bind_eq_ok.1 hm
    rw [← ok.inj hs] at ho
    obtain ⟨x, -, rfl⟩ := map_eq_some_iff.1 ho
    exact isAbsolute_join hc _
  · cases hm

/-- **Two components of a directory are written to the same place exactly if they lie in the same directory and their
stems have the same text**; then the paths of their modules are the same, their names end with extensions of components,
and these are not the same if the stems are. -/
theorem target_eq_iff {cwd : Path} {args : Arguments} {file : ConfigFile} {decode : String → String}
    (hdecode : ∀ name : String, '/' ∉ name.toList → '/' ∉ (decode name).toList) (hcwd : cwd.isAbsolute = true)
    (hmerge : Settings.merge cwd args file = .ok s) (hdisk : disk.Sound) (hat : disk.at? s.input = some part)
    (hdir : part.isDir = true) (hfound : findComponents s disk decode = .ok components)
    (hout : ∀ out, s.out = some out →
      out.extension?.any (fun extension => moduleExtensions.contains (decode extension)) = false) {c c' : Path}
    (hc : c ∈ components) (hc' : c' ∈ components) (hne : c ≠ c') :
    ((s.targetBy decode c).place? = (s.targetBy decode c').place? ↔
      c.directory.steps = c'.directory.steps ∧ c.stem?.map decode = c'.stem?.map decode) ∧
    ((s.targetBy decode c).place? = (s.targetBy decode c').place? →
      (s.targetBy decode c).steps = (s.targetBy decode c').steps ∧
        ∃ e e', c.extension? = some e ∧ c'.extension? = some e' ∧ decode e ∈ s.extensions ∧
          decode e' ∈ s.extensions ∧ (c.stem? = c'.stem? → e ≠ e')) := by
  have hinput : s.input.isAbsolute = true := isAbsolute_input hcwd hmerge
  have hout' := fun out hsome => And.intro (isAbsolute_out hcwd hmerge hsome) (hout out hsome)
  obtain ⟨base, hplace⟩ := exists_place?_target hinput hout' hdecode
  obtain ⟨front, last, rfl, hfront, hlast, hsteps, e, he, hcut⟩ := exists_names_of_found hdisk hinput hat hdir hfound hc
  obtain ⟨front', last', rfl, hfront', hlast', hsteps', e', he', hcut'⟩ :=
    exists_names_of_found hdisk hinput hat hdir hfound hc'
  obtain ⟨cs, hcs⟩ := Path.exists_of_isAbsolute hinput
  have hdirectory : ∀ names name, (∀ n ∈ names, IsName n) → IsName name →
      (below s.input (names ++ [name])).directory.steps = s.input.steps ++ names.map .into := by
    intro names name hnames hname
    have hall : ∀ n ∈ names ++ [name], IsName n := by simpa [or_imp, forall_and] using ⟨hnames, hname⟩
    obtain ⟨habsolute, hall⟩ := Path.steps_below hinput hall
    rw [Path.steps_of_toList hcs] at hall ⊢
    exact Path.steps_directory habsolute (by simpa using hall)
  have hsame : (s.targetBy decode (below s.input (front ++ [last]))).place? =
      (s.targetBy decode (below s.input (front' ++ [last']))).place? ↔
        front = front' ∧ decode (Path.cutName last).1 = decode (Path.cutName last').1 := by
    rw [hplace front last hfront hlast, hplace front' last' hfront' hlast', Option.some_inj, List.append_assoc,
      List.append_assoc, List.append_cancel_left_eq]
    constructor
    · intro heq
      obtain ⟨rfl, hname⟩ := List.append_inj' heq rfl
      exact ⟨rfl, by simpa using hname⟩
    · rintro ⟨rfl, hstem⟩
      rw [hstem]
  have hinto : front.map Step.into = front'.map Step.into ↔ front = front' :=
    List.map_inj_right fun a b hab => Step.into.inj hab
  rw [hsame, hdirectory front last hfront hlast, hdirectory front' last' hfront' hlast', List.append_cancel_left_eq,
    hinto, Path.stem?_of_steps hsteps, Path.stem?_of_steps hsteps', Option.map_some, Option.map_some, Option.some_inj,
    Option.some_inj]
  refine ⟨Iff.rfl, ?_⟩
  rintro ⟨rfl, htext⟩
  refine ⟨?_, e, e', ?_, ?_, he, he', ?_⟩
  · rw [steps_target hinput hout' hdecode hfront hlast, steps_target hinput hout' hdecode hfront hlast', htext]
  · rw [Path.extension?_of_steps hsteps, hcut]
  · rw [Path.extension?_of_steps hsteps', hcut']
  · rintro hstem rfl
    -- The same stem and extension make the same name.
    refine hne ?_
    rw [Path.eq_of_cutName hcut, Path.eq_of_cutName hcut', hstem]

/-- The text of a name whose bytes are written as characters, where all that are not ASCII stand in no UTF-8 text: these
become replacement characters. -/
def asciiText (name : String) : String := name.map fun c => if c.toNat < 0x80 then c else '\uFFFD'

def twinEntries : List (String × Tree) :=
  [("a.vue", .file ""), ("a.wc", .file ""), ("aþ.wc", .file ""), ("aÿ.wc", .file ""), ("sub", .dir [("a.wc", .file "")])]

def twinSettings : Settings := { sampleSettings with extensions := ["wc", "vue"] }

lemma merge_twins : Settings.merge ⟨"/"⟩ { input := some "src", strict := true } { extensions := ["wc", "vue"] } =
    .ok twinSettings := by
  cbv

lemma sound_twins : Tree.Sound (.dir [("src", .dir twinEntries)]) := by
  have hs : NamesSound (.dir [("a.wc", .file "")]) := namesSound_dir (by decide) (by decide) (by simp [namesSound_file])
  have hn : NamesSound (.dir twinEntries) :=
    namesSound_dir (by decide) (by decide) (by simpa [twinEntries, namesSound_file] using hs)
  exact ⟨rfl, namesSound_dir (by decide) (by decide) (by simpa using hn)⟩

lemma at?_twins : (Tree.dir [("src", .dir twinEntries)]).at? twinSettings.input = some (.dir twinEntries) := by
  cbv

def twins : List Path := [⟨"/src/a.vue"⟩, ⟨"/src/a.wc"⟩, ⟨"/src/aþ.wc"⟩, ⟨"/src/aÿ.wc"⟩, ⟨"/src/sub/a.wc"⟩]

lemma findComponents_twins : findComponents twinSettings (.dir [("src", .dir twinEntries)]) = .ok twins ∧
    findComponents twinSettings (.dir [("src", .dir twinEntries)]) asciiText = .ok twins := by
  have hl : (Tree.dir twinEntries).listing = [["a.vue"], ["a.wc"], ["aþ.wc"], ["aÿ.wc"], ["sub", "a.wc"]] := by cbv
  rw [findComponents_of_dir at?_twins rfl, findComponents_of_dir at?_twins rfl, hl]
  constructor <;> refine congrArg Except.ok ?_ <;> decide +kernel

lemma slash_not_mem_asciiText {name : String} (h : '/' ∉ name.toList) : '/' ∉ (asciiText name).toList := by
  intro hm
  obtain ⟨c, hc, heq⟩ := mem_map.1 (String.toList_map .. ▸ hm)
  split at heq
  · exact h (heq ▸ hc)
  · cases heq

theorem target_eq_iff_twins :
    (twinSettings.targetBy id ⟨"/src/a.vue"⟩).place? = (twinSettings.targetBy id ⟨"/src/a.wc"⟩).place? ∧
      (twinSettings.targetBy id ⟨"/src/aþ.wc"⟩).place? ≠ (twinSettings.targetBy id ⟨"/src/aÿ.wc"⟩).place? ∧
      (twinSettings.targetBy asciiText ⟨"/src/aþ.wc"⟩).place? =
        (twinSettings.targetBy asciiText ⟨"/src/aÿ.wc"⟩).place? := by
  have hnone : ∀ (decode : String → String) out, twinSettings.out = some out →
      out.extension?.any (fun e => moduleExtensions.contains (decode e)) = false := fun _ _ hout => nomatch hout
  have hid : ∀ name : String, '/' ∉ name.toList → '/' ∉ (id name).toList := fun _ h => h
  obtain ⟨hplain, hascii⟩ := findComponents_twins
  have hvue : (⟨"/src/a.vue"⟩ : Path) ∈ twins := by decide
  have hwc : (⟨"/src/a.wc"⟩ : Path) ∈ twins := by decide
  have hthorn : (⟨"/src/aþ.wc"⟩ : Path) ∈ twins := by decide
  have hy : (⟨"/src/aÿ.wc"⟩ : Path) ∈ twins := by decide
  have htwins := (target_eq_iff hid rfl merge_twins sound_twins at?_twins rfl hplain (hnone id)
    hvue hwc (by decide)).1
  have hplain := (target_eq_iff hid rfl merge_twins sound_twins at?_twins rfl hplain (hnone id)
    hthorn hy (by decide)).1
  have hascii := (target_eq_iff (fun _ => slash_not_mem_asciiText) rfl merge_twins sound_twins at?_twins rfl hascii
    (hnone asciiText) hthorn hy (by decide)).1
  rw [htwins, Ne, hplain, hascii]
  decide +kernel

theorem exists_same_target : ∃ (cwd : Path) (args : Arguments) (file : ConfigFile) (s : Settings) (disk part : Tree)
    (components : List Path) (c c' : Path), Settings.merge cwd args file = .ok s ∧ cwd.isAbsolute = true ∧ disk.Sound ∧
      disk.at? s.input = some part ∧ part.isDir = true ∧ s.out = none ∧ findComponents s disk = .ok components ∧
      c ∈ components ∧ c' ∈ components ∧ c ≠ c' ∧ s.target c = s.target c' :=
  ⟨⟨"/"⟩, { input := some "src", strict := true }, { extensions := ["wc", "vue"] }, twinSettings,
    .dir [("src", .dir twinEntries)], .dir twinEntries, twins, ⟨"/src/a.vue"⟩, ⟨"/src/a.wc"⟩, merge_twins, rfl, sound_twins,
    at?_twins, rfl, rfl, findComponents_twins.1, by decide, by decide, by decide, by decide +kernel⟩

end CustomElement.Project
