import CustomElement.Component.Standard
import CustomElement.Proofs.Files.Places
import CustomElement.Proofs.Outcome

/-!
# Building twice

If a build writes no file that a component is compiled from, no place where a style sheet is looked for, and no
component, then the next build finds, reports and writes the same (`build_repeats`).
-/

namespace CustomElement.Component

open List Files Markup

def references (doc : Document) : List String :=
  (doc.template.reference.toList ++ doc.script.reference.toList ++
    (doc.style.bind Section.reference).toList).map Reference.path

lemma mem_references {doc : Document} {path : String} :
    path ∈ references doc ↔ ∃ r : Reference, (doc.template.reference = some r ∨ doc.script.reference = some r ∨
      ∃ style, doc.style = some style ∧ style.reference = some r) ∧ r.path = path := by
  simp only [references, map_append, mem_append, mem_map, Option.mem_toList, bind_eq_some_iff]
  constructor
  · rintro ((⟨r, hr, rfl⟩ | ⟨r, hr, rfl⟩) | ⟨r, hr, rfl⟩)
    · exact ⟨r, .inl hr, rfl⟩
    · exact ⟨r, .inr (.inl hr), rfl⟩
    · exact ⟨r, .inr (.inr hr), rfl⟩
  · rintro ⟨r, hr | hr | hr, rfl⟩
    · exact .inl (.inl ⟨r, hr, rfl⟩)
    · exact .inl (.inr ⟨r, hr, rfl⟩)
    · exact .inr ⟨r, hr, rfl⟩

lemma content_congr {s s' : Setting} {doc : Document} (hp : s'.path = s.path) (hre : ∀ r ∈ references doc,
      s'.files.read? (resolveReference s.path r) = s.files.read? (resolveReference s.path r))
    (block : Block) (reference : Option Reference) (hm : ∀ r, reference = some r → r.path ∈ references doc) :
    s'.content block reference = s.content block reference := by
  cases reference with
  | none => rfl
  | some r =>
    have hr := hre r.path (hm r rfl)
    simp only [Setting.content, resolveContent, map_some, hp, hr]

/-- **A compilation depends on the document, on the files it refers to and on the style sheets.** -/
lemma compileFile_congr {s s' : Setting} (ht : s'.toolchain = s.toolchain) (hp : s'.path = s.path)
    (hst : s'.strict = s.strict) (hd : s'.files.read? s.path = s.files.read? s.path)
    (hre : ∀ src doc, s.files.read? s.path = some src → parseDocument src = .ok doc → ∀ r ∈ references doc,
        s'.files.read? (resolveReference s.path r) = s.files.read? (resolveReference s.path r))
    (hsh : s.toolchain.flattenSheet s'.files = s.toolchain.flattenSheet s.files) : s'.compileFile = s.compileFile := by
  rw [Setting.compileFile, Setting.compileFile, hp, hd]
  cases hso : s.files.read? s.path with
  | none => rfl
  | some src =>
    have hco : ∀ doc, readDocument s.path src = .ok doc → parseDocument src = .ok doc := fun doc => mapError_eq_ok.1
    simp only [Setting.compile, hp]
    cases hdo : readDocument s.path src with
    | error e => rfl
    | ok doc =>
      have hc := content_congr hp (hre src doc hso (hco doc hdo))
      have hsy : s'.buildStyle doc = s.buildStyle doc := by
        unfold Setting.buildStyle
        cases hs : doc.style with
        | none => rfl
        | some style =>
          have hru : s'.styleRules = s.styleRules := by
            funext dialect content
            simp only [Setting.styleRules, ht, hp, hst, hsh]
          simp only [hru, hc style.block style.reference fun r hr =>
            mem_references.2 ⟨r, .inr (.inr ⟨style, hs, hr⟩), rfl⟩]
      have hte : s'.buildTemplate doc = s.buildTemplate doc := by
        funext style
        simp only [Setting.buildTemplate, hc doc.template.block doc.template.reference fun r hr =>
          mem_references.2 ⟨r, .inl hr, rfl⟩]
      have hsc : s'.buildScript doc = s.buildScript doc := by
        funext template
        have hpl : s'.plainScript = s.plainScript := by
          funext dialect content
          simp only [Setting.plainScript, ht, hst]
        simp only [Setting.buildScript, hpl, hc doc.script.block doc.script.reference fun r hr =>
          mem_references.2 ⟨r, .inr (.inl hr), rfl⟩]
      simp only [hsy, hte, hsc, bind, Except.bind]

end CustomElement.Component

namespace CustomElement.Project

open List Files Files.Tree Component Markup

variable {c p : Path} {disk t u : Tree} {state : Tree × Report}

def Settings.target (s : Settings) (component : Path) : Path := outputPath s.input s.out component

def sources (disk : Tree) (component : Path) : List Path :=
  component :: match disk.read? component with
    | none => []
    | some source =>
      match parseDocument source with
      | .error _ => []
      | .ok doc => (references doc).map (resolveReference component)

/-- What a build writes is nothing that it reads. Style sheets look at the places `looked` only. -/
structure Undisturbed (toolchain : Toolchain) (cwd : Path) (s : Settings) (disk : Tree) (components : List Path)
    (looked : List String → Prop) : Prop where
  sheets : ∀ t t' : Tree, (∀ place, looked place → t'.look? place = t.look? place) →
    toolchain.flattenSheet (t'.viewFrom cwd) = toolchain.flattenSheet (t.viewFrom cwd)
  apart : ∀ place, looked place → ∀ c ∈ components,
    (s.target c).place? ≠ some place ∧ ((s.target c).OnWay place → disk.look? place ≠ none)
  sources : ∀ c ∈ components, ∀ p ∈ sources disk c, ∀ c' ∈ components, (s.target c').place? ≠ p.place?
  fresh : ∀ c ∈ components, ∀ place rest, s.input.place? = some place → (s.target c).place? = some (place ++ rest) →
      (s.isComponent (below s.input rest) && !s.isIgnored (below s.input rest)) = false

/-- The tree is reached from the disk by writing some of the paths. -/
structure Reached (outs : List Path) (disk t : Tree) : Prop where
  keeps : Keeps disk t
  frame : ∀ place, (∀ o ∈ outs, o.place? ≠ some place) → t.look? place = disk.look? place ∨
    disk.look? place = none ∧ t.look? place = some .dir ∧ ∃ o ∈ outs, o.OnWay place
  listed : ∀ place part, disk.find? place = some part → ∃ part', t.find? place = some part' ∧
    ∀ p, (∀ o ∈ outs, ∀ rest, o.place? = some (place ++ rest) → p rest = false) →
      part'.listing.filter p = part.listing.filter p

lemma Reached.refl (outs : List Path) (disk : Tree) : Reached outs disk disk :=
  ⟨.refl disk, fun _ _ => .inl rfl, fun _ part hp => ⟨part, hp, fun _ _ => rfl⟩⟩

lemma Reached.write {outs : List Path} {t' : Tree} (h : Reached outs disk t) {o : Path} (ho : o ∈ outs)
    {cts : String} (hw : t.write? o cts = some t') : Reached outs disk t' := by
  refine ⟨h.keeps.trans (.write hw), fun pl hpl => ?_, fun pl part hpa => ?_⟩
  · rw [look?_write hw, if_neg (hpl o ho)]
    by_cases hon : o.OnWay pl
    · rw [if_pos hon]
      rcases h.frame pl hpl with hs | ⟨hn, -, -⟩
      · have hwa := (write?_isSome_iff.1 (isSome_iff_exists.2 ⟨t', hw⟩)).1 pl hon
        cases he : disk.look? pl with
        | none => exact .inr ⟨rfl, rfl, o, ho, hon⟩
        | some e =>
          cases e with
          | dir => exact .inl rfl
          | file old => exact absurd (hs.trans he) (hwa old)
      · exact .inr ⟨hn, rfl, o, ho, hon⟩
    · rw [if_neg hon]
      exact h.frame pl hpl
  · obtain ⟨part', hpa', hl⟩ := h.listed pl part hpa
    obtain ⟨part'', hpa'', hl'⟩ := listing_write hw hpa'
    refine ⟨part'', hpa'', fun p hp => ?_⟩
    rw [hl' p fun r hr => .inl (hp o ho r hr), hl p hp]

section Reading

variable {toolchain : Toolchain} {cwd : Path} {s : Settings} {components : List Path} {looked : List String → Prop}

lemma isAbsolute_join (hp : p.isAbsolute) (q : Path) : (p.join q).isAbsolute := by
  cases hq : q.isAbsolute with
  | true => rwa [Path.join, if_pos hq]
  | false => exact (Path.steps_join hp hq).1

lemma isAbsolute_input {args : Arguments} {file : ConfigFile} (hc : cwd.isAbsolute)
    (hm : Settings.merge cwd args file = .ok s) : s.input.isAbsolute := by
  unfold Settings.merge at hm
  split at hm
  · obtain ⟨ignore, -, hs⟩ := bind_eq_ok.1 hm
    rw [← ok.inj hs]
    exact isAbsolute_join hc _
  · cases hm

lemma read?_viewFrom (hp : p.isAbsolute) (t : Tree) : (t.viewFrom cwd).read? p = t.read? p := by
  simp only [Tree.viewFrom, Path.join, hp, if_true]

lemma exists_read?_of_found (hd : disk.Sound) (hin : s.input.isAbsolute)
    (hf : findComponents s disk = .ok components) (hc : c ∈ components) :
    c.isAbsolute ∧ ∃ source, disk.read? c = some source := by
  unfold findComponents at hf
  split at hf
  · rename_i cts ha
    cases hf
    obtain rfl := mem_singleton.1 hc
    exact ⟨hin, cts, by simp only [Tree.read?, ha]⟩
  · rename_i part hfi ha
    cases hf
    obtain ⟨entry, he, rfl⟩ := mem_map.1 (mem_filter.1 hc).1
    refine hd.exists_read?_below hin ha ?_ (mem_map_of_mem he)
    cases part with
    | file cts => exact absurd rfl (hfi cts)
    | dir es => rfl
  · cases hf

lemma straight_resolveReference (hd : disk.Sound) (hc : c.isAbsolute) {src : String}
    (hr : disk.read? c = some src) (r : String) :
    (resolveReference c r).isAbsolute ∧ ∃ names : List String, (resolveReference c r).steps = .root :: names.map .into := by
  have hro : c.steps ≠ [.root] := by
    intro hs
    have hst : c.steps = .root :: ([] : List String).map .into := hs
    rw [read?_of_straight hst] at hr
    split at hr
    · cases hr
    · obtain ⟨hdi, -⟩ := hd
      rw [contents?_eq_some, look?_nil] at hr
      cases disk with
      | file old => cases hdi
      | dir es => cases hr
  have hj := isAbsolute_join (Path.isAbsolute_directory hc hro) ⟨r⟩
  obtain ⟨names, -, ha, hs⟩ := Path.steps_clean hj
  exact ⟨ha, names, hs⟩

section

variable (ht : Reached (components.map s.target) disk t) (h : Undisturbed toolchain cwd s disk components looked)

include ht h

lemma Reached.read?_source (hdi : disk.Sound) (hc : c ∈ components)
    (ha : c.isAbsolute) {src : String} (hr : disk.read? c = some src) (hp : p ∈ sources disk c) :
    t.read? p = disk.read? p := by
  have hf : ∀ place, p.place? = some place → t.look? place = disk.look? place ∨
      disk.look? place = none ∧ t.look? place = some .dir := by
    intro place hpl
    have hou : ∀ o ∈ components.map s.target, o.place? ≠ some place := by
      intro o ho
      obtain ⟨c', hc', rfl⟩ := mem_map.1 ho
      exact hpl ▸ h.sources c hc p hp c' hc'
    exact (ht.frame place hou).imp_right fun ⟨hn, hd, _⟩ => ⟨hn, hd⟩
  rcases mem_cons.1 hp with rfl | hp
  · rw [hr]
    refine ht.keeps.read? hr fun place hpl => ?_
    obtain ⟨-, -, place', hpl', hfi⟩ := read?_eq_some.1 hr
    obtain rfl := some.inj (hpl.symm.trans hpl')
    refine (hf place hpl).resolve_right ?_
    rintro ⟨hn, -⟩
    rw [hn] at hfi
    cases hfi
  · rw [hr] at hp
    split at hp
    · cases hp
    · rename_i hso
      cases hso
      split at hp
      · cases hp
      · obtain ⟨r, -, rfl⟩ := mem_map.1 hp
        obtain ⟨-, names, hs⟩ := straight_resolveReference hdi ha hr r
        rw [read?_of_straight hs, read?_of_straight hs, Tree.contents?, Tree.contents?]
        rcases hf names (Path.place?_of_straight hs) with heq | ⟨hn, hd⟩
        · rw [heq]
        · rw [hn, hd]

lemma Reached.compileFile (hd : disk.Sound)
    (hra : ∀ c ∈ components, c.isAbsolute ∧ ∃ src, disk.read? c = some src) (hc : c ∈ components) :
    (Setting.mk toolchain (t.viewFrom cwd) c s.strict).compileFile =
      (Setting.mk toolchain (disk.viewFrom cwd) c s.strict).compileFile := by
  obtain ⟨ha, src, hs⟩ := hra c hc
  refine compileFile_congr rfl rfl rfl ?_ (fun x doc hte hdo r hr => ?_) ?_
  · rw [read?_viewFrom ha, read?_viewFrom ha]
    exact ht.read?_source h hd hc ha hs mem_cons_self
  · rw [read?_viewFrom ha] at hte
    have hre := (straight_resolveReference hd ha hte r).1
    rw [read?_viewFrom hre, read?_viewFrom hre]
    refine ht.read?_source h hd hc ha hte (mem_cons_of_mem c ?_)
    simp only [hte, hdo]
    exact mem_map_of_mem hr
  · refine h.sheets disk t fun place hp => ?_
    have hou : ∀ o ∈ components.map s.target, o.place? ≠ some place := by
      intro o ho
      obtain ⟨c', hc', rfl⟩ := mem_map.1 ho
      exact (h.apart place hp c' hc').1
    refine (ht.frame place hou).resolve_right ?_
    rintro ⟨hn, -, o, ho, hon⟩
    obtain ⟨c', hc', rfl⟩ := mem_map.1 ho
    exact (h.apart place hp c' hc').2 hon hn

end

end Reading

section Runs

variable {toolchain : Toolchain} {cwd : Path} {s : Settings} {components : List Path}
  {outcome : Path → Except Failure (Reported String)}

/-- The tree and the report after one more component has been compiled with this outcome. -/
def deliver (s : Settings) (outcome : Path → Except Failure (Reported String)) (state : Tree × Report)
    (c : Path) : Tree × Report :=
  match outcome c with
  | .error _ => (state.1, state.2.addFailed)
  | .ok result =>
    match state.1.write? (s.target c) (outputText result.value) with
    | none => (state.1, state.2.addFailed)
    | some t => (t, state.2.addCompiled result.diagnostics)

lemma buildStep_eq_deliver (h : (Setting.mk toolchain (state.1.viewFrom cwd) c s.strict).compileFile = outcome c) :
    buildStep toolchain cwd s state c = deliver s outcome state c := by
  have ho : buildOne? toolchain cwd s state.1 c = match outcome c with
      | .error _ => none
      | .ok result => (state.1.write? (s.target c) (outputText result.value)).map fun t => (t, result.diagnostics) := by
    unfold buildOne?
    rw [h]
    rfl
  unfold buildStep deliver
  rw [ho]
  cases outcome c with
  | error e => rfl
  | ok result =>
    simp only []
    cases state.1.write? (s.target c) (outputText result.value) <;> rfl

lemma deliver_fst (state : Tree × Report) (c : Path) : (deliver s outcome state c).1 = state.1 ∨
      ∃ x, state.1.write? (s.target c) x = some (deliver s outcome state c).1 := by
  unfold deliver
  split
  · exact .inl rfl
  · rename_i result _
    split
    · exact .inl rfl
    · exact .inr ⟨outputText result.value, ‹_›⟩

lemma keeps_deliver (state : Tree × Report) (c : Path) : Keeps state.1 (deliver s outcome state c).1 := by
  rcases deliver_fst state c with hs | ⟨x, hw⟩
  · rw [hs]
    exact .refl state.1
  · exact .write hw

lemma Reached.deliver (h : Reached (components.map s.target) disk state.1) (hc : c ∈ components) :
    Reached (components.map s.target) disk (deliver s outcome state c).1 := by
  rcases deliver_fst state c with hs | ⟨x, hw⟩
  · rwa [hs]
  · exact h.write (mem_map_of_mem hc) hw

lemma keeps_foldl_deliver (cs : List Path) (state : Tree × Report) :
    Keeps state.1 (cs.foldl (deliver s outcome) state).1 := by
  induction cs generalizing state with
  | nil => exact .refl state.1
  | cons c cs ih => exact (keeps_deliver state c).trans (ih _)

lemma foldl_buildStep (cs : List Path) (hcs : ∀ c ∈ cs, c ∈ components)
    (hco : ∀ c ∈ components, ∀ t, Reached (components.map s.target) disk t →
      (Setting.mk toolchain (t.viewFrom cwd) c s.strict).compileFile = outcome c)
    (h : Reached (components.map s.target) disk state.1) :
    cs.foldl (buildStep toolchain cwd s) state = cs.foldl (deliver s outcome) state ∧
      Reached (components.map s.target) disk (cs.foldl (deliver s outcome) state).1 := by
  induction cs generalizing state with
  | nil =>
    rw [foldl_nil, foldl_nil]
    exact ⟨rfl, h⟩
  | cons c cs ih =>
    obtain ⟨hc, hcs⟩ := forall_mem_cons.1 hcs
    rw [foldl_cons, foldl_cons, buildStep_eq_deliver (hco c hc state.1 h)]
    exact ih hcs (h.deliver hc)

/-- Delivering once more ends alike: what could be written can be written again, and what could not still cannot. -/
lemma deliver_again {rep : Report} (h : Keeps (deliver s outcome (t, rep) c).1 u) :
    (deliver s outcome (u, rep) c).2 = (deliver s outcome (t, rep) c).2 ∧
      ∀ place, (deliver s outcome (u, rep) c).1.look? place = (deliver s outcome (t, rep) c).1.look? place ∨
        (deliver s outcome (t, rep) c).1.look? place = t.look? place ∧
          (deliver s outcome (u, rep) c).1.look? place = u.look? place := by
  have hk : Keeps t u := (keeps_deliver (t, rep) c).trans h
  simp only [deliver] at h ⊢
  cases ho : outcome c with
  | error e => exact ⟨rfl, fun place => .inr ⟨rfl, rfl⟩⟩
  | ok result =>
    simp only [ho] at h ⊢
    cases hw : t.write? (s.target c) (outputText result.value) with
    | none =>
      rw [hk.write?_eq_none hw]
      exact ⟨rfl, fun place => .inr ⟨rfl, rfl⟩⟩
    | some t' =>
      simp only [hw] at h
      obtain ⟨u', hw'⟩ := Keeps.exists_write hw h (outputText result.value)
      rw [hw']
      refine ⟨rfl, fun place => ?_⟩
      simp only [look?_write hw, look?_write hw']
      split
      · exact .inl rfl
      · split
        · exact .inl rfl
        · exact .inr ⟨rfl, rfl⟩

lemma foldl_deliver_again (cs : List Path) {rep : Report} (h : Keeps (cs.foldl (deliver s outcome) (t, rep)).1 u) :
    (cs.foldl (deliver s outcome) (u, rep)).2 = (cs.foldl (deliver s outcome) (t, rep)).2 ∧
      ∀ place, (cs.foldl (deliver s outcome) (u, rep)).1.look? place =
          (cs.foldl (deliver s outcome) (t, rep)).1.look? place ∨
        (cs.foldl (deliver s outcome) (t, rep)).1.look? place = t.look? place ∧
          (cs.foldl (deliver s outcome) (u, rep)).1.look? place = u.look? place := by
  induction cs generalizing t u rep with
  | nil => exact ⟨rfl, fun place => .inr ⟨rfl, rfl⟩⟩
  | cons c cs ih =>
    simp only [foldl_cons] at h ⊢
    obtain ⟨hr, hf⟩ := deliver_again ((keeps_foldl_deliver cs _).trans h)
    generalize deliver s outcome (t, rep) c = fst at *
    have hk : Keeps _ (deliver s outcome (u, rep) c).1 := h.trans (keeps_deliver (u, rep) c)
    generalize deliver s outcome (u, rep) c = again at *
    obtain ⟨t', rep'⟩ := fst
    obtain ⟨u', rep''⟩ := again
    obtain rfl : rep'' = rep' := hr
    obtain ⟨hr, hre⟩ := ih hk
    refine ⟨hr, fun place => (hre place).elim .inl fun ⟨ht, hu⟩ => ?_⟩
    rw [ht, hu]
    exact hf place

end Runs

lemma findComponents_of_dir {s : Settings} {part : Tree} {decode : String → String}
    (ha : disk.at? s.input = some part) (hd : part.isDir) :
    findComponents s disk decode = .ok ((part.listing.filter fun r =>
      s.isComponent (below s.input r) decode && !s.isIgnored (below s.input r)).map (below s.input)) := by
  cases part with
  | file cts => cases hd
  | dir es =>
    simp only [findComponents, ha, listing, filter_map, map_map]
    rfl

lemma Reached.findComponents {toolchain : Toolchain} {cwd : Path} {s : Settings} {components : List Path}
    {looked : List String → Prop} (ht : Reached (components.map s.target) disk t)
    (h : Undisturbed toolchain cwd s disk components looked) (hfo : findComponents s disk = .ok components) :
    findComponents s t = .ok components := by
  cases ha : disk.at? s.input with
  | none =>
    rw [Project.findComponents, ha] at hfo
    cases hfo
  | some part =>
    obtain ⟨hd, ⟨pl, hp, hf⟩, hw⟩ := at?_eq_some.1 ha
    have hd' := fun passed hpa => ht.keeps.dir passed (hd passed hpa)
    obtain ⟨part', hf', hl⟩ := ht.listed pl part hf
    cases part with
    | file cts =>
      rw [Project.findComponents, ha] at hfo
      have hfi : disk.look? pl = some (.file cts) := by rw [look?, hf]; rfl
      obtain ⟨cts', hfi'⟩ := ht.keeps.file pl cts hfi
      rw [look?, hf'] at hfi'
      cases part' with
      | dir es => cases hfi'
      | file old =>
        have ha' : t.at? s.input = some (.file old) := at?_eq_some.2 ⟨hd', ⟨pl, hp, hf'⟩, hw⟩
        rw [Project.findComponents, ha']
        exact hfo
    | dir es =>
      have hdi : disk.look? pl = some .dir := by rw [look?, hf]; rfl
      have hdi' := ht.keeps.dir pl hdi
      rw [look?, hf'] at hdi'
      have hpr' : part'.isDir := by
        cases part' with
        | file old => cases hdi'
        | dir es' => rfl
      have ha' : t.at? s.input = some part' := at?_eq_some.2 ⟨hd', ⟨pl, hp, hf'⟩, .inl hpr'⟩
      rw [findComponents_of_dir ha' hpr', hl, ← findComponents_of_dir ha rfl, hfo]
      intro o ho r hr
      obtain ⟨c, hc, rfl⟩ := mem_map.1 ho
      exact h.fresh c hc pl r hp hr

lemma read?_congr (h : ∀ pl, t.look? pl = u.look? pl) (p : Path) : t.read? p = u.read? p := by
  ext contents
  simp only [read?_eq_some, h]

/-- **A build that writes nothing that it reads can be repeated**: it finds the same components, reports the same and
leaves every file as it is. -/
theorem build_repeats {toolchain : Toolchain} {cwd : Path} {args : Arguments} {file : ConfigFile} {s : Settings}
    {disk disk' : Tree} {components : List Path} {looked : List String → Prop} {report : Report}
    (hcwd : cwd.isAbsolute = true) (hmerge : Settings.merge cwd args file = .ok s) (hdisk : disk.Sound)
    (hfound : findComponents s disk = .ok components)
    (h : Undisturbed toolchain cwd s disk components looked)
    (hbuild : build toolchain cwd s disk = .ok (disk', report)) :
    findComponents s disk' = .ok components ∧
      (∃ disk'', build toolchain cwd s disk' = .ok (disk'', report) ∧ ∀ p, disk''.read? p = disk'.read? p) ∧
      ∀ c ∈ components, ∀ p ∈ sources disk c, disk'.read? p = disk.read? p := by
  have hinput : s.input.isAbsolute = true := isAbsolute_input hcwd hmerge
  have hread : ∀ c ∈ components, c.isAbsolute = true ∧ ∃ source, disk.read? c = some source :=
    fun c hc => exists_read?_of_found hdisk hinput hfound hc
  obtain ⟨outcome, hcompile⟩ : ∃ outcome : Path → Except Failure (Reported String), ∀ c ∈ components,
      ∀ t, Reached (components.map s.target) disk t →
        (Setting.mk toolchain (t.viewFrom cwd) c s.strict).compileFile = outcome c :=
    ⟨_, fun c hc t ht => ht.compileFile h hdisk hread hc⟩
  have hrun : ∀ t, Reached (components.map s.target) disk t → findComponents s t = .ok components →
      build toolchain cwd s t = .ok (components.foldl (deliver s outcome) (t, {})) ∧
        Reached (components.map s.target) disk (components.foldl (deliver s outcome) (t, {})).1 := by
    intro t ht hfound'
    have hstart : Reached (components.map s.target) disk (t, ({} : Report)).1 := ht
    obtain ⟨hfold, hreached⟩ := foldl_buildStep components (fun _ hc => hc) hcompile hstart
    refine ⟨?_, hreached⟩
    rw [build, hfound']
    exact congrArg Except.ok hfold
  obtain ⟨hfirst, hreached⟩ := hrun disk (.refl _ disk) hfound
  have hdisk' : components.foldl (deliver s outcome) (disk, {}) = (disk', report) :=
    ok.inj (hfirst.symm.trans hbuild)
  rw [hdisk'] at hreached
  have hagain := hreached.findComponents h hfound
  refine ⟨hagain, ?_, fun c hc p hp => ?_⟩
  · have hkeeps : Keeps (components.foldl (deliver s outcome) (disk, {})).1 disk' := by
      rw [hdisk']
      exact .refl disk'
    obtain ⟨hreport, hentries⟩ := foldl_deliver_again components hkeeps
    rw [hdisk'] at hreport hentries
    refine ⟨_, (hrun disk' hreached hagain).1.trans (congrArg Except.ok (Prod.ext rfl hreport)), ?_⟩
    exact read?_congr fun place => (hentries place).elim id And.right
  · obtain ⟨habsolute, source, hsource⟩ := hread c hc
    exact hreached.read?_source h hdisk hc habsolute hsource hp

def Toolchain.withoutImports : Toolchain where
  grammar := Script.Grammar.standard
  flattenSheet := fun _ => Sheet.flatten ⟨fun _ => none, fun _ => false⟩

def sampleEntries : List (String × Tree) :=
  [("b.js", .file "class A extends HTMLElement \x7b\x7d"),
    ("a.wc", .file "<template>a</template><script selector='x-a' src='b.js'></script>")]

def sampleSettings : Settings where
  input := ⟨"/src"⟩
  out := none
  watch := false
  strict := true
  extensions := ["wc"]
  ignore := [⟨.leading :: "node_modules".toList.map .literal ++ [.trailing]⟩]

lemma merge_sample : Settings.merge ⟨"/"⟩ { input := some "src", strict := true } {} = .ok sampleSettings := by
  cbv

lemma sound_sample : Tree.Sound (.dir [("src", .dir sampleEntries)]) := by
  have hn : NamesSound (.dir sampleEntries) :=
    namesSound_dir (by decide) (by decide) (by simp [sampleEntries, namesSound_file])
  exact ⟨rfl, namesSound_dir (by decide) (by decide) (by simpa using hn)⟩

lemma at?_sample : (Tree.dir [("src", .dir sampleEntries)]).at? sampleSettings.input = some (.dir sampleEntries) := by
  cbv

lemma findComponents_sample : findComponents sampleSettings (.dir [("src", .dir sampleEntries)]) = .ok [⟨"/src/a.wc"⟩] := by
  have hl : (Tree.dir sampleEntries).listing = [["a.wc"], ["b.js"]] := by cbv
  rw [findComponents_of_dir at?_sample rfl, hl]
  refine congrArg Except.ok ?_
  decide +kernel

lemma undisturbed_sample :
    Undisturbed Toolchain.withoutImports ⟨"/"⟩ sampleSettings (.dir [("src", .dir sampleEntries)]) [⟨"/src/a.wc"⟩]
      fun _ => False where
  sheets := fun _ _ _ => rfl
  apart := fun _ h => h.elim
  sources := by
    have ht : (sampleSettings.target ⟨"/src/a.wc"⟩).place? = some ["src", "a.js"] := by decide +kernel
    have hs : (sources (.dir [("src", .dir sampleEntries)]) ⟨"/src/a.wc"⟩).map Path.place? =
        [some ["src", "a.wc"], some ["src", "b.js"]] := by decide +kernel
    intro c hc p hp c' hc'
    rw [mem_singleton] at hc hc'
    subst hc hc'
    have hpl := mem_map_of_mem (f := Path.place?) hp
    rw [hs] at hpl
    intro heq
    rw [← heq, ht] at hpl
    revert hpl
    decide
  fresh := by
    have ht : (sampleSettings.target ⟨"/src/a.wc"⟩).place? = some ["src", "a.js"] := by decide +kernel
    have hin : sampleSettings.input.place? = some ["src"] := by decide +kernel
    have hm : sampleSettings.isComponent (below sampleSettings.input ["a.js"]) = false := by decide +kernel
    intro c hc pl rest hpl hr
    obtain rfl := mem_singleton.1 hc
    rw [hin] at hpl
    cases hpl
    rw [ht] at hr
    obtain rfl : ["a.js"] = rest := by simpa using hr
    rw [hm]
    rfl

theorem build_repeats_sample : ∃ disk' disk'' report,
    build Toolchain.withoutImports ⟨"/"⟩ sampleSettings (.dir [("src", .dir sampleEntries)]) = .ok (disk', report) ∧
      build Toolchain.withoutImports ⟨"/"⟩ sampleSettings disk' = .ok (disk'', report) ∧
      (∀ p, disk''.read? p = disk'.read? p) ∧
      disk'.read? ⟨"/src/b.js"⟩ = some "class A extends HTMLElement \x7b\x7d" := by
  obtain ⟨⟨disk', report⟩, hbuild⟩ : ∃ outcome,
      build Toolchain.withoutImports ⟨"/"⟩ sampleSettings (.dir [("src", .dir sampleEntries)]) = .ok outcome :=
    ⟨_, by rw [build, findComponents_sample]; rfl⟩
  obtain ⟨-, ⟨disk'', hagain, hfiles⟩, hsources⟩ :=
    build_repeats rfl merge_sample sound_sample findComponents_sample undisturbed_sample hbuild
  refine ⟨disk', disk'', report, hbuild, hagain, hfiles, ?_⟩
  rw [hsources ⟨"/src/a.wc"⟩ List.mem_cons_self ⟨"/src/b.js"⟩ (by decide +kernel)]
  decide +kernel

end CustomElement.Project
