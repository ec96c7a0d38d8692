import CustomElement.Proofs.Project.Repeat
import CustomElement.Proofs.Text.Positions

/-!
# Finding components

The files of a tree are listed directory by directory. That is the order that compares paths name by name
(`pairwise_listing`), and names compare as their bytes do (`map_bytesOf_lt`), so components are found in this order,
each once (`findComponents_exact`).
-/

namespace CustomElement.Files

open List

def bytesOf (name : String) : List UInt8 := Text.utf8 name.toList

lemma utf8EncodeChar_append_lt {c d : Char} (h : c < d) (x y : List UInt8) :
    String.utf8EncodeChar c ++ x < String.utf8EncodeChar d ++ y := by
  have hv : c.val.toNat < d.val.toNat := h
  have hd := Text.val_lt d
  have h₁ : ∀ n, n / 4096 = n / 64 / 64 := fun n => (Nat.div_div_eq_div_mul n 64 64).symm
  have h₂ : ∀ n, n / 262144 = n / 64 / 64 / 64 := by omega
  unfold String.utf8EncodeChar
  dsimp only
  rw [h₁, h₁, h₂, h₂]
  -- one case for each pair of lengths
  split_ifs <;>
    simp only [cons_append, nil_append, cons_lt_cons_iff, UInt8.lt_iff_toNat_lt, ← UInt8.toNat_inj, UInt8.toNat_ofNat'] <;>
    omega

lemma utf8_lt {a b : List Char} (h : a < b) : Text.utf8 a < Text.utf8 b := by
  induction h with
  | @nil c b =>
    obtain ⟨e, es, he⟩ := exists_cons_of_ne_nil (String.utf8EncodeChar_ne_nil (c := c))
    rw [Text.utf8_cons, he]
    exact nil_lt_cons _ _
  | rel h => exact utf8EncodeChar_append_lt h _ _
  | cons _ ih =>
    rw [Text.utf8_cons, Text.utf8_cons]
    exact append_left_lt ih

lemma map_bytesOf_lt {a b : List String} (h : a < b) : a.map bytesOf < b.map bytesOf := by
  induction h with
  | nil => exact nil_lt_cons _ _
  | rel h => exact cons_lt_cons_iff.2 (.inl (utf8_lt h))
  | cons _ ih => exact cons_lt_cons_iff.2 (.inr ⟨rfl, ih⟩)

namespace Tree

variable {entries : List (String × Tree)} {names place : List String} {part t : Tree}

lemma NamesSound.below (h : NamesSound (.dir entries)) {e : String × Tree} (he : e ∈ entries) : NamesSound e.2 := by
  intro place found hf
  refine h (e.1 :: place) found ?_
  rw [find?, lookup_of_mem (h [] entries rfl).1 he]
  exact hf

lemma NamesSound.found (h : NamesSound t) (hp : t.find? place = some part) : NamesSound part := by
  intro r entries hr
  refine h (place ++ r) entries ?_
  rw [find?_append, hp]
  exact hr

lemma mem_listing_iff (h : NamesSound t) : names ∈ t.listing ↔ ∃ contents, t.find? names = some (.file contents) := by
  induction names generalizing t with
  | nil =>
    cases t with
    | file contents => simp [listing_file, find?]
    | dir entries => simp [mem_listing_dir, find?]
  | cons name names ih =>
    cases t with
    | file contents => simp [listing_file, find?]
    | dir entries =>
      rw [mem_listing_dir]
      constructor
      · rintro ⟨e, he, r, hc, hr⟩
        obtain ⟨rfl, rfl⟩ := cons.inj hc
        obtain ⟨contents, hf⟩ := (ih (h.below he)).1 hr
        refine ⟨contents, ?_⟩
        rw [find?, lookup_of_mem (h [] entries rfl).1 he]
        exact hf
      · rintro ⟨contents, hf⟩
        obtain ⟨below, hl, hb⟩ := bind_eq_some_iff.1 hf
        obtain ⟨pre, aft, hs, -⟩ := lookup_eq_some_iff.1 hl
        have he : (name, below) ∈ entries := by simp [hs]
        exact ⟨_, he, names, rfl, (ih (h.below he)).2 ⟨contents, hb⟩⟩

lemma exists_of_mem_selected {p : List String → Bool} {e : String × List (List String)}
    (h : e ∈ selected p entries) : ∃ below, (e.1, below) ∈ entries ∧ e.2 = (below.listing.map (e.1 :: ·)).filter p := by
  obtain ⟨⟨name, below⟩, hm, rfl⟩ := mem_map.1 (mem_filter.1 h).1
  exact ⟨below, hm, rfl⟩

lemma pairwise_listing : ∀ t : Tree, NamesSound t → t.listing.Pairwise (· < ·)
  | .file contents, _ => by
    rw [listing_file]
    exact pairwise_singleton _ _
  | .dir entries, h => by
    have ih : ∀ e ∈ entries, e.2.listing.Pairwise (· < ·) := fun e he => pairwise_listing e.2 (h.below he)
    have hf := listing_filter (fun _ => true) entries
    rw [filter_eq_self.2 (by simp)] at hf
    have hd : (selected (fun _ => true) entries).Pairwise fun a b => a.1 ≠ b.1 := by
      refine Pairwise.filter _ (pairwise_map.2 ?_)
      exact pairwise_map.1 (h [] entries rfl).1
    have hne := ((mergeSort_perm (selected (fun _ => true) entries) byName).pairwise_iff Ne.symm).2 hd
    have hle := pairwise_mergeSort byName_trans byName_total (selected (fun _ => true) entries)
    rw [hf, pairwise_flatMap]
    constructor
    · intro e he
      obtain ⟨below, hm, hb⟩ := exists_of_mem_selected (mem_mergeSort.1 he)
      rw [hb]
      exact (pairwise_map.2 ((ih _ hm).imp fun hab => cons_lt_cons_iff.2 (.inr ⟨rfl, hab⟩))).filter _
    · -- two entries differ in their first names, so it does not matter what follows these
      refine (hle.and hne).imp_of_mem fun {a b} ha hb hab x hx y hy => ?_
      obtain ⟨below, -, hx'⟩ := exists_of_mem_selected (mem_mergeSort.1 ha)
      obtain ⟨below', -, hy'⟩ := exists_of_mem_selected (mem_mergeSort.1 hb)
      rw [hx', mem_filter, mem_map] at hx
      rw [hy', mem_filter, mem_map] at hy
      obtain ⟨⟨r, -, rfl⟩, -⟩ := hx
      obtain ⟨⟨r', -, rfl⟩, -⟩ := hy
      refine cons_lt_cons_iff.2 (.inl ?_)
      by_contra hlt
      exact hab.2 (String.le_antisymm (of_decide_eq_true hab.1) (String.not_lt.1 hlt))
termination_by t => sizeOf t
decreasing_by
  have hs := sizeOf_lt_of_mem he
  have he' : sizeOf e = 1 + sizeOf e.1 + sizeOf e.2 := by cases e; rfl
  simp only [Tree.dir.sizeOf_spec]
  omega

end Tree

end CustomElement.Files

namespace CustomElement.Project

open List Files Files.Tree

variable {s : Settings} {disk part : Tree}

/-- **Finding the components of a directory** gives the files below it that have the extension of a component and are not
ignored, each once, in the order of their bytes. -/
theorem findComponents_exact {cwd : Path} {args : Arguments} {file : ConfigFile} (hcwd : cwd.isAbsolute = true)
    (hmerge : Settings.merge cwd args file = .ok s) (hdisk : disk.Sound) (hat : disk.at? s.input = some part)
    (hdir : part.isDir = true) :
    ∃ found : List (List String), findComponents s disk = .ok (found.map (below s.input)) ∧
      (found.map (below s.input)).Nodup ∧ (found.map (map bytesOf)).Pairwise (· < ·) ∧
      ∀ names, names ∈ found ↔ (∃ contents, part.find? names = some (.file contents)) ∧
        s.isComponent (below s.input names) = true ∧ s.isIgnored (below s.input names) = false := by
  have hinput : s.input.isAbsolute = true := isAbsolute_input hcwd hmerge
  obtain ⟨-, ⟨place, -, hfind⟩, -⟩ := at?_eq_some.1 hat
  have hpart := NamesSound.found hdisk.names hfind
  have hsorted := (pairwise_listing part hpart).filter fun names =>
    s.isComponent (below s.input names) && !s.isIgnored (below s.input names)
  refine ⟨_, findComponents_of_dir hat hdir, ?_, pairwise_map.2 (hsorted.imp map_bytesOf_lt), fun names => ?_⟩
  · refine pairwise_map.2 (hsorted.imp_of_mem fun {a b} ha hb hlt heq => ?_)
    have hsteps : ∀ names ∈ part.listing, (below s.input names).steps = s.input.steps ++ names.map .into := fun _ hm =>
      (Path.steps_below hinput (hdisk.look?_of_mem_listing hfind hm).1).2
    have hab := hsteps a (mem_filter.1 ha).1
    rw [heq, hsteps b (mem_filter.1 hb).1, append_cancel_left_eq] at hab
    rw [(map_injective_iff.2 fun _ _ => Step.into.inj) hab] at hlt
    exact List.lt_irrefl _ hlt
  · rw [mem_filter, mem_listing_iff hpart]
    simp

theorem findComponents_exact_sample :
    ∃ found : List (List String), findComponents sampleSettings (.dir [("src", .dir sampleEntries)]) =
      .ok (found.map (below sampleSettings.input)) ∧ (found.map (map bytesOf)).Pairwise (· < ·) ∧
        (["a.wc"] ∈ found ↔ sampleSettings.isComponent (below sampleSettings.input ["a.wc"]) = true ∧
          sampleSettings.isIgnored (below sampleSettings.input ["a.wc"]) = false) := by
  obtain ⟨found, hfound, -, hsorted, hmem⟩ := findComponents_exact rfl merge_sample sound_sample at?_sample rfl
  refine ⟨found, hfound, hsorted, (hmem _).trans (and_iff_right ⟨_, rfl⟩)⟩

end CustomElement.Project
