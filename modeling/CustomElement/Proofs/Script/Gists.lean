import CustomElement.Proofs.Script.Relaid

/-!
# What printing keeps of a script

The gist of a statement tree (`Module.gist`) is the tree with the wording of its texts.
-/

namespace CustomElement.Script

open List Text

variable {ns : List Node} {ts : List Token} {c : MethodCut} {n : Node} {p : Piece} {f : Token → Token} {cut : MemberCut}

def inner (cs : List Char) : List Char := (cs.dropWhile isGap).rdropWhile isGap

def worded (cs : List Char) : List Char := if '\n' ∈ cs then ink cs else cs

/-- The text without white space around it, nor in it if it goes over several lines. -/
def wording (text : String) : List Char := worded (inner text.toList)

section Inner

variable {cs g : List Char}

lemma inner_gap_append (hg : IsGap g) (cs : List Char) : inner (g ++ cs) = inner cs := by
  rw [inner, dropWhile_append_of_pos hg, inner]

lemma inner_append_gap (hg : IsGap g) (cs : List Char) : inner (cs ++ g) = inner cs := by
  rw [inner, dropWhile_append, inner]
  split
  · rename_i he
    rw [List.isEmpty_iff] at he
    rw [he, List.dropWhile_eq_nil_iff.2 hg]
  · rw [rdropWhile, reverse_append, dropWhile_append_of_pos fun c hc => hg c (List.mem_reverse.1 hc), rdropWhile]

lemma inner_of_inkEdged (h : InkEdged cs) : inner cs = cs := by
  obtain ⟨⟨c, a, rfl, hc⟩, b, d, hb, hd⟩ := h
  rw [inner, dropWhile_cons_of_neg (by simp [hc]), hb, rdropWhile_concat_neg _ _ _ (by simp [hd])]

lemma wording_trim (text : String) : wording (trim text) = wording text := by
  obtain ⟨g, g', hg, hg', heq⟩ := exists_trim text
  rw [wording, wording, heq, inner_append_gap hg', inner_gap_append hg]

lemma wording_trimEnd (text : String) : wording (trimEnd text) = wording text := by
  obtain ⟨g, hg, heq⟩ := exists_trimEndList text.toList
  rw [wording, wording, trimEnd, toList_ofList]
  conv_rhs => rw [heq, inner_append_gap hg]

lemma exists_inner (cs : List Char) : ∃ g g', IsGap g ∧ IsGap g' ∧ cs = g ++ (inner cs ++ g') := by
  refine ⟨cs.takeWhile isGap, ((cs.dropWhile isGap).reverse.takeWhile isGap).reverse,
    fun c hc => mem_takeWhile_imp hc, fun c hc => mem_takeWhile_imp (mem_reverse.1 hc), ?_⟩
  rw [inner, rdropWhile, ← reverse_append, takeWhile_append_dropWhile, reverse_reverse, takeWhile_append_dropWhile]

lemma ink_worded (cs : List Char) : ink (worded cs) = ink cs := by
  unfold worded
  split
  · exact ink_ink cs
  · rfl

lemma ink_wording (x : String) : ink (wording x) = ink x.toList := by
  obtain ⟨g, g', hg, hg', heq⟩ := exists_inner x.toList
  rw [wording, ink_worded]
  conv_rhs => rw [heq, ink_append, ink_append, hg.ink, hg'.ink, nil_append, append_nil]

end Inner

structure MethodGist where
  head : List Char
  name : List Char
  role : Role
  isStatic : Bool
  params : List Char
  /-- Nothing for parameters that begin like a shebang. -/
  paramCount : Option Nat
  between : List Char
  body : List (List Char)
deriving DecidableEq

inductive MemberGist where
  | method (gist : MethodGist)
  | other (text : List Char)
deriving DecidableEq

structure ClassGist where
  name : Option String
  extended : Option (List Char)
  header : List Char
  members : List MemberGist
  trailing : List Char
deriving DecidableEq

inductive ItemGist where
  | statement (text : List Char)
  | classDecl (gist : ClassGist)
deriving DecidableEq

def countGist (params : String) (count : Nat) : Option Nat :=
  if ['#', '!'].isPrefixOf (ink params.toList) then none else some count

def Method.gist (m : Method) : MethodGist where
  head := wording m.head
  name := worded m.name.toList
  role := m.role
  isStatic := m.isStatic
  params := wording m.params
  paramCount := countGist m.params m.paramCount
  between := wording m.between
  body := m.body.map fun s => wording s.text

def Member.gist (m : Member) : MemberGist :=
  match m.content with
  | .method m => .method m.gist
  | .other text => .other (wording text)

def ClassDecl.gist (c : ClassDecl) : ClassGist where
  name := c.name
  extended := c.extended.map wording
  header := wording c.header
  members := c.members.map Member.gist
  trailing := wording c.trailing

def Item.gist : Item → ItemGist
  | .statement s => .statement (wording s.text)
  | .classDecl c => .classDecl c.gist

def Module.gist (m : Module) : List ItemGist := m.items.map Item.gist

/-- The nodes without the blanks around them, and of other blanks what layout keeps. -/
def core (ns : List Node) : List Node := (trimNodes (ns.dropWhile Node.isBlank)).map (Node.map tidy)

section Core

variable {ms : List Node}

lemma core_blank_append {b : List Node} (hb : ∀ n ∈ b, n.isBlank) (ns : List Node) : core (b ++ ns) = core ns := by
  rw [core, dropWhile_append_of_pos hb, core]

lemma core_append_blank {b : List Node} (hb : ∀ n ∈ b, n.isBlank) (ns : List Node) : core (ns ++ b) = core ns := by
  rw [core, dropWhile_append, core]
  split
  · rename_i he
    rw [List.isEmpty_iff] at he
    rw [he, List.dropWhile_eq_nil_iff.2 hb]
  · rw [trimNodes, reverse_append, dropWhile_append_of_pos fun n hn => hb n (List.mem_reverse.1 hn), trimNodes]

lemma exists_core (ns : List Node) : ∃ b m b', (∀ n ∈ b, n.isBlank) ∧ (∀ n ∈ b', n.isBlank) ∧
    ns = b ++ (m ++ b') ∧ core ns = m.map (Node.map tidy) := by
  refine ⟨ns.takeWhile Node.isBlank, trimNodes (ns.dropWhile Node.isBlank),
    ((ns.dropWhile Node.isBlank).reverse.takeWhile Node.isBlank).reverse, fun n hn => mem_takeWhile_imp hn,
    fun n hn => mem_takeWhile_imp (mem_reverse.1 hn), ?_, rfl⟩
  rw [trimNodes, ← reverse_append, takeWhile_append_dropWhile, reverse_reverse, takeWhile_append_dropWhile]

lemma Token.tidy_tidy (t : Token) : t.tidy.tidy = t.tidy := by
  by_cases hb : t.kind = .blank
  · simp [tidy, hb, crease_idem]
  · simp [tidy, hb]

lemma Node.map_map_all (f g : Token → Token) (ns : List Node) :
    (ns.map (Node.map f)).map (Node.map g) = ns.map (Node.map (g ∘ f)) := by
  induction ns using Node.forest_induction with
  | nil => rfl
  | leaf t ns ih => simpa using ih
  | group o ms c ns hm ih => rw [map_cons, map_cons, map_cons, ih, map_group, map_group, map_group, hm]; rfl

lemma core_tidy (ns : List Node) : core (ns.map (Node.map tidy)) = core ns := by
  have hb : Node.isBlank ∘ Node.map tidy = Node.isBlank := funext gentle_tidy.isBlank
  rw [core, dropWhile_map, hb, gentle_tidy.trimNodes, Node.map_map_all,
    show tidy ∘ tidy = tidy from funext Token.tidy_tidy, core]

lemma Recut.core_eq (h : Recut ns ms) : core ms = core ns := by
  cases h with
  | @intro xs gap tail tail' hx hg hta hta' =>
    rw [core_append_blank hta'.blank, core_append_blank hta.blank]
    cases xs with
    | nil => rfl
    | cons x xs =>
      have hb : ∀ {y : Beat}, y.Valid → ∀ n ∈ y.before, n.isBlank := by
        intro y hy n hn
        obtain ⟨t, ht, rfl⟩ : ∃ t, y.gap = some t ∧ .leaf t = n := by
          simpa [Beat.before, map_eq_some_iff] using hn
        simp [Node.isBlank, isLeaf, hy.gap t ht]
      have hno : ∀ y : Beat, nodesOf (y :: xs) = y.before ++ y.node :: nodesOf xs := fun y => by
        simp [Beat.nodes, Beat.before]
      rw [regap] at hg ⊢
      rw [hno, hno, core_blank_append (hb (hg _ mem_cons_self)), core_blank_append (hb (hx _ mem_cons_self))]

lemma newline_mem_tidy (ts : List Token) : '\n' ∈ charsOf (ts.map tidy) ↔ '\n' ∈ charsOf ts := by
  have ho : ∀ t : Token, '\n' ∈ t.tidy.text.toList ↔ '\n' ∈ t.text.toList := fun t => by
    have hs := gentle_tidy.hasNewline t
    rwa [Token.hasNewline, Token.hasNewline, Bool.eq_iff_iff, contains_iff_mem, contains_iff_mem] at hs
  simp only [charsOf, mem_flatMap, mem_map]
  constructor
  · rintro ⟨_, ⟨t, ht, rfl⟩, hm⟩
    exact ⟨t, ht, (ho t).1 hm⟩
  · rintro ⟨t, ht, hm⟩
    exact ⟨t.tidy, ⟨t, ht, rfl⟩, (ho t).2 hm⟩

lemma charsOf_tidy_of_line (h : '\n' ∉ charsOf ts) : charsOf (ts.map tidy) = charsOf ts := by
  induction ts with
  | nil => rfl
  | cons t ts ih =>
    rw [charsOf_cons, mem_append, not_or] at h
    rw [map_cons, charsOf_cons, charsOf_cons, ih h.2]
    congr 1
    by_cases hb : t.kind = .blank
    · rw [text_tidy_of_blank hb, crease_of_not_mem h.1]
    · rw [text_tidy_of_code hb]

lemma worded_map_tidy (h : ∀ t ∈ ts, t.kind = .blank → IsGap t.text.toList) :
    worded (charsOf (ts.map tidy)) = worded (charsOf ts) := by
  unfold worded
  by_cases hm : '\n' ∈ charsOf ts
  · rw [if_pos hm, if_pos ((newline_mem_tidy ts).2 hm)]
    clear hm
    induction ts with
    | nil => rfl
    | cons t ts ih =>
      obtain ⟨ht, hts⟩ := forall_mem_cons.1 h
      rw [map_cons, charsOf_cons, charsOf_cons, ink_append, ink_append, ih hts]
      by_cases hb : t.kind = .blank
      · rw [text_tidy_of_blank hb, (isGap_crease (ht hb)).ink, (ht hb).ink]
      · rw [text_tidy_of_code hb]
  · rw [if_neg hm, if_neg (mt (newline_mem_tidy ts).1 hm), charsOf_tidy_of_line hm]

lemma Fair.isGap_of_blank (h : Fair ns) : ∀ t ∈ tokensOf ns, t.kind = .blank → IsGap t.text.toList :=
  fun t ht hb => (h.proper.blank t.form (mem_map_of_mem ht) hb).2

def wordingOf (ns : List Node) : List Char := worded (textOf ns).toList

lemma wordingOf_tidy (h : Fair ns) : wordingOf (ns.map (Node.map tidy)) = wordingOf ns := by
  rw [wordingOf, wordingOf, toList_textOf_eq_charsOf, toList_textOf_eq_charsOf, tokensOf_map,
    worded_map_tidy h.isGap_of_blank]

lemma Fair.exists_inner (h : Fair ns) : ∃ ms, inner (textOf ns).toList = charsOf (tokensOf ms) ∧
    core ns = ms.map (Node.map tidy) ∧ Fair ms ∧ (ms ≠ [] → InkEdged (charsOf (tokensOf ms))) := by
  obtain ⟨xs, tail, rfl, hxs, hta, hg⟩ := h.exists_beats
  rw [toList_textOf_eq_charsOf, tokensOf_append, charsOf_append, inner_append_gap hg, core_append_blank hta.blank]
  cases xs with
  | nil => exact ⟨[], by simp [inner], rfl, h.of_append.1, fun hne => absurd rfl hne⟩
  | cons x xs =>
    obtain ⟨hx, hr⟩ := forall_mem_cons.1 hxs
    have hf : ∀ y ∈ x.flush :: xs, y.Neat := forall_mem_cons.2 ⟨⟨by simp [Beat.flush], hx.node⟩, hr⟩
    have hc : charsOf (tokensOf (nodesOf (x :: xs))) =
        charsOf (tokensOf x.before) ++ charsOf (tokensOf (nodesOf (x.flush :: xs))) := by
      rw [← charsOf_append, ← tokensOf_append]
      simp [Beat.nodes, Beat.before, Beat.flush]
    have he := inkEdged_nodesOf hf (cons_ne_nil _ _) (by simp [Beat.flush])
    have hco : core (nodesOf (x :: xs)) = (nodesOf (x.flush :: xs)).map (Node.map tidy) := by
      have hn : nodesOf (x :: xs) = x.before ++ nodesOf (x.flush :: xs) := by
        simp [Beat.nodes, Beat.before, Beat.flush]
      have hfi : (nodesOf (x.flush :: xs)).dropWhile Node.isBlank = nodesOf (x.flush :: xs) := by
        simp [Beat.nodes, Beat.flush, hx.node.not_isBlank]
      have ht := trimNodes_nodesOf (fun y hy => (hf y hy).valid) isTail_nil
      rw [append_nil] at ht
      rw [hn, core_blank_append hx.isTail_before.blank, core, hfi, ht]
    exact ⟨nodesOf (x.flush :: xs), by rw [hc, inner_gap_append hx.isGap_before, inner_of_inkEdged he], hco,
      fair_beats hf, fun _ => he⟩

lemma Fair.wording_textOf (h : Fair ns) : wording (textOf ns) = wordingOf (core ns) := by
  obtain ⟨ms, hin, hc, hf, -⟩ := h.exists_inner
  rw [wording, hin, hc, wordingOf_tidy hf, wordingOf, toList_textOf_eq_charsOf]

lemma codeForms_core (ns : List Node) : codeForms (tokensOf (core ns)) = codeForms (tokensOf ns) := by
  obtain ⟨b, m, b', hb, hb', hn, hc⟩ := exists_core ns
  have hbl : ∀ {b : List Node}, (∀ n ∈ b, n.isBlank) → codeForms (tokensOf b) = [] := by
    intro b hb
    rw [codeForms, map_eq_nil_iff, filter_eq_nil_iff]
    intro t ht
    simp [Token.isTrivia, kind_of_isBlank hb t ht]
  have ha : ∀ as bs, codeForms (as ++ bs) = codeForms as ++ codeForms bs := by simp [codeForms]
  rw [hc, hn, tokensOf_append, tokensOf_append, ha, ha, hbl hb, hbl hb', nil_append,
    append_nil, tokensOf_map, codeForms, codeForms, filter_map, map_map]
  simp only [comp_def, gentle_tidy.isTrivia]
  refine map_congr_left fun t ht => ?_
  have hco : t.kind ≠ .blank := by
    intro hbl
    simp [Token.isTrivia, hbl] at ht
  rw [form, form, text_tidy_of_code hco, gentle_tidy.kind]

end Core

def clausesOf (header : List Node) : List Node :=
  match leadWord .outside header with
  | some (_, leadAt) => header.drop (header.length - leadAt + 1)
  | none => []

def className (clauses : List Node) : Option String :=
  ((clauses.find? fun n => !n.isTrivia).filter fun n =>
    n.isLeaf fun t => t.kind == .word && t.text != "extends" && t.text != "implements").map fun n => n.first.text

def extendedNodes (clauses : List Node) : Option (List Node) :=
  (clauses.findIdx? fun n => n.isLeaf fun t => t.isWord "extends").map fun e =>
    let stop := ((clauses.findIdx? fun n => n.isLeaf fun t => t.isWord "implements").filter (e < ·)).getD clauses.length
    (clauses.take stop).drop (e + 1)

section Clauses

variable {as bs tail : List Node}

lemma leadWord_trivia_append (h : ∀ n ∈ as, n.isTrivia) (d : Decorator) (bs : List Node) :
    leadWord d (as ++ bs) = leadWord d bs := by
  induction as with
  | nil => rfl
  | cons n as ih =>
    obtain ⟨hn, ha⟩ := forall_mem_cons.1 h
    rw [cons_append, leadWord, if_pos hn, ih ha]

lemma leadWord_of_append {d : Decorator} {w : String} {leadAt : Nat} (h : leadWord d (as ++ bs) = some (w, leadAt))
    (hlt : bs.length < leadAt) : leadWord d as = some (w, leadAt - bs.length) := by
  induction as generalizing d with
  | nil =>
    obtain ⟨pre, n, post, hb, ha, -⟩ := leadWord_eq_some h
    rw [nil_append] at hb
    rw [hb, length_append, length_cons] at hlt
    omega
  | cons n as ih =>
    rw [cons_append, leadWord] at h
    rw [leadWord]
    split at h
    · rename_i ht
      rw [if_pos ht, ih h]
    · rename_i ht
      rw [if_neg ht]
      cases hp : d.pass n with
      | some d =>
        rw [hp] at h
        exact ih h
      | none =>
        simp only [hp] at h ⊢
        split at h
        · rename_i hm
          rw [if_pos hm, ih h]
        · rename_i hm
          rw [if_neg hm]
          split at h
          · rename_i hw
            rw [if_pos hw, ih h]
          · rename_i hw
            rw [if_neg hw]
            split at h
            · rename_i hl
              obtain ⟨rfl, rfl⟩ := Prod.mk.inj (some.inj h)
              rw [if_pos hl, length_append]
              congr 2
              omega
            · cases h

lemma leadWord_append_blank (ht : ∀ n ∈ tail, n.isBlank) (d : Decorator) :
    leadWord d (as ++ tail) = (leadWord d as).map fun lead => (lead.1, lead.2 + tail.length) := by
  induction as generalizing d with
  | nil =>
    have hno := leadWord_trivia_append (fun n hn => isTrivia_of_isBlank (ht n hn)) d []
    rw [append_nil] at hno
    rw [nil_append, hno]
    rfl
  | cons n as ih =>
    rw [cons_append, leadWord, leadWord]
    simp only [ih]
    split
    · rfl
    · split
      · rfl
      · split
        · rfl
        · split
          · rfl
          · split
            · rw [map_some, length_append]
              congr 2
              omega
            · rfl

lemma className_append_blank (ht : ∀ n ∈ tail, n.isBlank) : className (as ++ tail) = className as := by
  have hno : tail.find? (fun n => !n.isTrivia) = none := by
    rw [find?_eq_none]
    intro n hn
    simp [isTrivia_of_isBlank (ht n hn)]
  rw [className, find?_append, hno, Option.or_none, className]

lemma extendedNodes_append_blank {α : Type} {g : List Node → α} (ht : ∀ n ∈ tail, n.isBlank)
    (hg : ∀ ns, g (ns ++ tail) = g ns) : (extendedNodes (as ++ tail)).map g = (extendedNodes as).map g := by
  have hf : ∀ text, (as ++ tail).findIdx? (fun n => n.isLeaf fun t => t.isWord text) =
      as.findIdx? fun n => n.isLeaf fun t => t.isWord text := by
    intro text
    have hno : tail.findIdx? (fun n => n.isLeaf fun t => t.isWord text) = none := by
      rw [findIdx?_eq_none_iff]
      intro n hn
      have hb := ht n hn
      cases n with
      | leaf t =>
        have hk : t.kind = .blank := by simpa [Node.isBlank, isLeaf] using hb
        simp [isLeaf, Token.isWord, hk]
      | group o ins cl => rfl
    rw [findIdx?_append, hno, map_none, Option.or_none]
  rw [extendedNodes, extendedNodes, hf, hf, Option.map_map, Option.map_map]
  refine Option.map_congr fun e he => ?_
  obtain ⟨hl, -⟩ := findIdx?_eq_some_iff_getElem.1 he
  dsimp only [Function.comp_apply]
  cases hs : (as.findIdx? fun n => n.isLeaf fun t => t.isWord "implements").filter (e < ·) with
  | none =>
    rw [Option.getD_none, Option.getD_none, take_length, take_length, drop_append_of_le_length hl, hg]
  | some stop =>
    obtain ⟨hle, -⟩ := findIdx?_eq_some_iff_getElem.1 (Option.filter_eq_some_iff.1 hs).1
    rw [getD_some, getD_some, take_append_of_le_length hle.le]

variable (as) in
lemma clausesOf_append_blank {α : Type} {g : List Node → α} (ht : ∀ n ∈ tail, n.isBlank)
    (hg : ∀ ns, g (ns ++ tail) = g ns) : className (clausesOf (as ++ tail)) = className (clausesOf as) ∧
      (extendedNodes (clausesOf (as ++ tail))).map g = (extendedNodes (clausesOf as)).map g := by
  rw [clausesOf, leadWord_append_blank ht, clausesOf]
  cases hl : leadWord .outside as with
  | none => exact ⟨rfl, rfl⟩
  | some lead =>
    obtain ⟨w, leadAt⟩ := lead
    obtain ⟨pre, n, post, rfl, rfl, -⟩ := leadWord_eq_some hl
    have hd : ((pre ++ n :: post) ++ tail).drop (((pre ++ n :: post) ++ tail).length - (post.length + 1 + tail.length) + 1) =
        (pre ++ n :: post).drop ((pre ++ n :: post).length - (post.length + 1) + 1) ++ tail := by
      have ha : ((pre ++ n :: post) ++ tail).length - (post.length + 1 + tail.length) + 1 =
          (pre ++ n :: post).length - (post.length + 1) + 1 := by
        simp only [length_append, length_cons]
        omega
      rw [ha, drop_append_of_le_length]
      simp only [length_append, length_cons]
      omega
    simp only [map_some]
    rw [hd]
    exact ⟨className_append_blank ht, extendedNodes_append_blank ht hg⟩

lemma Gentle.clausesOf (hf : Gentle f) (hdr : List Node) :
    Script.clausesOf (hdr.map (Node.map f)) = (Script.clausesOf hdr).map (Node.map f) := by
  rw [Script.clausesOf, hf.leadWord, Script.clausesOf]
  cases Script.leadWord .outside hdr with
  | none => rfl
  | some lead => simp only [length_map, map_drop]

lemma Gentle.className (hf : Gentle f) (clauses : List Node) :
    Script.className (clauses.map (Node.map f)) = Script.className clauses := by
  have hc : ∀ n : Node, (!(n.map f).isTrivia) = !n.isTrivia := fun n => by rw [hf.nodeIsTrivia]
  have hn : ∀ n : Node, ((n.map f).isLeaf fun t =>
      t.kind == .word && t.text != "extends" && t.text != "implements") =
        n.isLeaf fun t => t.kind == .word && t.text != "extends" && t.text != "implements" := fun n =>
    isLeaf_map _ fun t => hf.congr
      (fun kind s => kind == .word && s != "extends" && s != "implements") (fun _ _ => rfl) t
  rw [Script.className, Node.find?_map _ hc, Script.className]
  cases clauses.find? fun n => !n.isTrivia with
  | none => rfl
  | some n =>
    rw [map_some, Option.filter_some, Option.filter_some, hn]
    split
    · rename_i hw
      rw [map_some, map_some, n.first_map, hf.text]
      cases n with
      | leaf t =>
        simp only [isLeaf, and_eq_true, beq_iff_eq] at hw
        simp [Node.first, hw.1.1]
      | group o ins cl => cases hw
    · rfl

lemma Gentle.extendedNodes (hf : Gentle f) (clauses : List Node) :
    Script.extendedNodes (clauses.map (Node.map f)) = (Script.extendedNodes clauses).map (map (Node.map f)) := by
  have hw : ∀ text, (clauses.map (Node.map f)).findIdx? (fun n => n.isLeaf fun t => t.isWord text) =
      clauses.findIdx? fun n => n.isLeaf fun t => t.isWord text := by
    intro text
    rw [findIdx?_map]
    congr 1
    funext n
    exact isLeaf_map _ fun t => hf.isWord t text
  rw [Script.extendedNodes, Script.extendedNodes, hw, hw, Option.map_map]
  simp only [comp_def, length_map, map_drop, map_take]

end Clauses

lemma clausesOf_header {w : String} {leadAt : Nat} {body : Node}
    (hl : leadWord .outside p.nodes = some (w, leadAt)) (hb : p.nodes[p.bodyAt leadAt]? = some body)
    (hn : p.nodes = (p.cutAt (p.bodyAt leadAt) body).leading ++
      ((p.cutAt (p.bodyAt leadAt) body).header ++ body :: (p.cutAt (p.bodyAt leadAt) body).trailing))
    (hla : ∀ n ∈ (p.cutAt (p.bodyAt leadAt) body).leading, n.isTrivia) :
    clausesOf (p.cutAt (p.bodyAt leadAt) body).header =
      (p.nodes.drop (p.nodes.length - leadAt + 1)).takeWhile fun n => !n.isGroup openBrace := by
  have ha : p.bodyAt leadAt = p.nodes.length - leadAt + 1 +
      ((p.nodes.drop (p.nodes.length - leadAt + 1)).takeWhile fun n => !n.isGroup openBrace).length := rfl
  have ht : (p.cutAt (p.bodyAt leadAt) body).trailing.length = p.nodes.length - (p.bodyAt leadAt + 1) := length_drop
  obtain ⟨hlt, -⟩ := List.getElem?_eq_some_iff.1 hb
  generalize p.bodyAt leadAt = bodyAt at *
  generalize p.cutAt bodyAt body = c at *
  have hln : p.nodes.length = c.leading.length + (c.header.length + (c.trailing.length + 1)) := by
    conv_lhs => rw [hn]
    simp
  have hr : (body :: c.trailing).length = c.trailing.length + 1 := rfl
  -- The keyword is found in the header.
  have hl' := hl
  rw [hn, leadWord_trivia_append hla] at hl'
  obtain ⟨pre, n, post, hs, hp, -⟩ := leadWord_eq_some hl'
  have hle : leadAt ≤ c.header.length + (c.trailing.length + 1) := by
    have hsa := congrArg List.length hs
    simp only [length_append, length_cons] at hsa
    omega
  have hf := leadWord_of_append hl' (by omega)
  have hst : p.nodes.length - leadAt + 1 = c.leading.length + (c.header.length - (leadAt - (c.trailing.length + 1)) + 1) := by
    omega
  have hd : p.nodes.drop (p.nodes.length - leadAt + 1) =
      c.header.drop (c.header.length - (leadAt - (c.trailing.length + 1)) + 1) ++ body :: c.trailing := by
    rw [hst]
    conv_lhs => rw [hn]
    rw [drop_length_add_append, drop_append_of_le_length (by omega)]
  rw [clausesOf, hf]
  simp only [hr]
  have hw := List.prefix_iff_eq_take.1 ( takeWhile_prefix (fun n : Node => !n.isGroup openBrace)
    (l := p.nodes.drop (p.nodes.length - leadAt + 1)))
  rw [hw, hd, take_append_of_le_length, take_of_length_le]
  · rw [← hd, length_drop]
    omega
  · rw [← hd, length_drop]
    omega

lemma Piece.clauses_of_classCut {c : ClassCut} {d : ClassDecl} (h : p.classCut? = some c)
    (hd : p.item = .classDecl d) : d.name = className (clausesOf c.header) ∧
      d.extended = (extendedNodes (clausesOf c.header)).map fun ns => trim (textOf ns) := by
  obtain ⟨hn, hl, -, -⟩ := Piece.classCut?_eq_some h
  unfold Piece.classCut? at h
  split at h
  · cases h
  · rename_i w leadAt hle
    split at h
    · rename_i hw
      obtain ⟨body, hb, rfl⟩ := map_eq_some_iff.1 h
      have hb' : p.nodes[p.nodes.length - leadAt + 1 + ((p.nodes.drop (p.nodes.length - leadAt + 1)).takeWhile
          fun n => !n.isGroup openBrace).length]? = some body := hb
      rw [Piece.item, hle] at hd
      simp only [any_some, hw, if_true] at hd
      unfold readClass at hd
      rw [hle] at hd
      simp only [bind_eq_bind, bind_some, hb'] at hd
      obtain rfl := Item.classDecl.inj hd
      rw [clausesOf_header hle hb hn hl]
      refine ⟨rfl, ?_⟩
      rw [extendedNodes, Option.map_map]
      rfl
    · cases h

structure MethodCore where
  head : List Node
  params : List Node
  between : List Node
  body : List (List Node)
  spaced : List Bool

inductive MemberCore where
  | method (core : MethodCore)
  | other (nodes : List Node)

structure ClassCore where
  name : Option String
  extended : Option (List Node)
  header : List Node
  members : List MemberCore
  spaced : List Bool
  trailing : List Node

inductive PieceCore where
  | statement (nodes : List Node)
  | classDecl (core : ClassCore)

def MethodCut.core (c : MethodCut) : MethodCore where
  head := Script.core c.head
  params := Script.core c.params.inside
  between := Script.core c.between
  body := (splitStatements false c.body.inside).map fun p => Script.core p.nodes
  spaced := (splitStatements false c.body.inside).tail.map Piece.blankBefore

def MemberCut.core : MemberCut → MemberCore
  | .method _ c _ => .method c.core
  | cut => .other (Script.core cut.nodes)

def ClassCut.core (c : ClassCut) : ClassCore where
  name := className (clausesOf c.header)
  extended := (extendedNodes (clausesOf c.header)).map Script.core
  header := Script.core c.header
  members := c.members.map MemberCut.core
  spaced := c.members.tail.map MemberCut.blankBefore
  trailing := Script.core c.trailing

def Piece.core (p : Piece) : PieceCore :=
  match p.classCut? with
  | some c => .classDecl c.core
  | none => .statement (Script.core p.nodes)

section Tidy

lemma MethodCut.core_tidy (c : MethodCut) : (c.map tidy).core = c.core := by
  simp only [MethodCut.core, MethodCut.map, Script.core_tidy, Node.inside_map, gentle_tidy.splitStatements, ← map_tail,
    map_map, comp_def, Piece.map]

lemma MemberCut.blankBefore_map (f : Token → Token) (cut : MemberCut) : (cut.map f).blankBefore = cut.blankBefore := by
  cases cut <;> rfl

lemma MemberCut.core_tidy (cut : MemberCut) : (cut.map tidy).core = cut.core := by
  cases cut with
  | method blankBefore c post => exact congrArg MemberCore.method c.core_tidy
  | other blankBefore nodes => exact congrArg MemberCore.other (Script.core_tidy nodes)
  | gap node => exact congrArg MemberCore.other (Script.core_tidy [node])
  | lone semicolon => exact congrArg MemberCore.other (Script.core_tidy [semicolon])

lemma ClassCut.core_tidy (c : ClassCut) : (c.map tidy).core = c.core := by
  have he : (extendedNodes (clausesOf (c.map tidy).header)).map Script.core =
      (extendedNodes (clausesOf c.header)).map Script.core := by
    rw [ClassCut.map, gentle_tidy.clausesOf, gentle_tidy.extendedNodes, Option.map_map]
    simp only [comp_def, Script.core_tidy]
  have hn : className (clausesOf (c.map tidy).header) = className (clausesOf c.header) := by
    rw [ClassCut.map, gentle_tidy.clausesOf, gentle_tidy.className]
  rw [ClassCut.core, ClassCut.core, he, hn, gentle_tidy.members, ← map_tail, map_map, map_map]
  simp only [comp_def, MemberCut.core_tidy, MemberCut.blankBefore_map, ClassCut.map, Script.core_tidy]

lemma Piece.core_tidy (p : Piece) : (p.map tidy).core = p.core := by
  rw [Piece.core, gentle_tidy.classCut?, Piece.core]
  cases p.classCut? with
  | none => exact congrArg PieceCore.statement (Script.core_tidy p.nodes)
  | some c => exact congrArg PieceCore.classDecl c.core_tidy

end Tidy

def paramsIn (ns : List Node) : Nat := countParams 0 false ((tokensOf ns).filter fun t => !t.isTrivia)

def MethodName.purpose (n : MethodName) : Role :=
  match n.role with
  | some role => role
  | none => if n.name == "constructor" && !n.isStatic then .construct else .call

def titleOf (head : List Node) : MethodName := readMethodName none false (undecorated .outside head)

def MethodCore.gist (c : MethodCore) : MethodGist where
  head := wordingOf c.head
  name := worded (titleOf c.head).name.toList
  role := (titleOf c.head).purpose
  isStatic := (titleOf c.head).isStatic
  params := wordingOf c.params
  paramCount := countGist (textOf c.params) (paramsIn c.params)
  between := wordingOf c.between
  body := c.body.map wordingOf

def MemberCore.gist : MemberCore → MemberGist
  | .method core => .method core.gist
  | .other nodes => .other (wordingOf nodes)

def ClassCore.gist (c : ClassCore) : ClassGist where
  name := c.name
  extended := c.extended.map wordingOf
  header := wordingOf c.header
  members := c.members.map MemberCore.gist
  trailing := wordingOf c.trailing

def PieceCore.gist : PieceCore → ItemGist
  | .statement nodes => .statement (wordingOf nodes)
  | .classDecl core => .classDecl core.gist

structure SameTitle (r s : MethodName) : Prop where
  name : worded s.name.toList = worded r.name.toList
  role : s.purpose = r.purpose
  isStatic : s.isStatic = r.isStatic

lemma Fair.of_mem (h : Fair ns) (hn : n ∈ ns) : Fair [n] := by
  obtain ⟨pre, aft, rfl⟩ := append_of_mem hn
  rw [append_cons] at h
  exact h.of_append.1.of_append.2

lemma Fair.neat_of_mem (h : Fair ns) (hn : n ∈ ns) (hc : n.isTrivia = false) : n.Neat :=
  ⟨h.of_mem hn, hc⟩

lemma mem_undecorated {d : Decorator} : ∀ n ∈ undecorated d ns, n ∈ ns ∧ n.isTrivia = false := by
  induction ns generalizing d with
  | nil => simp [undecorated]
  | cons m ns ih =>
    have hm : ∀ {d : Decorator}, ∀ n ∈ undecorated d ns, n ∈ m :: ns ∧ n.isTrivia = false := fun n hn =>
      ⟨mem_cons_of_mem m (ih n hn).1, (ih n hn).2⟩
    rw [undecorated]
    split
    · exact hm
    · rename_i ht
      split
      · exact hm
      · split
        · exact hm
        · exact forall_mem_cons.2 ⟨⟨mem_cons_self, by simpa using ht⟩, hm⟩

lemma sameTitle_tidy (h : ∀ n ∈ ns, n.Neat) (role : Option Role) (isStatic : Bool) :
    SameTitle (readMethodName role isStatic ns) (readMethodName role isStatic (ns.map (Node.map tidy))) := by
  induction ns generalizing role isStatic with
  | nil => exact ⟨rfl, rfl, rfl⟩
  | cons n ns ih =>
    obtain ⟨hn, hns⟩ := forall_mem_cons.1 h
    have hmo : ((ns.map (Node.map tidy)).head?.any fun m => !m.first.isPunct "<") =
        ns.head?.any fun m => !m.first.isPunct "<" := by
      rw [head?_map, Option.any_map]
      simp only [Node.first_map, gentle_tidy.isPunct]
    have hwo : ((n.map tidy).isLeaf fun t => t.kind == .word && methodModifiers.contains t.text) =
        n.isLeaf fun t => t.kind == .word && methodModifiers.contains t.text :=
      isLeaf_map _ (gentle_tidy.wordIn _)
    have ht : (n.map tidy).first.text = n.first.text := by
      rw [n.first_map, text_tidy_of_code hn.kind_first]
    rw [map_cons, readMethodName, readMethodName]
    simp only [hmo, hwo, ht, gentle_tidy.isLeafPunct, gentle_tidy.isGroup]
    split
    · exact ih hns _ _
    · split
      · exact ih hns role isStatic
      · split
        · rename_i hg
          have hc : ∀ {m : Node}, m.isGroup "[" → (textOf [m] == "constructor") = false := by
            intro m hm
            obtain ⟨o, ins, c, rfl, ho⟩ := exists_group hm
            rw [isPunct_iff] at ho
            rw [beq_eq_false_iff_ne]
            intro heq
            have hch := congrArg String.toList heq
            rw [toList_textOf_eq_charsOf, tokensOf_cons, tokens_group, charsOf_append, charsOf_cons, ho.2] at hch
            exact absurd (congrArg head? hch) (by simp)
          refine ⟨?_, ?_, rfl⟩
          · have hw := wordingOf_tidy hn.fair
            rwa [map_singleton] at hw
          · simp only [MethodName.purpose, hc hg, hc (gentle_tidy.isGroup n "[" ▸ hg)]
        · exact ⟨rfl, rfl, rfl⟩

lemma undecorated_trivia_append {as : List Node} (h : ∀ n ∈ as, n.isTrivia) (d : Decorator) (bs : List Node) :
    undecorated d (as ++ bs) = undecorated d bs := by
  induction as with
  | nil => rfl
  | cons n as ih =>
    obtain ⟨hn, ha⟩ := forall_mem_cons.1 h
    rw [cons_append, undecorated, if_pos hn, ih ha]

lemma undecorated_append_trivia {bs : List Node} (h : ∀ n ∈ bs, n.isTrivia) (d : Decorator) (as : List Node) :
    undecorated d (as ++ bs) = undecorated d as := by
  induction as generalizing d with
  | nil =>
    have hn := undecorated_trivia_append h d []
    rwa [append_nil] at hn
  | cons n as ih => simp only [cons_append, undecorated, ih]

lemma undecorated_core (d : Decorator) (ns : List Node) :
    undecorated d (core ns) = (undecorated d ns).map (Node.map tidy) := by
  obtain ⟨b, m, b', hb, hb', hns, hc⟩ := exists_core ns
  rw [hc, gentle_tidy.undecorated, hns, undecorated_trivia_append fun n hn => isTrivia_of_isBlank (hb n hn),
    undecorated_append_trivia fun n hn => isTrivia_of_isBlank (hb' n hn)]

lemma Fair.sameTitle {head : List Node} (h : Fair head) : SameTitle (titleOf head) (titleOf (core head)) := by
  rw [titleOf, titleOf, undecorated_core]
  exact sameTitle_tidy (fun n hn => h.neat_of_mem (mem_undecorated n hn).1 (mem_undecorated n hn).2) none false

lemma countParams_congr {us : List Token} (h : ts.map form = us.map form) (d : Nat) (pending : Bool) :
    countParams d pending ts = countParams d pending us := by
  induction ts generalizing us d pending with
  | nil =>
    obtain rfl : us = [] := by simpa using h.symm
    rfl
  | cons t ts ih =>
    cases us with
    | nil => cases h
    | cons u us =>
      rw [map_cons, map_cons] at h
      obtain ⟨htu, hr⟩ := cons.inj h
      have hk : t.kind = u.kind := congrArg Form.kind htu
      have ht : t.text = u.text := toList_inj.1 (congrArg Form.text htu)
      have ho : t.isOpener = u.isOpener := by rw [Token.isOpener, Token.isOpener, hk, ht]
      have hc : t.isCloser = u.isCloser := by rw [Token.isCloser, Token.isCloser, hk, ht]
      have hco : t.isPunct "," = u.isPunct "," := by rw [Token.isPunct, Token.isPunct, hk, ht]
      rw [countParams, countParams, ho, hc, hco, ih hr, ih hr, ih hr, ih hr]

lemma paramsIn_core (ns : List Node) : paramsIn (core ns) = paramsIn ns := countParams_congr (codeForms_core ns) 0 false

lemma Fair.ink_core (h : Fair ns) : ink (textOf (core ns)).toList = ink (textOf ns).toList := by
  have hin := congrArg ink h.wording_textOf
  rw [ink_wording, wordingOf, ink_worded] at hin
  exact hin.symm

lemma MethodCut.paramCount_method (h : InPlace c.nodes) (hp : c.params.isGroup "(")
    (hs : ['#', '!'].isPrefixOf (ink (textOf c.params.inside).toList) = false) :
    c.method.paramCount = paramsIn c.params.inside := by
  have hpl : InPlace (c.params :: (c.between ++ [c.body])) := InPlace.of_append_right h
  obtain ⟨-, -, hin, -⟩ := hpl.readsAs_group hp
  have ho : slashAfter ⟨.punct, "(".toList⟩ := by decide
  obtain ⟨g, g', hg, hg', hte⟩ := exists_trim (textOf c.params.inside)
  rw [ho, hte] at hin
  have ha : ReadsAs true true (trim (textOf c.params.inside)).toList
      (essences ((tokensOf c.params.inside).map form)) := by
    refine (hin.of_trimmed_behind hg hg').anywhere (.inl rfl) (.inr fun tail htr => ?_)
    have hm : isGap '#' = false ∧ isGap '!' = false := by decide
    rw [hte, ink_append, ink_append, hg.ink, hg'.ink, nil_append, append_nil, htr,
      ink_cons_of_not_gap hm.1, ink_cons_of_not_gap hm.2] at hs
    simp at hs
  obtain ⟨fs, hf, he⟩ := ha
  obtain ⟨us, ht, rfl⟩ := tokenize_eq_ok_iff.2 hf
  have hc : codeOf (trim (textOf c.params.inside)) = us.filter fun t => !t.isTrivia := by
    rw [codeOf, ht]
  rw [Method.paramCount, paramsIn]
  refine countParams_congr ?_ 0 false
  rw [show c.method.params = trim (textOf c.params.inside) from rfl, hc]
  change codeForms us = codeForms (tokensOf c.params.inside)
  rw [codeForms_eq, he, ← codeForms_eq]

lemma Fair.splitStatements (h : Fair ns) {b : Bool} (hp : p ∈ splitStatements b ns) : Fair p.nodes := by
  obtain ⟨pre, aft, hn⟩ := (scattered_splitStatements b ns).exists_of_mem (mem_map_of_mem hp)
  rw [hn] at h
  exact h.of_append.2.of_append.1

lemma Fair.cutMembers (h : Fair ns) {b : Bool} (hc : cut ∈ cutMembers b ns) : Fair cut.nodes := by
  obtain ⟨pre, aft, rfl⟩ := exists_append_of_mem_cutMembers hc
  exact h.of_append.2.of_append.1

lemma Fair.inside {op : String} (h : Fair [n]) (hn : n.isGroup op) : Fair n.inside := by
  obtain ⟨o, inside, c, rfl, -⟩ := exists_group hn
  exact (Node.Neat.inside ⟨h, rfl⟩).1

lemma MethodCut.fair (h : Fair c.nodes) (hpa : c.params.isGroup "(") (hbo : c.body.isGroup openBrace) :
    Fair c.head ∧ Fair c.params.inside ∧ Fair c.between ∧ Fair c.body.inside := by
  have hs : c.nodes = c.head ++ ([c.params] ++ (c.between ++ [c.body])) := rfl
  rw [hs] at h
  obtain ⟨hh, hr⟩ := h.of_append
  obtain ⟨hp, hr⟩ := hr.of_append
  obtain ⟨hbe, hb⟩ := hr.of_append
  exact ⟨hh, hp.inside hpa, hbe, hb.inside hbo⟩

lemma MethodCut.gist_method (h : InPlace c.nodes) (hco : Uncommented c.nodes)
    (hpa : c.params.isGroup "(") (hbo : c.body.isGroup openBrace) : c.method.gist = c.core.gist := by
  obtain ⟨hh, hp, hbe, hb⟩ := MethodCut.fair (h.fair hco) hpa hbo
  have ht := hh.sameTitle
  have hc : countGist (trim (textOf c.params.inside)) c.method.paramCount =
      countGist (textOf (Script.core c.params.inside)) (paramsIn (Script.core c.params.inside)) := by
    have hin : ink (trim (textOf c.params.inside)).toList = ink (textOf c.params.inside).toList := by
      rw [← ink_wording, wording_trim, ink_wording]
    rw [countGist, countGist, hin, hp.ink_core, paramsIn_core]
    split
    · rfl
    · rename_i hsi
      rw [MethodCut.paramCount_method h hpa (of_not_eq_true hsi)]
  have hs : (c.method.body.map fun s => wording s.text) = c.core.body.map wordingOf := by
    simp only [MethodCut.method, methodOf, MethodCut.core, map_map]
    refine map_congr_left fun p hp => ?_
    rw [Function.comp_apply, Function.comp_apply, Piece.statement]
    exact (hb.splitStatements hp).wording_textOf
  have hh' : wording c.method.head = wordingOf c.core.head := (wording_trim _).trans hh.wording_textOf
  have hpa' : wording c.method.params = wordingOf c.core.params := (wording_trim _).trans hp.wording_textOf
  have hbe' : wording c.method.between = wordingOf c.core.between := (wording_trim _).trans hbe.wording_textOf
  have hn : worded c.method.name.toList = worded (titleOf c.core.head).name.toList := ht.name.symm
  have hr : c.method.role = (titleOf c.core.head).purpose := ht.role.symm
  have hst : c.method.isStatic = (titleOf c.core.head).isStatic := ht.isStatic.symm
  have hc' : countGist c.method.params c.method.paramCount = countGist (textOf c.core.params) (paramsIn c.core.params) := hc
  rw [Method.gist, MethodCore.gist, hh', hpa', hbe', hn, hr, hst, hc', hs]

lemma MemberCut.gist_member (h : InPlace cut.nodes) (hc : Uncommented cut.nodes)
    (hs : cut.Shaped) (hm : cut.isMember) : ∃ m, cut.member? = some m ∧ m.gist = cut.core.gist := by
  cases cut with
  | gap node => cases hm
  | lone semicolon => cases hm
  | other blankBefore nodes => exact ⟨_, rfl, congrArg MemberGist.other (h.fair hc).wording_textOf⟩
  | method blankBefore c post =>
    obtain ⟨-, hp, hb, -⟩ := hs
    exact ⟨_, rfl, congrArg MemberGist.method (c.gist_method h.of_append_left (Uncommented.append.1 hc).1 hp hb)⟩

lemma ClassCut.splitMembers_body (c : ClassCut) :
    splitMembers false c.body.inside = c.members.filterMap MemberCut.member? := by
  rw [splitMembers_eq, ClassCut.members, filterMap_filter]
  refine filterMap_congr fun cut _ => ?_
  cases cut <;> rfl

lemma map_filterMap {α β γ : Type*} {f : α → Option β} {g : β → γ} {k : α → γ} {as : List α}
    (h : ∀ a ∈ as, ∃ b, f a = some b ∧ g b = k a) : (as.filterMap f).map g = as.map k := by
  induction as with
  | nil => rfl
  | cons a as ih =>
    obtain ⟨⟨b, hb, hg⟩, hr⟩ := forall_mem_cons.1 h
    rw [filterMap_cons_some hb, map_cons, map_cons, ih hr, hg]

lemma mem_cutMembers_of_mem {c : ClassCut} (h : cut ∈ c.members) : cut ∈ cutMembers false c.body.inside ∧ cut.isMember :=
  mem_filter.1 h

lemma Fair.extendedNodes {clauses : List Node} (h : Fair clauses) (hn : extendedNodes clauses = some ns) : Fair ns := by
  obtain ⟨e, -, rfl⟩ := map_eq_some_iff.1 hn
  dsimp only
  rw [← take_append_drop _ clauses] at h
  have hf := h.of_append.1
  rw [← take_append_drop (e + 1) (clauses.take _)] at hf
  exact hf.of_append.2

lemma Fair.clausesOf {hdr : List Node} (h : Fair hdr) : Fair (clausesOf hdr) := by
  rw [Script.clausesOf]
  cases leadWord .outside hdr with
  | none =>
    have hn : ∀ t ∈ (none : Option Token), t.kind = .blank ∧ t.text.toList ≠ [] ∧ IsGap t.text.toList := by simp
    exact fair_gap hn
  | some lead =>
    obtain ⟨w, leadAt⟩ := lead
    rw [← take_append_drop (hdr.length - leadAt + 1) hdr] at h
    exact h.of_append.2

lemma Piece.gist_item (h : InPlace p.nodes) (hc : Uncommented p.nodes) : p.item.gist = p.core.gist := by
  have hf := h.fair hc
  rw [Piece.core]
  cases hcu : p.classCut? with
  | none =>
    rw [Piece.item_of_classCut_eq_none hcu]
    exact congrArg ItemGist.statement hf.wording_textOf
  | some c =>
    obtain ⟨d, hd, -, -, hh, hm, ht⟩ := Piece.item_of_classCut hcu
    obtain ⟨hn, he⟩ := Piece.clauses_of_classCut hcu hd
    obtain ⟨hno, -, -, hb⟩ := Piece.classCut?_eq_some hcu
    have hs : p.nodes = c.leading ++ (c.header ++ ([c.body] ++ c.trailing)) := hno
    rw [hs] at h hc hf
    have hp : InPlace c.body.inside := h.of_append_right.of_append_right.of_append_left.inside
    obtain ⟨hheaderFair, hr⟩ := hf.of_append.2.of_append
    obtain ⟨hbodyFair, htrailingFair⟩ := hr.of_append
    have hin := hbodyFair.inside hb
    have hm' : d.members.map Member.gist = c.members.map fun cut => cut.core.gist := by
      rw [hm, c.splitMembers_body]
      refine map_filterMap fun cut hme => ?_
      obtain ⟨hme, hmm⟩ := mem_cutMembers_of_mem hme
      exact cut.gist_member (hp.cutMembers hme) (hin.cutMembers hme).uncommented (shaped_cutMembers _ _ _ hme)
        hmm
    have he' : d.extended.map wording = c.core.extended.map wordingOf := by
      rw [he, ClassCut.core, Option.map_map, Option.map_map]
      refine Option.map_congr fun ns hns => ?_
      simp only [Function.comp_apply, wording_trim, (hheaderFair.clausesOf.extendedNodes hns).wording_textOf]
    have hh' : wording d.header = wordingOf c.core.header := by
      rw [hh, wording_trimEnd, hheaderFair.wording_textOf]
      rfl
    have ht' : wording d.trailing = wordingOf c.core.trailing := by
      rw [ht, wording_trim, htrailingFair.wording_textOf]
      rfl
    have hn' : d.name = c.core.name := hn
    have hg : c.members.map (fun cut => cut.core.gist) = c.core.members.map MemberCore.gist := by
      rw [ClassCut.core, map_map]
      rfl
    rw [hd]
    refine congrArg ItemGist.classDecl ?_
    rw [ClassDecl.gist, ClassCore.gist, hm', hg, he', hh', ht', hn']

end CustomElement.Script
