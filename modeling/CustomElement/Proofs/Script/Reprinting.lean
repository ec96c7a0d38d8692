import CustomElement.Proofs.Script.RoundTrip

/-!
# What is printed, from the cores of statements

The layout of a text is known from its code and its folds (`reindent_congr`). So what a statement is printed as
depends on its core alone (`Plain.print_item`), if its parts are read alone as in their places and what stands behind
a class stands on one line.
-/

namespace CustomElement.Script

open List Text

variable {b : Bool} {ts : List Token} {p : Piece} {g x : String}

lemma ReadsAs.exists_tokens {es : List Form} (h : ReadsAs true true x.toList es) (he : ∀ e ∈ es, e.isTrivia = false) :
    ∃ ts, tokenize x = .ok ts ∧ charsOf ts = x.toList ∧ Proper (ts.map form) ∧ Edged ts ∧ inked ts = es := by
  obtain ⟨fs, hf, rfl⟩ := h
  obtain ⟨ts, ht, rfl⟩ := tokenize_eq_ok_iff.2 hf
  have hc := essences_code_iff.1 he
  exact ⟨ts, ht, by rw [← flatMap_form, hf.flatMap_text], hf.proper, hf.edged hc, (essences_eq_inked hc).symm⟩

lemma reindent_congr {a b : String} {es : List Form} (ha : ReadsAs true true a.toList es)
    (hb : ReadsAs true true b.toList es) (hes : ∀ e ∈ es, e.isTrivia = false) (he : EndsInk a.toList)
    (he' : EndsInk b.toList) (hf : folds a.toList = folds b.toList) (level : Nat) :
    reindent a level = reindent b level := by
  obtain ⟨ts, hts, hc, hp, hed, hco⟩ := ha.exists_tokens hes
  obtain ⟨us, hu, hc', hp', -, hco'⟩ := hb.exists_tokens hes
  have ht : ts.map tidy = us.map tidy := map_tidy_of_folds hp hp' hed (hco.trans hco'.symm)
      (getLast?_of_endsInk hp (hc ▸ he)) (getLast?_of_endsInk hp' (hc' ▸ he'))
      (by rw [hc, hc', hf])
  rw [reindent_of_tokenize hts, reindent_of_tokenize hu, ← gentle_tidy.layoutOf, ht, gentle_tidy.layoutOf]

lemma respaced_tidy (h : ∀ t ∈ ts, t.kind = .blank → IsGap t.text.toList) :
    Respaced (charsOf ts) (charsOf (ts.map tidy)) := by
  induction ts with
  | nil => exact .nil
  | cons t ts ih =>
    obtain ⟨ht, hts⟩ := forall_mem_cons.1 h
    rw [map_cons, charsOf_cons, charsOf_cons]
    by_cases hb : t.kind = .blank ∧ '\n' ∈ t.text.toList
    · obtain ⟨hbl, hm⟩ := hb
      rw [text_tidy_of_blank hbl]
      refine .gap (ht hbl) ?_ hm (crease_idem _) (ih hts)
      rw [crease, if_pos hm]
      split <;> simp
    · have hte : t.tidy.text = t.text := gentle_tidy.text t (by simpa [Token.hasNewline] using hb)
      rw [hte]
      exact (ih hts).append_left _

/-- Nodes in their place in a script without comments and byte order marks. -/
structure Plain (ns : List Node) : Prop where
  place : InPlace ns
  uncommented : Uncommented ns
  unmarked : '\ufeff' ∉ charsOf (tokensOf ns)

namespace Plain

variable {ns ms : List Node}

lemma fair (h : Plain ns) : Fair ns := h.place.fair h.uncommented

lemma left (h : Plain (ns ++ ms)) : Plain ns := by
  refine ⟨h.place.of_append_left, (Uncommented.append.1 h.uncommented).1, fun hm => h.unmarked ?_⟩
  rw [tokensOf_append, charsOf_append]
  exact mem_append_left _ hm

lemma right (h : Plain (ns ++ ms)) : Plain ms := by
  refine ⟨h.place.of_append_right, (Uncommented.append.1 h.uncommented).2, fun hm => h.unmarked ?_⟩
  rw [tokensOf_append, charsOf_append]
  exact mem_append_right _ hm

lemma inside {n : Node} {op : String} (h : Plain [n]) (hn : n.isGroup op) : Plain n.inside := by
  refine ⟨h.place.inside, (h.fair.inside hn).uncommented, fun hm => h.unmarked ?_⟩
  obtain ⟨o, inside, c, rfl, -⟩ := exists_group hn
  have hm : '\ufeff' ∈ charsOf (tokensOf inside) := hm
  simp [hm]

lemma splitStatements (h : Plain ns) (hp : p ∈ splitStatements b ns) : Plain p.nodes := by
  obtain ⟨pre, aft, hn⟩ := (scattered_splitStatements b ns).exists_of_mem (mem_map_of_mem hp)
  rw [hn] at h
  exact h.right.left

lemma cutMembers (h : Plain ns) {cut : MemberCut} (hc : cut ∈ cutMembers b ns) : Plain cut.nodes := by
  obtain ⟨pre, aft, rfl⟩ := exists_append_of_mem_cutMembers hc
  exact h.right.left

lemma unmarked_textOf (h : Plain ns) : '\ufeff' ∉ (textOf ns).toList := by
  rw [toList_textOf_eq_charsOf]
  exact h.unmarked

end Plain

lemma dropWhile_isBlank {cs : List Char} (h : '\ufeff' ∉ cs) : cs.dropWhile isBlank = cs.dropWhile isGap := by
  induction cs with
  | nil => rfl
  | cons c cs ih =>
    obtain ⟨hc, hcs⟩ := not_or.1 (mt mem_cons.2 h)
    have hs : isGap c = isBlank c := by simp [isGap, Ne.symm hc]
    rw [dropWhile_cons, dropWhile_cons, hs, ih hcs]

lemma trimEndList_eq {cs : List Char} (h : '\ufeff' ∉ cs) : trimEndList cs = cs.rdropWhile isGap := by
  rw [trimEndList, dropWhile_isBlank (by rwa [mem_reverse]), rdropWhile]

lemma toList_trim (h : '\ufeff' ∉ x.toList) : (trim x).toList = inner x.toList := by
  rw [trim, toList_ofList, trimList, trimStartList, dropWhile_isBlank h,
    trimEndList_eq fun hm => h ((dropWhile_sublist _).subset hm), inner]

lemma toList_trimEnd (h : '\ufeff' ∉ x.toList) (hs : StartsInk x.toList) : (trimEnd x).toList = inner x.toList := by
  rw [trimEnd, toList_ofList, trimEndList_eq h, inner]
  congr 1
  cases hcs : x.toList with
  | nil => rfl
  | cons c cs =>
    have hc : isGap c = false := by simpa [StartsInk, hcs] using hs
    rw [dropWhile_cons_of_neg (by simp [hc])]

lemma Fair.startsInk {ns : List Node} (h : Fair ns) (hh : ns.head?.all (fun n => !n.isBlank)) :
    StartsInk (textOf ns).toList := by
  cases ns with
  | nil => rfl
  | cons n ns =>
    have hn : n.isBlank = false := by simpa using hh
    have hf := h.proper.ink n.first.form (mem_map_of_mem (by simp [InPlace.first_mem n]))
      (InPlace.kind_first (h.balanced n mem_cons_self) hn)
    obtain ⟨r, hr⟩ := head?_eq_some_iff.1 n.head?_tokens
    obtain ⟨c, a, ha⟩ := exists_cons_of_ne_nil (show n.first.text.toList ≠ [] from hf.1)
    have hc : isGap c = false := by simpa [StartsInk, form, ha] using hf.2
    rw [toList_textOf_eq_charsOf, tokensOf_cons, hr]
    simp [StartsInk, ha, hc]

section Cores

variable {ns ms : List Node}

lemma Fair.folds_inner (h : Fair ns) : folds (inner (textOf ns).toList) = folds (charsOf (tokensOf (core ns))) := by
  obtain ⟨ms, hin, hc, hf, -⟩ := h.exists_inner
  rw [hin, hc, tokensOf_map, (respaced_tidy hf.isGap_of_blank).folds_eq]

lemma Fair.inkEdged_inner (h : Fair ns) (hne : core ns ≠ []) : InkEdged (inner (textOf ns).toList) := by
  obtain ⟨ms, hin, hc, -, he⟩ := h.exists_inner
  rw [hin]
  refine he fun hn => hne ?_
  rw [hc, hn, map_nil]

lemma Fair.inner_eq_nil (h : Fair ns) (hn : core ns = []) : inner (textOf ns).toList = [] := by
  obtain ⟨ms, hin, hc, -, -⟩ := h.exists_inner
  rw [hc, map_eq_nil_iff] at hn
  rw [hin, hn, tokensOf_nil]
  rfl

lemma Fair.inner_of_line (h : Fair ns) (hl : '\n' ∉ charsOf (tokensOf (core ns))) :
    inner (textOf ns).toList = charsOf (tokensOf (core ns)) := by
  obtain ⟨ms, hin, hc, -, -⟩ := h.exists_inner
  rw [hc, tokensOf_map] at hl ⊢
  rw [hin, charsOf_tidy_of_line (mt (newline_mem_tidy _).2 hl)]

lemma Fair.newline_mem_core (h : Fair ns) : '\n' ∈ charsOf (tokensOf (core ns)) ↔ '\n' ∈ inner (textOf ns).toList := by
  obtain ⟨ms, hin, hc, -, -⟩ := h.exists_inner
  rw [hc, tokensOf_map, newline_mem_tidy, hin]

def essencesOf (ns : List Node) : List Form := essences ((tokensOf ns).map form)

lemma Uncommented.essencesOf_eq (h : Uncommented ns) : essencesOf ns = codeForms (tokensOf (core ns)) := by
  rw [codeForms_core, codeForms_eq]
  refine (filter_eq_self.2 fun e he => ?_).symm
  rw [essences_code_iff.2 h e he]
  rfl

lemma essencesOf_of_core (hn : Uncommented ns) (hm : Uncommented ms) (hc : core ms = core ns) :
    essencesOf ms = essencesOf ns := by
  rw [hm.essencesOf_eq, hn.essencesOf_eq, hc]

lemma Plain.readsAs_inner (h : Plain ns) (he : misread (essencesOf ns) = false) :
    ReadsAs true true (inner (textOf ns).toList) (essencesOf ns) := by
  obtain ⟨g, g', hg, hg', ht⟩ := exists_inner (textOf ns).toList
  rw [← append_assoc] at ht
  obtain ⟨fr, sl, hr⟩ := h.place.readsAs ht hg hg'
  exact hr.alone he

lemma Fair.inner_cases (hns : Fair ns) (hm : Fair ms) (hc : core ms = core ns) :
    inner (textOf ns).toList = [] ∧ inner (textOf ms).toList = [] ∨
      InkEdged (inner (textOf ns).toList) ∧ InkEdged (inner (textOf ms).toList) ∧
        Alike (inner (textOf ms).toList) (inner (textOf ns).toList) := by
  by_cases hn : core ns = []
  · exact .inl ⟨hns.inner_eq_nil hn, hm.inner_eq_nil (hc.trans hn)⟩
  · have he := hns.inkEdged_inner hn
    have he' := hm.inkEdged_inner (hc ▸ hn)
    exact .inr ⟨he, he', he'.endsInk, he.endsInk, by rw [hns.folds_inner, hm.folds_inner, hc]⟩

lemma Plain.reindent_eq (hns : Plain ns) (hm : Plain ms) (hc : core ms = core ns)
    (he : misread (essencesOf ns) = false) {a b : String} (ha : a.toList = inner (textOf ns).toList)
    (hb : b.toList = inner (textOf ms).toList) (level : Nat) : reindent b level = reindent a level := by
  rcases hns.fair.inner_cases hm.fair hc with ⟨hn, hn'⟩ | ⟨-, -, hal⟩
  · have ht : b = a := by rw [← toList_inj, ha, hb, hn, hn']
    rw [ht]
  · have hr := hns.readsAs_inner he
    have hs := essencesOf_of_core hns.uncommented hm.uncommented hc
    have hr' := hm.readsAs_inner (hs ▸ he)
    rw [hs] at hr'
    rw [← ha] at hr hal
    rw [← hb] at hr' hal
    exact reindent_congr hr' hr (essences_code_iff.2 hns.uncommented) hal.left hal.right hal.folds level

end Cores

section

variable {l : Nat} {brace : Token} {seams : List (List Token)}
  (h : (opening g x l ts brace seams).Sound) (hb : brace.isPunct openBrace)

include h hb

lemma Stretch.Sound.ink_opening : Script.ink x.toList = (essences (ts.map form)).flatMap fun e => Script.ink e.text := by
  have hin := h.ink
  have hr : (opening g x l ts brace seams).reading =
      essences (ts.map form) ++ [⟨.punct, ['\x7b']⟩] := essences_snoc_bracket hb
  have ho : Script.ink " \x7b".toList = ['\x7b'] := by decide
  have hon : Script.ink ['\x7b'] = ['\x7b'] := by decide
  rw [hr, flatMap_append, opening, toList_append, ink_append, ink_reindent, ho, flatMap_singleton, hon] at hin
  exact append_cancel_right hin

lemma Stretch.Sound.readsAs_opening (hs : ∀ seam ∈ seams, endsWithLineComment seam = false)
    (he : misread (opening g x l ts brace seams).reading = false) :
    ReadsAs true true x.toList (essences (ts.map form)) := by
  have hsa : (opening g x l ts brace seams).Safe true true := by
    unfold Stretch.Safe
    rw [if_neg (by simp [he])]
    exact ⟨fun _ => rfl, hs⟩
  have hre := (h.reads true true).2 hsa
  have hr : (opening g x l ts brace seams).reading =
      essences (ts.map form) ++ [⟨.punct, ['\x7b']⟩] := essences_snoc_bracket hb
  rw [hr] at hre he
  have he := misread_of_append he
  exact ((readsAs_layout_iff he).1 ((readsAs_open_brace_iff he (h.ink_opening hb)).1 hre).1).2

end

lemma endsWithLineComment_drop (h : ∀ t ∈ ts, t.isComment = false) (p : Token → Bool) :
    endsWithLineComment (ts.reverse.dropWhile p).reverse = false := by
  rw [endsWithLineComment]
  cases hl : (ts.reverse.dropWhile p).reverse.getLast? with
  | none => rfl
  | some t =>
    have hm := mem_reverse.1 (mem_of_getLast? hl)
    have hc := h t (mem_reverse.1 ((dropWhile_sublist p).subset hm))
    simp only [Token.isComment, or_eq_false_iff] at hc
    simp [hc]

lemma Alike.close {a b : List Char} (h : a = [] ∧ b = [] ∨ Alike a b) {c : Char} (hc : isGap c = false) :
    Alike (a ++ [c]) (b ++ [c]) := by
  have ho : Alike [c] [c] := .refl (inkEdged_singleton hc).endsInk
  rcases h with ⟨rfl, rfl⟩ | h
  · exact ho
  · exact h.append ho

lemma Alike.head?_eq {a b : List Char} (h : Alike a b) (ha : InkEdged a) (hb : InkEdged b) : a.head? = b.head? := by
  obtain ⟨⟨c, as, rfl, hc⟩, -⟩ := ha
  obtain ⟨⟨d, bs, rfl, hd⟩, -⟩ := hb
  have hf := h.folds
  rw [Script.folds, Script.folds, foldsFrom, foldsFrom, if_neg (by simp [hc]), if_neg (by simp [hd])] at hf
  rw [head?_cons, head?_cons, (cons.inj hf).1]

lemma alike_signature {m m' : Method} (hh : m'.head.toList = [] ∧ m.head.toList = [] ∨ Alike m'.head.toList m.head.toList)
    (hp : m'.params.toList = [] ∧ m.params.toList = [] ∨ Alike m'.params.toList m.params.toList)
    (hb : m'.between.toList = [] ∧ m.between.toList = [] ∨
      InkEdged m'.between.toList ∧ InkEdged m.between.toList ∧ Alike m'.between.toList m.between.toList) :
    Alike m'.signature.toList m.signature.toList := by
  have ho := Alike.close hh (c := '(') (by decide)
  have hf := ho.append (Alike.close hp (c := ')') (by decide))
  have hem : ∀ {x : String}, x.isEmpty ↔ x.toList = [] := fun {x} => by
    rw [String.isEmpty_iff, ← toList_inj]
    rfl
  have hs : ∀ m : Method, m.signature.toList = ((m.head.toList ++ ['(']) ++ (m.params.toList ++ [')'])) ++
      (if m.between.isEmpty then "" else if m.between.toList.head? == some ':' then m.between
        else " " ++ m.between).toList := by
    intro m
    rw [m.toList_signature]
    simp
  rw [hs, hs]
  rcases hb with ⟨hn', hn⟩ | ⟨he', he, ha⟩
  · rw [if_pos (hem.2 hn'), if_pos (hem.2 hn)]
    simpa using hf
  · rw [if_neg (mt hem.1 he'.ne_nil), if_neg (mt hem.1 he.ne_nil), ha.head?_eq he' he]
    split
    · exact hf.append ha
    · have hsp : IsGap [' '] := by simp [IsGap]; decide
      rw [toList_append, toList_append]
      exact hf.append (Alike.behind hsp he' he ha.folds)

structure MethodCut.Plain (c : MethodCut) : Prop where
  nodes : Script.Plain c.nodes
  params : c.params.isGroup "(" = true
  body : c.body.isGroup openBrace = true

section Methods

variable {c c' : MethodCut}

section

variable (h : c.Plain)

include h

lemma MethodCut.Plain.parts :
    Script.Plain c.head ∧ Script.Plain c.params.inside ∧ Script.Plain c.between ∧ Script.Plain c.body.inside := by
  have hn : Script.Plain (c.head ++ ([c.params] ++ (c.between ++ [c.body]))) := h.nodes
  exact ⟨hn.left, hn.right.left.inside h.params, hn.right.right.left, hn.right.right.right.inside h.body⟩

lemma MethodCut.Plain.isComment_signature : ∀ t ∈ c.signature, t.isComment = false := by
  intro t ht
  refine h.nodes.uncommented t ?_
  have hn : tokensOf c.nodes = c.signature ++ c.body.tokens := by
    simp [MethodCut.nodes, MethodCut.signature]
  rw [hn]
  exact mem_append_left _ ht

lemma MethodCut.Plain.isPunct_first : c.body.first.isPunct openBrace := by
  obtain ⟨o, ins, e, hb, ho⟩ := exists_group h.body
  rw [hb]
  exact ho

lemma MethodCut.Plain.readsAs_signature (he : misread (essences (c.signature.map form) ++ [⟨.punct, ['\x7b']⟩]) = false) :
    ReadsAs true true c.method.signature.toList (essences (c.signature.map form)) := by
  obtain ⟨hh, hin, hb, -⟩ := h.parts
  have hn : c.nodes = (c.head ++ c.params :: c.between) ++ [c.body] := by simp [MethodCut.nodes]
  have hp := h.nodes.place
  rw [hn] at hp
  have hso := sound_signature hp.of_append_left h.params h.isPunct_first (show IsGap "".toList by simp [IsGap])
  refine hso.readsAs_opening h.isPunct_first (fun seam hs => ?_) ?_
  · simp only [MethodCut.seams, mem_cons, not_mem_nil, or_false] at hs
    rcases hs with rfl | rfl | rfl
    · exact endsWithLineComment_drop hh.uncommented _
    · exact endsWithLineComment_drop hin.uncommented _
    · exact endsWithLineComment_drop hb.uncommented _
  · rw [Stretch.reading, opening, essences_snoc_bracket h.isPunct_first]
    exact he

lemma MethodCut.Plain.essences_signature :
    essences (c.signature.map form) = essencesOf c.head ++ ⟨.punct, ['(']⟩ :: (essencesOf c.params.inside ++
      ⟨.punct, [')']⟩ :: essencesOf c.between) := by
  have hp : InPlace (c.head ++ c.params :: (c.between ++ [c.body])) := h.nodes.place
  obtain ⟨hf, hl, -⟩ := hp.of_append_right.readsAs_group h.params
  exact MethodCut.essences_signature hf hl h.params

lemma MethodCut.Plain.essences_of_core (h' : c'.Plain) (hc : c'.core = c.core) :
    essences (c'.signature.map form) = essences (c.signature.map form) := by
  obtain ⟨hh, hin, hb, -⟩ := h.parts
  obtain ⟨hh', hin', hb', -⟩ := h'.parts
  rw [h.essences_signature, h'.essences_signature,
    essencesOf_of_core hh.uncommented hh'.uncommented (congrArg MethodCore.head hc),
    essencesOf_of_core hin.uncommented hin'.uncommented (congrArg MethodCore.params hc),
    essencesOf_of_core hb.uncommented hb'.uncommented (congrArg MethodCore.between hc)]

lemma MethodCut.Plain.reindent_signature (h' : c'.Plain) (hc : c'.core = c.core)
    (he : misread (essences (c.signature.map form) ++ [⟨.punct, ['\x7b']⟩]) = false) (level : Nat) :
    reindent c'.method.signature level = reindent c.method.signature level := by
  obtain ⟨hh, hin, hb, -⟩ := h.parts
  obtain ⟨hh', hin', hb', -⟩ := h'.parts
  have hs := h.essences_of_core h' hc
  have hr' := h'.readsAs_signature (hs ▸ he)
  rw [hs] at hr'
  have ha : Alike c'.method.signature.toList c.method.signature.toList := by
    refine alike_signature ?_ ?_ ?_
    · rw [show c.method.head = trim (textOf c.head) from rfl, show c'.method.head = trim (textOf c'.head) from rfl,
        toList_trim hh.unmarked_textOf, toList_trim hh'.unmarked_textOf]
      exact (hh.fair.inner_cases hh'.fair (congrArg MethodCore.head hc)).imp And.symm fun h => h.2.2
    · rw [show c.method.params = trim (textOf c.params.inside) from rfl,
        show c'.method.params = trim (textOf c'.params.inside) from rfl, toList_trim hin.unmarked_textOf,
        toList_trim hin'.unmarked_textOf]
      exact (hin.fair.inner_cases hin'.fair (congrArg MethodCore.params hc)).imp And.symm fun h => h.2.2
    · rw [show c.method.between = trim (textOf c.between) from rfl,
        show c'.method.between = trim (textOf c'.between) from rfl, toList_trim hb.unmarked_textOf,
        toList_trim hb'.unmarked_textOf]
      exact (hb.fair.inner_cases hb'.fair (congrArg MethodCore.between hc)).imp And.symm
        fun h => ⟨h.2.1, h.1, h.2.2⟩
  exact reindent_congr hr' (h.readsAs_signature he) (essences_code_iff.2 h.isComment_signature) ha.left ha.right
    ha.folds level

end

end Methods

lemma map_eq_of_keys {α β γ : Type*} {key : α → β} {value : α → γ} {as bs : List α} (h : bs.map key = as.map key)
    (hk : ∀ a ∈ as, ∀ b ∈ bs, key b = key a → value b = value a) : bs.map value = as.map value := by
  induction as generalizing bs with
  | nil => rw [map_eq_nil_iff.1 h, map_nil]
  | cons a as ih =>
    obtain ⟨b, bs, rfl, hb, hbs⟩ := map_eq_cons_iff.1 h
    rw [map_cons, map_cons, hk a mem_cons_self b mem_cons_self hb,
      ih hbs fun a ha b hb => hk a (mem_cons_of_mem _ ha) b (mem_cons_of_mem _ hb)]

lemma eq_of_map_fst_snd {α β : Type*} {as bs : List (α × β)} (hf : bs.map Prod.fst = as.map Prod.fst)
    (hs : bs.map Prod.snd = as.map Prod.snd) : bs = as := by
  rw [← zip_unzip as, ← zip_unzip bs, unzip_eq_map, unzip_eq_map, hf, hs]

lemma printEntries_congr {es es' : List (Bool × String)} (ht : es'.map Prod.snd = es.map Prod.snd)
    (hb : es'.tail.map Prod.fst = es.tail.map Prod.fst) : printEntries es' = printEntries es := by
  cases es with
  | nil => rw [map_eq_nil_iff.1 ht]
  | cons e es =>
    obtain ⟨e', es', rfl, he, hes⟩ := map_eq_cons_iff.1 ht
    obtain rfl : es' = es := eq_of_map_fst_snd hb hes
    rw [← toList_inj, printEntries_cons, printEntries_cons, he]

section Pieces

variable {ns ms : List Node}

lemma Fair.inkEdged_piece (h : Fair ns) (hp : p ∈ Script.splitStatements b ns) : InkEdged (textOf p.nodes).toList := by
  obtain ⟨xs, tl, rfl, hxs, ht, -⟩ := h.exists_beats
  rw [splitStatements_nodesOf (fun x hx => (hxs x hx).valid) ht] at hp
  obtain ⟨c, hc, rfl⟩ := mem_map.1 hp
  rw [toList_textOf_eq_charsOf]
  exact (neat_chunks hxs c hc).inkEdged

lemma Plain.reindent_piece (hn : Plain ns) (hm : Plain ms) {q : Piece} (hp : p ∈ Script.splitStatements false ns)
    (hq : q ∈ Script.splitStatements false ms) (hc : core q.nodes = core p.nodes)
    (he : misread (essencesOf p.nodes) = false) (level : Nat) :
    reindent (textOf q.nodes) level = reindent (textOf p.nodes) level :=
  (hn.splitStatements hp).reindent_eq (hm.splitStatements hq) hc he
    (inner_of_inkEdged (hn.fair.inkEdged_piece hp)).symm (inner_of_inkEdged (hm.fair.inkEdged_piece hq)).symm level

lemma Plain.printBlock_eq (hn : Plain ns) (hm : Plain ms)
    (hc : ((Script.splitStatements false ms).map fun p => core p.nodes) =
      (Script.splitStatements false ns).map fun p => core p.nodes)
    (hs : (Script.splitStatements false ms).tail.map Piece.blankBefore =
      (Script.splitStatements false ns).tail.map Piece.blankBefore)
    (hes : ∀ p ∈ Script.splitStatements false ns, misread (essencesOf p.nodes) = false) (level : Nat) :
    printBlock ((Script.splitStatements false ms).map Piece.statement) level =
      printBlock ((Script.splitStatements false ns).map Piece.statement) level := by
  have hl : ((Script.splitStatements false ms).map fun p => reindent (textOf p.nodes) (level + 1)) =
      (Script.splitStatements false ns).map fun p => reindent (textOf p.nodes) (level + 1) :=
    map_eq_of_keys hc fun p hp q hq hsa => hn.reindent_piece hm hp hq hsa (hes p hp) (level + 1)
  have hem : (Script.splitStatements false ms).isEmpty = (Script.splitStatements false ns).isEmpty := by
    rw [← isEmpty_map, hc, isEmpty_map]
  have he : printEntries (((Script.splitStatements false ms).map Piece.statement).map fun s =>
      (s.blankBefore, reindent s.text (level + 1))) =
      printEntries (((Script.splitStatements false ns).map Piece.statement).map fun s =>
        (s.blankBefore, reindent s.text (level + 1))) := by
    refine printEntries_congr ?_ ?_
    · rw [map_map, map_map, map_map, map_map]
      exact hl
    · rw [← map_tail, ← map_tail, ← map_tail, ← map_tail, map_map, map_map, map_map, map_map]
      exact hs
  rw [printBlock, printBlock, he, isEmpty_map, isEmpty_map, hem]

end Pieces

lemma mem_stack {α : Type*} (fst : String) (bl : α → Bool) (entry : String → α → List Stretch) {as : List α} {a : α}
    (ha : a ∈ as) : ∃ g, ∀ u ∈ entry g a, u ∈ stack fst bl entry as := by
  cases as with
  | nil => cases ha
  | cons b as =>
    rcases mem_cons.1 ha with rfl | ha
    · exact ⟨fst, fun u hu => mem_append_left _ hu⟩
    · exact ⟨_, fun u hu => mem_append_right _ (mem_flatMap.2 ⟨a, ha, hu⟩)⟩

/-- No stretch is read in another way alone than in its place. -/
def Alone (us : List Stretch) : Prop := ∀ u ∈ us, misread u.reading = false

lemma MethodCut.Plain.print_eq {c c' : MethodCut} (h : c.Plain) (h' : c'.Plain) (hc : c'.core = c.core)
    (ha : Alone (c.stretches g)) (level : Nat) : c'.method.print level = c.method.print level := by
  have hs : misread (essences (c.signature.map form) ++ [⟨.punct, ['\x7b']⟩]) = false := by
    have ho := ha _ mem_cons_self
    rwa [Stretch.reading, opening, essences_snoc_bracket h.isPunct_first] at ho
  have hb : ∀ p ∈ splitStatements false c.body.inside, misread (essencesOf p.nodes) = false := by
    intro p hp
    obtain ⟨g, hg⟩ := mem_stack "\n" Piece.blankBefore (Piece.laid 2) hp
    exact ha _ (mem_cons_of_mem _ (mem_append_left _ (hg _ (mem_singleton.2 rfl))))
  rw [Method.print, Method.print, h.reindent_signature h' hc hs]
  congr 1
  exact h.parts.2.2.2.printBlock_eq h'.parts.2.2.2 (congrArg MethodCore.body hc) (congrArg MethodCore.spaced hc) hb
    level

lemma Fair.inkEdged_member {c : ClassCut} (h : Fair c.body.inside) {b : Bool} {ns : List Node}
    (hme : MemberCut.other b ns ∈ c.members) : InkEdged (textOf ns).toList := by
  obtain ⟨xs, tl, hin, hxs, ht, -⟩ := h.exists_beats
  rw [members_of_inside (fun x hx => (hxs x hx).valid) ht hin] at hme
  obtain ⟨k, hk, hc⟩ := mem_map.1 hme
  have hn := neat_memberChunks hxs k hk
  rcases (exists_shape k hk).1.memberCut_cases fun x hx => (hn.beats x hx).valid with ⟨m, -, -, hm⟩ | ⟨-, ho⟩
  · rw [hm] at hc
    cases hc
  · rw [ho] at hc
    obtain ⟨-, rfl⟩ := MemberCut.other.inj hc
    rw [toList_textOf_eq_charsOf]
    exact hn.inkEdged

section Classes

variable {c c' : ClassCut}

lemma MemberCut.print_of_core (h : Plain c.body.inside) (h' : Plain c'.body.inside) {cut cut' : MemberCut}
    (hcu : cut ∈ c.members) (hcu' : cut' ∈ c'.members) (hc : cut'.core = cut.core) {gap : String}
    (ha : Alone (cut.stretches gap)) : cut'.print = cut.print := by
  obtain ⟨hmm, hme⟩ := mem_cutMembers_of_mem hcu
  obtain ⟨hmm', hme'⟩ := mem_cutMembers_of_mem hcu'
  have hs := shaped_cutMembers _ _ _ hmm
  have hs' := shaped_cutMembers _ _ _ hmm'
  have hp := h.cutMembers hmm
  have hp' := h'.cutMembers hmm'
  cases cut with
  | gap node => cases hme
  | lone semicolon => cases hme
  | other b ns =>
    cases cut' with
    | gap node => cases hme'
    | lone semicolon => cases hme'
    | method b' m post => cases hc
    | other b' ms =>
      exact hp.reindent_eq hp' (MemberCore.other.inj hc) (ha _ (mem_singleton.2 rfl))
        (inner_of_inkEdged (h.fair.inkEdged_member hcu)).symm (inner_of_inkEdged (h'.fair.inkEdged_member hcu')).symm 1
  | method b m post =>
    cases cut' with
    | gap node => cases hme'
    | lone semicolon => cases hme'
    | other b' ms => cases hc
    | method b' m' post' =>
      have hm : m.Plain := ⟨hp.left, hs.2.1, hs.2.2.1⟩
      have hm' : m'.Plain := ⟨hp'.left, hs'.2.1, hs'.2.2.1⟩
      exact hm.print_eq hm' (MemberCore.method.inj hc) ha 1

end Classes

section Items

variable {ns ms : List Node}

section

variable (h : Plain ns) {p : Piece} (hp : p ∈ Script.splitStatements false ns) {c : ClassCut} (hcu : p.classCut? = some c)

include h hp hcu

lemma Plain.leading_eq_nil : c.leading = [] := by
  obtain ⟨hno, hl, -, -⟩ := Piece.classCut?_eq_some hcu
  have hh := head?_splitStatements false ns p hp
  have hco := (h.splitStatements hp).uncommented
  cases hc : c.leading with
  | nil => rfl
  | cons n r =>
    rw [hno, hc] at hh hco
    have hn := hl n (by simp [hc])
    cases n with
    | group o ins cl => cases hn
    | leaf t =>
      have hb : (t.kind == .blank) = false := by simpa [Node.isBlank, isLeaf] using hh
      have hnt := hco t (by simp)
      simp only [Token.isComment, or_eq_false_iff] at hnt
      simp [Node.isTrivia, Token.isTrivia, hb, hnt] at hn

lemma Plain.print_class : p.item.print = reindent (trimEnd (textOf c.header)) 0 ++ (if c.members.isEmpty then " \x7b\x7d"
      else " \x7b\n" ++ printEntries (c.members.map fun cut => (cut.blankBefore, cut.print)) ++ closeBrace) ++ c.tail := by
  have hs : p.stretches "" = c.declaration "" := by
    have he : (trim (textOf [])).isEmpty := by
      rw [textOf, tokensOf_nil]
      decide
    simp only [Piece.stretches, hcu, ClassCut.stretches, h.leading_eq_nil hp hcu, he, if_true]
  have hc := p.chars_stretches ""
  rw [hs, c.chars_declaration] at hc
  exact (toList_inj.1 hc).symm

end

lemma Plain.class_parts (h : Plain ns) (hp : p ∈ Script.splitStatements false ns) {c : ClassCut}
    (hcu : p.classCut? = some c) : Plain c.header ∧ StartsInk (textOf c.header).toList ∧ Plain c.body.inside ∧
      Plain c.trailing ∧ c.body.first.isPunct openBrace := by
  obtain ⟨hno, -, hh, hb⟩ := Piece.classCut?_eq_some hcu
  have hs : Plain (c.leading ++ (c.header ++ ([c.body] ++ c.trailing))) := hno ▸ h.splitStatements hp
  obtain ⟨o, ins, e, hg, ho⟩ := exists_group hb
  refine ⟨hs.right.left, hs.right.left.fair.startsInk ?_, hs.right.right.left.inside hb,
    hs.right.right.right, by rw [hg]; exact ho⟩
  obtain ⟨n, hn, hc⟩ := (Option.any_eq_true _ _).1 hh
  rw [hn, all_some]
  cases hbl : n.isBlank with
  | false => rfl
  | true => simp [isTrivia_of_isBlank hbl] at hc

lemma tail_of_core {c c' : ClassCut} (h : Plain c.trailing) (h' : Plain c'.trailing)
    (hc : core c'.trailing = core c.trailing) (hl : '\n' ∉ (trim (textOf c.trailing)).toList) : c'.tail = c.tail := by
  have ht : trim (textOf c'.trailing) = trim (textOf c.trailing) := by
    rw [toList_trim h.unmarked_textOf, ← h.fair.newline_mem_core] at hl
    rw [← toList_inj, toList_trim h.unmarked_textOf, toList_trim h'.unmarked_textOf, h.fair.inner_of_line hl,
      h'.fair.inner_of_line (hc ▸ hl), hc]
  rw [ClassCut.tail, ClassCut.tail, ht]

lemma Plain.print_item (hn : Plain ns) (hm : Plain ms) {q : Piece} (hp : p ∈ Script.splitStatements false ns)
    (hq : q ∈ Script.splitStatements false ms) (hco : q.core = p.core) (ha : Alone (p.stretches g))
    (hli : ∀ c ∈ p.classCut?, '\n' ∉ (trim (textOf c.trailing)).toList) : q.item.print = p.item.print := by
  cases hc : p.classCut? with
  | none =>
    cases hc' : q.classCut? with
    | some c' => simp [Piece.core, hc, hc'] at hco
    | none =>
      simp only [Piece.core, hc, hc', PieceCore.statement.injEq] at hco
      rw [Piece.item_of_classCut_eq_none hc, Piece.item_of_classCut_eq_none hc']
      refine hn.reindent_piece hm hp hq hco ?_ 0
      refine ha (Script.laid g (textOf p.nodes) 0 p.nodes) ?_
      simp [Piece.stretches, hc, Piece.laid]
  | some c =>
    cases hc' : q.classCut? with
    | none => simp [Piece.core, hc, hc'] at hco
    | some c' =>
      simp only [Piece.core, hc, hc', PieceCore.classDecl.injEq] at hco
      obtain ⟨hh, hs, hb, ht, hbr⟩ := hn.class_parts hp hc
      obtain ⟨hh', hs', hb', ht', -⟩ := hm.class_parts hq hc'
      have hd : ∃ g, Alone (c.declaration g) := by
        refine ⟨g, fun u hu => ha u ?_⟩
        have he : (trim (textOf [])).isEmpty := by
          rw [textOf, tokensOf_nil]
          decide
        simpa only [Piece.stretches, hc, ClassCut.stretches, hn.leading_eq_nil hp hc, he, if_true] using hu
      obtain ⟨g, hd⟩ := hd
      have hl : reindent (trimEnd (textOf c'.header)) 0 = reindent (trimEnd (textOf c.header)) 0 := by
        refine hh.reindent_eq hh' (congrArg ClassCore.header hco) ?_
          (toList_trimEnd hh.unmarked_textOf hs) (toList_trimEnd hh'.unmarked_textOf hs') 0
        have ho := hd _ mem_cons_self
        rw [Stretch.reading, opening, essences_snoc_bracket hbr] at ho
        exact misread_of_append ho
      have hpr : c'.members.map MemberCut.print = c.members.map MemberCut.print := by
        refine map_eq_of_keys (congrArg ClassCore.members hco) fun cut hc cut' hc' hsa => ?_
        obtain ⟨g, hg⟩ := mem_stack "\n" MemberCut.blankBefore MemberCut.stretches hc
        exact MemberCut.print_of_core hb hb' hc hc' hsa fun u hu =>
          hd u (mem_cons_of_mem _ (mem_append_left _ (hg u hu)))
      have hen : printEntries (c'.members.map fun cut => (cut.blankBefore, cut.print)) =
          printEntries (c.members.map fun cut => (cut.blankBefore, cut.print)) := by
        refine printEntries_congr ?_ ?_
        · rw [map_map, map_map]
          exact hpr
        · rw [← map_tail, ← map_tail, map_map, map_map]
          exact congrArg ClassCore.spaced hco
      have he : c'.members.isEmpty = c.members.isEmpty := by
        rw [← isEmpty_map, hpr, isEmpty_map]
      rw [hn.print_class hp hc, hm.print_class hq hc', hl, hen, he,
        tail_of_core ht ht' (congrArg ClassCore.trailing hco) (hli c hc)]

lemma Plain.print_of_cores (hn : Plain ns) (hm : Plain ms)
    (hc : (Script.splitStatements false ms).map Piece.core = (Script.splitStatements false ns).map Piece.core)
    (hb : (Script.splitStatements false ms).tail.map Piece.blankBefore =
      (Script.splitStatements false ns).tail.map Piece.blankBefore) (ha : Alone (stretches ns))
    (hl : ∀ p ∈ Script.splitStatements false ns, ∀ c ∈ p.classCut?, '\n' ∉ (trim (textOf c.trailing)).toList) :
    Module.print ⟨(Script.splitStatements false ms).map Piece.item⟩ =
      Module.print ⟨(Script.splitStatements false ns).map Piece.item⟩ := by
  have hpr : ((Script.splitStatements false ms).map fun p => p.item.print) =
      (Script.splitStatements false ns).map fun p => p.item.print := by
    refine map_eq_of_keys hc fun p hp q hq hco => ?_
    obtain ⟨g, hg⟩ := mem_stack "" Piece.blankBefore Piece.stretches hp
    exact hn.print_item hm hp hq hco (fun u hu => ha u (hg u hu)) (hl p hp)
  cases hps : Script.splitStatements false ns with
  | nil =>
    rw [hps, map_nil, map_eq_nil_iff] at hpr
    rw [hpr]
  | cons p ps =>
    rw [hps] at hpr hb
    obtain ⟨q, qs, hqs, hpq, hr⟩ := map_eq_cons_iff.1 hpr
    rw [hqs] at hb ⊢
    have hpa : (qs.map fun p => (p.blankBefore, p.item.print)) = ps.map fun p => (p.blankBefore, p.item.print) := by
      refine eq_of_map_fst_snd ?_ ?_
      · rw [map_map, map_map]
        exact hb
      · rw [map_map, map_map]
        exact hr
    rw [print_cons, print_cons, hpa, hpq]

end Items

end CustomElement.Script
